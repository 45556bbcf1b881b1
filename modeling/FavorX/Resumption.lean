import FavorX.RouteTable

/-!
A restart of the route table. Deleting a path removes its routes from the table
only, and long paths are not read again. A resumed table answers as the running one
in every run whose operations fit (`resumed_same`).
-/
namespace FavorX.Resumption
open FiniteMaps Shed RouteTable

def running (t : Table) (h : Hash) : List TargetRoute := (t.routes.lookup h).getD []

def stored (t : Table) (h : Hash) : List TargetRoute := (t.store.routes.lookup h.val).getD []

variable {h : Hash}

theorem getTargetKey_eq {a : Address} (whole : a.length = 32) : getTargetKey a = h ↔ a = h.val := by
  constructor
  · intro same
    rw [← same]
    exact (val_bytesToHash whole).symm
  · intro same
    rw [same]
    exact bytesToHash_val h

variable {t t' : Table}

section
variable (cfg : Config)

theorem addRoute_running (route : TargetRoute) (t : Table) (target : Address) :
    t.addRoute cfg route target =
      if existRoute route (running t (getTargetKey target)) then t
      else t.putRoutes target (route :: keepRoutes cfg (running t (getTargetKey target))) := addRoute_eq cfg route t

theorem mem_keepRoutes {r : TargetRoute} {old : List TargetRoute} (kept : r ∈ keepRoutes cfg old) : r ∈ old := by
  unfold keepRoutes at kept
  split at kept
  · exact List.mem_of_mem_take kept
  · split at kept
    · exact List.mem_of_mem_take kept
    · exact kept

theorem running_putRoutes {a : Address} (whole : a.length = 32) (routes : List TargetRoute) (h : Hash) :
    running (t.putRoutes a routes) h = if a = h.val then routes else running t h := by
  simp only [running,Table.putRoutes,lookup_insert_eq]
  by_cases same : a = h.val
  · rw [if_pos same,if_pos ((getTargetKey_eq whole).mpr same).symm,Option.getD_some]
  · rw [if_neg same,if_neg (fun eq => same ((getTargetKey_eq whole).mp eq.symm))]

theorem stored_putRoutes (t : Table) (a : Address) (routes : List TargetRoute) (h : Hash) :
    stored (t.putRoutes a routes) h = if a = h.val then routes else stored t h := by
  simp only [stored,Table.putRoutes,lookup_insert_eq]
  by_cases same : a = h.val
  · rw [if_pos same,if_pos same.symm,Option.getD_some]
  · rw [if_neg same,if_neg (fun eq => same eq.symm)]

/-- The routes to a target in the table are those of the store over the paths
    that are present, and they offer the same next hops. -/
structure Aligned (present : Hash → Bool) (t : Table) (h : Hash) : Prop where
  filtered : running t h = (stored t h).filter (fun r => present r.pathKey)
  offered : ∀ r ∈ stored t h, ∃ r' ∈ running t h, r'.neighbor = r.neighbor

theorem Aligned.stored_of_running {present : Hash → Bool} (aligned : Aligned present t h) {r : TargetRoute}
    (member : r ∈ running t h) : r ∈ stored t h ∧ present r.pathKey := by
  rw [aligned.filtered] at member
  exact List.mem_filter.mp member

/-- One more path is present that no stored route of the target names, or that was present before. -/
theorem Aligned.more {old new : Hash → Bool} (aligned : Aligned old t h)
    (same : ∀ r ∈ stored t h, new r.pathKey = old r.pathKey) : Aligned new t h where
  filtered := aligned.filtered.trans (List.filter_congr (fun r member => (same r member).symm))
  offered := aligned.offered

theorem aligned_of_same {present : Hash → Bool} (same : running t h = stored t h)
    (all : ∀ r ∈ stored t h, present r.pathKey) : Aligned present t h where
  filtered := by rw [same,List.filter_eq_self.mpr all]
  offered := fun r member => ⟨r,same ▸ member,rfl⟩

theorem Aligned.congr {present : Hash → Bool} (aligned : Aligned present t h) (table : running t' h = running t h)
    (store : stored t' h = stored t h) : Aligned present t' h where
  filtered := by rw [table,store,aligned.filtered]
  offered := by rw [table,store]; exact aligned.offered

section
variable {route : TargetRoute} {t : Table} {a : Address} {h : Hash}

variable {old new : Hash → Bool}

theorem addRoute_aligned (grown : ∀ k, new k = (old k || k == route.pathKey))
    (before : Aligned old t h ∨ Aligned new t h) : Aligned new (t.addRoute cfg route h.val) h := by
  have key : getTargetKey h.val = h := bytesToHash_val h
  have inside : ∀ r ∈ running t h, new r.pathKey := by
    intro r member
    rcases before with aligned | aligned
    · simp [grown,(aligned.stored_of_running member).2]
    · exact (aligned.stored_of_running member).2
  rw [addRoute_running,key]
  split
  · next exist =>
    rcases before with aligned | aligned
    · -- the route is there, so that its path was present before
      simp only [existRoute,List.any_eq_true,Bool.and_eq_true,beq_iff_eq] at exist
      obtain ⟨r,member,same,_⟩ := exist
      have was : old route.pathKey := same ▸ (aligned.stored_of_running member).2
      refine aligned.more (fun r _ => ?_)
      rw [grown]
      by_cases eq : r.pathKey = route.pathKey
      · simp [eq,was]
      · simp [eq]
    · exact aligned
  apply aligned_of_same
  · rw [running_putRoutes h.property,stored_putRoutes,if_pos rfl,if_pos rfl]
  intro r member
  rw [stored_putRoutes,if_pos rfl,List.mem_cons] at member
  rcases member with rfl | kept
  · simp [grown]
  · exact inside r (mem_keepRoutes cfg kept)

theorem stored_addRoute (within : ∀ r ∈ running t h, r ∈ stored t h) {r : TargetRoute}
    (member : r ∈ stored (t.addRoute cfg route a) h) : r ∈ stored t h ∨ r.pathKey = route.pathKey ∧ a = h.val := by
  rw [addRoute_running] at member
  split at member
  · exact .inl member
  rw [stored_putRoutes] at member
  split at member
  · next same =>
    subst same
    rcases List.mem_cons.mp member with rfl | kept
    · exact .inr ⟨rfl,rfl⟩
    · have old := mem_keepRoutes cfg kept
      rw [show getTargetKey h.val = h from bytesToHash_val h] at old
      exact .inl (within r old)
  · exact .inl member

/-- The targets in the store have addresses of full length. -/
def Whole (t : Table) : Prop := ∀ a, t.store.routes.lookup a ≠ none → a.length = 32

theorem whole_addRoute (full : Whole t) (whole : a.length = 32) : Whole (t.addRoute cfg route a) := by
  rw [addRoute_running]
  split
  · exact full
  intro b held
  simp only [Table.putRoutes,lookup_insert_eq] at held
  split at held
  · next same => exact same ▸ whole
  · exact full b held

theorem addRoutes {targets : List Address} (whole : ∀ a ∈ targets, a.length = 32) (full : Whole t)
    (grown : ∀ k, new k = (old k || k == route.pathKey))
    (before : ∀ h, Aligned new t h ∨ h.val ∈ targets ∧ Aligned old t h) :
    (∀ h, Aligned new (targets.foldl (Table.addRoute cfg route) t) h) ∧
      Whole (targets.foldl (Table.addRoute cfg route) t) ∧
      ∀ h, ∀ r ∈ stored (targets.foldl (Table.addRoute cfg route) t) h,
        r ∈ stored t h ∨ r.pathKey = route.pathKey ∧ h.val ∈ targets := by
  induction targets generalizing t with
  | nil =>
    refine ⟨fun h => ?_,full,fun h r member => .inl member⟩
    rcases before h with aligned | ⟨member,_⟩
    · exact aligned
    · cases member
  | cons a rest ih =>
    have wholeA := whole a (List.mem_cons_self ..)
    have within : ∀ h, ∀ r ∈ running t h, r ∈ stored t h := by
      intro h r member
      rcases before h with aligned | ⟨_,aligned⟩
      · exact (aligned.stored_of_running member).1
      · exact (aligned.stored_of_running member).1
    have after : ∀ h, Aligned new (t.addRoute cfg route a) h ∨ h.val ∈ rest ∧ Aligned old (t.addRoute cfg route a) h := by
      intro h
      by_cases same : a = h.val
      · subst same
        exact .inl (addRoute_aligned cfg grown ((before h).symm.imp_left And.right))
      obtain ⟨table,store⟩ : running (t.addRoute cfg route a) h = running t h ∧
          stored (t.addRoute cfg route a) h = stored t h := by
        rw [addRoute_running]
        split
        · exact ⟨rfl,rfl⟩
        · rw [running_putRoutes wholeA,stored_putRoutes,if_neg same,if_neg same]
          exact ⟨rfl,rfl⟩
      rcases before h with aligned | ⟨member,aligned⟩
      · exact .inl (aligned.congr table store)
      · rcases List.mem_cons.mp member with eq | later
        · exact absurd eq.symm same
        · exact .inr ⟨later,aligned.congr table store⟩
    obtain ⟨aligned,full',added⟩ :=
      ih (fun b member => whole b (List.mem_cons_of_mem _ member)) (whole_addRoute cfg full wholeA) after
    refine ⟨aligned,full',fun h r member => ?_⟩
    rcases added h r member with earlier | ⟨same,later⟩
    · rcases stored_addRoute cfg (within h) earlier with first | ⟨same,here⟩
      · exact .inl first
      · exact .inr ⟨same,here ▸ List.mem_cons_self ..⟩
    · exact .inr ⟨same,List.mem_cons_of_mem _ later⟩

end

def present (t : Table) (k : Hash) : Bool := (t.paths.lookup k).isSome

/-- What ties a table to its store. -/
structure Coupled (t : Table) : Prop where
  same : t.store.paths = t.paths
  short : ∀ k p, t.paths.lookup k = some p → p.items.length ≤ cfg.maxTTL
  named : ∀ k p, t.paths.lookup k = some p → generatePathItems cfg p.items = k
  owned : ∀ k p, t.paths.lookup k = some p → ∀ h, ∀ r ∈ stored t h, r.pathKey = k → h.val ∈ iterateTarget p.items
  whole : Whole t
  aligned : ∀ h, Aligned (present t) t h

theorem coupled_new {self : Address} : Coupled cfg (newRouteTable self {}) where
  same := rfl
  short := nofun
  named := nofun
  owned := nofun
  whole := nofun
  aligned := fun _ => ⟨rfl,nofun⟩

/-- A path that can be saved so that it is read again: it is short enough, its
    targets have addresses of full length, and the store names its hash for none
    but its targets. -/
def Saves (t : Table) (items : List Address) : Prop :=
  items.length ≤ cfg.maxTTL ∧ (∀ a ∈ iterateTarget items, a.length = 32) ∧
    ∀ h, ∀ r ∈ stored t h, r.pathKey = generatePathItems cfg items → h.val ∈ iterateTarget items

theorem coupled_insert {p : Path} (coupled : Coupled cfg t) (saves : Saves cfg t p.items)
    (paths : t'.paths = t.paths.insert (generatePathItems cfg p.items) p)
    (storePaths : t'.store.paths = t.store.paths.insert (generatePathItems cfg p.items) p)
    (routes : ∀ h, ∀ r ∈ stored t' h, r ∈ stored t h ∨ r.pathKey = generatePathItems cfg p.items ∧ h.val ∈ iterateTarget p.items)
    (whole : Whole t') (aligned : ∀ h, Aligned (present t') t' h) : Coupled cfg t' := by
  have held : ∀ {k q}, t'.paths.lookup k = some q →
      k = generatePathItems cfg p.items ∧ q = p ∨
        k ≠ generatePathItems cfg p.items ∧ t.paths.lookup k = some q := by
    intro k q found
    rw [paths,lookup_insert_eq] at found
    split at found
    · next same => exact .inl ⟨same,(Option.some.inj found).symm⟩
    · next other => exact .inr ⟨other,found⟩
  refine ⟨?_,?_,?_,?_,whole,aligned⟩
  · rw [storePaths,paths,coupled.same]
  · intro k q found
    rcases held found with ⟨rfl,rfl⟩ | ⟨_,found⟩
    · exact saves.1
    · exact coupled.short k q found
  · intro k q found
    rcases held found with ⟨rfl,rfl⟩ | ⟨_,found⟩
    · rfl
    · exact coupled.named k q found
  intro k q found h r member same
  rcases held found with ⟨rfl,rfl⟩ | ⟨other,found⟩
  · exact (routes h r member).elim (fun old => saves.2.2 h r old same) And.right
  · rcases routes h r member with old | ⟨new,_⟩
    · exact coupled.owned k q found h r old same
    · exact absurd (same.symm.trans new) other

theorem coupled_savePath {p : PbPath} (coupled : Coupled cfg t) (created used : Int)
    (saves : p.items.length < 2 ∨ Saves cfg t p.items) : Coupled cfg (t.savePath cfg created used p) := by
  unfold Table.savePath
  rw [if_neg (by simp [verifyPath])]
  split
  · exact coupled
  next long =>
  replace saves := saves.resolve_left long
  dsimp only
  generalize via : TargetRoute.mk (p.items.getLastD []) (generatePathItems cfg p.items) = route
  have viaKey : route.pathKey = generatePathItems cfg p.items := by rw [← via]
  let path : Path := ⟨p.sign,p.bodys,p.items,created,used⟩
  let saved : Table := { t with
    paths := t.paths.insert (generatePathItems cfg p.items) path
    store := { t.store with paths := t.store.paths.insert (generatePathItems cfg p.items) path } }
  have grown : ∀ k, present saved k = (present t k || k == route.pathKey) := by
    intro k
    simp only [present,saved,lookup_insert_eq,viaKey]
    by_cases same : k = generatePathItems cfg p.items
    · simp [same]
    · simp [same]
  -- a target of the path is aligned once its route is added, any other one already is
  have before : ∀ h, Aligned (present saved) saved h ∨ h.val ∈ iterateTarget p.items ∧ Aligned (present t) saved h := by
    intro h
    have aligned : Aligned (present t) saved h := (coupled.aligned h).congr rfl rfl
    by_cases target : h.val ∈ iterateTarget p.items
    · exact .inr ⟨target,aligned⟩
    · refine .inl (aligned.more (fun r member => ?_))
      have other : r.pathKey ≠ route.pathKey := fun same => target (saves.2.2 h r member (same.trans viaKey))
      simp [grown,other]
  obtain ⟨aligned,full,routes⟩ := addRoutes cfg saves.2.1 (show Whole saved from coupled.whole) grown before
  obtain ⟨_,paths,storePaths⟩ := addRoutes_paths cfg route (iterateTarget p.items) saved
  have unchanged : present (List.foldl (Table.addRoute cfg route) saved (iterateTarget p.items)) = present saved := by
    funext k
    rw [present,paths,present]
  rw [viaKey] at routes
  exact coupled_insert cfg (p := path) coupled saves paths storePaths routes full (unchanged ▸ aligned)

theorem running_dropRoute (key : Hash) (t : Table) (a : Address) (h : Hash) :
    running (t.dropRoute key a) h =
      if getTargetKey a = h then (running t h).filter (fun r => r.pathKey ≠ key) else running t h := by
  unfold Table.dropRoute running
  split
  · next absent =>
    split
    · next same => rw [← same,absent]; rfl
    · rfl
  next routes held =>
  dsimp only
  split
  · simp only [lookup_insert_eq]
    by_cases same : getTargetKey a = h
    · rw [if_pos same.symm,if_pos same,← same,held,Option.getD_some,Option.getD_some]
    · rw [if_neg (Ne.symm same),if_neg same]
  next all =>
  have kept : routes.filter (fun r => r.pathKey ≠ key) = routes :=
    List.filter_sublist.eq_of_length_le (not_lt.mp all)
  split
  · next same => rw [← same,held,Option.getD_some,kept]
  · rfl

theorem running_dropRoutes (key : Hash) (targets : List Address) (t : Table) (h : Hash) :
    running (targets.foldl (Table.dropRoute key) t) h =
      if h ∈ targets.map getTargetKey then (running t h).filter (fun r => r.pathKey ≠ key) else running t h := by
  induction targets generalizing t with
  | nil => rfl
  | cons a rest ih =>
    rw [List.foldl_cons,ih,running_dropRoute]
    by_cases here : getTargetKey a = h
    · simp [here,List.filter_filter]
    · simp [here,Ne.symm here]

/-- Every next hop of a target is offered by a route whose path is not one of those to go. -/
def Spared (t : Table) (doomed : List Hash) : Prop :=
  ∀ h, ∀ r ∈ running t h, ∃ r' ∈ running t h, r'.neighbor = r.neighbor ∧ r'.pathKey ∉ doomed

/-- The path in the table with the hash of a path is that path. -/
def Own (t : Table) (items : List Address) : Prop :=
  ∀ q, t.paths.lookup (generatePathItems cfg items) = some q → q.items = items

theorem running_delete {path : Path} (coupled : Coupled cfg t) (own : Own cfg t path.items) (h : Hash) :
    running (t.delete cfg path) h = (running t h).filter (fun r => r.pathKey ≠ generatePathItems cfg path.items) := by
  have routes := running_dropRoutes (generatePathItems cfg path.items) (iterateTarget path.items) { t with
    paths := t.paths.erase (generatePathItems cfg path.items)
    store := { t.store with paths := t.store.paths.erase (generatePathItems cfg path.items) } } h
  refine Eq.trans routes ?_
  split
  · rfl
  next elsewhere =>
  change running t h = _
  symm
  rw [List.filter_eq_self]
  intro r member
  rw [decide_eq_true_eq]
  intro same
  -- a route over the path would make the node one of its targets
  obtain ⟨inStore,there⟩ := (coupled.aligned h).stored_of_running member
  obtain ⟨q,found⟩ := Option.isSome_iff_exists.mp there
  have target := coupled.owned _ q found h r inStore rfl
  rw [same] at found
  rw [own q found] at target
  exact elsewhere (List.mem_map.mpr ⟨h.val,target,bytesToHash_val h⟩)

theorem coupled_delete {path : Path} (coupled : Coupled cfg t) (own : Own cfg t path.items)
    (spared : Spared t [generatePathItems cfg path.items]) : Coupled cfg (t.delete cfg path) := by
  obtain ⟨_,paths,store⟩ := delete_paths cfg path t
  have routes := running_delete cfg coupled own
  have same : ∀ h, stored (t.delete cfg path) h = stored t h := by
    intro h
    rw [stored,store,stored]
  have held : ∀ {k q}, (t.delete cfg path).paths.lookup k = some q → t.paths.lookup k = some q := by
    intro k q found
    rw [paths,lookup_erase_eq] at found
    split at found
    · cases found
    · exact found
  refine ⟨?_,fun k q found => coupled.short k q (held found),fun k q found => coupled.named k q (held found),?_,?_,?_⟩
  · rw [store,paths,coupled.same]
  · intro k q found h r member
    rw [same] at member
    exact coupled.owned k q (held found) h r member
  · intro a found
    rw [store] at found
    exact coupled.whole a found
  intro h
  constructor
  · rw [routes,same,(coupled.aligned h).filtered,List.filter_filter]
    apply List.filter_congr
    intro r _
    simp only [present,paths,lookup_erase_eq]
    by_cases gone : r.pathKey = generatePathItems cfg path.items
    · simp [gone]
    · simp [gone]
  intro r member
  rw [same] at member
  obtain ⟨r₁,inTable,hop⟩ := (coupled.aligned h).offered r member
  obtain ⟨r₂,kept,hop',stays⟩ := spared h r₁ inTable
  refine ⟨r₂,?_,hop'.trans hop⟩
  rw [routes,List.mem_filter]
  exact ⟨kept,by simpa using stays⟩

def doomed (expire : Int) (t : Table) : (clock : Nat → Int) → (order : List Hash) → List Hash
  | _, [] => []
  | clock, key :: order =>
    match t.paths.lookup key with
    | none => doomed expire t (fun i => clock (i + 1)) order
    | some path =>
      if expired (clock 0) expire path then key :: doomed expire t (fun i => clock (i + 1)) order
      else doomed expire t (fun i => clock (i + 1)) order

theorem doomed_subset (expire : Int) (fewer : ∀ k q, t'.paths.lookup k = some q → t.paths.lookup k = some q)
    (clock : Nat → Int) (order : List Hash) : doomed expire t' clock order ⊆ doomed expire t clock order := by
  induction order generalizing clock with
  | nil => exact List.Subset.refl _
  | cons key order ih =>
    have rest := ih (fun i => clock (i + 1))
    unfold doomed
    cases after : t'.paths.lookup key with
    | none =>
      refine List.Subset.trans rest ?_
      split
      · exact List.Subset.refl _
      · split
        · exact List.subset_cons_self _ _
        · exact List.Subset.refl _
    | some path =>
      rw [fewer key path after]
      dsimp only
      split
      · exact List.cons_subset_cons key rest
      · exact rest

theorem coupled_gc (expire : Int) (clock : Nat → Int) {order : List Hash} (coupled : Coupled cfg t)
    (spared : Spared t (doomed expire t clock order)) : Coupled cfg (t.gc cfg expire clock order) := by
  induction order generalizing clock t with
  | nil => exact coupled
  | cons key order ih =>
    cases found : t.paths.lookup key with
    | none =>
      simp only [doomed,found] at spared
      simp only [Table.gc,found]
      exact ih _ coupled spared
    | some path =>
      simp only [doomed,found] at spared
      simp only [Table.gc,found]
      split at spared
      · next old =>
        rw [if_pos old]
        have named := coupled.named key path found
        have own : Own cfg t path.items := by
          intro q again
          rw [named,found,Option.some.injEq] at again
          rw [again]
        have stays : ∀ {k : Hash}, k ∉ key :: doomed expire t (fun i => clock (i + 1)) order →
            k ≠ generatePathItems cfg path.items := by
          intro k outside same
          exact outside (by rw [same,named]; exact List.mem_cons_self ..)
        refine ih _ (coupled_delete cfg coupled own ?_) ?_
        · intro h r member
          obtain ⟨r',kept,hop,outside⟩ := spared h r member
          exact ⟨r',kept,hop,by simpa using stays outside⟩
        intro h r member
        rw [running_delete cfg coupled own] at member ⊢
        obtain ⟨r',kept,hop,outside⟩ := spared h r (List.mem_of_mem_filter member)
        refine ⟨r',List.mem_filter.mpr ⟨kept,by simpa using stays outside⟩,hop,fun inside => outside ?_⟩
        refine List.mem_cons_of_mem _ (doomed_subset expire (fun k q held => ?_) _ _ inside)
        rw [(delete_paths cfg path t).2.1,lookup_erase_eq] at held
        split at held
        · cases held
        · exact held
      · next fresh =>
        rw [if_neg fresh]
        exact ih _ coupled spared

theorem resumePaths_rest {order : List Hash} (t : Table) :
    (t.resumePaths cfg order).store = t.store ∧ (t.resumePaths cfg order).routes = t.routes := by
  induction order generalizing t with
  | nil => exact ⟨rfl,rfl⟩
  | cons key order ih =>
    unfold Table.resumePaths
    split
    · exact ih t
    · split
      · exact ih _
      · exact ih t

theorem lookup_resumePaths {order : List Hash}
    (short : ∀ k p, t.store.paths.lookup k = some p → p.items.length ≤ cfg.maxTTL) (k : Hash) :
    (t.resumePaths cfg order).paths.lookup k =
      if k ∈ order ∧ (t.store.paths.lookup k).isSome then t.store.paths.lookup k else t.paths.lookup k := by
  induction order generalizing t with
  | nil => simp [Table.resumePaths]
  | cons key order ih =>
    unfold Table.resumePaths
    split
    · next absent =>
      rw [ih short]
      by_cases same : k = key
      · subst same
        simp [absent]
      · simp [same]
    next path held =>
    rw [if_pos (short key path held),ih (t := { t with paths := t.paths.insert (bytesToHash key.val) path }) short]
    rw [bytesToHash_val]
    by_cases same : k = key
    · subst same
      simp [held]
    · simp [same]

theorem resumeRoutes_rest (order : List Address) (t : Table) :
    (t.resumeRoutes order).paths = t.paths := by
  induction order generalizing t with
  | nil => rfl
  | cons target order ih =>
    unfold Table.resumeRoutes
    split
    · exact ih t
    · exact ih _

theorem lookup_resumeRoutes {order : List Address} (whole : Whole t) (h : Hash) :
    (t.resumeRoutes order).routes.lookup h =
      if h.val ∈ order ∧ (t.store.routes.lookup h.val).isSome then t.store.routes.lookup h.val else t.routes.lookup h := by
  induction order generalizing t with
  | nil => simp [Table.resumeRoutes]
  | cons target order ih =>
    unfold Table.resumeRoutes
    split
    · next absent =>
      rw [ih whole]
      by_cases same : h.val = target
      · subst same
        simp [absent]
      · simp [same]
    next routes held =>
    have full : target.length = 32 := whole target (by rw [held]; nofun)
    rw [ih (t := { t with routes := t.routes.insert (bytesToHash target) routes }) whole]
    by_cases same : h.val = target
    · subst same
      simp [held,bytesToHash_val]
    · have key : h ≠ bytesToHash target := fun eq => same ((getTargetKey_eq full).mp eq.symm).symm
      simp [same,key]

/-- A new table over the store of a table, after both readings. -/
def resumed (t : Table) (pathOrder : List Hash) (routeOrder : List Address) : Table :=
  ((newRouteTable t.self t.store).resumePaths cfg pathOrder).resumeRoutes routeOrder

/-- The orders in which the store yields its keys come to every key. -/
def Complete (t : Table) (pathOrder : List Hash) (routeOrder : List Address) : Prop :=
  (∀ k, (t.store.paths.lookup k).isSome → k ∈ pathOrder) ∧ ∀ a, (t.store.routes.lookup a).isSome → a ∈ routeOrder

theorem resumed_eq {pathOrder : List Hash} {routeOrder : List Address} (coupled : Coupled cfg t)
    (complete : Complete t pathOrder routeOrder) :
    (resumed cfg t pathOrder routeOrder).paths = t.paths ∧
      ∀ h, (resumed cfg t pathOrder routeOrder).routes.lookup h = t.store.routes.lookup h.val := by
  obtain ⟨store,routes⟩ := resumePaths_rest cfg (newRouteTable t.self t.store)
  constructor
  · rw [resumed,resumeRoutes_rest]
    apply Finmap.ext_lookup
    intro k
    have short : ∀ k p, t.store.paths.lookup k = some p → p.items.length ≤ cfg.maxTTL := by
      rw [coupled.same]
      exact coupled.short
    rw [lookup_resumePaths cfg (t := newRouteTable t.self t.store) short]
    change (if k ∈ pathOrder ∧ (t.store.paths.lookup k).isSome then t.store.paths.lookup k else none) = _
    rw [← coupled.same]
    cases held : t.store.paths.lookup k with
    | none => simp
    | some path => simp [complete.1 k (by rw [held]; rfl)]
  intro h
  have whole : Whole ((newRouteTable t.self t.store).resumePaths cfg pathOrder) := by
    rw [Whole,store]
    exact coupled.whole
  rw [resumed,lookup_resumeRoutes whole,store,routes]
  change (if h.val ∈ routeOrder ∧ (t.store.routes.lookup h.val).isSome then t.store.routes.lookup h.val else none) = _
  cases held : t.store.routes.lookup h.val with
  | none => simp
  | some routes => simp [complete.2 h.val (by rw [held]; rfl)]

theorem get_eq (t : Table) (target : Address) :
    t.get target =
      let paths := (running t (getTargetKey target)).filterMap (fun v => t.paths.lookup v.pathKey)
      if paths = [] then .error .notFound else .ok paths := by
  unfold Table.get running
  cases t.routes.lookup (getTargetKey target) <;> rfl

theorem mem_getNextHop {target : Address} {skips : List Address} {n : Address} :
    n ∈ t.getNextHop target skips ↔ n ∉ skips ∧ ∃ r ∈ running t (getTargetKey target), r.neighbor = n := by
  unfold Table.getNextHop running
  cases t.routes.lookup (getTargetKey target) with
  | none => simp
  | some routes => simp [and_comm]

def SameAnswers (t t' : Table) : Prop :=
  ∀ target, t'.get target = t.get target ∧ ∀ skips n, n ∈ t'.getNextHop target skips ↔ n ∈ t.getNextHop target skips

theorem sameAnswers_of_coupled {pathOrder : List Hash} {routeOrder : List Address} (coupled : Coupled cfg t)
    (complete : Complete t pathOrder routeOrder) : SameAnswers t (resumed cfg t pathOrder routeOrder) := by
  obtain ⟨paths,routes⟩ := resumed_eq cfg coupled complete
  intro target
  have aligned := coupled.aligned (getTargetKey target)
  have read : running (resumed cfg t pathOrder routeOrder) (getTargetKey target) = stored t (getTargetKey target) := by
    rw [running,routes,stored]
  constructor
  · rw [get_eq,get_eq,read,paths,aligned.filtered]
    have same : (stored t (getTargetKey target)).filterMap (fun v => t.paths.lookup v.pathKey) =
        ((stored t (getTargetKey target)).filter (fun r => present t r.pathKey)).filterMap
          (fun v => t.paths.lookup v.pathKey) := by
      rw [List.filterMap_filter]
      apply List.filterMap_congr
      intro r _
      unfold present
      cases t.paths.lookup r.pathKey <;> simp
    rw [same]
  intro skips n
  rw [mem_getNextHop,mem_getNextHop,read]
  constructor
  · rintro ⟨fresh,r,member,rfl⟩
    exact ⟨fresh,aligned.offered r member⟩
  · rintro ⟨fresh,r,member,rfl⟩
    exact ⟨fresh,r,(aligned.stored_of_running member).1,rfl⟩

inductive Op
  | savePath (createTime usedTime : Int) (p : PbPath)
  | delete (path : Path)
  | gc (expire : Int) (clock : Nat → Int) (order : List Hash)

def apply (t : Table) : Op → Table
  | .savePath createTime usedTime p => t.savePath cfg createTime usedTime p
  | .delete path => t.delete cfg path
  | .gc expire clock order => t.gc cfg expire clock order

def Fits (t : Table) : Op → Prop
  | .savePath _ _ p => p.items.length < 2 ∨ Saves cfg t p.items
  | .delete path => Own cfg t path.items ∧ Spared t [generatePathItems cfg path.items]
  | .gc expire clock order => Spared t (doomed expire t clock order)

def AllFit : Table → List Op → Prop
  | _, [] => True
  | t, op :: ops => Fits cfg t op ∧ AllFit (apply cfg t op) ops

theorem coupled_apply {op : Op} (coupled : Coupled cfg t) (fits : Fits cfg t op) : Coupled cfg (apply cfg t op) := by
  cases op with
  | savePath createTime usedTime p => exact coupled_savePath cfg coupled createTime usedTime fits
  | delete path => exact coupled_delete cfg coupled fits.1 fits.2
  | gc expire clock order => exact coupled_gc cfg expire clock coupled fits

theorem coupled_run {ops : List Op} (coupled : Coupled cfg t) (fit : AllFit cfg t ops) :
    Coupled cfg (ops.foldl (apply cfg) t) := by
  induction ops generalizing t with
  | nil => exact coupled
  | cons op ops ih => exact ih (coupled_apply cfg coupled fit.1) fit.2

/-- After a run whose operations all fit, a table that resumes from the store
    answers every question as the running table does. -/
theorem resumed_same (self : Address) (ops : List Op) (fit : AllFit cfg (newRouteTable self {}) ops)
    (pathOrder : List Hash) (routeOrder : List Address)
    (complete : Complete (ops.foldl (apply cfg) (newRouteTable self {})) pathOrder routeOrder) :
    SameAnswers (ops.foldl (apply cfg) (newRouteTable self {}))
      (resumed cfg (ops.foldl (apply cfg) (newRouteTable self {})) pathOrder routeOrder) :=
  sameAnswers_of_coupled cfg (coupled_run cfg (coupled_new cfg) fit) complete

end

def node (n : UInt8) : Address := List.replicate 32 n

def hop (n : UInt8) (length : Nat) : TargetRoute := ⟨node n,bytesToHash [UInt8.ofNat (32 * length)]⟩

/-- A direct path, a longer one over the same neighbour, and the deletion of the direct one. -/
def sampleOps : List Op :=
  [.savePath 0 0 ⟨[],[],[node 1,node 2]⟩,.savePath 0 0 ⟨[],[],[node 1,node 3,node 2]⟩,
    .delete ⟨[],[],[node 1,node 2],0,0⟩]

def sampleTable : Table := (sampleOps.take 2).foldl (apply sampleConfig) (newRouteTable (node 9) {})

theorem running_sampleTable {h : Hash} :
    ∀ r ∈ running sampleTable h, r.neighbor = node 2 ∧ hop 2 3 ∈ running sampleTable h := by
  have routes : sampleTable.routes =
      ((∅ : Map Hash (List TargetRoute)).insert (bytesToHash (node 1)) [hop 2 3,hop 2 2]).insert
        (bytesToHash (node 3)) [hop 2 3] := by decide +kernel
  rw [running,routes,lookup_insert_eq]
  split
  · decide
  rw [lookup_insert_eq]
  split
  · decide
  · exact nofun

theorem resumed_same_deleted :
    let t := sampleOps.foldl (apply sampleConfig) (newRouteTable (node 9) {})
    SameAnswers t (resumed sampleConfig t [(hop 2 3).pathKey] [node 1,node 3]) := by
  have first : (apply sampleConfig (newRouteTable (node 9) {}) (.savePath 0 0 ⟨[],[],[node 1,node 2]⟩)).store.routes =
      (∅ : Map Address (List TargetRoute)).insert (node 1) [hop 2 2] := by decide +kernel
  have last : (sampleOps.foldl (apply sampleConfig) (newRouteTable (node 9) {})).store =
      { paths := (∅ : Map Hash Path).insert (hop 2 3).pathKey ⟨[],[],[node 1,node 3,node 2],0,0⟩
        routes := ((∅ : Map Address (List TargetRoute)).insert (node 1) [hop 2 3,hop 2 2]).insert (node 3) [hop 2 3] } := by
    rw [StateStore.mk.injEq]
    decide +kernel
  apply resumed_same
  · refine ⟨.inr ⟨by decide,by decide,nofun⟩,.inr ⟨by decide,by decide,fun h r member same => ?_⟩,
      ⟨fun q held => ?_,fun h r member => ?_⟩,trivial⟩
    · rw [stored,first,lookup_insert_eq] at member
      split at member
      · rw [List.mem_singleton.mp member] at same
        exact absurd same (by decide +kernel)
      · cases member
    · have found : sampleTable.paths.lookup (generatePathItems sampleConfig [node 1,node 2]) =
          some ⟨[],[],[node 1,node 2],0,0⟩ := by decide +kernel
      exact congrArg Path.items (Option.some.inj (held.symm.trans found))
    · obtain ⟨neighbor,offered⟩ := running_sampleTable r member
      exact ⟨hop 2 3,offered,neighbor.symm,by decide +kernel⟩
  rw [Complete,last]
  refine ⟨fun k held => ?_,fun a held => ?_⟩
  · rw [lookup_insert_eq] at held
    split at held
    · next same => exact List.mem_singleton.mpr same
    · cases held
  rw [lookup_insert_eq,lookup_insert_eq] at held
  split at held
  · next same => simp [same]
  · split at held
    · next same => simp [same]
    · cases held

/-- A path over a neighbour is saved and deleted. The running table has no next
    hop to its target, the table that resumes has one. -/
theorem deleted_hop_resumed :
    let ops := [.savePath 0 0 ⟨[],[],[node 1,node 2]⟩,.delete ⟨[],[],[node 1,node 2],0,0⟩]
    let t := ops.foldl (apply sampleConfig) (newRouteTable (node 9) {})
    Complete t [] [node 1] ∧ ¬ SameAnswers t (resumed sampleConfig t [] [node 1]) := by
  intro ops t
  have paths : t.store.paths = ∅ := by decide +kernel
  have routes : t.store.routes = (∅ : Map Address (List TargetRoute)).insert (node 1) [hop 2 2] := by decide +kernel
  refine ⟨⟨fun k held => ?_,fun a held => ?_⟩,fun same => ?_⟩
  · rw [paths] at held
    cases held
  · rw [routes,lookup_insert_eq] at held
    split at held
    · next same => exact List.mem_singleton.mpr same
    · cases held
  · exact absurd ((same (node 1)).2 [] (node 2)) (by decide +kernel)

end FavorX.Resumption
