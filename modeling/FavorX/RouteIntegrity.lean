import FavorX.Resumption

/-!
What the route table promises for a target: not more routes than asked for, no route
twice, and paths that lead to the target and end with the neighbour of their route, if
paths and targets can be told apart by their keys (`routes_lead`).
-/
namespace FavorX.RouteIntegrity
open FiniteMaps Shed RouteTable Resumption

variable {t : Table} {target : Address}

section
variable (cfg : Config)

/-- What holds for a target. -/
structure Integrity (t : Table) (target : Address) : Prop where
  bounded : (running t (getTargetKey target)).length ≤ cfg.neighborAlpha
  different : (running t (getTargetKey target)).Nodup
  stored : ∀ r ∈ running t (getTargetKey target), (t.paths.lookup r.pathKey).isSome
  leads : ∀ paths, t.get target = .ok paths →
    List.Forall₂ (fun r p => target ∈ p.items.dropLast ∧ p.items.getLast? = some r.neighbor)
      (running t (getTargetKey target)) paths

/-- The hash function does not collide: what is kept under the hash of some items is written like them. -/
def NoCollision (t : Table) (items : List Bytes) : Prop :=
  ∀ q ∈ t.paths.lookup (generatePathItems cfg items), q.items.flatten = items.flatten

/-- The path that is kept under the hash of some items is not another way to cut the same bytes into items. -/
def ToldApart (t : Table) (items : List Bytes) : Prop :=
  ∀ q ∈ t.paths.lookup (generatePathItems cfg items), q.items.flatten = items.flatten → q.items = items

def Possible (t : Table) : Op → Prop
  | .savePath _ _ p => NoCollision cfg t p.items
  | .delete path => NoCollision cfg t path.items
  | .gc .. => True

/-- The items that are saved or deleted can be told from those of the table, and a saved path leads to
    nobody else with the key of the target. -/
def Fits (target : Address) (t : Table) : Op → Prop
  | .savePath _ _ p =>
    ToldApart cfg t p.items ∧ ∀ x ∈ p.items.dropLast, getTargetKey x = getTargetKey target → x = target
  | .delete path => ToldApart cfg t path.items
  | .gc .. => True

instance (t : Table) (items : List Bytes) : Decidable (NoCollision cfg t items) :=
  inferInstanceAs (Decidable (∀ q ∈ t.paths.lookup (generatePathItems cfg items), _))

instance (t : Table) (items : List Bytes) : Decidable (ToldApart cfg t items) :=
  inferInstanceAs (Decidable (∀ q ∈ t.paths.lookup (generatePathItems cfg items), _))

instance decidablePossible (t : Table) : (op : Op) → Decidable (Possible cfg t op)
  | .savePath _ _ p => inferInstanceAs (Decidable (NoCollision cfg t p.items))
  | .delete path => inferInstanceAs (Decidable (NoCollision cfg t path.items))
  | .gc .. => .isTrue trivial

instance decidableFits (target : Address) (t : Table) : (op : Op) → Decidable (Fits cfg target t op)
  | .savePath _ _ p => inferInstanceAs (Decidable (ToldApart cfg t p.items ∧
      ∀ x ∈ p.items.dropLast, getTargetKey x = getTargetKey target → x = target))
  | .delete path => inferInstanceAs (Decidable (ToldApart cfg t path.items))
  | .gc .. => .isTrue trivial

def AllPossible : Table → List Op → Prop
  | _, [] => True
  | t, op :: ops => Possible cfg t op ∧ AllPossible (apply cfg t op) ops

/-- Every step of a run meets the condition in the table before it. -/
def AllFit (target : Address) : Table → List Op → Prop
  | _, [] => True
  | t, op :: ops => Fits cfg target t op ∧ AllFit target (apply cfg t op) ops

instance decidableAllPossible : (t : Table) → (ops : List Op) → Decidable (AllPossible cfg t ops)
  | _, [] => .isTrue trivial
  | t, op :: ops =>
    have := decidableAllPossible (apply cfg t op) ops
    inferInstanceAs (Decidable (Possible cfg t op ∧ AllPossible cfg (apply cfg t op) ops))

instance decidableAllFit (target : Address) : (t : Table) → (ops : List Op) → Decidable (AllFit cfg target t ops)
  | _, [] => .isTrue trivial
  | t, op :: ops =>
    have := decidableAllFit target (apply cfg t op) ops
    inferInstanceAs (Decidable (Fits cfg target t op ∧ AllFit cfg target (apply cfg t op) ops))

/-- The lists of routes by themselves. -/
structure Listed (t : Table) : Prop where
  bounded : ∀ h, (running t h).length ≤ cfg.neighborAlpha
  different : ∀ h, (running t h).Nodup

/-- A route to the key of a target is over a path of the table that leads there by the neighbour. -/
def Linked (t : Table) (h : Hash) (r : TargetRoute) : Prop :=
  ∃ q, t.paths.lookup r.pathKey = some q ∧ h ∈ q.items.dropLast.map getTargetKey ∧
    q.items.getLast? = some r.neighbor

structure Sound (target : Address) (t : Table) : Prop where
  listed : Listed cfg t
  named : ∀ k q, t.paths.lookup k = some q → k = generatePathItems cfg q.items
  linked : ∀ h, ∀ r ∈ running t h, Linked t h r
  alone : ∀ k q, t.paths.lookup k = some q → ∀ x ∈ q.items.dropLast, getTargetKey x = getTargetKey target → x = target

theorem Sound.integrity (sound : Sound cfg target t) : Integrity cfg t target where
  bounded := sound.listed.bounded _
  different := sound.listed.different _
  stored r member := by
    obtain ⟨q,found,-⟩ := sound.linked _ r member
    rw [found]
    rfl
  leads paths got := by
    rw [get_eq] at got
    dsimp only at got
    split at got
    · cases got
    cases got
    have linked := sound.linked (getTargetKey target)
    generalize running t (getTargetKey target) = routes at linked
    induction routes with
    | nil => exact .nil
    | cons r routes ih =>
      obtain ⟨q,found,leads,last⟩ := linked r List.mem_cons_self
      obtain ⟨x,member,same⟩ := List.mem_map.mp leads
      rw [List.filterMap_cons_some (f := fun r : TargetRoute => t.paths.lookup r.pathKey) found]
      refine .cons ⟨?_,last⟩ (ih (fun r' later => linked r' (List.mem_cons_of_mem r later)))
      rw [← sound.alone _ q found x member same]
      exact member

theorem sound_new (target self : Address) : Sound cfg target (newRouteTable self {}) where
  listed := ⟨fun h => Nat.zero_le _,fun h => List.nodup_nil⟩
  named k q found := by simp [newRouteTable] at found
  linked h r member := by simp [newRouteTable,running] at member
  alone k q found := by simp [newRouteTable] at found

theorem running_put (t : Table) (a : Address) (routes : List TargetRoute) (h : Hash) :
    running (t.putRoutes a routes) h = if h = getTargetKey a then routes else running t h := by
  simp only [running,Table.putRoutes,lookup_insert_eq]
  split <;> rfl

theorem keepRoutes_take {old : List TargetRoute} : ∃ n, keepRoutes cfg old = old.take n := by
  unfold keepRoutes
  split
  · exact ⟨_,rfl⟩
  · split
    · exact ⟨_,rfl⟩
    · exact ⟨old.length,List.take_length.symm⟩

variable {route : TargetRoute}

theorem existRoute_iff {routes : List TargetRoute} : existRoute route routes ↔ route ∈ routes := by
  simp only [existRoute,List.any_eq_true,Bool.and_eq_true,beq_iff_eq]
  constructor
  · rintro ⟨⟨neighbor,pathKey⟩,member,rfl,rfl⟩
    exact member
  · intro member
    exact ⟨route,member,rfl,rfl⟩

theorem addRoute_cases (route : TargetRoute) (t : Table) (a : Address) (h : Hash) :
    running (t.addRoute cfg route a) h = running t h ∨
      h = getTargetKey a ∧ route ∉ running t h ∧
        running (t.addRoute cfg route a) h = route :: keepRoutes cfg (running t h) := by
  rw [addRoute_running]
  by_cases known : existRoute route (running t (getTargetKey a))
  · rw [if_pos known]
    exact Or.inl rfl
  rw [if_neg known,running_put]
  by_cases same : h = getTargetKey a
  · subst same
    rw [if_pos rfl]
    exact Or.inr ⟨rfl,fun member => known (existRoute_iff.mpr member),rfl⟩
  · rw [if_neg same]
    exact Or.inl rfl

theorem listed_addRoute (some : 0 < cfg.neighborAlpha) (listed : Listed cfg t) {route : TargetRoute} (a : Address) :
    Listed cfg (t.addRoute cfg route a) := by
  constructor
  · intro h
    rcases addRoute_cases cfg route t a h with same | ⟨-,-,grown⟩
    · rw [same]
      exact listed.bounded h
    · rw [grown,List.length_cons]
      have bounded := listed.bounded h
      unfold keepRoutes
      split
      · omega
      split
      · rw [List.length_take]
        omega
      · omega
  intro h
  rcases addRoute_cases cfg route t a h with same | ⟨-,new,grown⟩
  · rw [same]
    exact listed.different h
  obtain ⟨n,taken⟩ := keepRoutes_take cfg
  rw [grown,taken]
  refine List.nodup_cons.mpr ⟨fun member => new (List.mem_of_mem_take member),?_⟩
  exact (listed.different h).sublist (List.take_sublist n _)

theorem linked_addRoute {a : Address} (linked : ∀ h, ∀ r ∈ running t h, Linked t h r)
    (route_linked : Linked t (getTargetKey a) route) :
    ∀ h, ∀ r ∈ running (t.addRoute cfg route a) h, Linked (t.addRoute cfg route a) h r := by
  intro h r member
  have before : Linked t h r := by
    rcases addRoute_cases cfg route t a h with same | ⟨rfl,-,grown⟩
    · rw [same] at member
      exact linked h r member
    rw [grown,List.mem_cons] at member
    rcases member with rfl | kept
    · exact route_linked
    · exact linked _ r (mem_keepRoutes cfg kept)
  unfold Linked
  rwa [(addRoute_paths cfg route).2.1]

theorem addRoutes_keep (some : 0 < cfg.neighborAlpha) {targets : List Address} (listed : Listed cfg t)
    (linked : ∀ h, ∀ r ∈ running t h, Linked t h r) (route_linked : ∀ a ∈ targets, Linked t (getTargetKey a) route) :
    Listed cfg (targets.foldl (Table.addRoute cfg route) t) ∧
      ∀ h, ∀ r ∈ running (targets.foldl (Table.addRoute cfg route) t) h,
        Linked (targets.foldl (Table.addRoute cfg route) t) h r := by
  induction targets generalizing t with
  | nil => exact ⟨listed,linked⟩
  | cons a targets ih =>
    refine ih (listed_addRoute cfg some listed a)
      (linked_addRoute cfg linked (route_linked a List.mem_cons_self)) (fun b member => ?_)
    have before := route_linked b (List.mem_cons_of_mem a member)
    unfold Linked at *
    rwa [(addRoute_paths cfg route).2.1]

theorem own_of {items : List Bytes} (possible : NoCollision cfg t items) (apart : ToldApart cfg t items) :
    Own cfg t items := fun q found => apart q found (possible q found)

/-- A path is put under its hash: the routes over what was there stay linked, since it has the same items. -/
theorem linked_insert {p : Path} (own : Own cfg t p.items) {h : Hash} {r : TargetRoute} (linked : Linked t h r)
    (store : StateStore) :
    Linked { t with paths := t.paths.insert (generatePathItems cfg p.items) p, store := store } h r := by
  obtain ⟨q,found,leads,last⟩ := linked
  unfold Linked
  simp only [lookup_insert_eq]
  by_cases same : r.pathKey = generatePathItems cfg p.items
  · rw [same] at found
    rw [if_pos same]
    exact ⟨p,rfl,own q found ▸ leads,own q found ▸ last⟩
  · rw [if_neg same]
    exact ⟨q,found,leads,last⟩

theorem sound_savePath (some : 0 < cfg.neighborAlpha) {p : PbPath} (sound : Sound cfg target t) (created used : Int)
    (own : Own cfg t p.items) (leads : ∀ x ∈ p.items.dropLast, getTargetKey x = getTargetKey target → x = target) :
    Sound cfg target (t.savePath cfg created used p) := by
  unfold Table.savePath
  rw [verifyPath,Bool.not_true,if_neg Bool.false_ne_true]
  split
  · exact sound
  next long =>
  set path : Path := ⟨p.sign,p.bodys,p.items,created,used⟩
  set saved : Table := { t with
    paths := t.paths.insert (generatePathItems cfg p.items) path
    store := { t.store with paths := t.store.paths.insert (generatePathItems cfg p.items) path } }
  have held (k : Hash) (q : Path) (found : saved.paths.lookup k = Option.some q) :
      (k = generatePathItems cfg p.items ∧ q = path) ∨ t.paths.lookup k = Option.some q := by
    simp only [saved,lookup_insert_eq] at found
    split at found
    · next same => exact Or.inl ⟨same,(Option.some.inj found).symm⟩
    · exact Or.inr found
  have route_linked : ∀ a ∈ iterateTarget p.items,
      Linked saved (getTargetKey a) ⟨p.items.getLastD [],generatePathItems cfg p.items⟩ := by
    intro a member
    refine ⟨path,?_,List.mem_map_of_mem member,?_⟩
    · simp only [saved,lookup_insert_eq,if_pos]
    have full : p.items ≠ [] := by
      rintro empty
      simp [empty] at long
    rw [List.getLastD_eq_getLast?,List.getLast?_eq_some_getLast full]
    rfl
  have kept := addRoutes_keep cfg some (t := saved) ⟨sound.listed.bounded,sound.listed.different⟩
    (fun h r member => linked_insert cfg (p := path) own (sound.linked h r member) _) route_linked
  have paths := (addRoutes_paths cfg ⟨p.items.getLastD [],generatePathItems cfg p.items⟩
    (iterateTarget p.items) saved).2.1
  refine ⟨kept.1,fun k q found => ?_,kept.2,fun k q found => ?_⟩
  · rw [paths] at found
    rcases held k q found with ⟨rfl,rfl⟩ | before
    · rfl
    · exact sound.named k q before
  rw [paths] at found
  rcases held k q found with ⟨-,rfl⟩ | before
  · exact leads
  · exact sound.alone k q before

theorem delete_running (path : Path) (t : Table) (h : Hash) :
    running (t.delete cfg path) h =
      if h ∈ path.items.dropLast.map getTargetKey then
        (running t h).filter (fun r => r.pathKey ≠ generatePathItems cfg path.items)
      else running t h :=
  running_dropRoutes _ _ _ h

theorem delete_sublist (path : Path) (t : Table) (h : Hash) :
    (running (t.delete cfg path) h).Sublist (running t h) := by
  rw [delete_running]
  split
  · exact List.filter_sublist
  · exact List.Sublist.refl _

theorem sound_delete {path : Path} (sound : Sound cfg target t) (own : Own cfg t path.items) :
    Sound cfg target (t.delete cfg path) := by
  have paths := (delete_paths cfg path t).2.1
  have held (k : Hash) (q : Path) (found : (t.delete cfg path).paths.lookup k = some q) :
      t.paths.lookup k = some q := by
    rw [paths,lookup_erase_eq] at found
    split at found
    · cases found
    · exact found
  refine ⟨⟨fun h => ?_,fun h => ?_⟩,fun k q found => sound.named k q (held k q found),fun h r member => ?_,
    fun k q found => sound.alone k q (held k q found)⟩
  · exact (delete_sublist cfg path t h).length_le.trans (sound.listed.bounded h)
  · exact (sound.listed.different h).sublist (delete_sublist cfg path t h)
  obtain ⟨q,found,leads,last⟩ := sound.linked h r ((delete_sublist cfg path t h).mem member)
  -- a route over the deleted path would be one to a target of the path, and so be removed
  have other : r.pathKey ≠ generatePathItems cfg path.items := by
    intro same
    rw [same] at found
    rw [own q found] at leads
    rw [delete_running,if_pos leads,List.mem_filter,decide_eq_true_eq] at member
    exact member.2 same
  refine ⟨q,?_,leads,last⟩
  rw [paths,lookup_erase_eq,if_neg other]
  exact found

theorem sound_gc (expire : Int) (clock : Nat → Int) (order : List Hash) (sound : Sound cfg target t) :
    Sound cfg target (t.gc cfg expire clock order) := by
  induction order generalizing clock t with
  | nil => exact sound
  | cons key order ih =>
    unfold Table.gc
    cases found : t.paths.lookup key with
    | none => exact ih _ sound
    | some path =>
      refine ih _ ?_
      split
      · refine sound_delete cfg sound (fun q held => ?_)
        rw [← sound.named key path found,found] at held
        rw [Option.some.inj held]
      · exact sound

theorem sound_apply (some : 0 < cfg.neighborAlpha) {op : Op} (sound : Sound cfg target t)
    (possible : Possible cfg t op) (fits : Fits cfg target t op) : Sound cfg target (apply cfg t op) := by
  cases op with
  | savePath created used p => exact sound_savePath cfg some sound created used (own_of cfg possible fits.1) fits.2
  | delete path => exact sound_delete cfg sound (own_of cfg possible fits)
  | gc expire clock order => exact sound_gc cfg expire clock order sound

theorem sound_run (some : 0 < cfg.neighborAlpha) {ops : List Op} (sound : Sound cfg target t)
    (possible : AllPossible cfg t ops) (fit : AllFit cfg target t ops) :
    Sound cfg target (ops.foldl (apply cfg) t) := by
  induction ops generalizing t with
  | nil => exact sound
  | cons op ops ih => exact ih (sound_apply cfg some sound possible.1 fit.1) possible.2 fit.2

/-- After a run whose operations all fit, the routes to a target are few and different, and lead to it. -/
theorem routes_lead (some : 0 < cfg.neighborAlpha) (self target : Address) (ops : List Op)
    (possible : AllPossible cfg (newRouteTable self {}) ops) (fit : AllFit cfg target (newRouteTable self {}) ops) :
    Integrity cfg (ops.foldl (apply cfg) (newRouteTable self {})) target :=
  (sound_run cfg some (sound_new cfg target self) possible fit).integrity

end

theorem routes_lead_deleted :
    Integrity sampleConfig (sampleOps.foldl (apply sampleConfig) (newRouteTable (node 9) {})) (node 1) :=
  routes_lead sampleConfig (by decide) (node 9) (node 1) sampleOps (by decide +kernel) (by decide +kernel)

/-- The bytes 1, 2 and 3 are cut into two nodes in two ways. The second path takes the place of the first,
    whose target then has a path that does not lead to it. -/
theorem path_cut_twice :
    let ops := [.savePath 0 0 ⟨[],[],[[1,2],[3]]⟩,.savePath 0 0 ⟨[],[],[[1],[2,3]]⟩]
    AllPossible sampleConfig (newRouteTable [9] {}) ops ∧
      ¬ Integrity sampleConfig (ops.foldl (apply sampleConfig) (newRouteTable [9] {})) [1,2] := by
  intro ops
  refine ⟨by decide +kernel +zetaReduce,fun integrity => ?_⟩
  have got : (ops.foldl (apply sampleConfig) (newRouteTable [9] {})).get [1,2] = .ok [⟨[],[],[[1],[2,3]],0,0⟩] := by
    decide +kernel +zetaReduce
  have led := integrity.leads _ got
  cases led with
  | cons first _ => exact absurd first.1 (by decide)

end FavorX.RouteIntegrity
