import FavorX.Discovery

/-!
Paths without loops. A response that is passed on to several callers is made from
the one before, and the second caller gets a path with the node on it twice. As
long as every response finds callers of one node only, no path that is sent or
stored comes to a node twice (`loop_free`).
-/
namespace FavorX.LoopFreedom
open FiniteMaps Shed RouteTable Discovery

variable (cfg : Config)

/-- A table holds a path with these nodes, or its store does. -/
def Holds (t : Table) (items : List Address) : Prop :=
  ∃ k p, (t.paths.lookup k = some p ∨ t.store.paths.lookup k = some p) ∧ p.items = items

/-- No node is on a path twice, and a node is not on it. -/
def Passable (self : Address) (items : List Address) : Prop := items.Nodup ∧ self ∉ items

def Storable (self : Address) (items : List Address) : Prop := Passable self items ∧ items.length ≤ cfg.maxTTL

def Sound (t : Table) : Prop := ∀ items, Holds t items → Storable cfg t.self items

theorem savePath_holds (created used : Int) (p : PbPath) (t : Table) :
    (t.savePath cfg created used p).self = t.self ∧
      ∀ items, Holds (t.savePath cfg created used p) items → Holds t items ∨ items = p.items := by
  unfold Table.savePath
  split
  · exact ⟨rfl,fun items held => .inl held⟩
  split
  · exact ⟨rfl,fun items held => .inl held⟩
  obtain ⟨self,paths,store⟩ := addRoutes_paths cfg ⟨p.items.getLastD [],generatePathItems cfg p.items⟩
    (iterateTarget p.items) { t with
      paths := t.paths.insert (generatePathItems cfg p.items) ⟨p.sign,p.bodys,p.items,created,used⟩
      store := { t.store with
        paths := t.store.paths.insert (generatePathItems cfg p.items) ⟨p.sign,p.bodys,p.items,created,used⟩ } }
  refine ⟨self,?_⟩
  rintro items ⟨k,q,found,rfl⟩
  rw [paths,store,lookup_insert_eq,lookup_insert_eq] at found
  split at found
  · have same : q = ⟨p.sign,p.bodys,p.items,created,used⟩ :=
      found.elim (fun eq => (Option.some.inj eq).symm) (fun eq => (Option.some.inj eq).symm)
    exact .inr (congrArg Path.items same)
  · exact .inl ⟨k,q,found,rfl⟩

variable {t : Table}

variable {paths : List PbPath}

variable (clock : Nat → Int) (now : Int)

theorem sound_savePaths (sound : Sound cfg t) (storable : ∀ p ∈ paths, Storable cfg t.self p.items) :
    Sound cfg (t.savePaths cfg clock paths) ∧ (t.savePaths cfg clock paths).self = t.self := by
  induction paths generalizing t clock with
  | nil => exact ⟨sound,rfl⟩
  | cons p paths ih =>
    obtain ⟨self,holds⟩ := savePath_holds cfg (clock 0) (clock 1) p t
    have saved : Sound cfg (t.savePath cfg (clock 0) (clock 1) p) := by
      intro items held
      rw [self]
      rcases holds items held with old | rfl
      · exact sound items old
      · exact storable p (List.mem_cons_self ..)
    obtain ⟨rest,self'⟩ := ih (fun i => clock (i + 2)) saved
      (fun q member => by rw [self]; exact storable q (List.mem_cons_of_mem _ member))
    exact ⟨rest,self'.trans self⟩

theorem Sound.fewer {t' : Table} (sound : Sound cfg t) (self : t'.self = t.self)
    (fewer : ∀ items, Holds t' items → Holds t items) : Sound cfg t' := by
  intro items held
  rw [self]
  exact sound items (fewer items held)

theorem sound_delete (sound : Sound cfg t) (path : Path) :
    Sound cfg (t.delete cfg path) ∧ (t.delete cfg path).self = t.self := by
  obtain ⟨self,paths,store⟩ := delete_paths cfg path t
  refine ⟨sound.fewer cfg self ?_,self⟩
  rintro items ⟨k,q,found,rfl⟩
  rw [paths,store,lookup_erase_eq,lookup_erase_eq] at found
  split at found
  · exact absurd found (by simp)
  · exact ⟨k,q,found,rfl⟩

theorem sound_deletes {paths : List Path} (sound : Sound cfg t) :
    Sound cfg (paths.foldl (fun t v => t.delete cfg v) t) ∧ (paths.foldl (fun t v => t.delete cfg v) t).self = t.self := by
  induction paths generalizing t with
  | nil => exact ⟨sound,rfl⟩
  | cons p paths ih =>
    obtain ⟨first,self⟩ := sound_delete cfg sound p
    obtain ⟨rest,self'⟩ := ih first
    exact ⟨rest,self'.trans self⟩

theorem sound_gc (expire : Int) (clock : Nat → Int) (order : List Hash) (sound : Sound cfg t) :
    Sound cfg (t.gc cfg expire clock order) ∧ (t.gc cfg expire clock order).self = t.self := by
  induction order generalizing clock t with
  | nil => exact ⟨sound,rfl⟩
  | cons key order ih =>
    unfold Table.gc
    split
    · exact ih _ sound
    next path found =>
    split
    · obtain ⟨first,self⟩ := sound_delete cfg sound path
      obtain ⟨rest,self'⟩ := ih (fun i => clock (i + 1)) first
      exact ⟨rest,self'.trans self⟩
    · exact ih _ sound

theorem touchPaths_items (routes : List TargetRoute) (paths : Map Hash Path) {k : Hash} {q : Path}
    (found : (touchPaths clock routes paths).lookup k = some q) : ∃ p, paths.lookup k = some p ∧ p.items = q.items := by
  induction routes generalizing clock paths with
  | nil => exact ⟨q,found,rfl⟩
  | cons v routes ih =>
    unfold touchPaths at found
    split at found
    · exact ih _ _ found
    next p held =>
    obtain ⟨p',found,same⟩ := ih _ _ found
    split at found
    · rw [lookup_insert_eq] at found
      split at found
      · next key =>
        cases found
        exact ⟨p,key ▸ held,same⟩
      · exact ⟨p',found,same⟩
    · exact ⟨p',found,same⟩

theorem sound_updateUsedTime (target neighbor : Address) (sound : Sound cfg t) :
    Sound cfg (t.updateUsedTime clock target neighbor) ∧ (t.updateUsedTime clock target neighbor).self = t.self := by
  unfold Table.updateUsedTime
  split
  · exact ⟨sound,rfl⟩
  refine ⟨sound.fewer cfg rfl ?_,rfl⟩
  rintro items ⟨k,q,found,rfl⟩
  rcases found with inTable | inStore
  · obtain ⟨p,held,same⟩ := touchPaths_items _ _ _ inTable
    exact ⟨k,p,.inl held,same⟩
  · exact ⟨k,q,.inr inStore,rfl⟩

theorem nodup_concat {self : Address} {items : List Address} (passable : Passable self items) : (items ++ [self]).Nodup := by
  refine List.nodup_append.mpr ⟨passable.1,List.nodup_singleton _,fun a member b single same => ?_⟩
  rw [same,List.mem_singleton.mp single] at member
  exact passable.2 member

theorem generatePaths_nodup (passable : ∀ p ∈ paths, Passable t.self p.items) :
    ∀ p ∈ t.generatePaths cfg now paths, p.items.Nodup := by
  unfold Table.generatePaths
  split
  · intro p member
    rw [List.mem_singleton.mp member]
    exact List.nodup_singleton _
  · intro p member
    obtain ⟨v,inside,rfl⟩ := List.mem_map.mp member
    exact nodup_concat (passable v inside)

theorem shortest_mem (best : Path) (rest : List Path) : shortest best rest ∈ best :: rest := by
  induction rest generalizing best with
  | nil => exact List.mem_singleton_self _
  | cons v rest ih =>
    unfold shortest
    split
    · exact List.mem_cons_of_mem _ (ih v)
    rcases List.mem_cons.mp (ih best) with same | later
    · rw [same]
      exact List.mem_cons_self ..
    · exact List.mem_cons_of_mem _ (List.mem_cons_of_mem _ later)

theorem get_passable (sound : Sound cfg t) {target : Address} {paths : List Path} (answer : t.get target = .ok paths) :
    ∀ p ∈ paths, Passable t.self p.items := by
  unfold Table.get at answer
  split at answer
  · cases answer
  dsimp only at answer
  split at answer
  · cases answer
  cases answer
  intro p member
  obtain ⟨v,_,found⟩ := List.mem_filterMap.mp member
  exact (sound p.items ⟨v.pathKey,p,.inl found,rfl⟩).1

def carried : Msg → List PbPath
  | .req r => r.paths
  | .resp r => r.paths

def Clean (sent : List Packet) : Prop := ∀ p ∈ sent, ∀ v ∈ carried p.msg, v.items.Nodup

/-- A node that stores good paths, and whose waiting handlers have some to pass on. -/
structure Healthy (s : Service) : Prop where
  table : Sound cfg s.routeTable
  waiting : ∀ w ∈ s.waiting, (∀ v ∈ w.req.paths, Passable s.self v.items) ∧ ∀ p ∈ w.nowPaths, Passable s.self p.items

/-- What a node does leaves it healthy and sends clean messages. -/
structure Fine (s : Service) (r : Service × List Packet) : Prop where
  healthy : Healthy cfg r.1
  self : r.1.self = s.self
  clean : Clean r.2

variable {s : Service}

theorem Healthy.congr {s' : Service} (healthy : Healthy cfg s) (table : s'.routeTable = s.routeTable)
    (waiting : s'.waiting = s.waiting) : Healthy cfg s' where
  table := table ▸ healthy.table
  waiting := by
    rw [waiting,Service.self,table]
    exact healthy.waiting

variable {cfg} in
theorem fine_still {r : Service × List Packet} (healthy : Healthy cfg s) (table : r.1.routeTable = s.routeTable)
    (waiting : r.1.waiting = s.waiting) (clean : Clean r.2) : Fine cfg s r :=
  ⟨healthy.congr cfg table waiting,congrArg Table.self table,clean⟩

theorem Healthy.withTable (healthy : Healthy cfg s) (sound : Sound cfg t) (self : t.self = s.self) :
    Healthy cfg { s with routeTable := t } where
  table := sound
  waiting := by
    change ∀ w ∈ s.waiting, (∀ v ∈ w.req.paths, Passable t.self v.items) ∧ ∀ p ∈ w.nowPaths, Passable t.self p.items
    rw [self]
    exact healthy.waiting

theorem clean_cons {p : Packet} {sent : List Packet} (first : ∀ v ∈ carried p.msg, v.items.Nodup) (rest : Clean sent) :
    Clean (p :: sent) := by
  intro q member
  rcases List.mem_cons.mp member with rfl | later
  · exact first
  · exact rest q later

theorem sendReqs_rest {req : RouteReq} (src : Address) (ch : Option Nat) (clock : Nat → Int) (next : List Address)
    (s : Service) (nodup : ∀ v ∈ req.paths, v.items.Nodup) :
    (sendReqs req src ch clock next s).1.routeTable = s.routeTable ∧
      (sendReqs req src ch clock next s).1.waiting = s.waiting ∧ Clean (sendReqs req src ch clock next s).2 := by
  induction next generalizing clock s with
  | nil => exact ⟨rfl,rfl,nofun⟩
  | cons v next ih =>
    unfold sendReqs
    dsimp only
    obtain ⟨table,waiting,clean⟩ := ih (fun i => clock (i + 2))
      { s with pendingCalls := (s.pendingCalls.add clock req.dest src v ch).2 }
    refine ⟨table,waiting,?_⟩
    split
    · exact clean
    · exact clean_cons nodup clean

theorem fine_doRouteReq (healthy : Healthy cfg s) {clock : Nat → Int} {next : List Address} (src : Address) {target : Address}
    {req : Option RouteReq} {ch : Option Nat} (passable : ∀ r, req = some r → ∀ v ∈ r.paths, Passable s.self v.items) :
    Fine cfg s (doRouteReq cfg clock next src target req ch s) := by
  have nodup : ∀ v ∈ (reqToSend cfg (clock 0) src target req s).paths, v.items.Nodup := by
    cases req with
    | none => exact generatePaths_nodup cfg _ (fun _ member => absurd member List.not_mem_nil)
    | some r => exact generatePaths_nodup cfg _ (passable r rfl)
  obtain ⟨table,waiting,clean⟩ := sendReqs_rest src ch (fun i => clock (i + 1)) next s nodup
  exact fine_still healthy table waiting clean

theorem fine_forwardReq (healthy : Healthy cfg s) {clock : Nat → Int} {kad : Kad} {peer : Address} {req : RouteReq}
    (passable : ∀ v ∈ req.paths, Passable s.self v.items) : Fine cfg s (forwardReq cfg clock kad peer req s) := by
  refine fine_doRouteReq cfg healthy peer ?_
  rintro r ⟨⟩
  exact passable

/-- A response that a node starts, with a path of its table or with itself. -/
theorem doRouteResp_nodup (target last : Address) (paths : List Path) (uType : Int)
    (passable : ∀ p ∈ paths, Passable s.self p.items) :
    ∀ v ∈ (doRouteResp cfg now target last none paths uType s).paths, v.items.Nodup := by
  simp only [doRouteResp]
  split
  · cases paths with
    | nil => exact nofun
    | cons first rest =>
      intro p member
      rw [List.mem_singleton.mp member]
      exact nodup_concat (passable _ (shortest_mem first rest))
  · exact generatePaths_nodup cfg now (fun _ member => absurd member List.not_mem_nil)

theorem clean_single {p : Packet} (nodup : ∀ v ∈ carried p.msg, v.items.Nodup) : Clean [p] :=
  clean_cons nodup nofun

theorem nowPaths_passable (healthy : Healthy cfg s) {req : RouteReq} :
    ∀ p ∈ s.nowPaths cfg req, Passable s.self p.items := by
  unfold Service.nowPaths
  split
  · exact nofun
  · next paths answer =>
    intro p member
    exact get_passable cfg healthy.table answer p (List.mem_of_mem_filter member)

theorem fine_answerReq (healthy : Healthy cfg s) {clock : Nat → Int} (kad : Kad) {peer : Address} {req : RouteReq}
    (passable : ∀ v ∈ req.paths, Passable s.self v.items) : Fine cfg s (answerReq cfg clock kad peer req s) := by
  unfold answerReq
  dsimp only
  split
  · exact fine_still healthy rfl rfl (clean_single (doRouteResp_nodup cfg _ _ _ [] _ nofun))
  split
  · refine fine_doRouteReq cfg healthy peer ?_
    rintro r ⟨⟩
    exact passable
  split
  · split
    · refine ⟨⟨healthy.table,fun w member => ?_⟩,rfl,nofun⟩
      rcases List.mem_append.mp member with old | new
      · exact healthy.waiting w old
      · rw [List.mem_singleton.mp new]
        exact ⟨passable,nowPaths_passable cfg healthy⟩
    · exact fine_still healthy rfl rfl
        (clean_single (doRouteResp_nodup cfg _ _ _ _ _ (nowPaths_passable cfg healthy)))
  · exact fine_forwardReq cfg healthy passable

variable {w : World}

section
variable (parseAddress : UnderlayResp → Option Info)

theorem healthy_learn (healthy : Healthy cfg s) {clock : Nat → Int} {uList : List UnderlayResp}
    (storable : ∀ v ∈ paths, Storable cfg s.self v.items) :
    Healthy cfg (s.learn cfg parseAddress clock paths uList) ∧ (s.learn cfg parseAddress clock paths uList).self = s.self := by
  obtain ⟨sound,self⟩ := sound_savePaths cfg clock healthy.table storable
  exact ⟨(healthy.withTable cfg sound self).congr cfg rfl rfl,self⟩

/-- A request is passed on, answered or kept only if its paths do not name the node. -/
theorem fine_onRouteReq (healthy : Healthy cfg s) {clock : Nat → Int} (kad : Kad) {peer : Address} {req : RouteReq}
    (nodup : ∀ v ∈ req.paths, v.items.Nodup) : Fine cfg s (onRouteReq cfg parseAddress clock kad peer req s) := by
  unfold onRouteReq
  split
  · exact fine_still healthy rfl rfl nofun
  next accepted =>
  simp only [List.any_eq_true,Bool.or_eq_true,decide_eq_true_eq,List.contains_iff_mem,not_exists,not_and,not_or,
    not_lt] at accepted
  have passable : ∀ v ∈ req.paths, Passable s.self v.items :=
    fun v member => ⟨nodup v member,(accepted v member).2⟩
  obtain ⟨learnt,self⟩ := healthy_learn cfg parseAddress healthy
    (fun v member => ⟨passable v member,(accepted v member).1⟩)
  obtain ⟨after,self',clean⟩ := fine_answerReq cfg learnt kad
    (by rw [self]; exact passable)
  exact ⟨after,self'.trans self,clean⟩

theorem fine_onUnderlay (healthy : Healthy cfg s) {clock : Nat → Int} (kad : Kad) {found : Option Info} {w : Waiting}
    (passable : (∀ v ∈ w.req.paths, Passable s.self v.items) ∧ ∀ p ∈ w.nowPaths, Passable s.self p.items) :
    Fine cfg s (onUnderlay cfg clock kad found w s) := by
  cases found with
  | none => exact fine_forwardReq cfg healthy passable.1
  | some addr =>
    refine fine_still healthy rfl rfl (clean_single ?_)
    exact doRouteResp_nodup cfg _ _ _ _ _ passable.2

/-- All callers that wait for a target on other nodes are on one node. -/
def OneCaller (self : Address) (res : List PendCallResItem) : Prop :=
  ∀ u ∈ res, ∀ v ∈ res, u.src ≠ self → v.src ≠ self → u.src = v.src

theorem respCallers_skipped (s : Service) (target last : Address) (clock : Nat → Int) {res : List PendCallResItem}
    {skip : List Address} (told : ∀ v ∈ res, v.src ≠ s.self → v.src ∈ skip) (resp : RouteResp) :
    (respCallers cfg target last clock res skip resp s).1 = [] := by
  induction res generalizing clock with
  | nil => rfl
  | cons v res ih =>
    have rest := ih clock (fun u member => told u (List.mem_cons_of_mem _ member))
    unfold respCallers
    split
    · next other =>
      rw [if_neg (not_not.mpr (told v (List.mem_cons_self ..) other))]
      exact rest
    · exact rest

theorem respCallers_clean (target last : Address) (clock : Nat → Int) {res : List PendCallResItem}
    (one : OneCaller s.self res) {resp : RouteResp} (passable : ∀ v ∈ resp.paths, Passable s.self v.items) :
    Clean (respCallers cfg target last clock res [] resp s).1 := by
  induction res generalizing clock with
  | nil => exact nofun
  | cons v res ih =>
    have rest := ih clock (fun u left w right => one u (List.mem_cons_of_mem _ left) w (List.mem_cons_of_mem _ right))
    unfold respCallers
    split
    · next other =>
      dsimp only
      rw [respCallers_skipped]
      · exact clean_single (generatePaths_nodup cfg _ passable)
      · intro u member elsewhere
        rw [one u (List.mem_cons_of_mem _ member) v (List.mem_cons_self ..) elsewhere other]
        exact List.mem_singleton_self _
    · exact rest

/-- The callers that a response about a target finds. -/
def callers (s : Service) (target : Address) : List PendCallResItem :=
  (s.pendingCalls.respList.lookup (getTargetKey target)).getD []

theorem get_callers (pend : PendCallResTab) (target next : Address) :
    (pend.get target next).1 = (pend.respList.lookup (getTargetKey target)).getD [] := by
  unfold PendCallResTab.get
  cases pend.respList.lookup (getTargetKey target) <;> rfl

/-- A response is not discarded: some path is short enough, and no such path names the node. -/
def Accepts (s : Service) (resp : RouteResp) : Prop :=
  (∃ v ∈ resp.paths, v.items.length ≤ cfg.maxTTL) ∧
    ∀ v ∈ resp.paths, v.items.length ≤ cfg.maxTTL → s.self ∉ v.items

theorem fine_onRouteResp (healthy : Healthy cfg s) {clock : Nat → Int} {peer : Address} {resp : RouteResp}
    (nodup : ∀ v ∈ resp.paths, v.items.Nodup) (one : Accepts cfg s resp → OneCaller s.self (callers s resp.dest)) :
    Fine cfg s ((onRouteResp cfg parseAddress clock peer resp s).1,(onRouteResp cfg parseAddress clock peer resp s).2.1) := by
  unfold onRouteResp
  dsimp only
  split
  · exact fine_still healthy rfl rfl nofun
  split
  · exact fine_still healthy rfl rfl nofun
  next left accepted =>
  have kept : ∀ v ∈ resp.paths.filter (fun v => v.items.length ≤ cfg.maxTTL), Storable cfg s.self v.items := by
    intro v member
    obtain ⟨inside,short⟩ := List.mem_filter.mp member
    refine ⟨⟨nodup v inside,fun named => accepted ?_⟩,of_decide_eq_true short⟩
    exact List.any_eq_true.mpr ⟨v,member,List.contains_iff_mem.mpr named⟩
  have accepts : Accepts cfg s resp := by
    constructor
    · obtain ⟨v,member⟩ := List.exists_mem_of_length_pos (Nat.pos_of_ne_zero left)
      obtain ⟨inside,short⟩ := List.mem_filter.mp member
      exact ⟨v,inside,of_decide_eq_true short⟩
    · intro v inside short
      exact (kept v (List.mem_filter.mpr ⟨inside,decide_eq_true short⟩)).1.2
  obtain ⟨learnt,self⟩ := healthy_learn cfg parseAddress healthy kept
  unfold respForward
  dsimp only
  rw [get_callers]
  refine ⟨learnt.congr cfg rfl rfl,self,respCallers_clean cfg _ _ _ ?_ ?_⟩
  · rw [self]
    exact one accepts
  intro v member
  rw [self]
  exact (kept v member).1

theorem fine_act (healthy : Healthy cfg s) (a : Action) : Fine cfg s (s.act cfg a) := by
  cases a with
  | findRoute clock kad target ch =>
    change Fine cfg s (findRoute cfg clock kad target ch s)
    unfold findRoute
    split
    · exact fine_still healthy rfl rfl nofun
    dsimp only
    split
    · exact fine_doRouteReq cfg healthy _ nofun
    · exact fine_still healthy rfl rfl nofun
  | giveUp target forward | gcReqLog clock expire order | gcResItems clock expire order =>
    exact fine_still healthy rfl rfl nofun
  | underlay clock kad found i =>
    simp only [Service.act]
    split
    · exact fine_still healthy rfl rfl nofun
    next w waits =>
    have resumed : Healthy cfg { s with waiting := s.waiting.eraseIdx i } :=
      ⟨healthy.table,fun w member => healthy.waiting w (List.mem_of_mem_eraseIdx member)⟩
    obtain ⟨after,self,clean⟩ := fine_onUnderlay cfg resumed kad
      (healthy.waiting w (List.mem_of_getElem? waits))
    exact ⟨after,self,clean⟩
  | gcTable expire clock order =>
    obtain ⟨sound,self⟩ := sound_gc cfg expire clock order healthy.table
    exact ⟨healthy.withTable cfg sound self,self,nofun⟩
  | delRoute target =>
    simp only [Service.act,delRoute]
    split
    · exact fine_still healthy rfl rfl nofun
    · next route _ =>
      obtain ⟨sound,self⟩ := sound_deletes cfg healthy.table
      exact ⟨healthy.withTable cfg sound self,self,nofun⟩
  | updateUsedTime clock target neighbor =>
    obtain ⟨sound,self⟩ := sound_updateUsedTime cfg clock target neighbor healthy.table
    exact ⟨healthy.withTable cfg sound self,self,nofun⟩

/-- The condition on an event in the network before it: a response that is
    delivered and not discarded finds callers of one other node at most. -/
def Fits (w : World) : Event → Prop
  | .deliver _ _ i => ∀ p resp s, w.packets[i]? = some p → p.msg = .resp resp → w.nodes.lookup p.dst = some s →
      Accepts cfg s resp → OneCaller s.self (callers s resp.dest)
  | _ => True

def AllFit : World → List Event → Prop
  | _, [] => True
  | w, e :: events => Fits cfg w e ∧ AllFit (w.step cfg parseAddress e) events

/-- No path under way comes to a node twice, nor does a stored one, which also
    leaves out the node that stores it and has at most `maxTTL` nodes. -/
def LoopFree (w : World) : Prop :=
  Clean w.packets ∧ ∀ a s, w.nodes.lookup a = some s → ∀ items, Holds s.routeTable items →
    items.Nodup ∧ a ∉ items ∧ items.length ≤ cfg.maxTTL

structure Invariant (w : World) : Prop where
  clean : Clean w.packets
  healthy : ∀ a s, w.nodes.lookup a = some s → s.self = a ∧ Healthy cfg s

theorem invariant_fresh (fresh : Fresh w) : Invariant cfg w where
  clean := by rw [fresh.1]; exact nofun
  healthy := by
    intro a s found
    obtain ⟨book,rfl⟩ := fresh.2 a s found
    exact ⟨rfl,⟨fun items ⟨k,p,held,_⟩ => by simp [newRouteTable] at held,nofun⟩⟩

section
variable (inv : Invariant cfg w)
include inv

theorem invariant_put {a : Address} {r : Service × List Packet} (found : w.nodes.lookup a = some s)
    (fine : Fine cfg s r) : Invariant cfg (w.put a r) where
  clean := by
    intro p member
    rcases List.mem_append.mp member with old | new
    · exact inv.clean p old
    · exact fine.clean p new
  healthy := by
    intro b s' found'
    simp only [World.put,lookup_insert_eq] at found'
    split at found'
    · next same =>
      cases found'
      exact ⟨fine.self.trans ((inv.healthy a s found).1.trans same.symm),fine.healthy⟩
    · exact inv.healthy b s' found'

theorem invariant_drop {i : Nat} : Invariant cfg { w with packets := w.packets.eraseIdx i } where
  clean := fun p member => inv.clean p (List.mem_of_mem_eraseIdx member)
  healthy := inv.healthy

theorem invariant_step {e : Event} (fits : Fits cfg w e) : Invariant cfg (w.step cfg parseAddress e) := by
  cases e with
  | act node a =>
    simp only [World.step]
    split
    · exact inv
    · next s found => exact invariant_put cfg inv found (fine_act cfg (inv.healthy node s found).2 a)
  | deliver clock kad i =>
    simp only [World.step]
    split
    · exact inv
    next p packet =>
    split
    · exact invariant_drop cfg inv
    next s found =>
    refine invariant_put cfg (invariant_drop cfg inv) found ?_
    have healthy := (inv.healthy p.dst s found).2
    have nodup := inv.clean p (List.mem_of_getElem? packet)
    unfold Service.handle
    split
    · next req msg =>
      rw [msg] at nodup
      exact fine_onRouteReq cfg parseAddress healthy kad nodup
    · next resp msg =>
      rw [msg] at nodup
      exact fine_onRouteResp cfg parseAddress healthy nodup (fits p resp s packet msg found)
  | lose i => exact invariant_drop cfg inv

theorem invariant_run {events : List Event} (fit : AllFit cfg parseAddress w events) :
    Invariant cfg (events.foldl (World.step cfg parseAddress) w) := by
  induction events generalizing w with
  | nil => exact inv
  | cons e events ih => exact ih (invariant_step cfg parseAddress inv fit.1) fit.2

end

/-- In a network that starts with empty tables, no path that is sent or stored
    has a loop, in every run whose responses find callers of one other node only. -/
theorem loop_free {w : World} (fresh : Fresh w) (events : List Event) (fit : AllFit cfg parseAddress w events) :
    LoopFree cfg (events.foldl (World.step cfg parseAddress) w) := by
  have inv := invariant_run cfg parseAddress (invariant_fresh cfg fresh) fit
  refine ⟨inv.clean,fun a s found items held => ?_⟩
  obtain ⟨self,healthy⟩ := inv.healthy a s found
  obtain ⟨⟨nodup,outside⟩,short⟩ := healthy.table items held
  exact ⟨nodup,self ▸ outside,short⟩

end

def network (l : List Address) : World where
  nodes := l.foldr (fun a m => m.insert a { routeTable := newRouteTable a {} }) ∅

theorem fresh_network {l : List Address} : Fresh (network l) := by
  refine ⟨rfl,?_⟩
  induction l with
  | nil => exact nofun
  | cons b l ih =>
    intro a s found
    change ((network l).nodes.insert b { routeTable := newRouteTable b {} }).lookup a = some s at found
    rw [lookup_insert_eq] at found
    split at found
    · next same =>
      cases found
      exact ⟨∅,by rw [same]⟩
    · exact ih a s found

def view (neighbor peer : Address) : Kad where
  depth := 0
  binPeers _ := []
  neighbors := [neighbor]
  peers := [peer]
  randomSubset now _ := now

def seek (a : UInt8) : Event := .act [a] (.findRoute (fun _ => 0) (view [3] [3]) [4] 0)

/-- The oldest message arrives, at `[3]` which knows `[4]`, or elsewhere. -/
def arrive : Event := .deliver (fun _ => 0) (view [4] [4]) 0

def sought : Msg → Bytes
  | .req r => r.dest
  | .resp r => r.dest

/-- Node `[1]` asks `[3]`, which asks `[4]`, and the response comes back. -/
theorem loop_free_single :
    LoopFree sampleConfig ([seek 1,arrive,arrive,arrive].foldl (World.step sampleConfig (fun _ => none))
      (network [[1],[2],[3],[4]])) := by
  have asked : ∀ w : World, (∃ p, w.packets[0]? = some p ∧ ∃ r, p.msg = .req r) → Fits sampleConfig w arrive := by
    rintro w ⟨p,first,r,isReq⟩ p' resp s first' isResp
    rw [first,Option.some.injEq] at first'
    rw [← first',isReq] at isResp
    cases isResp
  apply loop_free sampleConfig _ fresh_network
  refine ⟨trivial,asked _ ⟨_,rfl,_,rfl⟩,asked _ ⟨_,rfl,_,rfl⟩,?_,trivial⟩
  intro p resp s first isResp found _
  have packet : ([seek 1,arrive,arrive].foldl (World.step sampleConfig (fun _ => none))
      (network [[1],[2],[3],[4]])).packets[0]?.map (fun p => (p.dst,sought p.msg)) = some ([3],[4]) := by decide +kernel
  have waits : (([seek 1,arrive,arrive].foldl (World.step sampleConfig (fun _ => none))
      (network [[1],[2],[3],[4]])).nodes.lookup [3]).map (fun s => callers s [4]) = some [⟨[1],0,none⟩] := by
    decide +kernel
  have same : p.dst = [3] ∧ resp.dest = [4] := by
    have eq := (congrArg (Option.map (fun p : Packet => (p.dst,sought p.msg))) first).symm.trans packet
    rw [Option.map_some,Option.some.injEq,Prod.mk.injEq,isResp] at eq
    exact eq
  rw [same.1] at found
  have one : callers s resp.dest = [⟨[1],0,none⟩] := by
    rw [same.2]
    exact Option.some.inj ((congrArg (Option.map (fun s => callers s [4])) found).symm.trans waits)
  rw [one]
  intro u left v right _ _
  rw [List.mem_singleton.mp left,List.mem_singleton.mp right]

/-- Two nodes ask for the same target by way of a third one, which passes the
    response on to the second of them with itself on the path twice. -/
theorem looped_second :
    Fresh (network [[1],[2],[3],[4]]) ∧
      ¬ LoopFree sampleConfig ([seek 1,seek 2,arrive,arrive,arrive,arrive].foldl
        (World.step sampleConfig (fun _ => none)) (network [[1],[2],[3],[4]])) := by
  refine ⟨fresh_network,fun free => ?_⟩
  have looped : ¬ ∀ p ∈ ([seek 1,seek 2,arrive,arrive,arrive,arrive].foldl (World.step sampleConfig (fun _ => none))
      (network [[1],[2],[3],[4]])).packets, ∀ v ∈ carried p.msg, v.items.Nodup := by decide +kernel
  exact looped free.1

end FavorX.LoopFreedom
