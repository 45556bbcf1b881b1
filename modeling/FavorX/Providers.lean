import FavorX.Aco
import FavorX.Answers

/-!
Who is known to have the chunks of a file. The vectors that are received about a
node are united, in whatever order they come (`discovered_union`); and the routes
that are found for a chunk lead over different neighbours, every node that has the
chunk among them (`findRoutes_covers`).
-/
namespace FavorX.Providers
open FiniteMaps Shed Bits Presence Announcements
open Answers (Node)
open Aco (Route)

/-! ### Vectors that are received -/

/-- The node after vectors were received about an overlay, each with the time. -/
def receive (rootCid overlay : Address) (received : List (Int × Bytes)) (node : Node) : Option Node :=
  received.foldlM (fun node r => node.updateDiscover r.1 rootCid overlay r.2) node

def longest (vectors : List Bytes) : Nat := vectors.foldl (fun n bv => max n bv.length) 0

/-- The vector is the union of those received. -/
def Unites (vectors : List Bytes) : Option Entry → Prop
  | none => vectors = []
  | some e => vectors ≠ [] ∧ e.bit.len = 8 * longest vectors ∧ e.bit.b.length = longest vectors ∧
      ∀ i, bitAt e.bit.b i = vectors.any (bitAt · i)

variable {m : Vectors} {rootCid overlay : Address} {vectors : List Bytes} {bv : Bytes}

theorem longest_snoc : longest (vectors ++ [bv]) = max (longest vectors) bv.length := by simp [longest]

theorem longest_le {n : Nat} : longest vectors ≤ n ↔ ∀ bv ∈ vectors, bv.length ≤ n := by
  induction vectors using List.reverseRecOn with
  | nil => simp [longest]
  | append_singleton vectors bv ih => simp [longest_snoc,ih,or_imp,forall_and]

theorem Unites.unique {vectors' : List Bytes} {found found' : Option Entry} (united : Unites vectors found)
    (united' : Unites vectors' found') (same : ∀ bv, bv ∈ vectors' ↔ bv ∈ vectors) :
    found'.map Entry.bit = found.map Entry.bit := by
  have empty : vectors' = [] ↔ vectors = [] := by simp only [List.eq_nil_iff_forall_not_mem,same]
  have long : longest vectors' = longest vectors := eq_of_forall_ge_iff fun n => by simp only [longest_le,same]
  cases found <;> cases found' <;> simp only [Unites] at united united'
  · rfl
  · exact absurd (empty.mpr united) united'.1
  · exact absurd (empty.mp united') united.1
  next e e' =>
  have bytes : e'.bit.b = e.bit.b := by
    refine eq_of_bits (by grind) (fun i => ?_)
    rw [united'.2.2.2,united.2.2.2,Bool.eq_iff_iff,List.any_eq_true,List.any_eq_true]
    simp only [same]
  exact congrArg₂ (fun l b => some (BitVector.mk l b)) (by grind) bytes

theorem putDiscover_unites (united : Unites vectors (vectorAt m rootCid overlay)) (filled : bv ≠ []) (now : Int) :
    ∃ e, putDiscover m now rootCid overlay bv (bv.length * 8) = .ok e ∧ Unites (vectors ++ [bv]) (some e) := by
  have positive := List.length_pos_iff.mpr filled
  have made : BitVector.newFromBytes bv (bv.length * 8) = .ok ⟨bv.length * 8,bv⟩ := by
    rw [BitVector.newFromBytes,if_neg (by omega),if_neg (by omega)]
  unfold putDiscover
  simp only [Unites,longest_snoc,made]
  cases known : vectorAt m rootCid overlay with
  | none =>
    rw [known] at united
    obtain rfl : vectors = [] := united
    exact ⟨_,rfl,by simp,by simp [longest]; omega,by simp [longest],by simp⟩
  | some data =>
    rw [known] at united
    obtain ⟨-,len,length,bits⟩ := united
    dsimp only
    -- the longer of the two takes over the bits of the other
    split
    · obtain ⟨all,set,sameLen,sameLength,allBits⟩ :=
        setBytes_fits (show data.bit.b.length ≤ (BitVector.mk (bv.length * 8) bv).b.length by dsimp only; omega)
      exact ⟨{ data with bit := all },by simp only [bind,Except.bind,set]; rfl,by simp,by grind,by grind,by grind⟩
    · obtain ⟨all,set,sameLen,sameLength,allBits⟩ := setBytes_fits (show bv.length ≤ data.bit.b.length by omega)
      exact ⟨{ data with bit := all },by simp only [bind,Except.bind,set]; rfl,by simp,by grind,by grind,by grind⟩

theorem receive_unites {node : Node} {received : List (Int × Bytes)}
    (united : Unites vectors (vectorAt node.chunkStore.discover rootCid overlay)) (filled : ∀ r ∈ received, r.2 ≠ []) :
    ∃ node', receive rootCid overlay received node = some node' ∧
      Unites (vectors ++ received.map Prod.snd) (vectorAt node'.chunkStore.discover rootCid overlay) := by
  induction received generalizing node vectors with
  | nil => exact ⟨node,rfl,by rwa [List.map_nil,List.append_nil]⟩
  | cons r received ih =>
    obtain ⟨e,put,next⟩ := putDiscover_unites united (filled r List.mem_cons_self) r.1
    have updated : node.updateDiscover r.1 rootCid overlay r.2 =
        some (node.withStore (node.chunkStore.store .discover rootCid overlay e)) := by
      simp only [Node.updateDiscover,Chunkstore.put,Chunkstore.putOne_eq,Chunkstore.newVector,put,Except.map]
      rfl
    have stored := node.chunkStore.vectorAt_store .discover .discover rootCid overlay rootCid overlay e
    rw [if_pos ⟨rfl,rfl,rfl⟩] at stored
    obtain ⟨node',run,all⟩ := @ih _ (node.withStore (node.chunkStore.store .discover rootCid overlay e))
      (stored ▸ next) (fun r later => filled r (List.mem_cons_of_mem _ later))
    rw [List.append_assoc] at all
    refine ⟨node',?_,all⟩
    rw [receive,List.foldlM_cons,updated]
    exact run

/-- Whatever vectors are received about an overlay of which nothing was known, the vector that is kept is as long as
the longest one and has the bits of all of them. So neither their order nor repetitions matter. -/
theorem discovered_union (node : Node) (rootCid overlay : Address)
    (unknown : vectorAt node.chunkStore.discover rootCid overlay = none) (received : List (Int × Bytes))
    (filled : ∀ r ∈ received, r.2 ≠ []) : ∃ node', receive rootCid overlay received node = some node' ∧
      (match vectorAt node'.chunkStore.discover rootCid overlay with
        | none => received = []
        | some e => e.bit.len = 8 * longest (received.map Prod.snd) ∧
          ∀ i : Nat, e.bit.get i = .ok true ↔ ∃ bv ∈ received.map Prod.snd, bitAt bv i) ∧
      ∀ again : List (Int × Bytes), (∀ bv, bv ∈ again.map Prod.snd ↔ bv ∈ received.map Prod.snd) →
        ∃ node'', receive rootCid overlay again node = some node'' ∧
          (vectorAt node''.chunkStore.discover rootCid overlay).map Entry.bit =
            (vectorAt node'.chunkStore.discover rootCid overlay).map Entry.bit := by
  have start : Unites [] (vectorAt node.chunkStore.discover rootCid overlay) := by
    rw [unknown]
    rfl
  obtain ⟨node',run,united⟩ := receive_unites start filled
  refine ⟨node',run,?_,?_⟩
  · cases found : vectorAt node'.chunkStore.discover rootCid overlay with
    | none =>
      rw [found] at united
      exact List.map_eq_nil_iff.mp united
    | some e =>
      rw [found] at united
      refine ⟨united.2.1,fun i => ?_⟩
      rw [get_eq_true,united.2.2.2]
      exact List.any_eq_true
  intro again same
  have filled' : ∀ r ∈ again, r.2 ≠ [] := by
    intro r member
    obtain ⟨r',held,equal⟩ := List.mem_map.mp ((same r.2).mp (List.mem_map_of_mem member))
    exact equal ▸ filled r' held
  obtain ⟨node'',run',united'⟩ := receive_unites start filled'
  exact ⟨node'',run',united.unique united' same⟩

theorem discovered_union_three : ∃ node', receive [1] [7] [(0,[1]),(5,[0,2]),(9,[1])]
    ⟨[9],fun _ => { self := [9] },{}⟩ = some node' ∧
      (vectorAt node'.chunkStore.discover [1] [7]).map Entry.bit = some ⟨16,[1,2]⟩ :=
  have ⟨_,run,_⟩ := discovered_union ⟨[9],fun _ => { self := [9] },{}⟩ [1] [7] rfl [(0,[1]),(5,[0,2]),(9,[1])] (by simp)
  ⟨_,run,by cases run; rfl⟩

/-! ### Routes to the providers -/

/-- The routes to the nodes whose vector has the bit. -/
def directRoutes (bit : Int) : List Consumer → Except Err (List Route)
  | [] => .ok []
  | c :: consumerList =>
    if c.len ≤ bit then directRoutes bit consumerList
    else do
      let bv ← BitVector.newFromBytes c.b c.len
      let has ← bv.get bit
      let res ← directRoutes bit consumerList
      pure (if has then ⟨c.overlay,c.overlay⟩ :: res else res)

/-- Routes over neighbours that are not used yet. -/
def addRelays (targetNode : Address) : List Address → List Address × List Route → List Address × List Route
  | [], s => s
  | overlay :: overlays, (exist,res) =>
    if overlay ∈ exist then addRelays targetNode overlays (exist,res)
    else addRelays targetNode overlays (exist ++ [overlay],res ++ [⟨overlay,targetNode⟩])

section
-- no list where the call fails
variable (getTargetNeighbor : Address → Option (List Address))

def relayed : List Route → List Address × List Route → List Address × List Route
  | [], s => s
  | route :: routes, s =>
    match getTargetNeighbor route.targetNode with
    | none => relayed routes s
    | some overlays => relayed routes (addRelays route.targetNode overlays s)

def addRoutes (routes : List Route) : List Route :=
  if routes.length ≤ 0 then routes
  else
    let (exist,res) := relayed getTargetNeighbor routes ([],[])
    if res.length = 0 then routes else res ++ routes.filter (fun route => route.linkNode ∉ exist)

def getRoutes (consumerList : List Consumer) (bit : Int) : Except Err (List Route) :=
  (directRoutes bit consumerList).map (addRoutes getTargetNeighbor)

def consumer (e : Σ _ : Address, Entry) : Consumer := ⟨e.1,e.2.bit.len,e.2.bit.b,e.2.time⟩

/-- What `FindRoutes` can return: the vectors of the file are looked at in some order. -/
def FindRoutes (cs : Chunkstore) (rootCid : Address) (bit : Int) (routes : List Route) : Prop :=
  match cs.get .discover rootCid with
  | none => routes = []
  | some d => ∃ order : List (Σ _ : Address, Entry), (order : Multiset _) = d.entries ∧
      (match getRoutes getTargetNeighbor (order.map consumer) bit with
        | .ok found => routes = found
        | .error .panicked => False
        | .error _ => routes = [])

end

/-- The vector of the overlay has the bit. -/
def Has (cs : Chunkstore) (rootCid : Address) (bit : Nat) (overlay : Address) : Prop :=
  ∃ e, vectorAt cs.discover rootCid overlay = some e ∧ bit < e.bit.len ∧ e.bit.get bit = .ok true

variable (getTargetNeighbor : Address → Option (List Address)) {routes : List Route} {has : Address → Prop}
  {s : List Address × List Route}

theorem directRoutes_eq {consumers : List Consumer} {bit : Nat}
    (made : ∀ c ∈ consumers, BitVector.newFromBytes c.b c.len = .ok ⟨c.len,c.b⟩) :
    directRoutes bit consumers = .ok ((consumers.filter fun c : Consumer => (bit : Int) < c.len && bitAt c.b bit).map
      fun c => ⟨c.overlay,c.overlay⟩) := by
  induction consumers with
  | nil => rfl
  | cons c consumers ih =>
    obtain ⟨here,later⟩ := List.forall_mem_cons.mp made
    rw [directRoutes,ih later]
    split
    · next short => simp [not_lt.mpr short]
    next long =>
    have wide : ¬ (c.b.length * 8 : Int) < c.len := by
      intro narrow
      rw [BitVector.newFromBytes,if_neg (by omega),if_pos narrow] at here
      cases here
    have get := get_inside (show bit < 8 * (BitVector.mk c.len c.b).b.length by dsimp only; omega)
    rw [here]
    simp only [bind,Except.bind,get,not_le.mp long,decide_true,Bool.true_and,List.filter_cons]
    cases bitAt c.b bit <;> rfl

/-- The used neighbours are those of the routes, each of them once. -/
def Fresh (has : Address → Prop) (s : List Address × List Route) : Prop :=
  s.1 = s.2.map Route.linkNode ∧ s.1.Nodup ∧ ∀ r ∈ s.2, has r.targetNode

theorem addRelays_fresh {targetNode : Address} (holds : has targetNode) (overlays : List Address) (fresh : Fresh has s) :
    Fresh has (addRelays targetNode overlays s) := by
  fun_induction addRelays targetNode overlays s with
  | case1 => exact fresh
  | case2 overlay overlays exist res used ih => exact ih fresh
  | case3 overlay overlays exist res unused ih =>
    unfold Fresh at *
    grind

theorem relayed_fresh (direct : ∀ r ∈ routes, has r.targetNode) (fresh : Fresh has s) :
    Fresh has (relayed getTargetNeighbor routes s) := by
  fun_induction relayed getTargetNeighbor routes s <;> grind [addRelays_fresh]

/-- The neighbours are different, and those that have the chunk are among them. -/
def Covers (has : Address → Prop) (routes : List Route) : Prop :=
  (routes.map Route.linkNode).Nodup ∧ (∀ r ∈ routes, has r.targetNode) ∧
    ∀ overlay, has overlay → overlay ∈ routes.map Route.linkNode

theorem addRoutes_covers (covers : Covers has routes) : Covers has (addRoutes getTargetNeighbor routes) := by
  obtain ⟨distinct,direct,all⟩ := covers
  obtain ⟨used,once,targets⟩ := relayed_fresh (s := ([],[])) getTargetNeighbor direct ⟨rfl,List.nodup_nil,nofun⟩
  unfold addRoutes
  dsimp only
  split_ifs
  · exact ⟨distinct,direct,all⟩
  · exact ⟨distinct,direct,all⟩
  refine ⟨?_,by grind,by grind⟩
  rw [List.map_append,← used]
  exact once.append (distinct.sublist (List.filter_sublist.map _)) (by grind [List.Disjoint])

/-- The routes that are found for a chunk go over different neighbours to nodes that have it, and each of these nodes
is itself the neighbour of exactly one of them. The vectors are such as `NewFromBytes` makes them. -/
theorem findRoutes_covers (cs : Chunkstore) (rootCid : Address)
    (made : ∀ o e, vectorAt cs.discover rootCid o = some e → BitVector.newFromBytes e.bit.b e.bit.len = .ok e.bit)
    (bit : Nat) (routes : List Route) (found : FindRoutes getTargetNeighbor cs rootCid bit routes) :
    (routes.map Route.linkNode).Nodup ∧ (∀ r ∈ routes, Has cs rootCid bit r.targetNode) ∧
      ∀ overlay, Has cs rootCid bit overlay → ∃! r, r ∈ routes ∧ r.linkNode = overlay := by
  obtain ⟨distinct,targets,all⟩ : Covers (Has cs rootCid bit) routes := by
    unfold FindRoutes at found
    have known : ∀ o, vectorAt cs.discover rootCid o = ((cs.get .discover rootCid).getD ∅).lookup o := fun _ => rfl
    split at found
    · next none =>
      subst found
      refine ⟨List.nodup_nil,nofun,?_⟩
      rintro overlay ⟨e,held,-⟩
      rw [known,none] at held
      exact absurd held (by simp)
    next d some =>
    obtain ⟨order,entries,found⟩ := found
    have held (o : Address) (e : Entry) : ⟨o,e⟩ ∈ order ↔ vectorAt cs.discover rootCid o = Option.some e := by
      rw [known,some,← Multiset.mem_coe,entries]
      exact Finmap.mem_lookup_iff.symm
    rw [getRoutes,directRoutes_eq] at found
    · subst found
      apply addRoutes_covers
      refine ⟨?_,?_,?_⟩
      · have keys : (order.map Sigma.fst).Nodup := Multiset.coe_nodupKeys.mp (entries ▸ d.nodupKeys)
        have same : (order.map consumer).map Consumer.overlay = order.map Sigma.fst := List.map_map
        rw [List.map_map]
        exact (same ▸ keys).sublist (List.filter_sublist.map _)
      · intro r member
        obtain ⟨c,kept,rfl⟩ := List.mem_map.mp member
        obtain ⟨listed,has⟩ := List.mem_filter.mp kept
        obtain ⟨⟨o,e⟩,there,rfl⟩ := List.mem_map.mp listed
        rw [Bool.and_eq_true,decide_eq_true_iff] at has
        exact ⟨e,(held o e).mp there,has.1,get_eq_true.mpr has.2⟩
      rintro overlay ⟨e,there,has⟩
      have listed := List.mem_map_of_mem (f := consumer) ((held overlay e).mpr there)
      refine List.mem_map_of_mem (List.mem_map_of_mem (List.mem_filter.mpr ⟨listed,?_⟩))
      rw [Bool.and_eq_true,decide_eq_true_iff]
      exact ⟨has.1,get_eq_true.mp has.2⟩
    · intro c member
      obtain ⟨⟨o,e⟩,listed,rfl⟩ := List.mem_map.mp member
      exact made o e ((held o e).mp listed)
  refine ⟨distinct,targets,fun overlay holds => ?_⟩
  obtain ⟨r,member,same⟩ := List.mem_map.mp (all overlay holds)
  exact ⟨r,⟨member,same⟩,fun r' other => List.inj_on_of_nodup_map distinct other.1 member (other.2.trans same.symm)⟩

def oneProvider : Chunkstore := { discover := (∅ : Vectors).insert [1] ((∅ : Map Address Entry).insert [7] ⟨⟨8,[1]⟩,0⟩) }

theorem findRoutes_covers_one : FindRoutes (fun _ => some [[8]]) oneProvider [1] 0 [⟨[8],[7]⟩,⟨[7],[7]⟩] ∧
    ∃! r, r ∈ [Route.mk [8] [7],⟨[7],[7]⟩] ∧ r.linkNode = [7] := by
  have found : FindRoutes (fun _ => some [[8]]) oneProvider [1] 0 [⟨[8],[7]⟩,⟨[7],[7]⟩] :=
    ⟨[⟨[7],⟨⟨8,[1]⟩,0⟩⟩],rfl,rfl⟩
  refine ⟨found,(findRoutes_covers _ oneProvider [1] ?_ 0 _ found).2.2 [7] ⟨_,rfl,by decide,rfl⟩⟩
  intro o e held
  simp only [oneProvider,vectorAt,Finmap.lookup_insert,Option.getD_some,lookup_insert_eq] at held
  split at held <;> cases held
  rfl

end FavorX.Providers
