import FavorX.Presence
import FavorX.Rankings
import FavorX.RouteTable

/-!
Relayed streams. A node hands a request on to the destination or to a next hop that is a peer.
Requests carry the nodes to avoid, but `onRelay` never adds one: each node handles a request at most
once exactly when the nodes can be ranked so that every next hop lies lower (`relayed_once_iff`).
The handler of connection chains does add each node (`chained_once`).
-/
namespace FavorX.Relays
open FiniteMaps Shed Presence RouteTable Rankings

structure RouteRelayReq where
  src : Bytes := []
  srcMode : Bytes := []
  dest : Bytes
  protocolName : Bytes := []
  protocolVersion : Bytes := []
  streamName : Bytes := []
  data : Bytes := []
  midCall : Bool := false
  paths : List Bytes := []
  deriving DecidableEq

/-- What ends the handling of a request. Errors of streams and handlers come from elsewhere. -/
inductive Fault
  | stream
  | handler
  | mode (e : Shed.Err)
  | nextHopNotFound
  deriving DecidableEq

/-- What a node consults to relay: its table, its connected peers, and what a
    route discovery would do to the table. Every peer has an address. -/
structure Node where
  routeTable : Table
  peers : List Address
  findRoute : Address → Except Fault Table
  addressed : [] ∉ peers

def newModelFromBytes (m : Bytes) : Except Shed.Err BitVector := BitVector.newFromBytes m 1

def Node.isNeighbor (n : Node) (dest : Address) : Bool := n.peers.contains dest

def Node.getNextHopEffective (n : Node) (target : Address) (skips : List Address) : List Address :=
  (n.routeTable.getNextHop target skips).filter n.isNeighbor

/-- One of the effective next hops, drawn by a random number; the zero address if there is none. -/
def Node.getNextHopRandom (draw : Nat) (clock : Nat → Int) (n : Node) (target : Address) (skips : List Address) :
    Address × Node :=
  let list := n.getNextHopEffective target skips
  if 0 < list.length then
    let next := list.getD (draw % list.length) []
    (next,{ n with routeTable := n.routeTable.updateUsedTime clock target next })
  else ([],n)

def Node.getNextHopRandomOrFind (draw : Nat × Nat) (clock : Nat → Int) (n : Node) (target : Address)
    (skips : List Address) : Except Fault Address × Node :=
  let (next,n) := n.getNextHopRandom draw.1 clock target skips
  if next = [] then
    match n.findRoute target with
    | .error e => (.error e,n)
    | .ok table =>
      let (next,n) := { n with routeTable := table }.getNextHopRandom draw.2 clock target skips
      if next = [] then (.error .nextHopNotFound,n) else (.ok next,n)
  else (.ok next,n)

/-- How the local handler of the stream ends: it cannot be called, it returns, or the stream ends first. -/
inductive Called
  | refused (e : Fault)
  | returned (e : Option Fault)
  | hungUp (e : Option Fault)

/-- What one handling of a request meets: the readings from the stream, the
    local handler, random draws, the clock, and the stream to the next hop. -/
structure Input where
  read : Except Fault Unit := .ok ()
  first : Except Fault Bytes := .ok []
  called : Called := .returned (some .handler)
  draw : Nat × Nat := (0,0)
  clock : Nat → Int := fun _ => 0
  opened : Except Fault Unit := .ok ()
  written : Except Fault Unit := .ok ()

inductive Outcome
  | ended (e : Option Fault)
  | forwarded (next : Address) (req : RouteRelayReq)

/-- The next hop of a request: its destination if that is a peer. -/
def Node.nextOf (inp : Input) (req : RouteRelayReq) (n : Node) : Except Fault Address × Node :=
  if n.isNeighbor req.dest then (.ok req.dest,n)
  else n.getNextHopRandomOrFind inp.draw inp.clock req.dest req.paths

def Node.forward (inp : Input) (req : RouteRelayReq) (n : Node) : Outcome × Node :=
  match n.nextOf inp req with
  | (.error e,n) => (.ended (some e),n)
  | (.ok next,n) =>
    match inp.opened with
    | .error e => (.ended (some e),n)
    | .ok () =>
      match inp.written with
      | .error e => (.ended (some e),n)
      | .ok () => (.forwarded next req,n)

def onRelay (self : Address) (inp : Input) (req : RouteRelayReq) (n : Node) : Outcome × Node :=
  match inp.read with
  | .error e => (.ended (some e),n)
  | .ok () =>
    match if req.data = [] then inp.first else .ok req.data with
    | .error e => (.ended (some e),n)
    | .ok data =>
      match newModelFromBytes req.srcMode with
      | .error e => (.ended (some (.mode e)),n)
      | .ok _ =>
        if req.dest ≠ self ∧ req.midCall = false then (.ended none,n)
        else
          match inp.called with
          | .refused e => (.ended (some e),n)
          | .hungUp e => (.ended e,n)
          | .returned none => (.ended none,n)
          | .returned (some e) =>
            if req.dest = self then (.ended (some e),n) else n.forward inp { req with data := data }

def onRelayConnChain (self : Address) (inp : Input) (req : RouteRelayReq) (n : Node) : Outcome × Node :=
  match inp.read with
  | .error e => (.ended (some e),n)
  | .ok () =>
    let req := { req with paths := req.paths ++ [self] }
    if req.dest = self then
      match newModelFromBytes req.srcMode with
      | .error e => (.ended (some (.mode e)),n)
      | .ok _ =>
        match inp.called with
        | .refused e => (.ended (some e),n)
        | .hungUp e => (.ended e,n)
        | .returned e => (.ended e,n)
    else n.forward inp req

/-- The nodes of a network by their addresses, and the request at one of them. -/
structure World where
  net : Map Address Node
  place : Address
  req : RouteRelayReq

/-- A node of the network hands the request on to another one. -/
inductive Forwards (handler : Address → Input → RouteRelayReq → Node → Outcome × Node) : World → World → Prop
  | step {w : World} {node node' : Node} {next : Address} {req : RouteRelayReq} (inp : Input)
      (here : w.net.lookup w.place = some node)
      (out : handler w.place inp w.req node = (.forwarded next req,node'))
      (there : (w.net.lookup next).isSome) :
      Forwards handler w ⟨w.net.insert w.place node',next,req⟩

def Node.offers (n : Node) (dest : Address) (paths : List Address) : List Address :=
  if n.isNeighbor dest then [dest]
  else if n.getNextHopEffective dest paths = [] then
    match n.findRoute dest with
    | .error _ => []
    | .ok table => { n with routeTable := table }.getNextHopEffective dest paths
  else n.getNextHopEffective dest paths

def Passes (self : Address) (req : RouteRelayReq) : Prop :=
  req.dest ≠ self ∧ req.midCall = true ∧ ∃ m, newModelFromBytes req.srcMode = .ok m

def Points (net : Map Address Node) (req : RouteRelayReq) (a b : Address) : Prop :=
  Passes a req ∧ (net.lookup b).isSome ∧ ∃ n, net.lookup a = some n ∧ b ∈ n.offers req.dest req.paths

theorem effective_touched (n : Node) (clock : Nat → Int) (target neighbor dest : Address) (skips : List Address) :
    ({ n with routeTable := n.routeTable.updateUsedTime clock target neighbor } : Node).getNextHopEffective dest skips =
      n.getNextHopEffective dest skips := by
  have routes : (n.routeTable.updateUsedTime clock target neighbor).routes = n.routeTable.routes := by
    unfold Table.updateUsedTime
    split <;> rfl
  unfold Node.getNextHopEffective Table.getNextHop
  rw [routes]
  rfl

variable {n : Node} {a : Address}

variable {target dest self : Address} {skips l paths : List Address}

theorem effective_ne_nil (member : a ∈ n.getNextHopEffective target skips) : a ≠ [] := by
  rintro rfl
  exact n.addressed (List.contains_iff_mem.mp (List.mem_filter.mp member).2)

theorem effective_getD {i : Nat} (inside : i < l.length) : l.getD i [] = l[i] := by
  simp [List.getD,inside]

def Node.touched (n : Node) (clock : Nat → Int) (target neighbor : Address) : Node :=
  { n with routeTable := n.routeTable.updateUsedTime clock target neighbor }

theorem getNextHopRandom_cases (n : Node) (draw : Nat) (clock : Nat → Int) (target : Address) (skips : List Address) :
    n.getNextHopEffective target skips = [] ∧ n.getNextHopRandom draw clock target skips = ([],n) ∨
      ∃ next ∈ n.getNextHopEffective target skips,
        n.getNextHopRandom draw clock target skips = (next,n.touched clock target next) := by
  unfold Node.getNextHopRandom
  dsimp only
  split
  · next some =>
    refine .inr ⟨_,?_,rfl⟩
    rw [effective_getD (Nat.mod_lt _ some)]
    exact List.getElem_mem _
  · next none => exact .inl ⟨List.eq_nil_of_length_eq_zero (by omega),rfl⟩

variable {next : Address}

theorem getNextHopRandom_of_mem (clock : Nat → Int) (member : next ∈ n.getNextHopEffective target skips) :
    ∃ draw, (n.getNextHopRandom draw clock target skips).1 = next := by
  obtain ⟨i,inside,eq⟩ := List.mem_iff_getElem.mp member
  refine ⟨i,?_⟩
  unfold Node.getNextHopRandom
  rw [if_pos (by omega),Nat.mod_eq_of_lt inside,effective_getD inside]
  exact eq

theorem offers_of_effective (indirect : n.isNeighbor dest = false) (member : a ∈ n.getNextHopEffective dest paths) :
    n.offers dest paths = n.getNextHopEffective dest paths := by
  unfold Node.offers
  rw [if_neg (by simp [indirect]),if_neg (List.ne_nil_of_mem member)]

theorem offers_touched (clock : Nat → Int) (indirect : n.isNeighbor dest = false)
    (member : a ∈ n.getNextHopEffective dest paths) :
    (n.touched clock dest a).offers dest paths = n.getNextHopEffective dest paths := by
  have same := effective_touched n clock dest a dest paths
  rw [← same] at member
  exact (offers_of_effective (n := n.touched clock dest a) indirect member).trans same

variable {req : RouteRelayReq}

variable {inp : Input}

/-- The next hop of a request is one that the node offers, and the node offers the same ones afterwards. -/
theorem nextOf_ok {n' : Node} (chosen : n.nextOf inp req = (.ok next,n')) :
    next ∈ n.offers req.dest req.paths ∧ n'.offers req.dest req.paths = n.offers req.dest req.paths := by
  unfold Node.nextOf at chosen
  split at chosen
  · next direct =>
    cases chosen
    simp [Node.offers,direct]
  next indirect =>
  rw [Bool.not_eq_true] at indirect
  unfold Node.getNextHopRandomOrFind at chosen
  rcases getNextHopRandom_cases n inp.draw.1 inp.clock req.dest req.paths with ⟨none,drawn⟩ | ⟨hop,member,drawn⟩
  · simp only [drawn,if_true] at chosen
    cases found : n.findRoute req.dest with
    | error e => rw [found] at chosen; cases chosen
    | ok table =>
      have offers : n.offers req.dest req.paths =
          ({ n with routeTable := table } : Node).getNextHopEffective req.dest req.paths := by
        simp [Node.offers,indirect,none,found]
      rw [found] at chosen
      rcases getNextHopRandom_cases { n with routeTable := table } inp.draw.2 inp.clock req.dest req.paths with
        ⟨none,drawn⟩ | ⟨hop,member,drawn⟩
      · simp only [drawn,if_true] at chosen
        cases chosen
      simp only [drawn,if_neg (effective_ne_nil member)] at chosen
      cases chosen
      rw [offers]
      exact ⟨member,offers_touched inp.clock indirect member⟩
  simp only [drawn,if_neg (effective_ne_nil member)] at chosen
  cases chosen
  rw [offers_of_effective indirect member]
  exact ⟨member,offers_touched inp.clock indirect member⟩

theorem nextOf_of_mem (offered : next ∈ n.offers req.dest req.paths) :
    ∃ draw, (n.nextOf { draw := draw } req).1 = .ok next := by
  unfold Node.offers at offered
  unfold Node.nextOf
  split at offered
  · next direct =>
    refine ⟨(0,0),?_⟩
    rw [if_pos direct,List.mem_singleton.mp offered]
  next indirect =>
  simp only [if_neg indirect,Node.getNextHopRandomOrFind]
  split at offered
  · next none =>
    have first : ∀ draw clock, n.getNextHopRandom draw clock req.dest req.paths = ([],n) := by
      simp [Node.getNextHopRandom,none]
    cases found : n.findRoute req.dest with
    | error e => rw [found] at offered; cases offered
    | ok table =>
      rw [found] at offered
      obtain ⟨draw,drawn⟩ := getNextHopRandom_of_mem (fun _ => 0) offered
      refine ⟨(0,draw),?_⟩
      simp only [first,if_true,found]
      rw [drawn,if_neg (effective_ne_nil offered)]
  · obtain ⟨draw,drawn⟩ := getNextHopRandom_of_mem (fun _ => 0) offered
    refine ⟨(draw,0),?_⟩
    simp only [drawn,if_neg (effective_ne_nil offered)]

variable {req' : RouteRelayReq}

theorem forward_forwarded {n' : Node} (out : n.forward inp req = (.forwarded next req',n')) :
    req' = req ∧ n.nextOf inp req = (.ok next,n') := by
  unfold Node.forward at out
  split at out
  · cases out
  next hop m chosen =>
  split at out
  · cases out
  split at out
  · cases out
  · cases out
    exact ⟨rfl,chosen⟩

theorem onRelay_forwarded {n' : Node} (out : onRelay self inp req n = (.forwarded next req',n')) :
    Passes self req ∧ ∃ data, req' = { req with data := data } ∧ n.nextOf inp req' = (.ok next,n') := by
  unfold onRelay at out
  split at out
  · cases out
  split at out
  · cases out
  next data _ =>
  split at out
  · cases out
  next m readable =>
  split at out
  · cases out
  next relayed =>
  split at out
  · cases out
  · cases out
  · cases out
  split at out
  · cases out
  next other =>
  obtain ⟨rfl,chosen⟩ := forward_forwarded out
  have called : req.midCall = true := by
    by_contra direct
    exact relayed ⟨other,Bool.not_eq_true _ ▸ direct⟩
  exact ⟨⟨other,called,m,readable⟩,data,rfl,chosen⟩

theorem onRelay_of_passes (passes : Passes self req) (offered : next ∈ n.offers req.dest req.paths) :
    ∃ inp req' n', onRelay self inp req n = (.forwarded next req',n') := by
  obtain ⟨other,called,m,readable⟩ := passes
  obtain ⟨draw,chosen⟩ := nextOf_of_mem offered
  refine ⟨{ draw := draw },{ req with data := if req.data = [] then [] else req.data },(n.nextOf { draw := draw } req).2,?_⟩
  have data : (if req.data = [] then .ok [] else .ok req.data : Except Fault Bytes) =
      .ok (if req.data = [] then [] else req.data) := by split <;> rfl
  have kept : ¬ (req.dest ≠ self ∧ req.midCall = false) := by simp [called]
  have next : n.nextOf { draw := draw } { req with data := if req.data = [] then [] else req.data } =
      (.ok next,(n.nextOf { draw := draw } req).2) := Prod.ext chosen rfl
  simp only [onRelay,data,readable,if_neg kept,if_neg other,Node.forward,next]

variable {w : World}

/-- Relaying follows the pointers, and leaves every node pointing to where it did. -/
theorem points_of_forwards {w' : World} (relayed : Forwards onRelay w w') :
    Points w.net w.req w.place w'.place ∧ Points w'.net w'.req = Points w.net w.req := by
  obtain ⟨inp,here,out,there⟩ := relayed
  rename_i node node' next req'
  obtain ⟨passes,data,rfl,chosen⟩ := onRelay_forwarded out
  obtain ⟨offered,same⟩ := nextOf_ok chosen
  refine ⟨⟨passes,there,node,here,offered⟩,?_⟩
  have known : ∀ c, ((w.net.insert w.place node').lookup c).isSome = (w.net.lookup c).isSome := by
    intro c
    rw [lookup_insert_eq]
    split
    · next eq => rw [eq,here]; rfl
    · rfl
  have offers : ∀ a b, (∃ n, (w.net.insert w.place node').lookup a = some n ∧ b ∈ n.offers w.req.dest w.req.paths) ↔
      ∃ n, w.net.lookup a = some n ∧ b ∈ n.offers w.req.dest w.req.paths := by
    intro a b
    rw [lookup_insert_eq]
    by_cases eq : a = w.place
    · rw [if_pos eq,eq,here]
      simp only [Option.some.injEq,exists_eq_left']
      exact Iff.of_eq (congrArg (b ∈ ·) same)
    · rw [if_neg eq]
  funext a b
  apply propext
  exact and_congr_right' (and_congr (by rw [known]) (offers a b))

theorem forwards_of_points {b : Address} (points : Points w.net w.req w.place b) :
    ∃ w', Forwards onRelay w w' ∧ w'.place = b := by
  obtain ⟨passes,there,n,here,offered⟩ := points
  obtain ⟨inp,req',n',out⟩ := onRelay_of_passes passes offered
  exact ⟨_,.step inp here out there,rfl⟩

def handled (run : List World) : List Address := run.map World.place

theorem points_of_run {run : List World} (chain : (w :: run).IsChain (Forwards onRelay)) :
    (handled (w :: run)).IsChain (Points w.net w.req) := by
  induction run generalizing w with
  | nil => exact .singleton _
  | cons w' run ih =>
    rw [List.isChain_cons_cons] at chain
    obtain ⟨points,same⟩ := points_of_forwards chain.1
    have rest := ih chain.2
    rw [same] at rest
    exact .cons_cons points rest

theorem run_of_points (chain : (w.place :: l).IsChain (Points w.net w.req)) :
    ∃ run, (w :: run).IsChain (Forwards onRelay) ∧ handled run = l := by
  induction l generalizing w with
  | nil => exact ⟨[],.singleton _,rfl⟩
  | cons b l ih =>
    rw [List.isChain_cons_cons] at chain
    obtain ⟨w',relayed,rfl⟩ := forwards_of_points chain.1
    obtain ⟨run,rest,visited⟩ := ih (by rw [(points_of_forwards relayed).2]; exact chain.2)
    exact ⟨w' :: run,.cons_cons relayed rest,by rw [← visited]; rfl⟩

theorem reachable_finite (w : World) : {b | Relation.ReflTransGen (Points w.net w.req) w.place b}.Finite := by
  refine ((w.net.keys.finite_toSet).insert w.place).subset ?_
  intro b reach
  rcases Relation.ReflTransGen.cases_tail reach with rfl | ⟨a,_,points⟩
  · exact Set.mem_insert _ _
  · exact Set.mem_insert_of_mem _ (Finmap.mem_keys.mpr (Finmap.lookup_isSome.mp points.2.1))

theorem places_known (chain : (a :: l).IsChain (Points w.net w.req)) : ∀ b ∈ l, b ∈ w.net.keys := by
  induction l generalizing a with
  | nil => exact nofun
  | cons c l ih =>
    rw [List.isChain_cons_cons] at chain
    intro b member
    rcases List.mem_cons.mp member with rfl | later
    · exact Finmap.mem_keys.mpr (Finmap.lookup_isSome.mp chain.1.2.1)
    · exact ih chain.2 b later

/-- Each node handles a request at most once, so that it is handed on no more
    often than there are nodes, exactly when the nodes that the request can come
    to can be ranked so that each points to lower ones only. -/
theorem relayed_once_iff (w : World) :
    (∀ run, (w :: run).IsChain (Forwards onRelay) → (handled (w :: run)).Nodup ∧ run.length ≤ w.net.keys.card) ↔
      ∃ rank, Ranked (Points w.net w.req) w.place rank := by
  rw [← nodup_iff_ranked (reachable_finite w)]
  constructor
  · intro once l chain
    obtain ⟨run,relayed,rfl⟩ := run_of_points chain
    exact (once run relayed).1
  intro once run relayed
  have chain := points_of_run relayed
  have nodup : (w.place :: handled run).Nodup := once _ chain
  have inside : (handled run).toFinset ⊆ w.net.keys := by
    intro b member
    exact places_known chain b (List.mem_toFinset.mp member)
  have size := Finset.card_le_card inside
  rw [List.toFinset_card_of_nodup nodup.of_cons,handled,List.length_map] at size
  exact ⟨nodup,size⟩

/-- A node whose only route to `[3]` is over a neighbour. -/
def pointing (self neighbor : Address) (named : neighbor ≠ []) : Node where
  routeTable := { self := self, routes := (∅ : Map Hash _).insert (getTargetKey [3]) [⟨neighbor,bytesToHash []⟩] }
  peers := [neighbor]
  findRoute _ := .error .nextHopNotFound
  addressed := by simpa using named.symm

/-- Two nodes that are each other's next hop, and a request for a third one. -/
def circle : World where
  net := ((∅ : Map Address Node).insert [1] (pointing [1] [2] (by decide))).insert [2] (pointing [2] [1] (by decide))
  place := [1]
  req := { dest := [3], srcMode := [0], midCall := true }

/-- The request is handed on to the other node and back. -/
theorem relayed_twice :
    ∃ run, (circle :: run).IsChain (Forwards onRelay) ∧ ¬ (handled (circle :: run)).Nodup := by
  have there : Points circle.net circle.req [1] [2] :=
    ⟨⟨by decide,rfl,_,rfl⟩,rfl,pointing [1] [2] (by decide),rfl,by decide +kernel⟩
  have back : Points circle.net circle.req [2] [1] :=
    ⟨⟨by decide,rfl,_,rfl⟩,rfl,pointing [2] [1] (by decide),rfl,by decide +kernel⟩
  obtain ⟨run,relayed,visited⟩ := run_of_points (w := circle) (.cons_cons there (.cons_cons back (.singleton _)))
  refine ⟨run,relayed,?_⟩
  change ¬ ([1] :: handled run).Nodup
  rw [visited]
  decide

theorem onRelayConnChain_forwarded {n' : Node} (out : onRelayConnChain self inp req n = (.forwarded next req',n')) :
    req.dest ≠ self ∧ req' = { req with paths := req.paths ++ [self] } ∧ n.nextOf inp req' = (.ok next,n') := by
  unfold onRelayConnChain at out
  split at out
  · cases out
  dsimp only at out
  split at out
  · split at out
    · cases out
    · split at out <;> cases out
  · next other =>
    obtain ⟨rfl,chosen⟩ := forward_forwarded out
    exact ⟨other,rfl,chosen⟩

/-- What a node offers is the destination or avoids the nodes of the request. -/
theorem offers_avoid (offered : a ∈ n.offers dest paths) : a = dest ∨ a ∉ paths := by
  have effective : ∀ n : Node, a ∈ n.getNextHopEffective dest paths → a ∉ paths := by
    intro n member
    have hop := List.mem_of_mem_filter member
    unfold Table.getNextHop at hop
    split at hop
    · cases hop
    · rw [List.mem_dedup] at hop
      simpa using (List.mem_filter.mp hop).2
  unfold Node.offers at offered
  split at offered
  · exact .inl (List.mem_singleton.mp offered)
  split at offered
  · split at offered
    · cases offered
    · exact .inr (effective _ offered)
  · exact .inr (effective _ offered)

theorem chain_avoids {run : List World} (chain : (w :: run).IsChain (Forwards onRelayConnChain))
    (named : a ∈ w.req.paths) (other : a ≠ w.req.dest) : a ∉ handled run := by
  induction run generalizing w with
  | nil => exact List.not_mem_nil
  | cons w' run ih =>
    rw [List.isChain_cons_cons] at chain
    obtain ⟨⟨inp,here,out,there⟩,rest⟩ := chain
    obtain ⟨_,rfl,chosen⟩ := onRelayConnChain_forwarded out
    rintro member
    rcases List.mem_cons.mp member with rfl | later
    · rcases offers_avoid (nextOf_ok chosen).1 with delivered | fresh
      · exact other delivered
      · exact fresh (List.mem_append_left _ named)
    · exact ih rest (List.mem_append_left _ named) other later

theorem chained_once {run : List World} (chain : (w :: run).IsChain (Forwards onRelayConnChain)) :
    (handled (w :: run)).Nodup := by
  induction run generalizing w with
  | nil => exact List.nodup_singleton _
  | cons w' run ih =>
    have rest := (List.isChain_cons_cons.mp chain).2
    obtain ⟨inp,here,out,there⟩ := (List.isChain_cons_cons.mp chain).1
    obtain ⟨self,rfl,chosen⟩ := onRelayConnChain_forwarded out
    refine List.nodup_cons.mpr ⟨fun member => ?_,ih rest⟩
    rcases List.mem_cons.mp member with same | later
    · rcases offers_avoid (nextOf_ok chosen).1 with delivered | fresh
      · exact self (delivered.symm.trans same.symm)
      · exact fresh (List.mem_append_right _ (List.mem_singleton.mpr same.symm))
    · exact chain_avoids rest (List.mem_append_right _ (List.mem_singleton_self _)) (Ne.symm self) later

theorem chained_once_there : ∃ w, [circle,w].IsChain (Forwards onRelayConnChain) ∧ (handled [circle,w]).Nodup := by
  have step : Forwards onRelayConnChain circle _ := .step {} rfl rfl rfl
  have chain := List.IsChain.cons_cons step (.singleton _)
  exact ⟨_,chain,chained_once chain⟩

end FavorX.Relays
