import FavorX.GroupPeers

/-!
The calls on the Kademlia that change what its depth depends on. All of them bring the depth up to
date but one: `Reachable` does so only when the peer became public. It is current after every run in
which no connected peer that was public ceases to be so (`depth_current`).
-/
namespace FavorX.Kademlia
open Shed (Address)
open Localstore (proximity maxPO)
open Depth GroupPeers

inductive ReachabilityStatus
  | unknown
  | publicly
  | privately
  deriving DecidableEq

inductive Err
  | oversaturated
  | emptyBin
  | random
  | announce
  | peerNotFound
  | addressBook

/-- What a node is started with, the saturation function with its default filled in. -/
structure Options where
  binMaxPeers : Int
  saturationFunc : Nat → PSlice → PSlice → (Address → Bool) → Bool × Bool
  reachabilityFunc : Option (Address → Bool)
  staticPeer : Address → Bool
  bootNode : Bool

/-- The collector has the last status of each peer that something was recorded for. -/
structure Kad where
  base : Address
  o : Options
  knownPeers : PSlice
  connectedPeers : PSlice
  protectPeers : List Address
  collector : Address → Option ReachabilityStatus
  radius : Nat
  depth : Nat

/-- What comes of `Announce`: when the broadcast to the peer fails, the peer is disconnected. -/
inductive Announced
  | done
  | failed
  | unsent (found : Bool)

def new (base : Address) (o : Options) (protectPeers : List Address) : Kad :=
  let slice := PSlice.new (maxPO + 1) base (by decide) (by decide)
  ⟨base,o,slice,slice,protectPeers,fun _ => none,maxPO,0⟩

namespace Kad
variable (k : Kad)

def peerUnreachable (addr : Address) : Bool :=
  match k.collector addr with
  | none => true
  | some reachability => reachability != .publicly

def peerFilter : Address → Bool := k.o.reachabilityFunc.getD k.peerUnreachable

/-- Recording loads the counters of a peer, or stores new ones, and changes the status in them. -/
def record (addr : Address) (op : ReachabilityStatus → ReachabilityStatus) : Kad :=
  { k with collector := Function.update k.collector addr (some (op ((k.collector addr).getD .unknown))) }

/-- What the depth is to be. -/
def current : Nat := recalcDepth (quickSaturationPeers k.o.binMaxPeers) k.peerFilter k.connectedPeers k.radius

def recalc : Kad := { k with depth := k.current }

def neighborhoodDepth : Nat := k.depth

def addPeer (addr : Address) : Kad :=
  { k with knownPeers := k.knownPeers.add [addr], connectedPeers := k.connectedPeers.add [addr] }

def outbound (peer : Address) (bootNode : Bool) : Kad :=
  let k := k.record peer id
  if bootNode then { k with knownPeers := remove k.knownPeers peer }
  else (k.addPeer peer).recalc

def disconnected (peer : Address) : Kad :=
  ({ k with connectedPeers := remove k.connectedPeers peer }.record peer id).recalc

/-- `Disconnect` of the network calls back, if it finds the peer. -/
def p2pDisconnect (found : Bool) (addr : Address) : Kad × Option Err :=
  if found then (k.disconnected addr,none) else (k,some .peerNotFound)

def onConnected (announced : Announced) (addr : Address) : Kad × Option Err :=
  match announced with
  | .failed => (k,some .announce)
  | .unsent found => ((k.p2pDisconnect found addr).1,some .announce)
  | .done => (((k.addPeer addr).record addr id).recalc,none)

def randomPeer (bin : Nat) (draw : Nat → Option Nat) : Except Err Address :=
  let peers := (k.connectedPeers.bin bin).filter (fun peer => !k.o.staticPeer peer)
  if peers.length = 0 then .error .emptyBin
  else
    match (draw peers.length).bind (peers[·]?) with
    | none => .error .random
    | some peer => .ok peer

def connected (addr : Address) (forceConnection : Bool) (draw : Nat → Option Nat) (found : Bool)
    (announced : Announced) : Kad × Option Err :=
  let po := proximity k.base addr
  if (k.o.saturationFunc po k.knownPeers k.connectedPeers k.peerFilter).2 ∧ addr ∉ k.protectPeers then
    if k.o.bootNode then
      match k.randomPeer po draw with
      | .error err => (k,some err)
      | .ok randPeer => (k.p2pDisconnect found randPeer).1.onConnected announced addr
    else if !forceConnection then (k,some .oversaturated)
    else k.onConnected announced addr
  else k.onConnected announced addr

def disconnectForce (addr : Address) (found removed : Bool) : Kad × Option Err :=
  match k.p2pDisconnect found addr with
  | (k,some err) => (k,some err)
  | (k,none) =>
    if !removed then (k,some .addressBook)
    else
      let k := { k with connectedPeers := remove k.connectedPeers addr, knownPeers := remove k.knownPeers addr }
      ((k.record addr id).recalc,none)

def reachable (addr : Address) (status : ReachabilityStatus) : Kad :=
  let k := k.record addr (fun _ => status)
  if status = .publicly then k.recalc else k

def setRadius (r : Nat) : Kad := if k.radius = r then k else { k with radius := r }.recalc

end Kad

/-- The calls, with what chance, the network and the address book have to say in them. -/
inductive Call
  | outbound (peer : Address) (bootNode : Bool)
  | connected (addr : Address) (forceConnection : Bool) (draw : Nat → Option Nat) (found : Bool) (announced : Announced)
  | disconnected (peer : Address)
  | disconnectForce (addr : Address) (found removed : Bool)
  | reachable (addr : Address) (status : ReachabilityStatus)
  | setRadius (r : Nat)

def perform (k : Kad) : Call → Kad
  | .outbound peer bootNode => k.outbound peer bootNode
  | .connected addr force draw found announced => (k.connected addr force draw found announced).1
  | .disconnected peer => k.disconnected peer
  | .disconnectForce addr found removed => (k.disconnectForce addr found removed).1
  | .reachable addr status => k.reachable addr status
  | .setRadius r => k.setRadius r

/-- No connected peer that is known as public is reported as anything else. -/
def Stays (k : Kad) : Call → Prop
  | .reachable addr status =>
    addr ∈ held k.connectedPeers → k.collector addr = some .publicly → status = .publicly
  | _ => True

def AllStay : Kad → List Call → Prop
  | _, [] => True
  | k, call :: calls => Stays k call ∧ AllStay (perform k call) calls

def Current (k : Kad) : Prop := k.neighborhoodDepth = k.current

variable {k : Kad}

theorem current_recalc (k : Kad) : Current k.recalc := rfl

theorem peerFilter_record_id (addr : Address) : (k.record addr id).peerFilter = k.peerFilter := by
  have same : (k.record addr id).peerUnreachable = k.peerUnreachable := by
    funext peer
    by_cases own : peer = addr
    · subst own
      cases known : k.collector peer <;> simp [Kad.peerUnreachable,Kad.record,known]
    · simp [Kad.peerUnreachable,Kad.record,own]
  rw [Kad.peerFilter,same]
  rfl

/-- The depth only sees what the filter says of the peers in the slice. -/
theorem recalcDepth_congr {quick radius : Nat} {filter filter' : Address → Bool} {peers : PSlice}
    (same : ∀ addr ∈ held peers, filter addr = filter' addr) :
    recalcDepth quick filter peers radius = recalcDepth quick filter' peers radius := by
  have counted : counts peers filter = counts peers filter' := by
    apply List.map_congr_left
    intro bin mem
    rw [passing,passing,List.filter_congr]
    intro addr inside
    rw [same addr (List.mem_flatten.mpr ⟨bin,mem,inside⟩)]
  by_cases many : nnLowWatermark < peers.length
  · rw [recalcDepth_eq _ _ many,recalcDepth_eq _ _ many,turn,turn,counted]
  · rw [recalcDepth,recalcDepth,if_pos (by omega),if_pos (by omega)]

section
variable (is : Current k)
include is

theorem current_p2pDisconnect (found : Bool) (addr : Address) : Current (k.p2pDisconnect found addr).1 := by
  cases found with
  | true => exact current_recalc _
  | false => exact is

theorem current_onConnected (announced : Announced) (addr : Address) : Current (k.onConnected announced addr).1 := by
  cases announced with
  | done => exact current_recalc _
  | failed => exact is
  | unsent found => exact current_p2pDisconnect is found addr

theorem current_connected (addr : Address) (force : Bool) (draw : Nat → Option Nat) (found : Bool)
    (announced : Announced) : Current (k.connected addr force draw found announced).1 := by
  simp only [Kad.connected]
  split
  · split
    · split
      · exact is
      · exact current_onConnected (current_p2pDisconnect is found _) announced addr
    · split
      · exact is
      · exact current_onConnected is announced addr
  · exact current_onConnected is announced addr

theorem current_disconnectForce (addr : Address) (found removed : Bool) :
    Current (k.disconnectForce addr found removed).1 := by
  cases found with
  | false => exact is
  | true =>
    cases removed with
    | true | false => exact current_recalc _

theorem current_outbound (peer : Address) (bootNode : Bool) : Current (k.outbound peer bootNode) := by
  cases bootNode with
  | false => exact current_recalc _
  | true =>
    have same : (k.outbound peer true).peerFilter = k.peerFilter := @peerFilter_record_id k peer
    rw [Current,Kad.current,same]
    exact is

theorem current_reachable {addr : Address} {status : ReachabilityStatus} (stays : Stays k (.reachable addr status)) :
    Current (k.reachable addr status) := by
  rw [Kad.reachable]
  by_cases became : status = .publicly
  · rw [if_pos became]
    exact current_recalc _
  rw [if_neg became]
  refine Eq.trans is (recalcDepth_congr ?_)
  intro peer inside
  rw [Kad.peerFilter]
  change _ = k.o.reachabilityFunc.getD _ peer
  cases k.o.reachabilityFunc with
  | some f => rfl
  | none =>
    by_cases own : peer = addr
    · subst own
      have before : k.collector peer ≠ some .publicly := fun known => became (stays inside known)
      cases known : k.collector peer with
      | none => simp [Kad.peerUnreachable,Kad.record,known,became]
      | some status' => simp_all [Kad.peerUnreachable,Kad.record,bne]
    · simp [Kad.peerUnreachable,Kad.record,own]

theorem current_perform {call : Call} (stays : Stays k call) : Current (perform k call) := by
  cases call with
  | outbound peer bootNode => exact current_outbound is peer bootNode
  | connected addr force draw found announced => exact current_connected is addr force draw found announced
  | disconnected peer => exact current_recalc _
  | disconnectForce addr found removed => exact current_disconnectForce is addr found removed
  | reachable addr status => exact current_reachable is stays
  | setRadius r =>
    simp only [perform,Kad.setRadius]
    split
    · exact is
    · exact current_recalc _

theorem current_run {calls : List Call} (stay : AllStay k calls) : Current (calls.foldl perform k) := by
  induction calls generalizing k with
  | nil => exact is
  | cons call calls ih => exact ih (current_perform is stay.1) stay.2

end

theorem current_new (base : Address) (o : Options) (protectPeers : List Address) : Current (new base o protectPeers) := by
  rw [Current]
  rfl

/-- The depth is current as long as no connected peer ceases to be public. -/
theorem depth_current (base : Address) (o : Options) (protectPeers : List Address) (calls : List Call)
    (stay : AllStay (new base o protectPeers) calls) :
    Current (calls.foldl perform (new base o protectPeers)) :=
  current_run (current_new base o protectPeers) stay

def plain : Options := ⟨5,fun _ _ _ _ => (false,false),none,fun _ => false,false⟩

def fourPublic : List Call :=
  [[128],[64],[65],[66]].flatMap (fun peer => [.outbound peer false,.reachable peer .publicly])

theorem depth_current_one : (fourPublic.foldl perform (new [0] plain [])).neighborhoodDepth = 1 ∧
    Current (fourPublic.foldl perform (new [0] plain [])) :=
  ⟨by decide,depth_current [0] plain [] fourPublic (by simp [fourPublic,AllStay,Stays])⟩

/-- One of the three peers in bin one is found to be private: the depth stays at one, and zero is due. -/
theorem depth_stale :
    let k := perform (fourPublic.foldl perform (new [0] plain [])) (.reachable [66] .privately)
    k.neighborhoodDepth = 1 ∧ k.current = 0 := by
  decide

end FavorX.Kademlia
