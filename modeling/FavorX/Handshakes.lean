import FavorX.Addresses
import FavorX.Panics
import FavorX.Presence

/-!
The handshake: `Syn`, `SynAck`, `Ack`. Both sides check the address they are given with
`parseAddress`; neither compares the peer ID in it with the one of the connection. An address that a
handshake returns was signed by the owner of its overlay (`Reaches.authentic`), and names the peer
ID of the connection exactly when the one that was presented does (`handshake_binds_iff`). Absent
inner messages make the node panic (`handshakes_safe_iff`).
-/
namespace FavorX.Handshakes
open Shed (Bytes)
open Addresses
open Panics (bind_eq_ok)
open Presence (BitVector)

structure BzzAddress where
  underlay : Bytes
  signature : Bytes
  overlay : Bytes
  deriving DecidableEq

structure Syn where
  observedUnderlay : Bytes
  deriving DecidableEq

/-- A message may lack an inner message, which is then a nil pointer. -/
structure Ack where
  address : Option BzzAddress
  networkID : UInt64
  nodeMode : Bytes
  welcomeMessage : String
  deriving DecidableEq

structure SynAck where
  syn : Option Syn
  ack : Option Ack
  deriving DecidableEq

inductive Err where
  | networkIDIncompatible
  | invalidAck
  | invalidSyn
  | picker
  | pickerLight
  | invalidNodeMode
  /-- Errors of the stream, of multiaddresses, of the resolver and of the signer. -/
  | other
  deriving DecidableEq

/-- A call fails with an error, or dereferences a nil pointer. -/
inductive Failure where
  | err (e : Err)
  | panicked
  deriving DecidableEq

structure AddressInfo (Multiaddr : Type) where
  address : Address Multiaddr
  nodeMode : BitVector
  deriving DecidableEq

/-- A node: the key of its signer, and what the signer, the resolver of
    advertisable addresses and the picker answer. -/
structure Service (Multiaddr PeerID PublicKey : Type) where
  publicKey : PublicKey
  sign : Bytes → Option Bytes
  resolve : Multiaddr → Option Multiaddr
  overlay : Bytes
  nodeMode : Bytes
  networkID : UInt64
  welcomeMessage : String
  libp2pID : PeerID
  picker : Option (Bytes → BitVector → Bool)
  lightNodes : Nat
  lightNodeLimit : Int

/-- What a call returns, and the data that the node signed in it. -/
structure Result (Multiaddr : Type) where
  returned : Except Failure (AddressInfo Multiaddr)
  signed : List Bytes

/-- `NewModelFromBytes`; the vector has the length one. -/
def newModelFromBytes (m : Bytes) : Except Failure BitVector :=
  match BitVector.newFromBytes m 1 with
  | .ok bv => .ok bv
  | .error _ => .error (.err .invalidNodeMode)

def isFull (mode : BitVector) : Bool :=
  match mode.get 0 with
  | .ok b => b
  | .error _ => false

def orFail {α : Type} (e : Err) : Option α → Except Failure α
  | some a => .ok a
  | none => .error (.err e)

def orPanic {α : Type} : Option α → Except Failure α
  | some a => .ok a
  | none => .error .panicked

def check (ok : Bool) (e : Err) : Except Failure Unit := if ok then .ok () else .error (.err e)

section
variable {Multiaddr PeerID PublicKey : Type} (libs : Libs Multiaddr PeerID PublicKey)

def parseCheckAck (networkID : UInt64) (ack : Ack) : Except Failure (Address Multiaddr) := do
  let addr ← orPanic ack.address
  orFail .invalidAck (parseAddress libs addr.underlay addr.overlay addr.signature networkID)

/-- The multiaddress of the remote peer as it is sent. -/
def fullRemoteMABytes (remote : Multiaddr) (peerID : PeerID) : Except Failure Bytes := do
  let full ← orFail .other (libs.withPeer remote peerID)
  orFail .other (libs.marshalBinary full)

namespace Service
variable (s : Service Multiaddr PeerID PublicKey)

/-- Sign the advertisable form of the address that the peer has seen: the data that
    is signed, and what is sent. -/
def newAddress (observedUnderlay : Multiaddr) : Except Failure (Bytes × BzzAddress) := do
  let advertisableUnderlay ← orFail .other (s.resolve observedUnderlay)
  let underlay ← orFail .other (libs.marshalBinary advertisableUnderlay)
  let data := generateSignData underlay s.overlay s.networkID
  let signature ← orFail .other (s.sign data)
  .ok (data,{ underlay := underlay, signature := signature, overlay := s.overlay })

/-- What a handshake meets: the connection, what the peer sends, and whether writes go through. -/
structure Dial (Multiaddr PeerID : Type) where
  peerMultiaddr : Multiaddr
  peerID : PeerID
  synWritten : Bool
  resp : Option SynAck
  ackWritten : Bool

/-- `Handshake` until the node signs. -/
def dialStart (io : Dial Multiaddr PeerID) : Except Failure (SynAck × Multiaddr) := do
  let _ ← fullRemoteMABytes libs io.peerMultiaddr io.peerID
  check io.synWritten .other
  let resp ← orFail .other io.resp
  let syn ← orPanic resp.syn
  let observedUnderlay ← orFail .invalidSyn (libs.newMultiaddrBytes syn.observedUnderlay)
  -- another peer ID than the node's own is only logged
  let _ ← orFail .other (libs.addrInfoFromP2pAddr observedUnderlay)
  .ok (resp,observedUnderlay)

/-- `Handshake` after the node has signed. -/
def dialEnd (io : Dial Multiaddr PeerID) (resp : SynAck) : Except Failure (AddressInfo Multiaddr) := do
  let ack ← orPanic resp.ack
  check (ack.networkID = s.networkID) .networkIDIncompatible
  let remoteBzzAddress ← parseCheckAck libs s.networkID ack
  check io.ackWritten .other
  let md ← newModelFromBytes ack.nodeMode
  .ok { address := remoteBzzAddress, nodeMode := md }

def handshake (io : Dial Multiaddr PeerID) : Result Multiaddr :=
  match dialStart libs io with
  | .error f => ⟨.error f,[]⟩
  | .ok (resp,observedUnderlay) =>
    match s.newAddress libs observedUnderlay with
    | .error f => ⟨.error f,[]⟩
    | .ok (data,_) => ⟨s.dialEnd libs io resp,[data]⟩

structure Accept (Multiaddr PeerID : Type) where
  remoteMultiaddr : Multiaddr
  remotePeerID : PeerID
  syn : Option Syn
  synAckWritten : Bool
  ack : Option Ack

/-- `Handle` until the node signs. -/
def acceptStart (io : Accept Multiaddr PeerID) : Except Failure Multiaddr := do
  let _ ← fullRemoteMABytes libs io.remoteMultiaddr io.remotePeerID
  let syn ← orFail .other io.syn
  orFail .invalidSyn (libs.newMultiaddrBytes syn.observedUnderlay)

def pick (overlay : Bytes) (mode : BitVector) : Except Failure Unit :=
  match s.picker with
  | none => .ok ()
  | some picker =>
    if isFull mode then check (picker overlay mode) .picker
    else check (!(s.lightNodeLimit ≤ s.lightNodes)) .pickerLight

/-- `Handle` after the node has signed. -/
def acceptEnd (io : Accept Multiaddr PeerID) : Except Failure (AddressInfo Multiaddr) := do
  check io.synAckWritten .other
  let ack ← orFail .other io.ack
  check (ack.networkID = s.networkID) .networkIDIncompatible
  let mode ← newModelFromBytes ack.nodeMode
  let addr ← orPanic ack.address
  s.pick addr.overlay mode
  let remoteBzzAddress ← parseCheckAck libs s.networkID ack
  .ok { address := remoteBzzAddress, nodeMode := mode }

def handle (io : Accept Multiaddr PeerID) : Result Multiaddr :=
  match acceptStart libs io with
  | .error f => ⟨.error f,[]⟩
  | .ok observedUnderlay =>
    match s.newAddress libs observedUnderlay with
    | .error f => ⟨.error f,[]⟩
    | .ok (data,_) => ⟨s.acceptEnd libs io,[data]⟩

end Service
abbrev Signed (PublicKey : Type) := List (PublicKey × Bytes)

/-- What the peer presents on a connection, and what the node makes of it. -/
structure Returned (Multiaddr PeerID : Type) where
  peerID : PeerID
  networkID : UInt64
  presented : Option BzzAddress
  info : AddressInfo Multiaddr

structure World (Multiaddr PeerID PublicKey : Type) where
  signed : Signed PublicKey
  returned : List (Returned Multiaddr PeerID)

def Service.Dial.presented (io : Service.Dial Multiaddr PeerID) : Option BzzAddress :=
  (io.resp.bind SynAck.ack).bind Ack.address

def Service.Accept.presented (io : Service.Accept Multiaddr PeerID) : Option BzzAddress := io.ack.bind Ack.address

def World.sign (w : World Multiaddr PeerID PublicKey) (pk : PublicKey) (data : List Bytes) :
    World Multiaddr PeerID PublicKey :=
  { w with signed := data.map (fun d => (pk,d)) ++ w.signed }

def World.record (w : World Multiaddr PeerID PublicKey) (peerID : PeerID) (networkID : UInt64)
    (presented : Option BzzAddress) (returned : Except Failure (AddressInfo Multiaddr)) :
    World Multiaddr PeerID PublicKey :=
  match returned with
  | .ok info =>
    { w with returned := { peerID := peerID, networkID := networkID, presented := presented, info := info } :: w.returned }
  | .error _ => w

variable (own : PublicKey → Prop)

/-- Signatures cannot be forged: one that recovers a key is of a key that the peers
    own, or was made by the node with that key. -/
def Buildable (signed : Signed PublicKey) (presented : Option BzzAddress) : Prop :=
  ∀ addr ∈ presented, ∀ data pk, recover libs addr.signature data = some pk → own pk ∨ (pk,data) ∈ signed

/-- Any signatures may have been seen before. Nodes dial and are dialled with any peer
    IDs, and the peers send what they can build at that time. -/
inductive Reaches : World Multiaddr PeerID PublicKey → Prop where
  | observed (signed : Signed PublicKey) : Reaches ⟨signed,[]⟩
  | handshake {w : World Multiaddr PeerID PublicKey} (s : Service Multiaddr PeerID PublicKey)
      (io : Service.Dial Multiaddr PeerID) (before : Reaches w) (built : Buildable libs own w.signed io.presented) :
      Reaches ((w.sign s.publicKey (s.handshake libs io).signed).record io.peerID s.networkID io.presented
        (s.handshake libs io).returned)
  | handle {w : World Multiaddr PeerID PublicKey} (s : Service Multiaddr PeerID PublicKey)
      (io : Service.Accept Multiaddr PeerID) (before : Reaches w)
      (built : Buildable libs own (w.sign s.publicKey (s.handle libs io).signed).signed io.presented) :
      Reaches ((w.sign s.publicKey (s.handle libs io).signed).record io.remotePeerID s.networkID io.presented
        (s.handle libs io).returned)

def SignedByOwner (w : World Multiaddr PeerID PublicKey) (r : Returned Multiaddr PeerID) : Prop :=
  ∃ pk underlay, newOverlayAddress libs pk = some r.info.address.overlay ∧
    libs.marshalBinary r.info.address.underlay = some underlay ∧
    (own pk ∨ (pk,generateSignData underlay r.info.address.overlay r.networkID) ∈ w.signed)

/-- The owner of the overlay has signed the address, and it names the peer of the connection. -/
def Bound (w : World Multiaddr PeerID PublicKey) (r : Returned Multiaddr PeerID) : Prop :=
  SignedByOwner libs own w r ∧ libs.addrInfoFromP2pAddr r.info.address.underlay = some r.peerID

def Names (peerID : PeerID) (presented : Option BzzAddress) : Prop :=
  (presented.bind (fun addr => libs.newMultiaddrBytes addr.underlay)).bind libs.addrInfoFromP2pAddr = some peerID

/-- What was presented passed the check, and is what is returned. -/
def Checked (networkID : UInt64) (presented : Option BzzAddress) (info : AddressInfo Multiaddr) : Prop :=
  ∃ addr, presented = some addr ∧
    parseAddress libs addr.underlay addr.overlay addr.signature networkID = some info.address

variable {libs own}

theorem orPanic_eq_ok {α : Type} {x : Option α} {a : α} (ok : orPanic x = .ok a) : x = some a := by
  cases x with
  | none => cases ok
  | some b => cases ok; rfl

theorem orFail_eq_ok {α : Type} {e : Err} {x : Option α} {a : α} (ok : orFail e x = .ok a) : x = some a := by
  cases x with
  | none => cases ok
  | some b => cases ok; rfl

theorem parseCheckAck_checked {networkID : UInt64} {ack : Ack} {addr : Address Multiaddr}
    (ok : parseCheckAck libs networkID ack = .ok addr) {mode : BitVector} :
    Checked libs networkID ack.address { address := addr, nodeMode := mode } := by
  obtain ⟨presented,found,parsed⟩ := bind_eq_ok ok
  exact ⟨presented,orPanic_eq_ok found,orFail_eq_ok parsed⟩

theorem dialStart_resp {io : Service.Dial Multiaddr PeerID} {resp : SynAck} {observed : Multiaddr}
    (ok : Service.dialStart libs io = .ok (resp,observed)) : io.resp = some resp := by
  obtain ⟨_,_,ok⟩ := bind_eq_ok ok
  obtain ⟨_,_,ok⟩ := bind_eq_ok ok
  obtain ⟨read,found,ok⟩ := bind_eq_ok ok
  obtain ⟨_,_,ok⟩ := bind_eq_ok ok
  obtain ⟨_,_,ok⟩ := bind_eq_ok ok
  obtain ⟨_,_,ok⟩ := bind_eq_ok ok
  cases ok
  exact orFail_eq_ok found

section
variable (libs) (s : Service Multiaddr PeerID PublicKey)

theorem handshake_returned (io : Service.Dial Multiaddr PeerID) :
    (s.handshake libs io).returned = (do
      let (resp,observed) ← Service.dialStart libs io
      let _ ← s.newAddress libs observed
      s.dialEnd libs io resp) := by
  unfold Service.handshake
  cases Service.dialStart libs io with
  | error f => rfl
  | ok start => cases signed : s.newAddress libs start.2 <;> simp [signed,bind,Except.bind]

theorem handle_returned (io : Service.Accept Multiaddr PeerID) :
    (s.handle libs io).returned = (do
      let observed ← Service.acceptStart libs io
      let _ ← s.newAddress libs observed
      s.acceptEnd libs io) := by
  unfold Service.handle
  cases Service.acceptStart libs io with
  | error f => rfl
  | ok observed => cases signed : s.newAddress libs observed <;> simp [signed,bind,Except.bind]

variable {libs} {info : AddressInfo Multiaddr}

theorem handshake_checked {io : Service.Dial Multiaddr PeerID} (ok : (s.handshake libs io).returned = .ok info) :
    Checked libs s.networkID io.presented info := by
  rw [handshake_returned] at ok
  obtain ⟨⟨resp,observed⟩,started,ok⟩ := bind_eq_ok ok
  obtain ⟨_,_,ok⟩ := bind_eq_ok ok
  obtain ⟨ack,found,ok⟩ := bind_eq_ok ok
  obtain ⟨_,_,ok⟩ := bind_eq_ok ok
  obtain ⟨addr,parsed,ok⟩ := bind_eq_ok ok
  obtain ⟨_,_,ok⟩ := bind_eq_ok ok
  obtain ⟨mode,_,ok⟩ := bind_eq_ok ok
  cases ok
  simp only [Service.Dial.presented,dialStart_resp started,Option.bind_some,orPanic_eq_ok found]
  exact parseCheckAck_checked parsed

theorem handle_checked {io : Service.Accept Multiaddr PeerID} (ok : (s.handle libs io).returned = .ok info) :
    Checked libs s.networkID io.presented info := by
  rw [handle_returned] at ok
  obtain ⟨_,_,ok⟩ := bind_eq_ok ok
  obtain ⟨_,_,ok⟩ := bind_eq_ok ok
  obtain ⟨_,_,ok⟩ := bind_eq_ok ok
  obtain ⟨ack,found,ok⟩ := bind_eq_ok ok
  obtain ⟨_,_,ok⟩ := bind_eq_ok ok
  obtain ⟨mode,_,ok⟩ := bind_eq_ok ok
  obtain ⟨_,_,ok⟩ := bind_eq_ok ok
  obtain ⟨_,_,ok⟩ := bind_eq_ok ok
  obtain ⟨addr,parsed,ok⟩ := bind_eq_ok ok
  cases ok
  simp only [Service.Accept.presented,orFail_eq_ok found,Option.bind_some]
  exact parseCheckAck_checked parsed

end

/-- What was presented passed the check, and the owner of the overlay has signed it. -/
structure Authentic (libs : Libs Multiaddr PeerID PublicKey) (own : PublicKey → Prop)
    (w : World Multiaddr PeerID PublicKey) (r : Returned Multiaddr PeerID) : Prop where
  checked : Checked libs r.networkID r.presented r.info
  signed : SignedByOwner libs own w r

variable {w : World Multiaddr PeerID PublicKey}

theorem Authentic.mono {w' : World Multiaddr PeerID PublicKey} {r : Returned Multiaddr PeerID}
    (authentic : Authentic libs own w r) (more : w.signed ⊆ w'.signed) : Authentic libs own w' r := by
  obtain ⟨checked,pk,underlay,overlay,bytes,signed⟩ := authentic
  exact ⟨checked,pk,underlay,overlay,bytes,signed.imp_right (@more _)⟩

theorem Authentic.of_checked {r : Returned Multiaddr PeerID} (checked : Checked libs r.networkID r.presented r.info)
    (built : Buildable libs own w.signed r.presented) : Authentic libs own w r := by
  refine ⟨checked,?_⟩
  obtain ⟨addr,presented,parsed⟩ := checked
  obtain ⟨⟨pk,recovered,owner⟩,read,overlay,_⟩ := parseAddress_eq_some.mp parsed
  refine ⟨pk,addr.underlay,overlay ▸ owner,libs.marshal_parsed _ _ read,?_⟩
  rw [overlay]
  exact built addr presented _ pk recovered

theorem Authentic.record {w' : World Multiaddr PeerID PublicKey} (more : w.signed ⊆ w'.signed)
    (same : w'.returned = w.returned) (old : ∀ r ∈ w.returned, Authentic libs own w r) {peerID : PeerID}
    {networkID : UInt64} {presented : Option BzzAddress} {returned : Except Failure (AddressInfo Multiaddr)}
    (built : Buildable libs own w'.signed presented)
    (checked : ∀ info, returned = .ok info → Checked libs networkID presented info) :
    ∀ r ∈ (w'.record peerID networkID presented returned).returned,
      Authentic libs own (w'.record peerID networkID presented returned) r := by
  cases returned with
  | error f =>
    intro r among
    exact (old r (same ▸ among)).mono more
  | ok info =>
    intro r among
    rcases List.mem_cons.mp among with rfl | among
    · exact .of_checked (checked info rfl) built
    · exact (old r (same ▸ among)).mono more

theorem Buildable.mono {signed signed' : Signed PublicKey} {presented : Option BzzAddress}
    (built : Buildable libs own signed presented) (more : signed ⊆ signed') : Buildable libs own signed' presented :=
  fun addr among data pk recovered => (built addr among data pk recovered).imp_right (@more _)

theorem World.signed_subset (w : World Multiaddr PeerID PublicKey) (pk : PublicKey) (data : List Bytes) :
    w.signed ⊆ (w.sign pk data).signed := List.subset_append_right _ _

theorem Reaches.authentic (reaches : Reaches libs own w) : ∀ r ∈ w.returned, Authentic libs own w r := by
  induction reaches with
  | observed signed => exact fun r among => absurd among List.not_mem_nil
  | @handshake w s io before built ih =>
    have more := w.signed_subset s.publicKey (s.handshake libs io).signed
    exact Authentic.record more rfl ih (built.mono more) (fun _ => handshake_checked _)
  | @handle w s io before built ih =>
    have more := w.signed_subset s.publicKey (s.handle libs io).signed
    exact Authentic.record more rfl ih built (fun _ => handle_checked _)

/-- In every run, an address that a handshake returns was signed by the owner of its
    overlay and names the peer of the connection exactly when the underlay that the
    peer presented names it: the code leaves it to the peer. -/
theorem handshake_binds_iff (libs : Libs Multiaddr PeerID PublicKey) (own : PublicKey → Prop)
    (w : World Multiaddr PeerID PublicKey) (reaches : Reaches libs own w) :
    ∀ r ∈ w.returned, Bound libs own w r ↔ Names libs r.peerID r.presented := by
  intro r among
  obtain ⟨checked,signed⟩ := reaches.authentic r among
  obtain ⟨addr,presented,parsed⟩ := checked
  obtain ⟨_,read,_⟩ := parseAddress_eq_some.mp parsed
  rw [presented]
  simp [Names,read,Bound,signed]

end

/-- Libraries with one signature that recovers anything: that of the node [7] over the
    address at which it is reached as the peer 1. A multiaddress ends in its peer ID. -/
def sampleLibs : Libs Bytes UInt8 Bytes where
  newMultiaddrBytes := some
  marshalBinary := some
  marshal_parsed := fun _ _ parsed => parsed.symm
  withPeer m q := some (m ++ [q])
  addrInfoFromP2pAddr m := m.getLast?
  legacyKeccak256 := id
  sum256 := id
  recoverCompact signature hash :=
    if signature = List.replicate 65 1 ∧ hash = addEthereumPrefix (generateSignData [10,1] [7] 0) then some [7] else none
  marshalKey pk := some (4 :: pk)

def captured : BzzAddress := { underlay := [10,1], signature := List.replicate 65 1, overlay := [7] }

def seen : World Bytes UInt8 Bytes := ⟨[([7],generateSignData [10,1] [7] 0)],[]⟩

def sampleService : Service Bytes UInt8 Bytes where
  publicKey := [8]
  sign _ := some []
  resolve := some
  overlay := [8]
  nodeMode := [1]
  networkID := 0
  welcomeMessage := ""
  libp2pID := 3
  picker := none
  lightNodes := 0
  lightNodeLimit := 0

def presents (q : UInt8) : Service.Accept Bytes UInt8 where
  remoteMultiaddr := [20]
  remotePeerID := q
  syn := some { observedUnderlay := [30] }
  synAckWritten := true
  ack := some { address := some captured, networkID := 0, nodeMode := [1], welcomeMessage := "" }

/-- What the node returns is the node [7], whoever presents it. -/
def taken (q : UInt8) : Returned Bytes UInt8 where
  peerID := q
  networkID := 0
  presented := some captured
  info := { address := { underlay := [10,1], overlay := [7], signature := captured.signature }, nodeMode := ⟨1,[1]⟩ }

def after (q : UInt8) : World Bytes UInt8 Bytes :=
  (seen.sign sampleService.publicKey (sampleService.handle sampleLibs (presents q)).signed).record q
    sampleService.networkID (presents q).presented (sampleService.handle sampleLibs (presents q)).returned

theorem recover_captured (data pk : Bytes) :
    recover sampleLibs captured.signature data = some pk ↔ data = generateSignData [10,1] [7] 0 ∧ pk = [7] := by
  have moved : captured.signature.drop 64 ++ captured.signature.take 64 = List.replicate 65 1 := by decide
  have long : ¬captured.signature.length ≠ 65 := by decide
  rw [recover,if_neg long]
  simp only [moved,sampleLibs,id,true_and,addEthereumPrefix_injective.eq_iff]
  by_cases same : data = generateSignData [10,1] [7] 0 <;> simp [same,eq_comm]

theorem reaches_after (q : UInt8) : Reaches sampleLibs (fun _ => False) (after q) := by
  refine .handle sampleService (presents q) (.observed _) ?_
  intro addr presented data pk recovered
  cases presented
  obtain ⟨rfl,rfl⟩ := (recover_captured data pk).mp recovered
  exact .inr (List.mem_append_right _ List.mem_cons_self)

theorem taken_mem (q : UInt8) : taken q ∈ (after q).returned := by
  rw [after]
  exact List.mem_cons_self

theorem handshake_binds_owner : Bound sampleLibs (fun _ => False) (after 1) (taken 1) :=
  (handshake_binds_iff sampleLibs (fun _ => False) (after 1) (reaches_after 1) (taken 1) (taken_mem 1)).mpr rfl

/-- The peer 2 presents the captured address of the node [7], which names the peer 1. -/
theorem captured_replayed :
    ¬∀ w, Reaches sampleLibs (fun _ => False) w → ∀ r ∈ w.returned, Bound sampleLibs (fun _ => False) w r := by
  intro all
  have bound := all (after 2) (reaches_after 2) (taken 2) (taken_mem 2)
  exact absurd bound.2 (by decide)

section
variable {Multiaddr PeerID PublicKey : Type} (libs : Libs Multiaddr PeerID PublicKey)
variable (s : Service Multiaddr PeerID PublicKey)

/-- A node that dials finds the inner messages that it looks into: `Syn` in every answer that it reads, `Ack` once it
    has signed its address, and an address if the network is the right one. -/
def Service.Dial.Complete (io : Service.Dial Multiaddr PeerID) : Prop :=
  ∀ sent, fullRemoteMABytes libs io.peerMultiaddr io.peerID = .ok sent → io.synWritten = true →
    ∀ resp, io.resp = some resp → ∃ syn, resp.syn = some syn ∧
      ∀ observed, libs.newMultiaddrBytes syn.observedUnderlay = some observed →
        ∀ info, libs.addrInfoFromP2pAddr observed = some info → ∀ signed, s.newAddress libs observed = .ok signed →
          ∃ ack, resp.ack = some ack ∧ (ack.networkID = s.networkID → ∃ addr, ack.address = some addr)

/-- A node that is dialled finds an address in every `Ack` of its network that has a node mode. -/
def Service.Accept.Complete (io : Service.Accept Multiaddr PeerID) : Prop :=
  ∀ sent, fullRemoteMABytes libs io.remoteMultiaddr io.remotePeerID = .ok sent → ∀ syn, io.syn = some syn →
    ∀ observed, libs.newMultiaddrBytes syn.observedUnderlay = some observed →
      ∀ signed, s.newAddress libs observed = .ok signed → io.synAckWritten = true →
        ∀ ack, io.ack = some ack → ack.networkID = s.networkID →
          ∀ mode, newModelFromBytes ack.nodeMode = .ok mode → ∃ addr, ack.address = some addr

variable {α β : Type}

/-- No nil pointer is dereferenced. -/
def Safe (x : Except Failure α) : Prop := x ≠ .error .panicked

theorem safe_bind {x : Except Failure α} {f : α → Except Failure β} :
    Safe (x >>= f) ↔ Safe x ∧ ∀ a, x = .ok a → Safe (f a) := by
  cases x with
  | error e =>
    refine ⟨fun safe => ⟨?_,nofun⟩,fun safe => ?_⟩
    · rintro ⟨⟩
      exact safe rfl
    · rintro ⟨⟩
      exact safe.1 rfl
  | ok a =>
    refine ⟨fun safe => ⟨nofun,?_⟩,fun safe => safe.2 a rfl⟩
    rintro _ ⟨⟩
    exact safe

theorem ok_bind (a : α) (f : α → Except Failure β) : (Except.ok a >>= f) = f a := rfl

theorem safe_ok (a : α) : Safe (.ok a) := nofun

theorem safe_orFail (e : Err) (x : Option α) : Safe (orFail e x) := by
  cases x <;> nofun

theorem safe_orPanic (x : Option α) : Safe (orPanic x) ↔ ∃ a, x = some a := by
  cases x with
  | none => exact iff_of_false (fun safe => safe rfl) nofun
  | some a => exact iff_of_true nofun ⟨a,rfl⟩

theorem safe_check (ok : Bool) (e : Err) : Safe (check ok e) := by
  cases ok <;> nofun

theorem orFail_ok {e : Err} {x : Option α} {a : α} : orFail e x = .ok a ↔ x = some a :=
  ⟨orFail_eq_ok,fun found => by rw [found]; rfl⟩

theorem orPanic_ok {x : Option α} {a : α} : orPanic x = .ok a ↔ x = some a :=
  ⟨orPanic_eq_ok,fun found => by rw [found]; rfl⟩

theorem check_ok {ok : Bool} {e : Err} {a : Unit} : check ok e = .ok a ↔ ok = true := by
  cases ok with
  | false => exact iff_of_false nofun nofun
  | true => exact iff_of_true rfl rfl

theorem held_iff {x : Option α} {P : α → Prop} :
    ((∃ a, x = some a) ∧ ∀ a, x = some a → P a) ↔ ∃ a, x = some a ∧ P a := by
  cases x with
  | none => simp
  | some a => simp

theorem safe_newModelFromBytes (m : Bytes) : Safe (newModelFromBytes m) := by
  unfold newModelFromBytes
  split <;> nofun

/-- The bit that `IsFull` reads is in the node mode. -/
theorem newModelFromBytes_full {m : Bytes} {mode : BitVector} (made : newModelFromBytes m = .ok mode) :
    ∃ full, mode.get 0 = .ok full := by
  cases m with
  | nil => cases made
  | cons b rest =>
    cases made
    exact ⟨_,rfl⟩

theorem safe_fullRemoteMABytes (remote : Multiaddr) (peerID : PeerID) : Safe (fullRemoteMABytes libs remote peerID) := by
  simp [fullRemoteMABytes,safe_bind,safe_orFail]

theorem safe_newAddress (observed : Multiaddr) : Safe (s.newAddress libs observed) := by
  simp [Service.newAddress,safe_bind,safe_orFail,safe_ok]

theorem safe_pick (overlay : Bytes) (mode : BitVector) : Safe (s.pick overlay mode) := by
  unfold Service.pick
  split
  · exact safe_ok _
  · split <;> exact safe_check _ _

variable (io : Service.Accept Multiaddr PeerID)

theorem safe_handshake (io : Service.Dial Multiaddr PeerID) :
    Safe (s.handshake libs io).returned ↔ io.Complete libs s := by
  rw [handshake_returned]
  simp only [Service.dialStart,Service.dialEnd,parseCheckAck,bind_assoc,ok_bind,safe_bind,safe_orFail,safe_orPanic,
    safe_check,safe_ok,safe_fullRemoteMABytes,safe_newAddress,safe_newModelFromBytes,orFail_ok,orPanic_ok,check_ok,
    held_iff,decide_eq_true_eq,forall_const,implies_true,and_true,true_and]
  rfl

theorem safe_handle : Safe (s.handle libs io).returned ↔ io.Complete libs s := by
  rw [handle_returned]
  simp only [Service.acceptStart,Service.acceptEnd,parseCheckAck,bind_assoc,safe_bind,safe_orFail,safe_orPanic,safe_check,
    safe_ok,safe_fullRemoteMABytes,safe_newAddress,safe_newModelFromBytes,safe_pick,orFail_ok,orPanic_ok,
    check_ok,decide_eq_true_eq,forall_const,implies_true,and_true,true_and]
  -- `parseCheckAck` looks into the address that was looked into before
  constructor
  · intro safe sent built syn read observed parsed signed made written ack found network mode moded
    exact (safe sent built syn read observed parsed signed made written ack found network mode moded).1
  · intro complete sent built syn read observed parsed signed made written ack found network mode moded
    have there := complete sent built syn read observed parsed signed made written ack found network mode moded
    exact ⟨there,fun _ _ _ _ => there⟩

/-- Neither side of a handshake panics, and the node mode has the bit that is read, exactly when the messages have the
    inner messages that are looked into. -/
theorem handshakes_safe_iff (dial : Service.Dial Multiaddr PeerID) (accept : Service.Accept Multiaddr PeerID) :
    (Safe (s.handshake libs dial).returned ∧ Safe (s.handle libs accept).returned ∧
      ∀ m mode, newModelFromBytes m = .ok mode → ∃ full, mode.get 0 = .ok full) ↔
      dial.Complete libs s ∧ accept.Complete libs s := by
  rw [safe_handshake,safe_handle]
  exact and_congr_right fun _ => and_iff_left fun _ _ => newModelFromBytes_full

end

/-- A node that dials gets an answer without a `Syn`, and one that is dialled an `Ack` without an address. -/
theorem absent_dereferenced :
    (sampleService.handshake sampleLibs ⟨[20],1,true,some ⟨none,none⟩,true⟩).returned = .error .panicked ∧
      (sampleService.handle sampleLibs { presents 1 with ack := some ⟨none,0,[1],""⟩ }).returned = .error .panicked := by
  decide

end FavorX.Handshakes
