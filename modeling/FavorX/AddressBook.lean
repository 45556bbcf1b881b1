import FavorX.Discovery
import FavorX.Handshakes

/-!
The address book and who writes it. All but `checkAndAddPeers`, which puts whatever
answers a ping, put only what `parseAddress` has accepted; so the book holds authentic
addresses exactly when every found node that is put is authentic (`authentic_iff`).
-/
namespace FavorX.AddressBook
open FiniteMaps Addresses Handshakes
open Shed (Bytes)
open Discovery (Info UnderlayResp saveUnderlay)

abbrev Book := Map Bytes Info

variable {networkID : UInt64} {book : Book}

section
variable {Multiaddr PeerID PublicKey : Type} (libs : Libs Multiaddr PeerID PublicKey)

/-- An address as the book keeps it, with the bytes of its underlay. -/
def info (addr : Address Multiaddr) : Info where
  underlay := (libs.marshalBinary addr.underlay).getD []
  overlay := addr.overlay
  signature := addr.signature

/-- `Put`, which fails when the state store does. -/
def put (addr : Address Multiaddr) (stored : Bool) (book : Book) : Book :=
  if stored then book.insert addr.overlay (info libs addr) else book

/-- What happens to a peer after the handshake: whether it is blocked (or this cannot
    be told) or connected already, whether the stream closes, and whether it is stored. -/
structure Rest where
  blocked : Bool
  exists_ : Bool
  closed : Bool
  stored : Bool

/-- The end of `Connect` and of `handleIncoming`: only full nodes are put. -/
def connected (returned : Except Failure (AddressInfo Multiaddr)) (rest : Rest) (book : Book) : Book :=
  match returned with
  | .error _ => book
  | .ok i =>
    if rest.blocked || rest.exists_ || !rest.closed then book
    else if isFull i.nodeMode then put libs i.address rest.stored book
    else book

/-- What `checkAndAddPeers` does for one of the peers of a response. -/
def checkPeer (newPeer : BzzAddress) (ping stored : Bool) (book : Book) : Book :=
  match libs.newMultiaddrBytes newPeer.underlay with
  | none => book
  | some multiUnderlay =>
    if ping then
      put libs { underlay := multiUnderlay, overlay := newPeer.overlay, signature := newPeer.signature } stored book
    else book

def parseUnderlay (networkID : UInt64) (v : UnderlayResp) : Option Info :=
  (parseAddress libs v.underlay v.dest v.signature networkID).map (info libs)

def findUnderlay (networkID : UInt64) (resp : UnderlayResp) (stored : Bool) (book : Book) : Book :=
  match parseAddress libs resp.underlay resp.dest resp.signature networkID with
  | none => book
  | some addr => put libs addr stored book

/-- What can happen to the book. The peers of a response are checked beside each
    other, so each is an event of its own; an entry of an underlay list that the
    state store does not take is one that the list lacks. -/
inductive Event (Multiaddr PeerID PublicKey : Type) where
  | connect (s : Service Multiaddr PeerID PublicKey) (io : Service.Dial Multiaddr PeerID) (rest : Rest)
  | handleIncoming (s : Service Multiaddr PeerID PublicKey) (io : Service.Accept Multiaddr PeerID) (rest : Rest)
  | checkPeer (newPeer : BzzAddress) (ping stored : Bool)
  | saveUnderlay (uList : List UnderlayResp)
  | findUnderlay (resp : UnderlayResp) (stored : Bool)
  | remove (overlay : Bytes)

def step (networkID : UInt64) (book : Book) : Event Multiaddr PeerID PublicKey → Book
  | .connect s io rest => connected libs ({ s with networkID := networkID }.handshake libs io).returned rest book
  | .handleIncoming s io rest => connected libs ({ s with networkID := networkID }.handle libs io).returned rest book
  | .checkPeer newPeer ping stored => checkPeer libs newPeer ping stored book
  | .saveUnderlay uList => saveUnderlay (parseUnderlay libs networkID) uList book
  | .findUnderlay resp stored => findUnderlay libs networkID resp stored book
  | .remove overlay => book.erase overlay

/-- The signature of every entry is over its underlay, its overlay and the network ID,
    by the owner of the overlay: `parseAddress` accepts it. -/
def AuthenticBook (networkID : UInt64) (book : Book) : Prop :=
  ∀ overlay entry, book.lookup overlay = some entry →
    entry.overlay = overlay ∧ (parseAddress libs entry.underlay overlay entry.signature networkID).isSome

def Throughout (networkID : UInt64) : Book → List (Event Multiaddr PeerID PublicKey) → Prop
  | book, [] => AuthenticBook libs networkID book
  | book, e :: events => AuthenticBook libs networkID book ∧ Throughout networkID (step libs networkID book e) events

/-- A found node that is put has an address that `parseAddress` accepts. -/
def Genuine (networkID : UInt64) : Event Multiaddr PeerID PublicKey → Prop
  | .checkPeer newPeer ping stored =>
    ping = true → stored = true → (libs.newMultiaddrBytes newPeer.underlay).isSome →
      (parseAddress libs newPeer.underlay newPeer.overlay newPeer.signature networkID).isSome
  | _ => True

variable {libs}

variable {overlay underlay signature : Bytes}

theorem authentic_insert (authentic : AuthenticBook libs networkID book) {entry : Info}
    (same : entry.overlay = overlay)
    (parsed : (parseAddress libs entry.underlay overlay entry.signature networkID).isSome) :
    AuthenticBook libs networkID (book.insert overlay entry) := by
  intro other found held
  rw [lookup_insert_eq] at held
  split at held
  · next equal =>
    cases held
    subst equal
    exact ⟨same,parsed⟩
  · exact authentic other found held

theorem parse_info {addr : Address Multiaddr}
    (parsed : parseAddress libs underlay overlay signature networkID = some addr) :
    addr.overlay = overlay ∧
      parseAddress libs (info libs addr).underlay addr.overlay (info libs addr).signature networkID = some addr := by
  obtain ⟨_,read,same,signed⟩ := parseAddress_eq_some.mp parsed
  have bytes : (info libs addr).underlay = underlay := by
    simp [info,libs.marshal_parsed _ _ read]
  refine ⟨same,?_⟩
  rw [bytes,same]
  change parseAddress libs underlay overlay addr.signature networkID = some addr
  rw [signed,parsed]

section
variable (authentic : AuthenticBook libs networkID book)
include authentic

theorem authentic_put {addr : Address Multiaddr}
    (parsed : parseAddress libs underlay overlay signature networkID = some addr) {stored : Bool} :
    AuthenticBook libs networkID (put libs addr stored book) := by
  cases stored with
  | false => exact authentic
  | true => exact authentic_insert authentic rfl (Option.isSome_of_eq_some (parse_info parsed).2)

theorem authentic_connected {returned : Except Failure (AddressInfo Multiaddr)} {presented : Option BzzAddress}
    (checked : ∀ i, returned = .ok i → Checked libs networkID presented i) {rest : Rest} :
    AuthenticBook libs networkID (connected libs returned rest book) := by
  cases returned with
  | error f => exact authentic
  | ok i =>
    obtain ⟨_,_,parsed⟩ := checked i rfl
    simp only [connected]
    split_ifs
    · exact authentic
    · exact authentic_put authentic parsed
    · exact authentic

theorem authentic_saveUnderlay {uList : List UnderlayResp} :
    AuthenticBook libs networkID (saveUnderlay (parseUnderlay libs networkID) uList book) := by
  induction uList generalizing book with
  | nil => exact authentic
  | cons v uList ih =>
    refine ih ?_
    cases parsed : parseAddress libs v.underlay v.dest v.signature networkID with
    | none =>
      simp only [parseUnderlay,parsed,Option.map_none]
      exact authentic
    | some addr =>
      simp only [parseUnderlay,parsed,Option.map_some]
      exact authentic_insert authentic rfl (Option.isSome_of_eq_some (parse_info parsed).2)

theorem authentic_step {e : Event Multiaddr PeerID PublicKey} (genuine : Genuine libs networkID e) :
    AuthenticBook libs networkID (step libs networkID book e) := by
  cases e with
  | connect s io rest =>
    exact authentic_connected authentic (fun _ => handshake_checked { s with networkID := networkID })
  | handleIncoming s io rest =>
    exact authentic_connected authentic (fun _ => handle_checked { s with networkID := networkID })
  | checkPeer newPeer ping stored =>
    simp only [step,checkPeer]
    cases read : libs.newMultiaddrBytes newPeer.underlay with
    | none => exact authentic
    | some m =>
      cases ping with
      | false => exact authentic
      | true =>
        cases stored with
        | false => exact authentic
        | true =>
          obtain ⟨addr,parsed⟩ := Option.isSome_iff_exists.mp (genuine rfl rfl (by simp [read]))
          refine authentic_insert authentic rfl ?_
          have bytes := libs.marshal_parsed _ _ read
          simp [info,bytes,parsed]
  | saveUnderlay uList => exact authentic_saveUnderlay authentic
  | findUnderlay resp stored =>
    simp only [step,findUnderlay]
    cases parsed : parseAddress libs resp.underlay resp.dest resp.signature networkID with
    | none => exact authentic
    | some addr => exact authentic_put authentic parsed
  | remove overlay =>
    intro other entry held
    simp only [step,lookup_erase_eq] at held
    split at held
    · cases held
    · exact authentic other entry held

end

/-- The book is authentic after a found node was put only if the node's address is. -/
theorem genuine_of_authentic {e : Event Multiaddr PeerID PublicKey}
    (authentic : AuthenticBook libs networkID (step libs networkID book e)) : Genuine libs networkID e := by
  cases e with
  | checkPeer newPeer ping stored =>
    intro reached kept readable
    subst reached kept
    obtain ⟨m,read⟩ := Option.isSome_iff_exists.mp readable
    simp only [step,checkPeer,read,put,if_true] at authentic
    have accepted := (authentic newPeer.overlay _ (Finmap.lookup_insert _)).2
    have bytes := libs.marshal_parsed _ _ read
    simpa [info,bytes] using accepted
  | _ => trivial

theorem throughout_iff (authentic : AuthenticBook libs networkID book)
    (events : List (Event Multiaddr PeerID PublicKey)) :
    Throughout libs networkID book events ↔ ∀ e ∈ events, Genuine libs networkID e := by
  induction events generalizing book with
  | nil => simpa [Throughout] using authentic
  | cons e events ih =>
    simp only [Throughout,List.forall_mem_cons]
    constructor
    · rintro ⟨_,rest⟩
      have next : AuthenticBook libs networkID (step libs networkID book e) := by
        cases events with
        | nil => exact rest
        | cons _ _ => exact rest.1
      exact ⟨genuine_of_authentic next,(ih next).mp rest⟩
    · rintro ⟨first,later⟩
      exact ⟨authentic,(ih (authentic_step authentic first)).mpr later⟩

/-- From an empty book, all entries of all states are authentic exactly when every
    found node that is put is: no check is made for these. -/
theorem authentic_iff (libs : Libs Multiaddr PeerID PublicKey) (networkID : UInt64)
    (events : List (Event Multiaddr PeerID PublicKey)) :
    Throughout libs networkID ∅ events ↔ ∀ e ∈ events, Genuine libs networkID e := by
  refine throughout_iff ?_ events
  intro overlay entry held
  cases held

end

/-- The authentic entry of the node [7] is replaced by an address that a peer made up. -/
theorem found_node_forged :
    ¬Throughout sampleLibs 0 ∅
      [.saveUnderlay [{ dest := [7], underlay := [10,1], signature := captured.signature }],
       .checkPeer { underlay := [20,2], signature := [], overlay := [7] } true true] := by
  rw [throughout_iff (by intro overlay entry held; rw [Finmap.lookup_empty] at held; cases held)]
  intro all
  have forged := all _ (List.mem_cons_of_mem _ List.mem_cons_self) rfl rfl rfl
  exact absurd forged (by decide)

end FavorX.AddressBook
