import FavorX.Shed

/-!
The registry of connected peers (`peerRegistry`). `addIfNotExists` registers an
overlay without looking whether the peer ID has one, so the maps between overlays
and peer IDs stay inverse exactly as long as a new overlay comes with a new peer ID
(`registry_bijection_iff`).
-/
namespace FavorX.Registry
open FiniteMaps
open Shed (Bytes Address)

structure PeerRegistry (PeerID Conn Stream Mode : Type) where
  underlays : Map Address PeerID := ∅
  overlays : Map PeerID Address := ∅
  modes : Map PeerID Mode := ∅
  connections : Map PeerID (Finset Conn) := ∅
  streams : Map PeerID (Finset Stream) := ∅

structure Peer (Mode : Type) where
  address : Address
  mode : Option Mode

inductive Call (PeerID Conn Stream Mode : Type) where
  | addIfNotExists (c : Conn) (overlay : Address) (md : Mode)
  | disconnected (c : Conn)
  | remove (overlay : Address)
  | addStream (peerID : PeerID) (stream : Stream)
  | removeStream (peerID : PeerID) (stream : Stream)

section
variable {PeerID Conn Stream Mode : Type} [DecidableEq PeerID] [Inhabited PeerID] [DecidableEq Conn]
  [DecidableEq Stream] (remotePeer : Conn → PeerID)

namespace PeerRegistry
variable (r : PeerRegistry PeerID Conn Stream Mode)

/-- The connections of a peer ID, none if the map has no entry. -/
def conns (peerID : PeerID) : Finset Conn := (r.connections.lookup peerID).getD ∅

/-- The connection is recorded whether the overlay is there or not. -/
def addIfNotExists (c : Conn) (overlay : Address) (md : Mode) : PeerRegistry PeerID Conn Stream Mode :=
  let peerID := remotePeer c
  let r := { r with connections := r.connections.insert peerID (insert c (r.conns peerID)) }
  match r.underlays.lookup overlay with
  | some _ => r
  | none =>
    { r with
      streams := r.streams.insert peerID ∅
      underlays := r.underlays.insert overlay peerID
      overlays := r.overlays.insert peerID overlay
      modes := r.modes.insert peerID md }

def forget (peerID : PeerID) (overlay : Address) : PeerRegistry PeerID Conn Stream Mode where
  underlays := r.underlays.erase overlay
  overlays := r.overlays.erase peerID
  modes := r.modes.erase peerID
  connections := r.connections.erase peerID
  streams := r.streams.erase peerID

/-- With the last connection the peer leaves, and its overlay is notified, the zero
    address if it has none. -/
def disconnected (c : Conn) : PeerRegistry PeerID Conn Stream Mode × Option (Peer Mode) :=
  let peerID := remotePeer c
  if c ∉ r.conns peerID then (r,none)
  else if 0 < ((r.conns peerID).erase c).card then
    ({ r with connections := r.connections.insert peerID ((r.conns peerID).erase c) },none)
  else
    let overlay := (r.overlays.lookup peerID).getD []
    (r.forget peerID overlay,some { address := overlay, mode := r.modes.lookup peerID })

/-- For an overlay that is not there the empty peer ID is forgotten. -/
def remove (overlay : Address) : PeerRegistry PeerID Conn Stream Mode :=
  r.forget ((r.underlays.lookup overlay).getD default) overlay

def addStream (peerID : PeerID) (stream : Stream) : PeerRegistry PeerID Conn Stream Mode :=
  match r.streams.lookup peerID with
  | none => r
  | some streams => { r with streams := r.streams.insert peerID (insert stream streams) }

def removeStream (peerID : PeerID) (stream : Stream) : PeerRegistry PeerID Conn Stream Mode :=
  match r.streams.lookup peerID with
  | none => r
  | some streams => { r with streams := r.streams.insert peerID (streams.erase stream) }

def step : Call PeerID Conn Stream Mode → PeerRegistry PeerID Conn Stream Mode × Option (Peer Mode)
  | .addIfNotExists c overlay md => (r.addIfNotExists remotePeer c overlay md,none)
  | .disconnected c => r.disconnected remotePeer c
  | .remove overlay => (r.remove overlay,none)
  | .addStream peerID stream => (r.addStream peerID stream,none)
  | .removeStream peerID stream => (r.removeStream peerID stream,none)

end PeerRegistry

/-- Overlays and peer IDs belong to each other, and the peer IDs are those with a connection. -/
structure Consistent (r : PeerRegistry PeerID Conn Stream Mode) : Prop where
  inverse : ∀ overlay peerID, r.underlays.lookup overlay = some peerID ↔ r.overlays.lookup peerID = some overlay
  connected : ∀ peerID, (r.overlays.lookup peerID).isSome ↔ (r.conns peerID).Nonempty

/-- The overlay that leaves is notified and nothing else, and never the zero address. -/
structure Announced (before after : PeerRegistry PeerID Conn Stream Mode) (notified : Option (Peer Mode)) : Prop where
  left : ∀ overlay, (∃ peer, notified = some peer ∧ peer.address = overlay) ↔
    (before.underlays.lookup overlay).isSome ∧ after.underlays.lookup overlay = none
  nonzero : ∀ peer, notified = some peer → peer.address ≠ []

/-- What `Disconnected` notifies is right. -/
def Announces (r : PeerRegistry PeerID Conn Stream Mode) : Call PeerID Conn Stream Mode → Prop
  | .disconnected c => Announced r (r.disconnected remotePeer c).1 (r.disconnected remotePeer c).2
  | _ => True

/-- The registry is consistent in every state, and all that leave are notified. -/
def Sound : PeerRegistry PeerID Conn Stream Mode → List (Call PeerID Conn Stream Mode) → Prop
  | r, [] => Consistent r
  | r, call :: calls => Consistent r ∧ Announces remotePeer r call ∧ Sound (r.step remotePeer call).1 calls

/-- The overlay is there exactly if the peer ID has one; the last connection to go is
    not of the zero address; what is removed is there, or the empty peer ID is not. -/
def Fits (r : PeerRegistry PeerID Conn Stream Mode) : Call PeerID Conn Stream Mode → Prop
  | .addIfNotExists c overlay _ =>
    (r.underlays.lookup overlay).isSome ↔ (r.overlays.lookup (remotePeer c)).isSome
  | .disconnected c => r.conns (remotePeer c) = {c} → r.overlays.lookup (remotePeer c) ≠ some []
  | .remove overlay => (r.underlays.lookup overlay).isSome ∨ r.overlays.lookup default = none
  | .addStream _ _ | .removeStream _ _ => True

def AllFit : PeerRegistry PeerID Conn Stream Mode → List (Call PeerID Conn Stream Mode) → Prop
  | _, [] => True
  | r, call :: calls => Fits remotePeer r call ∧ AllFit (r.step remotePeer call).1 calls

variable {remotePeer} {r : PeerRegistry PeerID Conn Stream Mode}

section
omit [Inhabited PeerID] [DecidableEq Stream]

omit [DecidableEq Conn] in
theorem conns_insert (peerID other : PeerID) (conns : Finset Conn) :
    { r with connections := r.connections.insert peerID conns }.conns other =
      if other = peerID then conns else r.conns other := by
  simp only [PeerRegistry.conns,lookup_insert_eq]
  split_ifs <;> rfl

omit [DecidableEq Conn] in
theorem conns_forget (peerID other : PeerID) (overlay : Address) :
    (r.forget peerID overlay).conns other = if other = peerID then ∅ else r.conns other := by
  simp only [PeerRegistry.conns,PeerRegistry.forget,lookup_erase_eq]
  split_ifs <;> rfl

omit [DecidableEq Conn] in
theorem Consistent.congr {r' : PeerRegistry PeerID Conn Stream Mode} (consistent : Consistent r)
    (underlays : r'.underlays = r.underlays) (overlays : r'.overlays = r.overlays)
    (connections : r'.connections = r.connections) : Consistent r' := by
  obtain ⟨inverse,connected⟩ := consistent
  refine ⟨?_,?_⟩
  · simpa only [underlays,overlays] using inverse
  · simpa only [PeerRegistry.conns,overlays,connections] using connected

omit [DecidableEq Conn] in
theorem Consistent.forget (consistent : Consistent r) {peerID : PeerID} {overlay : Address}
    (pair : r.overlays.lookup peerID = some overlay) : Consistent (r.forget peerID overlay) := by
  have back := (consistent.inverse overlay peerID).mpr pair
  refine ⟨fun other peer => ?_,fun peer => ?_⟩
  · simp only [PeerRegistry.forget,lookup_erase_eq]
    by_cases sameOverlay : other = overlay <;> by_cases samePeer : peer = peerID
    · simp [sameOverlay,samePeer]
    · -- the overlay has one peer ID only
      simp only [sameOverlay,samePeer,if_true,if_false,reduceCtorEq,false_iff]
      intro found
      rw [← consistent.inverse,back] at found
      exact samePeer (Option.some.inj found).symm
    · simp only [sameOverlay,samePeer,if_true,if_false,reduceCtorEq,iff_false]
      intro found
      rw [consistent.inverse,pair] at found
      exact sameOverlay (Option.some.inj found).symm
    · simpa only [sameOverlay,samePeer,if_false] using consistent.inverse other peer
  rw [conns_forget]
  simp only [PeerRegistry.forget,lookup_erase_eq]
  by_cases samePeer : peer = peerID
  · simp [samePeer]
  · simpa only [samePeer,if_false] using consistent.connected peer

omit [DecidableEq Conn] in
/-- Another connection leaves the registry consistent if the peer ID has an overlay. -/
theorem Consistent.connect_iff (consistent : Consistent r) (peerID : PeerID) {conns : Finset Conn}
    (nonempty : conns.Nonempty) :
    Consistent { r with connections := r.connections.insert peerID conns } ↔ (r.overlays.lookup peerID).isSome := by
  constructor
  · intro next
    refine (next.connected peerID).mpr ?_
    rwa [conns_insert,if_pos rfl]
  intro present
  refine ⟨consistent.inverse,fun other => ?_⟩
  rw [conns_insert]
  by_cases same : other = peerID
  · subst same
    simpa only [if_true,present,true_iff] using nonempty
  · simpa only [same,if_false] using consistent.connected other

theorem Consistent.register_iff (consistent : Consistent r) (c : Conn) {overlay : Address} (md : Mode)
    (new : r.underlays.lookup overlay = none) :
    Consistent (r.addIfNotExists remotePeer c overlay md) ↔ r.overlays.lookup (remotePeer c) = none := by
  have next : r.addIfNotExists remotePeer c overlay md =
      { underlays := r.underlays.insert overlay (remotePeer c),
        overlays := r.overlays.insert (remotePeer c) overlay,
        modes := r.modes.insert (remotePeer c) md,
        connections := r.connections.insert (remotePeer c) (insert c (r.conns (remotePeer c))),
        streams := r.streams.insert (remotePeer c) ∅ } := by
    simp only [PeerRegistry.addIfNotExists,new]
  rw [next]
  constructor
  · intro consistent'
    by_contra present
    obtain ⟨old,found⟩ := Option.ne_none_iff_exists'.mp present
    have back := (consistent.inverse old _).mpr found
    have other : old ≠ overlay := by
      rintro rfl
      rw [new] at back
      cases back
    -- the old overlay still leads to the peer ID, which now has the new one
    have kept := (consistent'.inverse old (remotePeer c)).mp (by rw [lookup_insert_eq,if_neg other]; exact back)
    rw [lookup_insert_eq,if_pos rfl] at kept
    exact other (Option.some.inj kept).symm
  intro absent
  refine ⟨fun other peer => ?_,fun peer => ?_⟩
  · simp only [lookup_insert_eq]
    by_cases sameOverlay : other = overlay <;> by_cases samePeer : peer = remotePeer c
    · simp [sameOverlay,samePeer]
    · simp only [sameOverlay,samePeer,if_true,if_false,Option.some.injEq]
      refine iff_of_false (Ne.symm samePeer) ?_
      rw [← consistent.inverse,new]
      exact nofun
    · simp only [sameOverlay,samePeer,if_true,if_false,Option.some.injEq]
      refine iff_of_false ?_ (Ne.symm sameOverlay)
      rw [consistent.inverse,absent]
      exact nofun
    · simpa only [sameOverlay,samePeer,if_false] using consistent.inverse other peer
  simp only [PeerRegistry.conns,lookup_insert_eq]
  by_cases same : peer = remotePeer c
  · simp [same]
  · simpa only [same,if_false,PeerRegistry.conns] using consistent.connected peer

end

omit [Inhabited PeerID] [DecidableEq Stream] in
theorem Consistent.disconnected_iff (consistent : Consistent r) (c : Conn) :
    Consistent (r.disconnected remotePeer c).1 ∧
        Announced r (r.disconnected remotePeer c).1 (r.disconnected remotePeer c).2 ↔
      (r.conns (remotePeer c) = {c} → r.overlays.lookup (remotePeer c) ≠ some []) := by
  have silent : ∀ r' : PeerRegistry PeerID Conn Stream Mode, r'.underlays = r.underlays → Announced r r' none := by
    intro r' same
    refine ⟨fun overlay => iff_of_false (by simp) ?_,nofun⟩
    rw [same]
    rintro ⟨present,absent⟩
    rw [absent] at present
    cases present
  simp only [PeerRegistry.disconnected]
  by_cases recorded : c ∈ r.conns (remotePeer c)
  · rw [if_neg (not_not.mpr recorded)]
    obtain ⟨overlay,found⟩ := Option.isSome_iff_exists.mp ((consistent.connected _).mpr ⟨c,recorded⟩)
    by_cases others : 0 < ((r.conns (remotePeer c)).erase c).card
    · have more : r.conns (remotePeer c) ≠ {c} := by
        intro single
        simp [single] at others
      rw [if_pos others]
      refine iff_of_true ⟨?_,silent _ rfl⟩ (fun single => absurd single more)
      exact (consistent.connect_iff _ (Finset.card_pos.mp others)).mpr (Option.isSome_of_eq_some found)
    have single : r.conns (remotePeer c) = {c} := by
      have none := Finset.card_eq_zero.mp (Nat.eq_zero_of_not_pos others)
      rw [← Finset.insert_erase recorded,none]
      rfl
    have back := (consistent.inverse overlay _).mpr found
    rw [if_neg others]
    simp only [found,Option.getD_some,single,forall_true_left,ne_eq,Option.some.injEq]
    constructor
    · rintro ⟨_,announced⟩
      exact announced.nonzero _ rfl
    intro nonzero
    refine ⟨consistent.forget found,fun other => ?_,fun peer same => ?_⟩
    · simp only [Option.some.injEq,exists_eq_left',PeerRegistry.forget,lookup_erase_eq]
      by_cases same : other = overlay
      · subst same
        simp [back]
      simp only [same,if_false]
      refine iff_of_false (Ne.symm same) ?_
      rintro ⟨present,absent⟩
      rw [absent] at present
      cases present
    · cases same
      exact nonzero
  rw [if_pos recorded]
  refine iff_of_true ⟨consistent,silent r rfl⟩ (fun single => ?_)
  rw [single] at recorded
  exact absurd (Finset.mem_singleton_self c) recorded

omit [DecidableEq Conn] [DecidableEq Stream] in
theorem Consistent.remove_iff (consistent : Consistent r) (overlay : Address) :
    Consistent (r.remove overlay) ↔ (r.underlays.lookup overlay).isSome ∨ r.overlays.lookup default = none := by
  unfold PeerRegistry.remove
  cases found : r.underlays.lookup overlay with
  | some peerID => exact iff_of_true (consistent.forget ((consistent.inverse _ _).mp found)) (.inl rfl)
  | none =>
    simp only [Option.getD_none,Option.isSome_none,Bool.false_eq_true,false_or]
    constructor
    · intro next
      by_contra present
      obtain ⟨old,held⟩ := Option.ne_none_iff_exists'.mp present
      have back := (consistent.inverse old _).mpr held
      have other : old ≠ overlay := by
        rintro rfl
        rw [found] at back
        cases back
      -- the empty peer ID is forgotten, but not its overlay
      have kept := (next.inverse old default).mp (by
        rw [PeerRegistry.forget,lookup_erase_eq,if_neg other]
        exact back)
      rw [PeerRegistry.forget,lookup_erase_eq,if_pos rfl] at kept
      cases kept
    intro absent
    refine ⟨fun other peer => ?_,fun peer => ?_⟩
    · rw [PeerRegistry.forget,erase_of_none found,erase_of_none absent]
      exact consistent.inverse other peer
    rw [conns_forget,PeerRegistry.forget,erase_of_none absent]
    by_cases same : peer = default
    · subst same
      simp [absent]
    · rw [if_neg same]
      exact consistent.connected peer

theorem Consistent.step_iff (consistent : Consistent r) (call : Call PeerID Conn Stream Mode) :
    Consistent (r.step remotePeer call).1 ∧ Announces remotePeer r call ↔ Fits remotePeer r call := by
  cases call with
  | addIfNotExists c overlay md =>
    simp only [PeerRegistry.step,Announces,and_true,Fits]
    cases found : r.underlays.lookup overlay with
    | none => simp [consistent.register_iff c md found]
    | some taken =>
      have next : r.addIfNotExists remotePeer c overlay md =
          { r with connections := r.connections.insert (remotePeer c) (insert c (r.conns (remotePeer c))) } := by
        simp only [PeerRegistry.addIfNotExists,found]
      rw [next,consistent.connect_iff _ (Finset.insert_nonempty _ _)]
      simp
  | disconnected c => exact consistent.disconnected_iff c
  | remove overlay => simpa only [PeerRegistry.step,Announces,and_true,Fits] using consistent.remove_iff overlay
  | addStream peerID stream =>
    refine iff_of_true ⟨?_,trivial⟩ trivial
    simp only [PeerRegistry.step,PeerRegistry.addStream]
    split <;> exact consistent.congr rfl rfl rfl
  | removeStream peerID stream =>
    refine iff_of_true ⟨?_,trivial⟩ trivial
    simp only [PeerRegistry.step,PeerRegistry.removeStream]
    split <;> exact consistent.congr rfl rfl rfl

theorem sound_iff (consistent : Consistent r) {calls : List (Call PeerID Conn Stream Mode)} :
    Sound remotePeer r calls ↔ AllFit remotePeer r calls := by
  induction calls generalizing r with
  | nil => exact iff_of_true consistent trivial
  | cons call calls ih =>
    simp only [Sound,AllFit,← consistent.step_iff]
    constructor
    · rintro ⟨_,announces,rest⟩
      have next : Consistent (r.step remotePeer call).1 := by
        cases calls with
        | nil => exact rest
        | cons _ _ => exact rest.1
      exact ⟨⟨next,announces⟩,(ih next).mp rest⟩
    · rintro ⟨⟨next,announces⟩,rest⟩
      exact ⟨consistent,announces,(ih next).mpr rest⟩

omit [Inhabited PeerID] [DecidableEq Conn] [DecidableEq Stream] in
theorem consistent_new : Consistent ({} : PeerRegistry PeerID Conn Stream Mode) :=
  ⟨fun overlay peerID => by simp [Finmap.lookup_empty],fun peerID => by simp [PeerRegistry.conns,Finmap.lookup_empty]⟩

/-- For every sequence of calls: overlays and peer IDs are inverse maps, the peer IDs
    are those with a connection, and who leaves is notified, in every state, exactly
    when every call fits the state before it. -/
theorem registry_bijection_iff (remotePeer : Conn → PeerID) (calls : List (Call PeerID Conn Stream Mode)) :
    Sound remotePeer ({} : PeerRegistry PeerID Conn Stream Mode) calls ↔ AllFit remotePeer {} calls :=
  sound_iff consistent_new

end

/-- Two peers present one overlay: the second is left with a connection and no overlay. -/
theorem overlay_presented_twice :
    ¬Sound Prod.fst ({} : PeerRegistry Nat (Nat × Nat) Nat Unit)
      [.addIfNotExists (1,0) [7] (),.addIfNotExists (2,0) [7] ()] := by
  rw [sound_iff consistent_new]
  rintro ⟨_,fits,_⟩
  exact absurd (fits.mp (by decide)) (by decide)

end FavorX.Registry
