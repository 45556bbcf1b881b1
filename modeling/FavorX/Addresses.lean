import FavorX.Shed

/-!
Signed addresses (`pkg/address`, `pkg/crypto`). A node signs its underlay, its
overlay and the network ID; `parseAddress` recovers the public key and compares
the overlay that belongs to it. The libraries for multiaddresses, peer IDs, curves
and hashes are left open (`Libs`).
-/
namespace FavorX.Addresses
open Shed (Bytes)

/-- What the libraries compute. A multiaddress is kept as the bytes it was read from. -/
structure Libs (Multiaddr PeerID PublicKey : Type) where
  newMultiaddrBytes : Bytes → Option Multiaddr
  marshalBinary : Multiaddr → Option Bytes
  marshal_parsed : ∀ b m, newMultiaddrBytes b = some m → marshalBinary m = some b
  /-- The text of a multiaddress with the peer ID at its end. -/
  withPeer : Multiaddr → PeerID → Option Multiaddr
  /-- The peer ID at the end of a multiaddress, if there is one. -/
  addrInfoFromP2pAddr : Multiaddr → Option PeerID
  legacyKeccak256 : Bytes → Bytes
  sum256 : Bytes → Bytes
  recoverCompact : Bytes → Bytes → Option PublicKey
  /-- The uncompressed bytes of a key that has both coordinates. -/
  marshalKey : PublicKey → Option Bytes

def ascii (s : String) : Bytes := s.toList.map (fun c => UInt8.ofNat c.toNat)

def bigEndian (networkID : UInt64) : Bytes :=
  (List.range 8).map (fun i => UInt8.ofNat (networkID.toNat / 256 ^ (7 - i)))

def generateSignData (underlay overlay : Bytes) (networkID : UInt64) : Bytes :=
  ascii "aurorafs-handshake-" ++ underlay ++ overlay ++ bigEndian networkID

def decimal (n : Nat) : Bytes :=
  if n = 0 then [48] else (Nat.digits 10 n).reverse.map (fun digit => UInt8.ofNat (48 + digit))

def addEthereumPrefix (data : Bytes) : Bytes :=
  ascii "\x19Ethereum Signed Message:\n" ++ (decimal data.length ++ data)

/-- An address: where a node is reached, its place in the topology, and its signature. -/
structure Address (Multiaddr : Type) where
  underlay : Multiaddr
  overlay : Bytes
  signature : Bytes
  deriving DecidableEq

section
variable {Multiaddr PeerID PublicKey : Type} (libs : Libs Multiaddr PeerID PublicKey)

/-- The recovery ID is moved from the end of the signature to its start. -/
def recover (signature data : Bytes) : Option PublicKey :=
  if signature.length ≠ 65 then none
  else
    let btcsig := signature.drop 64 ++ signature.take 64
    libs.recoverCompact btcsig (libs.legacyKeccak256 (addEthereumPrefix data))

def newOverlayAddress (p : PublicKey) : Option Bytes :=
  (libs.marshalKey p).map (fun pubBytes => libs.sum256 (libs.legacyKeccak256 (pubBytes.drop 1)))

def parseAddress (underlay overlay signature : Bytes) (networkID : UInt64) : Option (Address Multiaddr) := do
  let recoveredPK ← recover libs signature (generateSignData underlay overlay networkID)
  let recoveredOverlay ← newOverlayAddress libs recoveredPK
  if recoveredOverlay = overlay then
    let multiUnderlay ← libs.newMultiaddrBytes underlay
    some { underlay := multiUnderlay, overlay := overlay, signature := signature }
  else none

variable {libs}

/-- An address is accepted when its signature recovers a key of its overlay and its underlay is read. -/
theorem parseAddress_eq_some {underlay overlay signature : Bytes} {networkID : UInt64} {addr : Address Multiaddr} :
    parseAddress libs underlay overlay signature networkID = some addr ↔
      (∃ pk, recover libs signature (generateSignData underlay overlay networkID) = some pk ∧
        newOverlayAddress libs pk = some overlay) ∧
      libs.newMultiaddrBytes underlay = some addr.underlay ∧ addr.overlay = overlay ∧ addr.signature = signature := by
  obtain ⟨m,o,s⟩ := addr
  unfold parseAddress
  cases recovered : recover libs signature (generateSignData underlay overlay networkID) with
  | none => simp
  | some pk =>
    cases found : newOverlayAddress libs pk with
    | none => simp [found]
    | some o' =>
      by_cases same : o' = overlay
      · cases read : libs.newMultiaddrBytes underlay <;> simp [found,same,eq_comm]
      · simp [found,same]

end

theorem length_decimal (n : Nat) : (decimal n).length = max 1 (Nat.digits 10 n).length := by
  by_cases zero : n = 0
  · simp [decimal,zero]
  have some : (Nat.digits 10 n).length ≠ 0 := by
    simpa [Nat.digits_ne_nil_iff_ne_zero] using zero
  simp only [decimal,if_neg zero,List.length_map,List.length_reverse]
  omega

/-- A longer number has no fewer digits, so the length of the whole tells the length of the data. -/
theorem addEthereumPrefix_injective : Function.Injective addEthereumPrefix := by
  intro data data' same
  have rest : decimal data.length ++ data = decimal data'.length ++ data' := List.append_cancel_left same
  have total := congrArg List.length rest
  simp only [List.length_append,length_decimal] at total
  have mono : ∀ n m, n ≤ m → (Nat.digits 10 n).length ≤ (Nat.digits 10 m).length :=
    fun n m less => Nat.le_length_digits_le 10 n m less
  have equal : data.length = data'.length := by
    rcases Nat.le_total data.length data'.length with less | less
    · have digits := mono _ _ less
      omega
    · have digits := mono _ _ less
      omega
  rw [equal] at rest
  exact List.append_cancel_left rest

end FavorX.Addresses
