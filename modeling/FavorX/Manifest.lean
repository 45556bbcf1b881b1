import FavorX.Shed

/-!
The part of a manifest node that the local store reads: the addresses of its
forks. A node is 32 bytes of obfuscation key followed by its contents under that
key: a version hash, the size of its references, its own entry, the set of the
bytes that have a fork, and the forks.
-/
namespace FavorX.Manifest
open Shed

/-- Why reading a node stopped. Slicing past the end of the node panics. -/
inductive Fault
  | tooShort
  | invalidVersionHash
  | notEnoughBytes
  | invalidPrefixLength
  | panicked
  deriving DecidableEq

structure Node where
  nodeType : UInt8
  address : Address
  deriving DecidableEq

def nodeObfuscationKeySize : Nat := 32
def versionHashSize : Nat := 31
def nodeHeaderSize : Nat := nodeObfuscationKeySize + versionHashSize + 1
def nodeForkTypeBytesSize : Nat := 1
def nodeForkPreReferenceSize : Nat := 32
def nodePrefixMaxSize : Nat := 30
def nodeForkMetadataBytesSize : Nat := 2
def nodeTypeWithMetadata : UInt8 := 16

def version01HashBytes : Bytes :=
  [0x02,0x51,0x84,0x78,0x9d,0x63,0x63,0x57,0x66,0xd7,0x8c,0x41,0x90,0x01,0x96,0xb5,
   0x7d,0x74,0x00,0x87,0x5e,0xbe,0x4d,0x9b,0x5d,0x1e,0x76,0xbd,0x96,0x52,0xa9]

def version02HashBytes : Bytes :=
  [0x57,0x68,0xb3,0xb6,0xa7,0xdb,0x56,0xd2,0x1d,0x1a,0xbf,0xf4,0x0d,0x41,0xce,0xbf,
   0xc8,0x34,0x48,0xfe,0xd8,0xd7,0xe9,0xb0,0x6e,0xc0,0xd3,0xb0,0x73,0xf2,0x8f]

def nodeTypeIsWithMetadataType (nodeType : UInt8) : Bool := nodeType &&& nodeTypeWithMetadata == nodeTypeWithMetadata

/-- Whether a byte is in the set that 32 bytes hold. -/
def getUint8 (bits : Bytes) (i : Nat) : Bool := (bits.getD (i / 8) 0 >>> UInt8.ofNat (i % 8)) &&& 1 != 0

def encryptDecrypt (input key : Bytes) : Bytes := input.mapIdx (fun i x => x ^^^ key.getD (i % key.length) 0)

def slice (data : Bytes) (start stop : Nat) : Bytes := (data.drop start).take (stop - start)

def fromBytes (b : Bytes) : Except Fault Node :=
  let prefixLen := (b.getD 1 0).toNat
  if prefixLen = 0 ∨ nodePrefixMaxSize < prefixLen then .error .invalidPrefixLength
  else .ok ⟨b.getD 0 0,b.drop nodeForkPreReferenceSize⟩

def fromBytes02 (b : Bytes) (refBytesSize : Nat) : Except Fault Node :=
  let prefixLen := (b.getD 1 0).toNat
  if prefixLen = 0 ∨ nodePrefixMaxSize < prefixLen then .error .invalidPrefixLength
  else .ok ⟨b.getD 0 0,slice b nodeForkPreReferenceSize (nodeForkPreReferenceSize + refBytesSize)⟩

/-- The fork at an offset of a node of version 0.1, and its size. -/
def fork01 (data : Bytes) (refBytesSize offset : Nat) : Except Fault (Node × Nat) := do
  let nodeForkSize := nodeForkPreReferenceSize + refBytesSize
  if data.length < offset + nodeForkSize then throw .notEnoughBytes
  let n ← fromBytes (slice data offset (offset + nodeForkSize))
  pure (n,nodeForkSize)

/-- The fork at an offset of a node of version 0.2, and its size. -/
def fork02 (data : Bytes) (refBytesSize offset : Nat) : Except Fault (Node × Nat) := do
  if data.length < offset + nodeForkTypeBytesSize then throw .notEnoughBytes
  let nodeForkSize := nodeForkPreReferenceSize + refBytesSize
  if nodeTypeIsWithMetadataType (data.getD offset 0) then
    if data.length < offset + nodeForkSize + nodeForkMetadataBytesSize then throw .notEnoughBytes
    let metadataBytesSize :=
      (data.getD (offset + nodeForkSize) 0).toNat * 256 + (data.getD (offset + nodeForkSize + 1) 0).toNat
    let nodeForkSize := nodeForkSize + nodeForkMetadataBytesSize + metadataBytesSize
    if data.length < offset + nodeForkSize then throw .panicked
    let n ← fromBytes02 (slice data offset (offset + nodeForkSize)) refBytesSize
    pure (n,nodeForkSize)
  else
    if data.length < offset + nodeForkSize then throw .notEnoughBytes
    let n ← fromBytes (slice data offset (offset + nodeForkSize))
    pure (n,nodeForkSize)

/-- Read the forks one after the other, up to the first that cannot be read. -/
def iterForks (fork : Nat → Except Fault (Node × Nat)) : List Nat → Nat → List Node × Option Fault
  | [], _ => ([],none)
  | _ :: bytes, offset =>
    match fork offset with
    | .error e => ([],some e)
    | .ok (n,size) =>
      let r := iterForks fork bytes (offset + size)
      (n :: r.1,r.2)

/-- The forks of a node as far as they can be read, and what stopped the reading. -/
def unmarshalBinary (data : Bytes) : List Node × Option Fault :=
  if data.length < nodeHeaderSize then ([],some .tooShort)
  else
    let obfuscationKey := data.take nodeObfuscationKeySize
    -- the key is applied to pieces of its own size, so to all of them at once
    let data := obfuscationKey ++ encryptDecrypt (data.drop nodeObfuscationKeySize) obfuscationKey
    let versionHash := slice data nodeObfuscationKeySize (nodeObfuscationKeySize + versionHashSize)
    let refBytesSize := (data.getD (nodeHeaderSize - 1) 0).toNat
    let offset := nodeHeaderSize + refBytesSize
    let bytes := (List.range 256).filter (getUint8 (slice data offset (offset + 32)))
    if versionHash = version01HashBytes then
      if data.length < offset then ([],some .panicked)
      else iterForks (fork01 data refBytesSize) bytes (offset + 32)
    else if versionHash = version02HashBytes then
      if data.length < offset then ([],some .panicked)
      else iterForks (fork02 data refBytesSize) bytes (offset + 32)
    else ([],some .invalidVersionHash)

end FavorX.Manifest
