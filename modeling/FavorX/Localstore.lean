import FavorX.Presence
import FavorX.Manifest

/-!
The local store: chunks with their reference counts, pins, transfer lists, and the
garbage collection index with its size. An operation is a program against the
database (`Op`) that stages its writes in a batch.
-/
namespace FavorX.Localstore
open FiniteMaps Batches Shed Presence

def hashSize : Nat := 32
def maxPO : Nat := 31

/-- A chunk; its address is a hash. -/
structure Chunk where
  address : Address
  data : Bytes
  tagID : Nat := 0
  sized : address.length = hashSize

/-- What a store is set up with: the clock, read in nanoseconds since 1970, the
    base key, the garbage collection target and the stack that a recursion may use. -/
structure Config where
  now : Nat → Int
  now_pos : ∀ n, 0 < now n
  baseKey : Bytes
  gcTarget : Nat
  depth : Nat

/-- The state beside the database. `ticks` counts the readings of the clock. -/
structure Local where
  ticks : Nat := 0
  chunkstore : Chunkstore := {}
  filestore : Filestore := {}
  gcRunning : Bool := false
  dirtyAddresses : List Address := []

abbrev Op := Prog Key Value Err Local

inductive ModePut
  | request
  | requestPin
  | upload
  | uploadPin
  | chain
  deriving DecidableEq

inductive ModeSet
  | sync
  | remove
  | pin
  | unpin
  deriving DecidableEq

def addressToItem (addr : Address) : Item := { address := addr }

def chunkToItem (ch : Chunk) : Item := { address := ch.address, data := some ch.data, tag := ch.tagID }

def proximity (one other : Bytes) : Nat :=
  let b := min (maxPO / 8 + 1) (min (one.length % 256) (other.length % 256))
  let firstBit (oxo : UInt8) : Option Nat :=
    (List.range 8).find? (fun j => (oxo >>> UInt8.ofNat (7 - j)) &&& 1 != 0)
  ((List.range b).findSome? (fun i => (firstBit (one.getD i 0 ^^^ other.getD i 0)).map (i * 8 + ·))).getD maxPO

def markDirty (addrs : List Address) : Op Unit := do
  let _ ← touch (fun l => if l.gcRunning then { l with dirtyAddresses := l.dirtyAddresses ++ addrs } else l)

section
variable (cfg : Config)

def now : Op Int := do
  let l ← touch (fun l => { l with ticks := l.ticks + 1 })
  pure (cfg.now l.ticks)

def po (addr : Address) : Nat := proximity cfg.baseKey addr

/-- Change the size, unless the change would take it below zero. -/
def incGCSizeInBatch (change : Int) : Op Unit := do
  if change = 0 then pure ()
  else
    let gcSize := (← Batches.get .gcSize).getD 0
    if 0 < change then stageAnyway .gcSize (some ((gcSize + change.toNat) % 2 ^ 64))
    else if gcSize < (-change).toNat then pure ()
    else stageAnyway .gcSize (some (gcSize - (-change).toNat))

abbrev BinIDs := List (Nat × Nat)

def incBinID (binIDs : BinIDs) (po : Nat) : Op (Nat × BinIDs) := do
  let id ← match binIDs.lookup po with
    | some id => pure id
    | none => do pure ((← Batches.get (.binIDs po)).getD 0)
  pure (id + 1,(po,id + 1) :: binIDs.filter (·.1 ≠ po))

/-- Set the bit of type `t` in the lowest byte of a type. -/
def addType (type t : Nat) : Nat :=
  if type.testBit ((t + 7) % 8) then type else type ^^^ 2 ^ ((t + 7) % 8)

/-- Store a chunk, or count one more reference to a stored one. -/
def putUpload (binIDs : BinIDs) (item : Item) : Op (Bool × Item × BinIDs) := do
  if ← Index.retrievalData.has item then
    let t := item.type
    let item ← Index.retrievalData.get item
    let item := { item with type := addType item.type t, counter := item.counter + 1 }
    Index.retrievalData.putInBatch item
    pure (true,item,binIDs)
  else
    let storeTimestamp ← now cfg
    let (binID,binIDs) ← incBinID binIDs (po cfg item.address)
    let item := { item with counter := 1, storeTimestamp := storeTimestamp, binID := binID }
    Index.retrievalData.putInBatch item
    pure (false,item,binIDs)

/-- The access time of a root, which becomes this moment if there is none. -/
def accessedAt (item : Item) : Op Int := do
  match ← Index.retrievalAccess.find item with
  | some i => pure i.accessTimestamp
  | none =>
    let t ← now cfg
    Index.retrievalAccess.putInBatch { item with accessTimestamp := t }
    pure t

/-- The bin id of a root as far as it is known: that of the item, or else that
    of the stored chunk, or else 0. -/
def knownBin (item : Item) : Op Nat := do
  if item.binID = 0 then
    let i ← Index.retrievalData.find item
    pure (i.getD {}).binID
  else pure item.binID

/-- Count one more chunk under the key of an item. -/
def countGC (item : Item) : Op Unit := do
  match ← Index.gc.find item with
  | some gcItem => Index.gc.putInBatch { gcItem with gCounter := inc64 gcItem.gCounter }
  | none => Index.gc.putInBatch { item with gCounter := 1 }

/-- Count one more chunk of a file as garbage; the item is that of the root. -/
def setGC (item : Item) : Op Int := do
  if item.address = [] then pure 0
  else
    let accessTimestamp ← accessedAt cfg item
    let item := { item with accessTimestamp := accessTimestamp }
    let binID ← knownBin item
    countGC { item with binID := binID }
    pure 1

/-- Count one chunk less under the key of an item. A counter other than one is
    written past the batch. -/
def uncountGC (rootItem : Item) : Op Unit := do
  match ← Index.gc.find rootItem with
  | none => pure ()
  | some gcItem =>
    if gcItem.gCounter = 1 then Index.gc.deleteInBatch gcItem
    else Index.gc.put { gcItem with gCounter := dec64 gcItem.gCounter }

def pinRoot (rootItem : Item) : Op Int := do
  if rootItem.address = [] then pure 0
  else
    match ← Index.retrievalAccess.find rootItem with
    | none => pure 0
    | some i =>
      let rootItem := { rootItem with accessTimestamp := i.accessTimestamp }
      let i ← Index.retrievalData.get rootItem
      uncountGC { rootItem with storeTimestamp := i.storeTimestamp, binID := i.binID }
      pure (-1)

/-- Pin a chunk, which takes one chunk of its file out of the garbage. -/
def setPin (item rootItem : Item) : Op Int := do
  let i ← Index.pin.find item
  let gcSizeChange ← pinRoot rootItem
  Index.pin.putInBatch { item with pinCounter := (i.getD {}).pinCounter + 1 }
  pure gcSizeChange

def preserveOrCache (item rootItem : Item) (forcePin : Bool) : Op Int :=
  if forcePin then setPin item rootItem else setGC cfg rootItem

def putRequest (binIDs : BinIDs) (item rootItem : Item) (forcePin : Bool) : Op (Bool × Int × BinIDs) := do
  let (stored,item,binIDs) ← putUpload cfg binIDs item
  if stored then pure (true,0,binIDs)
  else
    let rootItem := if item.address = rootItem.address then { rootItem with binID := item.binID } else rootItem
    let gcSizeChange ← preserveOrCache cfg item rootItem forcePin
    pure (false,gcSizeChange,binIDs)

/-- Append addresses to what was transferred for a file. -/
def putTransfer (addr : Address) (chs : List Address) : Op Unit := do
  let item := addressToItem addr
  let item ← if ← Index.transferData.has item then Index.transferData.get item else pure item
  Index.transferData.putInBatch { item with data := some (item.data.getD [] ++ chs.flatten) }

def putChunk (mode : ModePut) (rootAddr : Address) (binIDs : BinIDs) (ch : Chunk) : Op (Bool × Int × BinIDs) := do
  match mode with
  | .request | .requestPin =>
    let (stored,c,binIDs) ←
      putRequest cfg binIDs { chunkToItem ch with type := 1 } (addressToItem rootAddr) (mode == .requestPin)
    putTransfer rootAddr [ch.address]
    pure (stored,c,binIDs)
  | .upload | .uploadPin =>
    let item := { chunkToItem ch with type := 1 }
    let (stored,_,binIDs) ← putUpload cfg binIDs item
    if mode = .uploadPin then
      let _ ← setPin item (addressToItem rootAddr)
    pure (stored,0,binIDs)
  | .chain => putRequest cfg binIDs { chunkToItem ch with type := 2 } (addressToItem rootAddr) false

def putChunks (mode : ModePut) (rootAddr : Address) : BinIDs → List Chunk → Op (List Bool × Int × BinIDs)
  | binIDs, [] => pure ([],0,binIDs)
  | binIDs, ch :: chs => do
    let (stored,c,binIDs) ← putChunk cfg mode rootAddr binIDs ch
    let (exist,gcSizeChange,binIDs) ← putChunks mode rootAddr binIDs chs
    pure (stored :: exist,c + gcSizeChange,binIDs)

def putBinIDs : BinIDs → Op Unit
  | [] => pure ()
  | (po,id) :: binIDs => do
    stageAnyway (.binIDs po) (some id)
    putBinIDs binIDs

def put (mode : ModePut) (rootAddr : Address) (chs : List Chunk) : Op (List Bool) := do
  markDirty (chs.map (·.address))
  let (exist,gcSizeChange,binIDs) ← putChunks cfg mode rootAddr [] chs
  putBinIDs binIDs
  incGCSizeInBatch gcSizeChange
  commit
  pure exist

/-- Take the entry of an item out of the garbage if the item was accessed. -/
def unsync (item : Item) : Op Int := do
  match ← Index.retrievalAccess.find item with
  | some i =>
    Index.gc.deleteInBatch { item with accessTimestamp := i.accessTimestamp }
    pure (-1)
  | none => pure 0

/-- Move a chunk in the garbage collection index after it was synced. -/
def setSync (addr : Address) : Op Int := do
  let item := addressToItem addr
  match ← Index.retrievalData.find item with
  | none => pure 0
  | some i =>
    let item := { item with storeTimestamp := i.storeTimestamp, binID := i.binID }
    let gcSizeChange ← unsync item
    let accessTimestamp ← now cfg
    let item := { item with accessTimestamp := accessTimestamp }
    Index.retrievalAccess.putInBatch item
    if ← Index.pin.has item then pure gcSizeChange
    else
      Index.gc.putInBatch item
      pure (gcSizeChange + 1)

def deleteFile (reference : Address) : Op Unit := do
  let _ ← touch (fun l =>
    { l with
      chunkstore :=
        ((l.chunkstore.removeAll .discover reference).removeAll .service reference).removeAll .source reference })

/-- Complete the item of a root with its bin id and its access time; none if it
    was never accessed. An item with a store timestamp is complete. -/
def completeRoot (rootItem : Item) : Op (Option Item) := do
  if rootItem.storeTimestamp = 0 then
    let i ← Index.retrievalData.get rootItem
    let rootItem := { rootItem with storeTimestamp := i.storeTimestamp, binID := i.binID }
    let i ← Index.retrievalAccess.find rootItem
    pure (i.map (fun i => { rootItem with accessTimestamp := i.accessTimestamp }))
  else pure (some rootItem)

/-- Count one chunk less under the key of a root; the access time goes with the
    last one. -/
def dropGC (rootItem : Item) : Op Int := do
  match ← Index.gc.find rootItem with
  | none => pure 0
  | some gcItem =>
    if 1 < gcItem.gCounter then
      Index.gc.putInBatch { gcItem with gCounter := dec64 gcItem.gCounter }
      pure (-1)
    else
      Index.retrievalAccess.deleteInBatch rootItem
      Index.gc.deleteInBatch gcItem
      pure (-1)

def gcRemove (rootItem : Item) : Op Int := do
  match ← completeRoot rootItem with
  | none => pure 0
  | some rootItem =>
    deleteFile rootItem.address
    dropGC rootItem

/-- Take one pin off a chunk and say whether it is still pinned. Stored pin
    counters are positive, so taking one off does not wrap. -/
def releasePin (item : Item) : Op Bool := do
  match ← Index.pin.find item with
  | none => pure false
  | some pinItem =>
    if 0 < pinItem.pinCounter - 1 then
      Index.pin.putInBatch { pinItem with pinCounter := pinItem.pinCounter - 1 }
      pure true
    else
      Index.pin.deleteInBatch item
      pure false

/-- Release one reference to a chunk, or else one pin, or else the chunk. -/
def setRemove (addr : Address) (rootItem : Item) : Op Int := do
  match ← Index.retrievalData.find (addressToItem addr) with
  | none => gcRemove rootItem
  | some item =>
    if 1 < item.counter then
      Index.retrievalData.putInBatch { item with counter := item.counter - 1 }
      pure 0
    else
      let i ← Index.retrievalAccess.find item
      let item := { item with accessTimestamp := (i.getD item).accessTimestamp }
      if ← releasePin item then pure 0
      else
        Index.retrievalData.deleteInBatch item
        if addr = rootItem.address then gcRemove item
        else
          Index.retrievalAccess.deleteInBatch item
          gcRemove rootItem

def unpinRoot (rootItem : Item) : Op Int := do
  if rootItem.address = [] then pure 0
  else
    let accessTimestamp ← accessedAt cfg rootItem
    let rootItem := { rootItem with accessTimestamp := accessTimestamp }
    let i ← Index.retrievalData.get rootItem
    countGC { rootItem with storeTimestamp := i.storeTimestamp, binID := i.binID }
    pure 1

/-- Take one pin off a chunk; the last one brings it back into the garbage. -/
def setUnpin (item rootItem : Item) : Op Int := do
  let i ← Index.pin.get item
  if 1 < i.pinCounter then
    Index.pin.putInBatch { item with pinCounter := i.pinCounter - 1 }
    pure 0
  else
    Index.pin.deleteInBatch { item with pinCounter := i.pinCounter }
    unpinRoot cfg rootItem

def setAddress (mode : ModeSet) (rootAddr addr : Address) : Op Int := do
  match mode with
  | .sync => setSync cfg addr
  | .remove => setRemove addr (addressToItem rootAddr)
  | .pin =>
    if ← Index.retrievalData.has (addressToItem addr) then setPin (addressToItem addr) (addressToItem rootAddr)
    else Batches.fail .storageNotFound
  | .unpin => setUnpin cfg (addressToItem addr) (addressToItem rootAddr)

def setAddresses (mode : ModeSet) (rootAddr : Address) : List Address → Op Int
  | [] => pure 0
  | addr :: addrs => do
    let c ← setAddress cfg mode rootAddr addr
    let gcSizeChange ← setAddresses mode rootAddr addrs
    pure (c + gcSizeChange)

def set (mode : ModeSet) (rootAddr : Address) (addrs : List Address) : Op Unit := do
  markDirty addrs
  let gcSizeChange ← setAddresses cfg mode rootAddr addrs
  incGCSizeInBatch gcSizeChange
  commit

/-- The entry of a root, looked for under a bin id and then under the bin id 0. -/
def findGC (item : Item) : Op (Option Item) := do
  match ← Index.gc.find item with
  | some gcItem => pure (some gcItem)
  | none => if item.binID = 0 then pure none else Index.gc.find { item with binID := 0 }

/-- Move an entry to another bin id and the present time. -/
def renewGC (gcItem item : Item) : Op Unit := do
  Index.gc.deleteInBatch gcItem
  let accessTimestamp ← now cfg
  let item := { item with gCounter := gcItem.gCounter, accessTimestamp := accessTimestamp }
  Index.gc.putInBatch item
  Index.retrievalAccess.putInBatch item
  commit

/-- The stored chunk of an item without a bin id, and else what its access entry
    gave; the zero item if there is neither. -/
def storedItem (item : Item) (accessItem : Option Item) : Op Item := do
  if item.binID = 0 then
    let i ← Index.retrievalData.find item
    pure (i.getD {})
  else pure (accessItem.getD {})

/-- Move the entry of an item, if there is one, to another bin id. -/
def moveGC (item : Item) (binID : Nat) : Op Unit := do
  match ← findGC item with
  | none => pure ()
  | some gcItem => renewGC cfg gcItem { item with binID := binID }

def renewEntry (item : Item) (accessItem : Option Item) : Op Unit := do
  let i ← storedItem item accessItem
  moveGC cfg { item with binID := if item.binID = 0 then i.binID else item.binID } i.binID

/-- Move the entry of a file to the time of this access. -/
def updateGC (item : Item) : Op Unit := do
  markDirty [item.address]
  let accessItem ← Index.retrievalAccess.find item
  let item := { item with accessTimestamp := (accessItem.getD item).accessTimestamp }
  if item.accessTimestamp = 0 then pure ()
  else renewEntry cfg item accessItem

/-- The addresses in a transfer list, the last one first. -/
def addressesOf (data : Bytes) : Except Err (List Address) :=
  if data.length % hashSize ≠ 0 then .error .panicked
  else .ok ((List.range (data.length / hashSize)).reverse.map
    (fun i => Manifest.slice data (i * hashSize) (i * hashSize + hashSize)))

/-- What was transferred for a file. Any error counts as nothing known. -/
def getTransfer (rootCid : Address) : Op (Option (List Address)) := do
  let out ← (Index.transferData.get (addressToItem rootCid)).attempt (fun _ => true)
  match out with
  | .error _ => pure none
  | .ok out => do
    let chs ← settle (addressesOf (out.data.getD []))
    pure (some chs)

/-- Collect the addresses that a walk returns for each element. -/
def gather {α : Type} (walk : α → Op (List Address)) : List α → Op (List Address)
  | [] => pure []
  | a :: as => do
    let ps ← walk a
    let rest ← gather walk as
    pure (ps ++ rest)

def toInt64 (n : Nat) : Int := if n < 2 ^ 63 then n else n - 2 ^ 64

def littleEndian : Bytes → Nat
  | [] => 0
  | b :: bs => b.toNat + 256 * littleEndian bs

/-- The chunks that the nodes of a manifest lead to; errors in them are ignored. -/
def walkNodes (walk : Address → Nat → Op (List Address)) (nodes : List Manifest.Node) : Op (List Address) :=
  gather (fun n => do
    let ps ← (walk n.address 0).attempt (fun e => e ≠ .panicked ∧ e ≠ .endless)
    pure (ps.toOption.getD [])) nodes

/-- The chunks that the references in the data of a chunk lead to. Slicing past
    the end of the data panics. -/
def walkRefs (walk : Address → Nat → Op (List Address)) (data : Bytes) : Op (List Address) :=
  gather (fun i =>
    let ref := Manifest.slice data (i * hashSize) (i * hashSize + hashSize)
    if data.length < i * hashSize + hashSize then Batches.fail .panicked
    else if ref = List.replicate hashSize 0 then pure []
    else walk ref 1) (List.range ((data.length + (hashSize - 1)) / hashSize))

/-- The chunks under a chunk that can have some, given what its data reads as. -/
def walkChunk (walk : Address → Nat → Op (List Address)) (ch : Address) (data : Bytes)
    (manifest : List Manifest.Node × Option Manifest.Fault) : Op (List Address) := do
  if manifest.2 = some .panicked then Batches.fail .panicked
  else
    let forks ← walkNodes walk manifest.1
    if manifest.1 ≠ [] then pure (forks ++ [ch])
    else
      let refs ← walkRefs walk data
      pure (ch :: refs)

/-- The stored chunks under a chunk: the forks of a manifest, or what the
    references in its data lead to. -/
def getChunk : Nat → Address → Nat → Op (List Address)
  | 0, _, _ => Batches.fail .endless
  | fuel + 1, ch, t => do
    if ← Index.retrievalData.has (addressToItem ch) then
      let item ← Index.retrievalData.get (addressToItem ch)
      let bytes := item.data.getD []
      let data := bytes.drop 8
      let size := toInt64 (littleEndian (bytes.take 8))
      if bytes.length < 8 then Batches.fail .panicked
      else if size ≤ data.length ∧ t = 1 then pure [ch]
      else walkChunk (getChunk fuel) ch data (if size ≤ data.length then Manifest.unmarshalBinary data else ([],none))
    else pure []

def getAllChunks (rootCid : Address) : Op (List Address) := do
  match ← getTransfer rootCid with
  | some chunks => pure chunks
  | none => getChunk cfg.depth rootCid 0

def setRemoveTransfer (rootCid : Address) : Op Unit := Index.transferData.deleteInBatch (addressToItem rootCid)

def removeChunks (rootItem : Item) : List Address → Op Int
  | [] => pure 0
  | addr :: addrs => do
    let c ← setRemove addr rootItem
    let gcSizeChange ← removeChunks rootItem addrs
    pure (c + gcSizeChange)

def setRemoveAll (item : Item) : Op Unit := do
  let chunks ← getAllChunks cfg item.address
  let gcSizeChange ← removeChunks item chunks
  setRemoveTransfer item.address
  incGCSizeInBatch gcSizeChange
  commit

def commonDelete (item : Item) : Op Unit := do
  let _ ← touch (fun l =>
    { l with
      chunkstore := l.chunkstore.cancelFinder item.address
      filestore := l.filestore.delete item.address })
  setRemoveAll cfg item

def DeleteFile (reference : Address) : Op Unit := commonDelete cfg (addressToItem reference)

def gcFile (item : Item) : Op Unit := commonDelete cfg item

def gcBatchSize : Nat := 10000

/-- An entry of the garbage collection index as it is iterated. -/
def gcItem (e : GcKey × Nat) : Item :=
  { address := e.1.address, accessTimestamp := e.1.accessTimestamp, binID := e.1.binID, gCounter := e.2 }

/-- The entries that are collected, of those that the iteration comes to, until
    the size is down to the target or enough chunks are counted. Counters are of
    64 bits, and so is the difference. -/
def candidates (gcSize : Nat) : (collectedCount : Nat) → List (GcKey × Nat) → List Item
  | _, [] => []
  | collectedCount, e :: entries =>
    if (gcSize + 2 ^ 64 - collectedCount) % 2 ^ 64 ≤ cfg.gcTarget then []
    else
      let collectedCount := (collectedCount + e.2) % 2 ^ 64
      if gcBatchSize ≤ collectedCount then [gcItem e] else gcItem e :: candidates gcSize collectedCount entries

def collects (s : Store) (entries : List (GcKey × Nat)) : List Item :=
  match s.gcSize with
  | none => []
  | some gcSize => if gcSize ≤ cfg.gcTarget then [] else candidates cfg gcSize 0 entries

def crashed : Except Err Unit → Bool
  | .error .panicked => true
  | .error .endless => true
  | _ => false

/-- Delete files one after the other. Errors are counted but end nothing; a
    panic ends the process. -/
def gcFiles (d : Driver) : List Item → Store × Local → Option (Store × Local)
  | [], st => some st
  | item :: items, st =>
    let r := run d (gcFile cfg item) st
    if crashed r.1 then none else gcFiles d items r.2

/-- Note the addresses that are touched from now on. -/
def startGC (st : Store × Local) : Store × Local := (st.1,{ st.2 with gcRunning := true })

def endGC (st : Store × Local) : Store × Local := (st.1,{ st.2 with gcRunning := false, dirtyAddresses := [] })

/-- One collection, given the entries of the index in the order of the iteration. -/
def collectGarbage (d : Driver) (entries : List (GcKey × Nat)) (st : Store × Local) : Option (Store × Local) :=
  (gcFiles cfg d (collects cfg st.1 entries) (startGC st)).map endGC

inductive Call
  | put (mode : ModePut) (root : Address) (chs : List Chunk)
  | set (mode : ModeSet) (root : Address) (addrs : List Address)
  | updateGC (item : Item)
  | deleteFile (root : Address)

/-- The operation of a call; only a put returns flags. -/
def Call.op : Call → Op (List Bool)
  | .put mode root chs => Localstore.put cfg mode root chs
  | .set mode root addrs => do
    Localstore.set cfg mode root addrs
    pure []
  | .updateGC item => do
    Localstore.updateGC cfg item
    pure []
  | .deleteFile root => do
    DeleteFile cfg root
    pure []

def after (d : Driver) (c : Call) (st : Store × Local) : Store × Local := (run d (c.op cfg) st).2

def Succeeds (d : Driver) (c : Call) (st : Store × Local) : Prop := ∃ r, (run d (c.op cfg) st).1 = .ok r

/-- The states that calls lead to from an empty database, where every call is
    allowed in the state it is made in. -/
inductive Reached (d : Driver) (allowed : Call → Store × Local → Prop) : Store × Local → Prop
  | start (l : Local) : Reached d allowed ({},l)
  | call (c : Call) {st : Store × Local} :
    Reached d allowed st → allowed c st → Reached d allowed (after cfg d c st)

end

def steady : Config where
  now n := n + 1
  now_pos n := by omega
  baseKey := []
  gcTarget := 0
  depth := 3

def sample (b : UInt8) : Chunk where
  address := List.replicate hashSize b
  data := List.replicate 8 0
  sized := List.length_replicate

end FavorX.Localstore
