import FavorX.Localstore

/-!
What the operations of the local store do when every write takes effect at once:
one equation for each, which later proofs use. They hold for every store that
turns down no write except those with an empty address or an empty list
(`Accepting`).
-/
namespace FavorX.Effects
open FiniteMaps Shed Presence Localstore
open Batches hiding get put fail

/-- Writes are turned down only for an empty address or an empty list. -/
structure Accepting (refuse : (k : Key) → Option (Value k) → Option Err) : Prop where
  data : ∀ a v, a ≠ [] → refuse (.retrievalData a) v = none
  access : ∀ a v, a ≠ [] → refuse (.retrievalAccess a) v = none
  pin : ∀ a v, a ≠ [] → refuse (.pin a) v = none
  transfer : ∀ a v, a ≠ [] → v ≠ some [] → refuse (.transferData a) v = none
  gc : ∀ g v, refuse (.gc g) v = none
  binIDs : ∀ po v, refuse (.binIDs po) v = none
  gcSize : ∀ v, refuse .gcSize v = none

theorem refused_accepting : Accepting refused where
  data a v named := by cases a <;> simp_all [refused]
  access a v named := by cases a <;> simp_all [refused]
  pin a v named := by cases a <;> simp_all [refused]
  transfer a v named full := by
    cases a with
    | nil => exact absurd rfl named
    | cons b bs =>
      match v with
      | none => rfl
      | some [] => exact absurd rfl full
      | some (_ :: _) => rfl
  gc _ _ := rfl
  binIDs _ _ := rfl
  gcSize _ := rfl

theorem Chunk.named (ch : Chunk) : ch.address ≠ [] := by
  intro empty
  have sized := ch.sized
  rw [empty] at sized
  cases sized

/-! ### The changes that operations are made of -/

section
variable (cfg : Config)

def countUp (v : ChunkValue) (t : Nat) : ChunkValue := { v with type := addType v.type t, counter := v.counter + 1 }

/-- The next bin id of a proximity order within one put. -/
def nextBin (binIDs : BinIDs) (po : Nat) (s : Store) : Nat :=
  (binIDs.lookup po).getD ((s.binIDs.lookup po).getD 0) + 1

def bumpBin (binIDs : BinIDs) (po : Nat) (s : Store) : BinIDs :=
  (po,nextBin binIDs po s) :: binIDs.filter (·.1 ≠ po)

def setData (a : Address) (v : Option ChunkValue) (st : Store × Local) : Store × Local :=
  ({ st.1 with retrievalDataIndex := update st.1.retrievalDataIndex a v },st.2)

def setAccess (a : Address) (t : Option Int) (st : Store × Local) : Store × Local :=
  ({ st.1 with retrievalAccessIndex := update st.1.retrievalAccessIndex a t },st.2)

def setTransfer (a : Address) (v : Option Bytes) (st : Store × Local) : Store × Local :=
  ({ st.1 with transferDataIndex := update st.1.transferDataIndex a v },st.2)

def setGc (g : GcKey) (n : Option Nat) (st : Store × Local) : Store × Local :=
  ({ st.1 with gcIndex := update st.1.gcIndex g n },st.2)

def setPins (a : Address) (n : Option Nat) (st : Store × Local) : Store × Local :=
  ({ st.1 with pinIndex := update st.1.pinIndex a n },st.2)

def tick (st : Store × Local) : Store × Local := (st.1,{ st.2 with ticks := st.2.ticks + 1 })

def newValue (binIDs : BinIDs) (ch : Chunk) (t : Nat) (st : Store × Local) : ChunkValue :=
  ⟨nextBin binIDs (po cfg ch.address) st.1,cfg.now st.2.ticks,t,1,ch.data⟩

def storeNew (binIDs : BinIDs) (ch : Chunk) (t : Nat) (st : Store × Local) : Store × Local :=
  setData ch.address (some (newValue cfg binIDs ch t st)) (tick st)

/-- The access time of a root, which is this moment if there is none. -/
def accessTime (root : Address) (st : Store × Local) : Int :=
  (st.1.retrievalAccessIndex.lookup root).getD (cfg.now st.2.ticks)

def access (root : Address) (st : Store × Local) : Store × Local :=
  if (st.1.retrievalAccessIndex.lookup root).isSome then st
  else setAccess root (some (cfg.now st.2.ticks)) (tick st)

/-- The bin id of a root chunk, or 0 if it is not stored. -/
def rootBin (root : Address) (s : Store) : Nat := ((s.retrievalDataIndex.lookup root).map (·.binID)).getD 0

def rootKey (root : Address) (st : Store × Local) : GcKey := ⟨accessTime cfg root st,rootBin root st.1,root⟩

def gcAdd (g : GcKey) (st : Store × Local) : Store × Local :=
  setGc g (some (((st.1.gcIndex.lookup g).map inc64).getD 1)) st

def cache (root : Address) (st : Store × Local) : Store × Local :=
  gcAdd (rootKey cfg root st) (access cfg root st)

def addTransfer (root a : Address) (st : Store × Local) : Store × Local :=
  setTransfer root (some ((st.1.transferDataIndex.lookup root).getD [] ++ a)) st

/-- One chunk less counted under a key, as pinning does it. -/
def gcTake (g : GcKey) (st : Store × Local) : Store × Local :=
  match st.1.gcIndex.lookup g with
  | none => st
  | some n => setGc g (if n = 1 then none else some (dec64 n)) st

def addPin (a : Address) (st : Store × Local) : Store × Local :=
  setPins a (some ((st.1.pinIndex.lookup a).getD 0 + 1)) st

def forget (root : Address) (st : Store × Local) : Store × Local :=
  (st.1,{ st.2 with
    chunkstore := ((st.2.chunkstore.removeAll .discover root).removeAll .service root).removeAll .source root })

/-- One chunk less counted under a key, as removing does it; the access time
    goes with the last one. -/
def gcDrop (g : GcKey) (st : Store × Local) : Store × Local :=
  match st.1.gcIndex.lookup g with
  | none => st
  | some n => if 1 < n then setGc g (some (dec64 n)) st else setGc g none (setAccess g.address none st)

/-- By how much the size changes when a key is dropped. -/
def dropChange (g : GcKey) (st : Store × Local) : Int := if (st.1.gcIndex.lookup g).isSome then -1 else 0

def resize (change : Int) (st : Store × Local) : Store × Local :=
  let gcSize := st.1.gcSize.getD 0
  if change = 0 then st
  else if 0 < change then ({ st.1 with gcSize := some ((gcSize + change.toNat) % 2 ^ 64) },st.2)
  else if gcSize < (-change).toNat then st
  else ({ st.1 with gcSize := some (gcSize - (-change).toNat) },st.2)

def keepBins (binIDs : BinIDs) (st : Store × Local) : Store × Local :=
  (binIDs.foldl (fun s b => { s with binIDs := s.binIDs.insert b.1 b.2 }) st.1,st.2)

def recordDirty (addrs : List Address) (st : Store × Local) : Store × Local :=
  (st.1,if st.2.gcRunning then { st.2 with dirtyAddresses := st.2.dirtyAddresses ++ addrs } else st.2)

end

/-! ### Requests to an index -/

variable {i : Item} {st : Store × Local}

section
variable {α β : Type} (cfg : Config) {refuse : (k : Key) → Option (Value k) → Option Err}

@[simp] theorem read_medium (k : Key) (s : Store) : medium.read k s = s.read k := rfl
@[simp] theorem write_medium (k : Key) (v : Option (Value k)) (s : Store) : medium.write k v s = s.write k v := rfl

/-- The items that reading an index gives for the fields of a key. -/
def foundData (i : Item) (v : ChunkValue) : Item :=
  { i with
    data := some v.data
    storeTimestamp := if v.storeTimestamp = 0 then i.storeTimestamp else v.storeTimestamp
    binID := if v.binID = 0 then i.binID else v.binID
    type := v.type
    counter := v.counter }

def foundAccess (i : Item) (t : Int) : Item :=
  { i with accessTimestamp := if t = 0 then i.accessTimestamp else t, type := 0, counter := 0 }

def foundTransfer (i : Item) (v : Bytes) : Item := { i with data := some v, type := 0, counter := 0 }

def foundGc (i : Item) (n : Nat) : Item := { i with gCounter := if n = 0 then i.gCounter else n, type := 0, counter := 0 }

def foundPin (i : Item) (n : Nat) : Item :=
  { i with pinCounter := if n = 0 then i.pinCounter else n, type := 0, counter := 0 }

def gcKey (i : Item) : GcKey := ⟨i.accessTimestamp,i.binID,i.address⟩

section
variable (i : Item)

@[simp] theorem findData :
    through medium refuse (Index.retrievalData.find i) st =
      (.ok ((st.1.retrievalDataIndex.lookup i.address).map (foundData i)),st) := rfl

@[simp] theorem findAccess :
    through medium refuse (Index.retrievalAccess.find i) st =
      (.ok ((st.1.retrievalAccessIndex.lookup i.address).map (foundAccess i)),st) := rfl

@[simp] theorem findTransfer :
    through medium refuse (Index.transferData.find i) st =
      (.ok ((st.1.transferDataIndex.lookup i.address).map (foundTransfer i)),st) := rfl

@[simp] theorem findGc :
    through medium refuse (Index.gc.find i) st = (.ok ((st.1.gcIndex.lookup (gcKey i)).map (foundGc i)),st) := rfl

@[simp] theorem findPin :
    through medium refuse (Index.pin.find i) st = (.ok ((st.1.pinIndex.lookup i.address).map (foundPin i)),st) := rfl

@[simp] theorem hasData :
    through medium refuse (Index.retrievalData.has i) st =
      (.ok (st.1.retrievalDataIndex.lookup i.address).isSome,st) := rfl

@[simp] theorem hasTransfer :
    through medium refuse (Index.transferData.has i) st =
      (.ok (st.1.transferDataIndex.lookup i.address).isSome,st) := rfl

@[simp] theorem hasPin :
    through medium refuse (Index.pin.has i) st = (.ok (st.1.pinIndex.lookup i.address).isSome,st) := rfl

end

@[simp] theorem through_getItem (x : Index) (i : Item) :
    through medium refuse (x.get i) st =
      match through medium refuse (x.find i) st with
      | (.ok (some out),st') => (.ok out,st')
      | (.ok none,st') => (.error .notFound,st')
      | (.error e,st') => (.error e,st') := by
  simp only [Index.get,bind_eq,through_bind]
  rcases through medium refuse (x.find i) st with ⟨(_ | out),st'⟩
  · rfl
  · cases out <;> rfl

theorem through_putInBatch {x : Index} (accepted : refuse (x.key i) (some (x.encode i)) = none) {st : Store × Local} :
    through medium refuse (x.putInBatch i) st = (.ok (),(st.1.write (x.key i) (some (x.encode i)),st.2)) := by
  simp only [Index.putInBatch,through_stage,accepted,write_medium]

theorem through_deleteInBatch {x : Index} (accepted : refuse (x.key i) none = none) {st : Store × Local} :
    through medium refuse (x.deleteInBatch i) st = (.ok (),(st.1.write (x.key i) none,st.2)) := by
  simp only [Index.deleteInBatch,through_stage,accepted,write_medium]

@[simp] theorem through_now : through medium refuse (now cfg) st = (.ok (cfg.now st.2.ticks),tick st) := rfl

@[simp] theorem through_markDirty (addrs : List Address) :
    through medium refuse (markDirty addrs) st = (.ok (),recordDirty addrs st) := rfl

@[simp] theorem ticks_recordDirty (addrs : List Address) : (recordDirty addrs st).2.ticks = st.2.ticks := by
  unfold recordDirty
  split <;> rfl

@[simp] theorem through_deleteFile (root : Address) :
    through medium refuse (deleteFile root) st = (.ok (),forget root st) := rfl

end

section
variable (cfg : Config) {refuse : (k : Key) → Option (Value k) → Option Err} (accepts : Accepting refuse)
include accepts

section
variable (named : i.address ≠ [])
include named

theorem putData :
    through medium refuse (Index.retrievalData.putInBatch i) st =
      (.ok (),setData i.address (some ⟨i.binID,i.storeTimestamp,i.type,i.counter,i.data.getD []⟩) st) :=
  through_putInBatch (accepts.data _ _ named)

theorem deleteData :
    through medium refuse (Index.retrievalData.deleteInBatch i) st = (.ok (),setData i.address none st) :=
  through_deleteInBatch (accepts.data _ _ named)

theorem putAccess :
    through medium refuse (Index.retrievalAccess.putInBatch i) st =
      (.ok (),setAccess i.address (some i.accessTimestamp) st) :=
  through_putInBatch (accepts.access _ _ named)

theorem deleteAccess :
    through medium refuse (Index.retrievalAccess.deleteInBatch i) st = (.ok (),setAccess i.address none st) :=
  through_deleteInBatch (accepts.access _ _ named)

theorem putPin :
    through medium refuse (Index.pin.putInBatch i) st = (.ok (),setPins i.address (some i.pinCounter) st) :=
  through_putInBatch (accepts.pin _ _ named)

theorem deletePin : through medium refuse (Index.pin.deleteInBatch i) st = (.ok (),setPins i.address none st) :=
  through_deleteInBatch (accepts.pin _ _ named)

theorem putTransferData (full : i.data.getD [] ≠ []) :
    through medium refuse (Index.transferData.putInBatch i) st =
      (.ok (),setTransfer i.address (some (i.data.getD [])) st) :=
  through_putInBatch (accepts.transfer _ _ named (fun empty => full (Option.some.inj empty)))

theorem deleteTransfer :
    through medium refuse (Index.transferData.deleteInBatch i) st = (.ok (),setTransfer i.address none st) :=
  through_deleteInBatch (accepts.transfer i.address none named (Option.some_ne_none []).symm)

end

theorem putGc (i : Item) :
    through medium refuse (Index.gc.putInBatch i) st =
      (.ok (),setGc (gcKey i) (some i.gCounter) st) :=
  through_putInBatch (accepts.gc _ _)

theorem putGcNow {i : Item} (st : Store × Local) :
    through medium refuse (Index.gc.put i) st = (.ok (),setGc (gcKey i) (some i.gCounter) st) := by
  have accepted : refuse (Index.gc.key i) (some (Index.gc.encode i)) = none := accepts.gc _ _
  simp only [Index.put,Batches.put,through,accepted]
  rfl

theorem deleteGc {i : Item} (st : Store × Local) :
    through medium refuse (Index.gc.deleteInBatch i) st =
      (.ok (),setGc (gcKey i) none st) :=
  through_deleteInBatch (accepts.gc _ _)

end

/-! ### Putting a chunk -/

variable {item : Item} {root a : Address} {ch : Chunk} {v : ChunkValue}

section
variable (cfg : Config) {refuse : (k : Key) → Option (Value k) → Option Err} (accepts : Accepting refuse)

@[simp] theorem ite_eq_self {β : Type} (a z : β) [Decidable (a = z)] : (if a = z then z else a) = a := by
  split
  · next same => exact same.symm
  · rfl

theorem through_incBinID (binIDs : BinIDs) (po : Nat) :
    through medium refuse (incBinID binIDs po) st = (.ok (nextBin binIDs po st.1,bumpBin binIDs po st.1),st) := by
  unfold incBinID bumpBin nextBin
  cases binIDs.lookup po <;> rfl

theorem setGC_nil (b : Nat) :
    through medium refuse (setGC cfg { addressToItem [] with binID := b }) st = (.ok 0,st) := rfl

theorem through_knownBin (known : item.binID = 0 ∨ item.binID = rootBin item.address st.1) :
    through medium refuse (knownBin item) st = (.ok (rootBin item.address st.1),st) := by
  unfold knownBin
  split
  · next zero =>
    simp only [bind_eq,through_bind,findData,pure_eq,through_done,rootBin]
    cases st.1.retrievalDataIndex.lookup item.address with
    | none => rfl
    | some v => simp [-ite_eq_left_iff,foundData,zero]
  · next set =>
    simp only [pure_eq,through_done]
    rw [known.resolve_left set]

include accepts

theorem through_accessedAt (named : item.address ≠ []) (fresh : item.accessTimestamp = 0) :
    through medium refuse (accessedAt cfg item) st =
      (.ok (accessTime cfg item.address st),access cfg item.address st) := by
  unfold accessedAt access accessTime
  simp only [bind_eq,pure_eq,through_bind,findAccess]
  cases held : st.1.retrievalAccessIndex.lookup item.address with
  | none => simp [putAccess accepts,named]
  | some t => simp [-ite_eq_left_iff,foundAccess,fresh]

theorem through_countGC (fresh : item.gCounter = 0) :
    through medium refuse (countGC item) st = (.ok (),gcAdd (gcKey item) st) := by
  unfold countGC gcAdd
  simp only [bind_eq,through_bind,findGc]
  cases held : st.1.gcIndex.lookup (gcKey item) with
  | none => simp [putGc accepts,gcKey]
  | some n => simp [putGc accepts,foundGc,fresh,gcKey]

theorem setGC_run (named : root ≠ []) {b : Nat} (known : b = 0 ∨ b = rootBin root st.1) :
    through medium refuse (setGC cfg { addressToItem root with binID := b }) st = (.ok 1,cache cfg root st) := by
  have bin : rootBin root (access cfg root st).1 = rootBin root st.1 := by
    unfold access
    split <;> rfl
  unfold setGC
  simp only [addressToItem,named,if_false,bind_eq,through_bind,pure_eq,through_done]
  rw [through_accessedAt cfg accepts named rfl]
  simp only []
  rw [through_knownBin (by rw [bin]; exact known)]
  simp only []
  rw [through_countGC accepts rfl]
  simp only [cache,rootKey,gcKey,bin]

theorem putUpload_stored (held : st.1.retrievalDataIndex.lookup ch.address = some v) (binIDs : BinIDs) (t : Nat) :
    ∃ item, through medium refuse (putUpload cfg binIDs { chunkToItem ch with type := t }) st =
      (.ok (true,item,binIDs),setData ch.address (some (countUp v t)) st) := by
  unfold putUpload
  simp [-ite_eq_left_iff,chunkToItem,held,foundData,Chunk.named,putData accepts,countUp]

theorem putUpload_new (absent : st.1.retrievalDataIndex.lookup ch.address = none) (binIDs : BinIDs) (t : Nat) :
    through medium refuse (putUpload cfg binIDs { chunkToItem ch with type := t }) st =
      (.ok (false,
        { address := ch.address, data := some ch.data, storeTimestamp := cfg.now st.2.ticks,
          binID := nextBin binIDs (po cfg ch.address) st.1, type := t, counter := 1, tag := ch.tagID },
        bumpBin binIDs (po cfg ch.address) st.1),storeNew cfg binIDs ch t st) := by
  unfold putUpload
  simp [chunkToItem,absent,Chunk.named,putData accepts,through_incBinID,storeNew,newValue,tick]

theorem putTransfer_run (named : root ≠ []) (full : a ≠ []) :
    through medium refuse (putTransfer root [a]) st = (.ok (),addTransfer root a st) := by
  unfold putTransfer addTransfer
  simp only [bind_eq,through_bind,hasTransfer,addressToItem]
  cases held : st.1.transferDataIndex.lookup root with
  | none => simp [putTransferData accepts,named,full]
  | some v => simp [held,putTransferData accepts,named,full,foundTransfer]

theorem putRequest_stored (held : st.1.retrievalDataIndex.lookup ch.address = some v) (binIDs : BinIDs) (t : Nat)
    (rootItem : Item) (forcePin : Bool) :
    through medium refuse (putRequest cfg binIDs { chunkToItem ch with type := t } rootItem forcePin) st =
      (.ok (true,0,binIDs),setData ch.address (some (countUp v t)) st) := by
  obtain ⟨item,run⟩ := putUpload_stored cfg accepts held binIDs t
  unfold putRequest
  simp [bind_eq,through_bind,run,pure_eq,through_done]

/-! ### Pinning and unpinning -/

theorem through_uncountGC (fresh : item.gCounter = 0) :
    through medium refuse (uncountGC item) st = (.ok (),gcTake (gcKey item) st) := by
  unfold uncountGC gcTake
  simp only [bind_eq,through_bind,findGc]
  cases held : st.1.gcIndex.lookup (gcKey item) with
  | none => rfl
  | some n =>
    simp only [Option.map_some,foundGc,fresh,ite_eq_self]
    split
    · exact deleteGc accepts st
    · exact putGcNow accepts st

theorem pinRoot_run {root : Address} {b : Nat} {st : Store × Local} (known : b = 0 ∨ b = rootBin root st.1) :
    through medium refuse (pinRoot { addressToItem root with binID := b }) st =
      if root = [] then (.ok 0,st)
      else match st.1.retrievalAccessIndex.lookup root, st.1.retrievalDataIndex.lookup root with
        | none, _ => (.ok 0,st)
        | some _, none => (.error .notFound,st)
        | some t, some v => (.ok (-1),gcTake ⟨t,v.binID,root⟩ st) := by
  unfold pinRoot
  by_cases nil : root = []
  · simp [addressToItem,nil]
  simp only [addressToItem,nil,if_false,bind_eq,through_bind,findAccess]
  cases st.1.retrievalAccessIndex.lookup root with
  | none => rfl
  | some t =>
    cases held : st.1.retrievalDataIndex.lookup root with
    | none => simp [held]
    | some v =>
      have bin : (if v.binID = 0 then b else v.binID) = v.binID := by
        simp only [rootBin,held,Option.map_some,Option.getD_some] at known
        split <;> omega
      simp [-ite_eq_left_iff,held,foundAccess,foundData,through_uncountGC accepts,gcKey,bin]

omit accepts in
@[simp] theorem pins_gcTake {g : GcKey} {st : Store × Local} : (gcTake g st).1.pinIndex = st.1.pinIndex := by
  unfold gcTake
  cases st.1.gcIndex.lookup g <;> rfl

theorem setPin_run (named : item.address ≠ []) (fresh : item.pinCounter = 0) {root : Address} {b : Nat}
    (known : b = 0 ∨ b = rootBin root st.1) :
    through medium refuse (setPin item { addressToItem root with binID := b }) st =
      match through medium refuse (pinRoot { addressToItem root with binID := b }) st with
      | (.ok c,st') => (.ok c,addPin item.address st')
      | (.error e,st') => (.error e,st') := by
  have pins : (through medium refuse (pinRoot { addressToItem root with binID := b }) st).2.1.pinIndex =
      st.1.pinIndex := by
    rw [pinRoot_run accepts known]
    split
    · rfl
    split
    · rfl
    · rfl
    · exact pins_gcTake
  unfold setPin
  simp only [bind_eq,through_bind,findPin]
  rcases run : through medium refuse (pinRoot { addressToItem root with binID := b }) st with ⟨(e | c),st'⟩
  · rfl
  rw [run] at pins
  simp only at pins
  cases held : st.1.pinIndex.lookup item.address with
  | none => simp [addPin,putPin accepts,named,pins,held]
  | some n => simp [addPin,putPin accepts,named,pins,held,-ite_eq_left_iff,foundPin,fresh]

theorem unpinRoot_run (root : Address) :
    through medium refuse (unpinRoot cfg (addressToItem root)) st =
      if root = [] then (.ok 0,st)
      else if (st.1.retrievalDataIndex.lookup root).isSome then (.ok 1,cache cfg root st)
      else (.error .notFound,access cfg root st) := by
  have data : (access cfg root st).1.retrievalDataIndex = st.1.retrievalDataIndex := by
    unfold access
    split <;> rfl
  unfold unpinRoot
  by_cases nil : root = []
  · simp [addressToItem,nil]
  have accessed : through medium refuse (accessedAt cfg { address := root }) st =
      (.ok (accessTime cfg root st),access cfg root st) := through_accessedAt cfg accepts nil rfl
  simp only [addressToItem,nil,if_false,bind_eq,through_bind,accessed]
  cases held : st.1.retrievalDataIndex.lookup root with
  | none => simp [data,held]
  | some v => simp [data,held,-ite_eq_left_iff,foundData,through_countGC accepts,cache,rootKey,gcKey,rootBin]

theorem setUnpin_run (named : a ≠ []) (root : Address) :
    through medium refuse (setUnpin cfg (addressToItem a) (addressToItem root)) st =
      match st.1.pinIndex.lookup a with
      | none => (.error .notFound,st)
      | some n =>
        if 1 < n then (.ok 0,setPins a (some (n - 1)) st)
        else through medium refuse (unpinRoot cfg (addressToItem root)) (setPins a none st) := by
  unfold setUnpin
  simp only [bind_eq,through_bind,through_getItem,findPin,addressToItem]
  cases st.1.pinIndex.lookup a with
  | none => rfl
  | some n =>
    simp only [Option.map_some,foundPin,ite_eq_self]
    split
    · simp [putPin accepts,named]
    · simp [deletePin accepts,named]

end

/-! ### Putting a new chunk on request -/

section
variable (cfg : Config) {refuse : (k : Key) → Option (Value k) → Option Err} (accepts : Accepting refuse)

/-- The root item of a request for a new chunk knows the bin id of that chunk if
    it is the root chunk. -/
theorem known_bin (binIDs : BinIDs) (ch : Chunk) (t : Nat) (root : Address) (st : Store × Local) :
    (if ch.address = root then nextBin binIDs (po cfg ch.address) st.1 else 0) = 0 ∨
      (if ch.address = root then nextBin binIDs (po cfg ch.address) st.1 else 0) =
        rootBin root (storeNew cfg binIDs ch t st).1 := by
  split
  · next same => exact .inr (by simp [rootBin,storeNew,setData,lookup_update,← same,newValue])
  · exact .inl rfl

include accepts

def newItem (binIDs : BinIDs) (ch : Chunk) (t : Nat) (st : Store × Local) : Item :=
  { address := ch.address, data := some ch.data, storeTimestamp := cfg.now st.2.ticks,
    binID := nextBin binIDs (po cfg ch.address) st.1, type := t, counter := 1, tag := ch.tagID }

section
variable (absent : st.1.retrievalDataIndex.lookup ch.address = none)
include absent

theorem putRequest_unstored (root : Address) (binIDs : BinIDs) (t : Nat) (forcePin : Bool) :
    through medium refuse (putRequest cfg binIDs { chunkToItem ch with type := t } (addressToItem root) forcePin) st =
      match through medium refuse (preserveOrCache cfg (newItem cfg binIDs ch t st) { addressToItem root with
          binID := if ch.address = root then nextBin binIDs (po cfg ch.address) st.1 else 0 } forcePin)
        (storeNew cfg binIDs ch t st) with
      | (.ok c,st') => (.ok (false,c,bumpBin binIDs (po cfg ch.address) st.1),st')
      | (.error e,st') => (.error e,st') := by
  have rootItem : (if ch.address = (addressToItem root).address then
      { addressToItem root with binID := nextBin binIDs (po cfg ch.address) st.1 } else addressToItem root) =
      { addressToItem root with binID := if ch.address = root then nextBin binIDs (po cfg ch.address) st.1 else 0 } := by
    by_cases same : ch.address = root <;> simp [addressToItem,same]
  unfold putRequest
  simp only [bind_eq,through_bind,putUpload_new cfg accepts absent,Bool.false_eq_true,if_false,pure_eq,through_done]
  rw [rootItem]
  simp only [newItem,addressToItem]
  rcases through medium refuse (preserveOrCache cfg _ _ forcePin) _ with ⟨(_ | _),_⟩ <;> rfl

theorem putRequest_new (named : root ≠ []) {binIDs : BinIDs} (t : Nat) :
    through medium refuse (putRequest cfg binIDs { chunkToItem ch with type := t } (addressToItem root) false) st =
      (.ok (false,1,bumpBin binIDs (po cfg ch.address) st.1),cache cfg root (storeNew cfg binIDs ch t st)) := by
  rw [putRequest_unstored cfg accepts absent]
  simp [preserveOrCache,setGC_run cfg accepts named (known_bin cfg binIDs ch t root st)]

theorem putRequest_nil {binIDs : BinIDs} (t : Nat) :
    through medium refuse (putRequest cfg binIDs { chunkToItem ch with type := t } (addressToItem []) false) st =
      (.ok (false,0,bumpBin binIDs (po cfg ch.address) st.1),storeNew cfg binIDs ch t st) := by
  rw [putRequest_unstored cfg accepts absent]
  simp [preserveOrCache,setGC_nil]

theorem putRequest_pin (root : Address) (binIDs : BinIDs) (t : Nat) :
    through medium refuse (putRequest cfg binIDs { chunkToItem ch with type := t } (addressToItem root) true) st =
      match through medium refuse (pinRoot { addressToItem root with
          binID := if ch.address = root then nextBin binIDs (po cfg ch.address) st.1 else 0 })
        (storeNew cfg binIDs ch t st) with
      | (.ok c,st') => (.ok (false,c,bumpBin binIDs (po cfg ch.address) st.1),addPin ch.address st')
      | (.error e,st') => (.error e,st') := by
  have pinned := setPin_run accepts (show (newItem cfg binIDs ch t st).address ≠ [] from Chunk.named ch) rfl
    (known_bin cfg binIDs ch t root st)
  rw [putRequest_unstored cfg accepts absent]
  simp only [preserveOrCache,if_true]
  rw [pinned]
  rcases through medium refuse (pinRoot _) _ with ⟨(_ | _),_⟩ <;> rfl

/-! ### Syncing and removing -/

end

omit accepts

/-- Take the entry of an accessed chunk out of the garbage. -/
def unsynced (a : Address) (b : Nat) (st : Store × Local) : Store × Local :=
  match st.1.retrievalAccessIndex.lookup a with
  | some t => setGc ⟨t,b,a⟩ none st
  | none => st

def unsyncChange (a : Address) (st : Store × Local) : Int :=
  if (st.1.retrievalAccessIndex.lookup a).isSome then -1 else 0

/-- A chunk with the present time as its access time. -/
def synced (cfg : Config) (a : Address) (b : Nat) (st : Store × Local) : Store × Local :=
  setAccess a (some (cfg.now st.2.ticks)) (tick (unsynced a b st))

@[simp] theorem ticks_unsynced (a : Address) (b : Nat) : (unsynced a b st).2 = st.2 := by
  unfold unsynced
  split <;> rfl

@[simp] theorem pins_unsynced (a : Address) (b : Nat) : (unsynced a b st).1.pinIndex = st.1.pinIndex := by
  unfold unsynced
  split <;> rfl

include accepts

theorem through_unsync (fresh : item.accessTimestamp = 0) :
    through medium refuse (unsync item) st =
      (.ok (unsyncChange item.address st),unsynced item.address item.binID st) := by
  unfold unsync unsynced unsyncChange
  simp only [bind_eq,through_bind,findAccess]
  cases st.1.retrievalAccessIndex.lookup item.address with
  | none => rfl
  | some t => simp [-ite_eq_left_iff,deleteGc accepts,foundAccess,gcKey,fresh]

omit accepts in
theorem setSync_absent (absent : st.1.retrievalDataIndex.lookup a = none) :
    through medium refuse (setSync cfg a) st = (.ok 0,st) := by
  simp [setSync,addressToItem,absent]

omit accepts in
@[simp] theorem dropChange_forget (g : GcKey) (root : Address) : dropChange g (forget root st) = dropChange g st := rfl

omit accepts in
@[simp] theorem dropChange_setData (g : GcKey) (a : Address) (v : Option ChunkValue) :
    dropChange g (setData a v st) = dropChange g st := rfl

omit accepts in
@[simp] theorem dropChange_setPins (g : GcKey) (a : Address) (n : Option Nat) :
    dropChange g (setPins a n st) = dropChange g st := rfl

theorem through_dropGC (named : item.address ≠ []) (fresh : item.gCounter = 0) :
    through medium refuse (dropGC item) st = (.ok (dropChange (gcKey item) st),gcDrop (gcKey item) st) := by
  unfold dropGC gcDrop dropChange
  simp only [bind_eq,through_bind,findGc]
  cases held : st.1.gcIndex.lookup (gcKey item) with
  | none => rfl
  | some n =>
    simp only [Option.map_some,foundGc,fresh,ite_eq_self]
    split
    · simp [putGc accepts,gcKey]
    · simp [deleteAccess accepts,deleteGc accepts,named,gcKey]

theorem gcRemove_run (named : root ≠ []) :
    through medium refuse (gcRemove (addressToItem root)) st =
      match st.1.retrievalDataIndex.lookup root, st.1.retrievalAccessIndex.lookup root with
      | none, _ => (.error .notFound,st)
      | some _, none => (.ok 0,st)
      | some v, some t => (.ok (dropChange ⟨t,v.binID,root⟩ st),gcDrop ⟨t,v.binID,root⟩ (forget root st)) := by
  unfold gcRemove completeRoot
  simp only [addressToItem,if_true,bind_eq,through_bind,through_getItem,findData]
  cases st.1.retrievalDataIndex.lookup root with
  | none => rfl
  | some v =>
    simp only [Option.map_some,findAccess,foundData]
    cases st.1.retrievalAccessIndex.lookup root with
    | none => rfl
    | some t => simp [-ite_eq_left_iff,foundAccess,through_dropGC accepts,named,gcKey]

theorem gcRemove_complete (named : item.address ≠ []) (fresh : item.gCounter = 0) (stamped : item.storeTimestamp ≠ 0) :
    through medium refuse (gcRemove item) st =
      (.ok (dropChange (gcKey item) st),gcDrop (gcKey item) (forget item.address st)) := by
  unfold gcRemove completeRoot
  simp [stamped,bind_eq,through_bind,pure_eq,through_done,through_deleteFile,through_dropGC accepts named fresh,dropChange_forget]

omit accepts in
theorem setPins_none (absent : st.1.pinIndex.lookup a = none) : setPins a none st = st := by
  obtain ⟨s,l⟩ := st
  simp only [setPins,update,erase_of_none absent]

theorem through_releasePin (named : item.address ≠ []) (fresh : item.pinCounter = 0) :
    through medium refuse (releasePin item) st =
      if 1 < (st.1.pinIndex.lookup item.address).getD 0 then
        (.ok true,setPins item.address (some ((st.1.pinIndex.lookup item.address).getD 0 - 1)) st)
      else (.ok false,setPins item.address none st) := by
  unfold releasePin
  simp only [bind_eq,through_bind,findPin]
  cases held : st.1.pinIndex.lookup item.address with
  | none => simp [setPins_none held]
  | some n =>
    have shifted : 0 < n - 1 ↔ 1 < n := by omega
    simp only [Option.map_some,foundPin,fresh,ite_eq_self,shifted,Option.getD_some]
    split
    · simp [putPin accepts,named]
    · simp [deletePin accepts,named]

def unstored (a : Address) (st : Store × Local) : Store × Local := setData a none (setPins a none st)

omit accepts in
theorem setRemove_absent (absent : st.1.retrievalDataIndex.lookup a = none) (rootItem : Item) :
    through medium refuse (setRemove a rootItem) st = through medium refuse (gcRemove rootItem) st := by
  simp [setRemove,addressToItem,absent]

theorem setRemove_referenced (named : a ≠ []) (held : st.1.retrievalDataIndex.lookup a = some v)
    (referenced : 1 < v.counter) (rootItem : Item) :
    through medium refuse (setRemove a rootItem) st =
      (.ok 0,setData a (some { v with counter := v.counter - 1 }) st) := by
  simp [-ite_eq_left_iff,setRemove,addressToItem,held,foundData,referenced,putData accepts,named]

theorem setRemove_root (named : a ≠ []) (held : st.1.retrievalDataIndex.lookup a = some v) (last : v.counter ≤ 1)
    (stamped : v.storeTimestamp ≠ 0) (unpinned : ¬ 1 < (st.1.pinIndex.lookup a).getD 0) {rootItem : Item}
    (same : rootItem.address = a) :
    through medium refuse (setRemove a rootItem) st =
      (.ok (dropChange ⟨(st.1.retrievalAccessIndex.lookup a).getD 0,v.binID,a⟩ st),
        gcDrop ⟨(st.1.retrievalAccessIndex.lookup a).getD 0,v.binID,a⟩ (forget a (unstored a st))) := by
  have counter : ¬ 1 < v.counter := by omega
  cases accessed : st.1.retrievalAccessIndex.lookup a with
  | none =>
    simp [-ite_eq_left_iff,setRemove,addressToItem,held,foundData,counter,through_releasePin accepts,named,unpinned,
      same,deleteData accepts,unstored,accessed,gcRemove_complete accepts,stamped,gcKey]
  | some t =>
    simp [-ite_eq_left_iff,setRemove,addressToItem,held,foundData,counter,through_releasePin accepts,named,unpinned,
      same,deleteData accepts,unstored,accessed,gcRemove_complete accepts,stamped,gcKey,foundAccess]

theorem setRemove_other (named : a ≠ []) (held : st.1.retrievalDataIndex.lookup a = some v) (last : v.counter ≤ 1)
    (unpinned : ¬ 1 < (st.1.pinIndex.lookup a).getD 0) {rootItem : Item} (other : a ≠ rootItem.address) :
    through medium refuse (setRemove a rootItem) st =
      through medium refuse (gcRemove rootItem) (setAccess a none (unstored a st)) := by
  have counter : ¬ 1 < v.counter := by omega
  simp [setRemove,addressToItem,held,foundData,counter,through_releasePin accepts,named,unpinned,other,
    deleteData accepts,deleteAccess accepts,unstored]

end

/-! ### Updating the garbage collection index -/

section
variable (cfg : Config) {refuse : (k : Key) → Option (Value k) → Option Err} (accepts : Accepting refuse)

/-- The item of an update with the access time that is known for it. -/
def accessedItem (item : Item) (s : Store) : Item :=
  { item with accessTimestamp :=
      (((s.retrievalAccessIndex.lookup item.address).map (foundAccess item)).getD item).accessTimestamp }

/-- The bin id under which an update puts the entry of an item. -/
def renewedBin (item : Item) (s : Store) : Nat :=
  if item.binID = 0 then rootBin item.address s
  else if (s.retrievalAccessIndex.lookup item.address).isSome then item.binID else 0

/-- The key under which an update looks for the entry of an item first. -/
def entryKey (item : Item) (s : Store) : GcKey :=
  ⟨(accessedItem item s).accessTimestamp,if item.binID = 0 then rootBin item.address s else item.binID,item.address⟩

/-- The entry under a key, or else under the bin id 0. -/
def entryAt (g : GcKey) (s : Store) : Option (GcKey × Nat) :=
  match s.gcIndex.lookup g with
  | some n => some (g,n)
  | none => (s.gcIndex.lookup { g with binID := 0 }).map (fun n => ({ g with binID := 0 },n))

def entryOf (item : Item) (s : Store) : Option (GcKey × Nat) := entryAt (entryKey item s) s

/-- An entry moved to the present time and another bin id. -/
def renewed (g : GcKey) (b n : Nat) (st : Store × Local) : Store × Local :=
  setAccess g.address (some (cfg.now st.2.ticks))
    (setGc ⟨cfg.now st.2.ticks,b,g.address⟩ (some n) (tick (setGc g none st)))

theorem through_storedItem (item : Item) (accessItem : Option Item) :
    through medium refuse (storedItem item accessItem) st =
      (.ok (if item.binID = 0 then ((st.1.retrievalDataIndex.lookup item.address).map (foundData item)).getD {}
        else accessItem.getD {}),st) := by
  unfold storedItem
  split <;> simp

theorem through_findGC (item : Item) :
    through medium refuse (findGC item) st =
      (.ok (match st.1.gcIndex.lookup (gcKey item) with
        | some n => some (foundGc item n)
        | none => (st.1.gcIndex.lookup ⟨item.accessTimestamp,0,item.address⟩).map (foundGc { item with binID := 0 })),st) := by
  unfold findGC
  simp only [bind_eq,through_bind,findGc]
  cases held : st.1.gcIndex.lookup (gcKey item) with
  | some n => rfl
  | none =>
    by_cases zero : item.binID = 0
    · have same : (⟨item.accessTimestamp,0,item.address⟩ : GcKey) = gcKey item := by simp [gcKey,zero]
      rw [same,held]
      simp [zero]
    · simp [zero,gcKey]

include accepts

section
variable (named : item.address ≠ [])
include named

theorem through_renewGC {gcItem : Item} (same : gcItem.address = item.address) :
    through medium refuse (renewGC cfg gcItem item) st =
      (.ok (),renewed cfg (gcKey gcItem) item.binID gcItem.gCounter st) := by
  unfold renewGC renewed
  simp [deleteGc accepts,putGc accepts,putAccess accepts,named,gcKey,same,tick,setGc]

theorem through_moveGC {b : Nat} (st : Store × Local) :
    through medium refuse (moveGC cfg item b) st =
      match entryAt (gcKey item) st.1 with
      | none => (.ok (),st)
      | some (g,n) => (.ok (),renewed cfg g b (if n = 0 then item.gCounter else n) st) := by
  unfold moveGC entryAt
  simp only [bind_eq,through_bind,through_findGC]
  cases st.1.gcIndex.lookup (gcKey item) with
  | some n => simp [through_renewGC cfg accepts,named,foundGc,gcKey]
  | none =>
    simp only [gcKey]
    cases st.1.gcIndex.lookup ⟨item.accessTimestamp,0,item.address⟩ with
    | none => rfl
    | some n => simp [through_renewGC cfg accepts,named,foundGc,gcKey]

theorem through_renewEntry (st : Store × Local) :
    through medium refuse (renewEntry cfg (accessedItem item st.1)
      ((st.1.retrievalAccessIndex.lookup item.address).map (foundAccess item))) st =
      match entryOf item st.1 with
      | none => (.ok (),st)
      | some (g,n) => (.ok (),renewed cfg g (renewedBin item st.1) (if n = 0 then item.gCounter else n) st) := by
  have bin : (if (accessedItem item st.1).binID = 0 then
      ((st.1.retrievalDataIndex.lookup (accessedItem item st.1).address).map (foundData (accessedItem item st.1))).getD {}
      else ((st.1.retrievalAccessIndex.lookup item.address).map (foundAccess item)).getD {}).binID =
      renewedBin item st.1 := by
    unfold renewedBin rootBin accessedItem
    split
    · next zero =>
      cases st.1.retrievalDataIndex.lookup item.address <;> simp_all [-ite_eq_left_iff,foundData]
    · next set => cases st.1.retrievalAccessIndex.lookup item.address <;> simp_all [foundAccess]
  have key : gcKey { accessedItem item st.1 with
      binID := if (accessedItem item st.1).binID = 0 then renewedBin item st.1
        else (accessedItem item st.1).binID } = entryKey item st.1 := by
    unfold gcKey entryKey renewedBin accessedItem
    by_cases zero : item.binID = 0 <;> simp [zero]
  unfold renewEntry entryOf
  simp only [bind_eq,through_bind,through_storedItem,bin]
  refine (through_moveGC cfg accepts ?_ st).trans ?_
  · exact named
  · rw [key]
    rfl

theorem updateGC_run :
    through medium refuse (updateGC cfg item) st =
      if (accessedItem item st.1).accessTimestamp = 0 then (.ok (),recordDirty [item.address] st)
      else match entryOf item st.1 with
        | none => (.ok (),recordDirty [item.address] st)
        | some (g,n) => (.ok (),
            renewed cfg g (renewedBin item st.1) (if n = 0 then item.gCounter else n)
              (recordDirty [item.address] st)) := by
  have unfolded : through medium refuse (updateGC cfg item) st =
      through medium refuse (if (accessedItem item st.1).accessTimestamp = 0 then pure ()
        else renewEntry cfg (accessedItem item st.1)
          ((st.1.retrievalAccessIndex.lookup item.address).map (foundAccess item))) (recordDirty [item.address] st) := rfl
  rw [unfolded]
  split
  · rfl
  · exact through_renewEntry cfg accepts named (recordDirty [item.address] st)

/-! ### Whole operations -/

end

theorem incGCSize_run (change : Int) :
    through medium refuse (incGCSizeInBatch change) st = (.ok (),resize change st) := by
  have staged : ∀ n, through medium refuse (stageAnyway .gcSize (some n)) st =
      (.ok (),({ st.1 with gcSize := some n },st.2)) := by
    intro n
    rw [through_stageAnyway,accepts.gcSize]
    rfl
  unfold incGCSizeInBatch resize
  split
  · rfl
  simp only [bind_eq,through_bind,through_get,read_medium,Store.read]
  split
  · exact staged _
  · split
    · rfl
    · exact staged _

theorem putBinIDs_run (binIDs : BinIDs) :
    through medium refuse (putBinIDs binIDs) st = (.ok (),keepBins binIDs st) := by
  induction binIDs generalizing st with
  | nil => rfl
  | cons b rest ih =>
    simp only [putBinIDs,bind_eq,through_bind,through_stageAnyway,accepts.binIDs,ih]
    rfl

variable {cfg} in
theorem put_run (mode : ModePut) (root : Address) (chs : List Chunk) :
    through medium refuse (put cfg mode root chs) st =
      match through medium refuse (putChunks cfg mode root [] chs) (recordDirty (chs.map (·.address)) st) with
      | (.ok (exist,c,binIDs),st') => (.ok exist,resize c (keepBins binIDs st'))
      | (.error e,st') => (.error e,st') := by
  unfold put
  simp only [bind_eq,through_bind,through_markDirty,putBinIDs_run accepts,incGCSize_run accepts,through_commit,pure_eq,
    through_done]
  rcases through medium refuse (putChunks cfg mode root [] chs) _ with ⟨(_ | _),_⟩ <;> rfl

omit accepts in
/-- Removing by a set is the loop that deletes the chunks of a file. -/
theorem setAddresses_remove (root : Address) (addrs : List Address) :
    setAddresses cfg .remove root addrs = removeChunks (addressToItem root) addrs := by
  induction addrs with
  | nil => rfl
  | cons a addrs ih =>
    rw [setAddresses,ih]
    rfl

theorem set_run (mode : ModeSet) (root : Address) (addrs : List Address) :
    through medium refuse (Localstore.set cfg mode root addrs) st =
      match through medium refuse (setAddresses cfg mode root addrs) (recordDirty addrs st) with
      | (.ok c,st') => (.ok (),resize c st')
      | (.error e,st') => (.error e,st') := by
  unfold Localstore.set
  simp only [bind_eq,through_bind,through_markDirty,incGCSize_run accepts,through_commit]
  rcases through medium refuse (setAddresses cfg mode root addrs) _ with ⟨(_ | _),_⟩ <;> rfl

end

section
variable (cfg : Config) {refuse : (k : Key) → Option (Value k) → Option Err}

def undirected (root : Address) (st : Store × Local) : Store × Local :=
  (st.1,{ st.2 with
    chunkstore := st.2.chunkstore.cancelFinder root
    filestore := st.2.filestore.delete root })

/-- A transfer list is read without a trace, and where there is none the chunk
    is walked. -/
theorem getTransfer_run (root : Address) :
    through medium refuse (getTransfer root) st =
      match st.1.transferDataIndex.lookup root with
      | none => (.ok none,st)
      | some data =>
        match addressesOf data with
        | .ok chunks => (.ok (some chunks),st)
        | .error e => (.error e,st) := by
  unfold getTransfer
  simp only [bind_eq,through_bind,through_attempt,through_getItem,findTransfer,addressToItem]
  cases st.1.transferDataIndex.lookup root with
  | none => rfl
  | some data =>
    simp only [Option.map_some,foundTransfer,Option.getD_some]
    cases addressesOf data <;> rfl

theorem quiet_find {x : Index} {i : Item} : (x.find i : Op (Option Item)).Quiet :=
  quiet_bind quiet_get (fun _ => trivial)

theorem quiet_has {x : Index} {i : Item} : (x.has i : Op Bool).Quiet := quiet_bind (quiet_get) (fun _ => trivial)

theorem quiet_getItem {x : Index} {i : Item} : (x.get i : Op Item).Quiet :=
  quiet_bind quiet_find (fun out => by cases out <;> trivial)

theorem quiet_gather {α : Type} {walk : α → Op (List Address)} (quiet : ∀ a, (walk a).Quiet) {as : List α} :
    (gather walk as).Quiet := by
  induction as with
  | nil => trivial
  | cons a as ih => exact quiet_bind (quiet a) (fun _ => quiet_bind ih (fun _ => trivial))

theorem quiet_walkChunk {walk : Address → Nat → Op (List Address)} (quiet : ∀ ch t, (walk ch t).Quiet) (ch : Address)
    (data : Bytes) (manifest : List Manifest.Node × Option Manifest.Fault) :
    (walkChunk walk ch data manifest).Quiet := by
  unfold walkChunk walkNodes walkRefs
  split
  · trivial
  refine quiet_bind (quiet_gather (fun n => ?_)) (fun forks => ?_)
  · exact quiet_bind (quiet_attempt (quiet _ _)) (fun _ => trivial)
  split
  · trivial
  refine quiet_bind (quiet_gather (fun i => ?_)) (fun refs => trivial)
  dsimp only
  split
  · trivial
  · split
    · trivial
    · exact quiet _ _

theorem quiet_getChunk (fuel : Nat) (ch : Address) (t : Nat) : (getChunk fuel ch t).Quiet := by
  induction fuel generalizing ch t with
  | zero => trivial
  | succ fuel ih =>
    refine quiet_bind quiet_has (fun stored => ?_)
    split
    · refine quiet_bind quiet_getItem (fun item => ?_)
      dsimp only
      split
      · trivial
      · split
        · trivial
        · exact quiet_walkChunk ih _ _ _
    · trivial

theorem quiet_getAllChunks (root : Address) : (getAllChunks cfg root).Quiet := by
  refine quiet_bind (quiet_bind (quiet_attempt quiet_getItem) (fun out => ?_)) (fun chunks => ?_)
  · cases out with
    | error e => trivial
    | ok out => exact quiet_bind (quiet_settle _) (fun _ => trivial)
  · cases chunks with
    | none => exact quiet_getChunk _ _ _
    | some chunks => trivial

variable (accepts : Accepting refuse)
include accepts

theorem setRemoveAll_run (named : item.address ≠ []) :
    through medium refuse (setRemoveAll cfg item) st =
      match (through medium refuse (getAllChunks cfg item.address) st).1 with
      | .error e => (.error e,st)
      | .ok chunks =>
        match through medium refuse (removeChunks item chunks) st with
        | (.ok c,st') => (.ok (),resize c (setTransfer item.address none st'))
        | (.error e,st') => (.error e,st') := by
  have quiet := through_quiet medium refuse (quiet_getAllChunks cfg item.address) st
  unfold setRemoveAll setRemoveTransfer
  simp only [bind_eq,through_bind]
  rcases listed : through medium refuse (getAllChunks cfg item.address) st with ⟨(e | chunks),t⟩
  · rw [listed] at quiet
    simp only at quiet
    rw [quiet]
  rw [listed] at quiet
  simp only at quiet ⊢
  rw [quiet]
  rcases through medium refuse (removeChunks item chunks) st with ⟨(e | c),st'⟩
  · rfl
  · simp [deleteTransfer accepts,addressToItem,named,incGCSize_run accepts]

omit accepts in
theorem commonDelete_run (item : Item) :
    through medium refuse (commonDelete cfg item) st =
      through medium refuse (setRemoveAll cfg item) (undirected item.address st) := rfl

end

/-! ### Puts on request -/

section
variable (cfg : Config)

/-- The state after a chunk was stored, or counted once more, for a root. -/
def cached (root : Address) (t : Nat) (binIDs : BinIDs) (ch : Chunk) (st : Store × Local) : Store × Local :=
  match st.1.retrievalDataIndex.lookup ch.address with
  | some v => setData ch.address (some (countUp v t)) st
  | none => if root = [] then storeNew cfg binIDs ch t st else cache cfg root (storeNew cfg binIDs ch t st)

/-- The state after putting a chunk on request under a root. -/
def requested (root : Address) (binIDs : BinIDs) (ch : Chunk) (st : Store × Local) : Store × Local :=
  addTransfer root ch.address (cached cfg root 1 binIDs ch st)

variable {refuse : (k : Key) → Option (Value k) → Option Err} (accepts : Accepting refuse)
include accepts

/-- What putting a chunk returns: whether it was stored, by how much the garbage grows, and the bin ids given so far. -/
def returned (root : Address) (binIDs : BinIDs) (ch : Chunk) (s : Store) : Bool × Int × BinIDs :=
  match s.retrievalDataIndex.lookup ch.address with
  | some _ => (true,0,binIDs)
  | none => (false,if root = [] then 0 else 1,bumpBin binIDs (po cfg ch.address) s)

theorem putRequest_cached {root : Address} (t : Nat) (binIDs : BinIDs) (ch : Chunk) (st : Store × Local) :
    through medium refuse (putRequest cfg binIDs { chunkToItem ch with type := t } (addressToItem root) false) st =
      (.ok (returned cfg root binIDs ch st.1),cached cfg root t binIDs ch st) := by
  unfold cached returned
  cases held : st.1.retrievalDataIndex.lookup ch.address with
  | some v => exact putRequest_stored cfg accepts held binIDs t _ false
  | none =>
    dsimp only
    split
    · next nil =>
      subst nil
      exact putRequest_nil cfg accepts held t
    · next named => exact putRequest_new cfg accepts held named t

theorem putChunk_listed (root : Address) (binIDs : BinIDs) (ch : Chunk) (st : Store × Local) :
    through medium refuse (putChunk cfg .request root binIDs ch) st =
      match through medium refuse (putTransfer root [ch.address]) (cached cfg root 1 binIDs ch st) with
      | (.ok _,st') => (.ok (returned cfg root binIDs ch st.1),st')
      | (.error err,st') => (.error err,st') := by
  simp only [putChunk,bind_eq,through_bind]
  rw [show (ModePut.request == ModePut.requestPin) = false from rfl,putRequest_cached cfg accepts]
  simp only [pure_eq,through_done]
  rcases through medium refuse (putTransfer root [ch.address]) _ with ⟨(_ | _),_⟩ <;> rfl

variable (named : root ≠ [])
include named

/-- What each chunk of a put on request keeps, the put keeps; `I` may speak of
    the chunks put so far. -/
theorem putChunks_request {I : List Chunk → Store × Local → Prop}
    (step : ∀ done binIDs ch st, I done st → I (done ++ [ch]) (requested cfg root binIDs ch st)) :
    ∀ chs done binIDs st, I done st → ∃ r st',
      through medium refuse (putChunks cfg .request root binIDs chs) st = (.ok r,st') ∧ I (done ++ chs) st' := by
  intro chs
  induction chs with
  | nil => intro done binIDs st holds; exact ⟨_,_,rfl,by simpa using holds⟩
  | cons ch chs ih =>
    intro done binIDs st holds
    obtain ⟨⟨e,c,binIDs'⟩,first⟩ : ∃ r, through medium refuse (putChunk cfg .request root binIDs ch) st =
        (.ok r,requested cfg root binIDs ch st) := by
      rw [putChunk_listed cfg accepts,putTransfer_run accepts named (Chunk.named ch)]
      exact ⟨_,rfl⟩
    obtain ⟨⟨exist,c',binIDs''⟩,st',rest,kept⟩ := ih (done ++ [ch]) binIDs' _ (step done binIDs ch st holds)
    refine ⟨(e :: exist,c + c',binIDs''),st',?_,by simpa using kept⟩
    simp only [putChunks,bind_eq,through_bind,first,rest,pure_eq,through_done]

theorem put_request {I : List Chunk → Store × Local → Prop}
    (step : ∀ done binIDs ch st, I done st → I (done ++ [ch]) (requested cfg root binIDs ch st)) (chs : List Chunk)
    (holds : I [] (recordDirty (chs.map (·.address)) st)) :
    ∃ exist c binIDs st', through medium refuse (put cfg .request root chs) st =
      (.ok exist,resize c (keepBins binIDs st')) ∧ I chs st' := by
  obtain ⟨⟨exist,c,binIDs⟩,st',run,kept⟩ := putChunks_request cfg accepts named step chs [] [] _ holds
  refine ⟨exist,c,binIDs,st',?_,by simpa using kept⟩
  rw [put_run accepts,run]

end

/-- Two states that differ at most in the bin ids and in the stored size. -/
structure SameIndexes (st st' : Store × Local) : Prop where
  data : st'.1.retrievalDataIndex = st.1.retrievalDataIndex
  access : st'.1.retrievalAccessIndex = st.1.retrievalAccessIndex
  transfer : st'.1.transferDataIndex = st.1.transferDataIndex
  gc : st'.1.gcIndex = st.1.gcIndex
  pin : st'.1.pinIndex = st.1.pinIndex
  beside : st'.2 = st.2

theorem resize_same {c : Int} {st : Store × Local} : SameIndexes st (resize c st) := by
  unfold resize
  dsimp only
  split
  · exact ⟨rfl,rfl,rfl,rfl,rfl,rfl⟩
  · split
    · exact ⟨rfl,rfl,rfl,rfl,rfl,rfl⟩
    · split <;> exact ⟨rfl,rfl,rfl,rfl,rfl,rfl⟩

theorem keepBins_same {binIDs : BinIDs} (st : Store × Local) : SameIndexes st (keepBins binIDs st) := by
  induction binIDs generalizing st with
  | nil => exact ⟨rfl,rfl,rfl,rfl,rfl,rfl⟩
  | cons b rest ih =>
    obtain ⟨data,access,transfer,gc,pin,_⟩ := ih ({ st.1 with binIDs := st.1.binIDs.insert b.1 b.2 },st.2)
    exact ⟨data,access,transfer,gc,pin,rfl⟩

theorem SameIndexes.trans {a b c : Store × Local} (first : SameIndexes a b) (second : SameIndexes b c) :
    SameIndexes a c :=
  ⟨second.data.trans first.data,second.access.trans first.access,second.transfer.trans first.transfer,
    second.gc.trans first.gc,second.pin.trans first.pin,second.beside.trans first.beside⟩

theorem finished_same (c : Int) (binIDs : BinIDs) (st : Store × Local) :
    SameIndexes st (resize c (keepBins binIDs st)) :=
  (keepBins_same st).trans resize_same

/-! ### What the driver refuses -/

variable {st' : Store × Local}

theorem staged_ok {refuse : (k : Key) → Option (Value k) → Option Err} {k : Key} {v : Option (Value k)}
    (run : through medium refuse (stage k v : Op Unit) st = (.ok (),st')) : st' = (st.1.write k v,st.2) := by
  rw [through_stage] at run
  cases held : refuse k v with
  | some e => rw [held] at run; cases run
  | none => rw [held] at run; cases run; rfl

theorem putTransfer_nil (chs : List Address) :
    through medium refused (putTransfer [] chs) st = (.error .invalidArgument,st) := by
  have turned : ∀ i : Item, i.address = [] →
      through medium refused (Index.transferData.putInBatch i) st = (.error .invalidArgument,st) := by
    intro i nil
    cases i
    subst nil
    rfl
  unfold putTransfer
  simp only [bind_eq,through_bind,hasTransfer,addressToItem]
  cases held : st.1.transferDataIndex.lookup [] with
  | none => simp [turned]
  | some v => simp [held,turned,foundTransfer]

section
variable (cfg : Config)

theorem delete_named (run : through medium refused (setRemoveAll cfg item) st = (.ok (),st')) : item.address ≠ [] := by
  intro nil
  obtain ⟨_,_,_,run⟩ := through_bind_ok run
  obtain ⟨_,_,_,run⟩ := through_bind_ok run
  obtain ⟨_,_,deleted,_⟩ := through_bind_ok run
  rw [nil] at deleted
  cases deleted

theorem put_named {chs : List Chunk} {exist : List Bool}
    (run : through medium refused (put cfg .request root chs) st = (.ok exist,st')) : root ≠ [] ∨ chs = [] := by
  by_cases nil : root = []
  · subst nil
    cases chs with
    | nil => exact .inr rfl
    | cons ch chs =>
      obtain ⟨_,_,_,run⟩ := through_bind_ok run
      obtain ⟨_,_,all,_⟩ := through_bind_ok run
      obtain ⟨_,_,first,_⟩ := through_bind_ok all
      obtain ⟨_,_,_,first⟩ := through_bind_ok first
      obtain ⟨_,_,listed,_⟩ := through_bind_ok first
      rw [putTransfer_nil] at listed
      cases listed
  · exact .inl nil

end
end FavorX.Effects
