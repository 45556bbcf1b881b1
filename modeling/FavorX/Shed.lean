import FavorX.Batches
import FavorX.FiniteMaps

/-!
The shed layer under the local store: items, the indexes with their keys and values, and the two
storage drivers. Keys and values are kept typed. The counters of garbage wrap as the 64-bit numbers
of the source do (`inc64`, `dec64`). The empty list stands for an absent address.
-/
namespace FavorX.Shed
open FiniteMaps Batches

abbrev Bytes := List UInt8
/-- An address in the FavorX metric space; `[]` is `ZeroAddress`. -/
abbrev Address := List UInt8

instance : LawfulBEq Address := inferInstance

def inc64 (n : Nat) : Nat := (n + 1) % 2 ^ 64
def dec64 (n : Nat) : Nat := (n + (2 ^ 64 - 1)) % 2 ^ 64

theorem dec64_eq {n : Nat} (positive : 0 < n) (room : n < 2 ^ 64) : dec64 n = n - 1 := by
  unfold dec64
  omega

/-- The ways a call can fail. A Go panic is kept apart from returned errors, and
    so is a walk that ran longer than it was allowed to. -/
inductive Err
  | notFound
  | storageNotFound
  | invalidArgument
  | invalidLength
  | invalidMode
  | panicked
  | endless
  deriving DecidableEq

theorem bind_ok {ε α β : Type} {x : Except ε α} {f : α → Except ε β} {b : β} (ok : x >>= f = .ok b) :
    ∃ a, x = .ok a ∧ f a = .ok b := by
  cases x with
  | error e => cases ok
  | ok a => exact ⟨a,rfl,ok⟩

structure Item where
  address : Address := []
  data : Option Bytes := none
  accessTimestamp : Int := 0
  storeTimestamp : Int := 0
  binID : Nat := 0
  type : Nat := 0
  counter : Nat := 0
  pinCounter : Nat := 0
  gCounter : Nat := 0
  tag : Nat := 0
  deriving DecidableEq

/-- Fill the fields of `i` that have their zero value from `i2`. The fields
    `type` and `counter` are not merged. -/
def Item.merge (i i2 : Item) : Item :=
  { address := if i.address = [] then i2.address else i.address
    data := if i.data = none then i2.data else i.data
    accessTimestamp := if i.accessTimestamp = 0 then i2.accessTimestamp else i.accessTimestamp
    storeTimestamp := if i.storeTimestamp = 0 then i2.storeTimestamp else i.storeTimestamp
    binID := if i.binID = 0 then i2.binID else i.binID
    type := i.type
    counter := i.counter
    pinCounter := if i.pinCounter = 0 then i2.pinCounter else i.pinCounter
    gCounter := if i.gCounter = 0 then i2.gCounter else i.gCounter
    tag := if i.tag = 0 then i2.tag else i.tag }

inductive Index
  | retrievalData
  | retrievalAccess
  | transferData
  | gc
  | pin
  deriving DecidableEq

structure ChunkValue where
  binID : Nat
  storeTimestamp : Int
  type : Nat
  counter : Nat
  data : Bytes
  deriving DecidableEq

/-- The key of the garbage collection index, in the order it is iterated. -/
structure GcKey where
  accessTimestamp : Int
  binID : Nat
  address : Address
  deriving DecidableEq

/-- A key of the database: the key of an index, of the vector of bin ids or of
    the field for the size of the garbage collection index. -/
inductive Key
  | retrievalData (address : Address)
  | retrievalAccess (address : Address)
  | transferData (address : Address)
  | gc (key : GcKey)
  | pin (address : Address)
  | binIDs (po : Nat)
  | gcSize
  deriving DecidableEq

@[reducible] def Value : Key → Type
  | .retrievalData _ => ChunkValue
  | .retrievalAccess _ => Int
  | .transferData _ => Bytes
  | .gc _ => Nat
  | .pin _ => Nat
  | .binIDs _ => Nat
  | .gcSize => Nat

def Index.key : Index → Item → Key
  | .retrievalData, i => .retrievalData i.address
  | .retrievalAccess, i => .retrievalAccess i.address
  | .transferData, i => .transferData i.address
  | .gc, i => .gc ⟨i.accessTimestamp,i.binID,i.address⟩
  | .pin, i => .pin i.address

def Index.encode : (x : Index) → (i : Item) → Value (x.key i)
  | .retrievalData, i => (⟨i.binID,i.storeTimestamp,i.type,i.counter,i.data.getD []⟩ : ChunkValue)
  | .retrievalAccess, i => i.accessTimestamp
  | .transferData, i => i.data.getD []
  | .gc, i => i.gCounter
  | .pin, i => i.pinCounter

def Index.decode : (x : Index) → (i : Item) → Value (x.key i) → Item
  | .retrievalData, _, (v : ChunkValue) =>
    { storeTimestamp := v.storeTimestamp, binID := v.binID, type := v.type, counter := v.counter, data := some v.data }
  | .retrievalAccess, _, (v : Int) => { accessTimestamp := v }
  | .transferData, _, (v : Bytes) => { data := some v }
  | .gc, _, (v : Nat) => { gCounter := v }
  | .pin, _, (v : Nat) => { pinCounter := v }

structure Store where
  retrievalDataIndex : Map Address ChunkValue := ∅
  retrievalAccessIndex : Map Address Int := ∅
  transferDataIndex : Map Address Bytes := ∅
  gcIndex : Map GcKey Nat := ∅
  pinIndex : Map Address Nat := ∅
  binIDs : Map Nat Nat := ∅
  gcSize : Option Nat := none

def Store.read : (k : Key) → Store → Option (Value k)
  | .retrievalData a, s => s.retrievalDataIndex.lookup a
  | .retrievalAccess a, s => s.retrievalAccessIndex.lookup a
  | .transferData a, s => s.transferDataIndex.lookup a
  | .gc g, s => s.gcIndex.lookup g
  | .pin a, s => s.pinIndex.lookup a
  | .binIDs po, s => s.binIDs.lookup po
  | .gcSize, s => s.gcSize

def Store.write : (k : Key) → Option (Value k) → Store → Store
  | .retrievalData a, v, s => { s with retrievalDataIndex := update s.retrievalDataIndex a v }
  | .retrievalAccess a, v, s => { s with retrievalAccessIndex := update s.retrievalAccessIndex a v }
  | .transferData a, v, s => { s with transferDataIndex := update s.transferDataIndex a v }
  | .gc g, v, s => { s with gcIndex := update s.gcIndex g v }
  | .pin a, v, s => { s with pinIndex := update s.pinIndex a v }
  | .binIDs po, v, s => { s with binIDs := update s.binIDs po v }
  | .gcSize, v, s => { s with gcSize := v }

theorem Store.read_write (k : Key) (v : Option (Value k)) (s : Store) : (s.write k v).read k = v := by
  cases k <;> simp [Store.read,Store.write,lookup_update]

theorem Store.read_write_ne (k l : Key) (v : Option (Value k)) (s : Store) (other : l ≠ k) :
    (s.write k v).read l = s.read l := by
  cases k <;> cases l <;> simp_all [Store.read,Store.write,lookup_update]

theorem Store.ext_read (s t : Store) (same : ∀ k, s.read k = t.read k) : s = t := by
  have data := Finmap.ext_lookup fun a => same (.retrievalData a)
  have access := Finmap.ext_lookup fun a => same (.retrievalAccess a)
  have transfer := Finmap.ext_lookup fun a => same (.transferData a)
  have gc := Finmap.ext_lookup fun a => same (.gc a)
  have pin := Finmap.ext_lookup fun a => same (.pin a)
  have bins := Finmap.ext_lookup fun a => same (.binIDs a)
  have size := same .gcSize
  cases s
  simp_all [Store.read]

def medium : Medium Key Value Store where
  read := Store.read
  write k v s := s.write k v
  read_write := Store.read_write
  read_write_ne := Store.read_write_ne
  ext := Store.ext_read

inductive Driver
  | leveldb
  | wiredtiger
  deriving DecidableEq

/-- The writes that the wiredtiger driver turns down: its cursor accepts neither
    an empty key nor an empty value. The keys of an index are the bytes after
    the prefix of the index, so the zero address has an empty key. -/
def refused : (k : Key) → Option (Value k) → Option Err
  | .retrievalData [], _ => some .invalidArgument
  | .retrievalAccess [], _ => some .invalidArgument
  | .transferData [], _ => some .invalidArgument
  | .pin [], _ => some .invalidArgument
  | .transferData _, some [] => some .invalidArgument
  | _, _ => none

/-- Run a program with a new batch on a driver. What leveldb has staged without
    a commit is lost with the batch. -/
def run {L α : Type} (d : Driver) (p : Prog Key Value Err L α) (s : Store × L) : Except Err α × (Store × L) :=
  match d with
  | .wiredtiger => through medium refused p s
  | .leveldb => let r := deferred medium p s []; (r.1,r.2.1)

section
variable {L : Type}

/-- `Get` for the callers that treat `driver.ErrNotFound` on their own. -/
def Index.find (x : Index) (i : Item) : Prog Key Value Err L (Option Item) := do
  let v ← Batches.get (x.key i)
  pure (v.map (fun v => (x.decode i v).merge i))

def Index.get (x : Index) (i : Item) : Prog Key Value Err L Item := do
  match ← x.find i with
  | some out => pure out
  | none => Batches.fail .notFound

def Index.has (x : Index) (i : Item) : Prog Key Value Err L Bool := do
  let v ← Batches.get (x.key i)
  pure v.isSome

def Index.put (x : Index) (i : Item) : Prog Key Value Err L Unit := Batches.put (x.key i) (x.encode i)
def Index.putInBatch (x : Index) (i : Item) : Prog Key Value Err L Unit := stage (x.key i) (some (x.encode i))
def Index.deleteInBatch (x : Index) (i : Item) : Prog Key Value Err L Unit := stage (x.key i) none

end
end FavorX.Shed
