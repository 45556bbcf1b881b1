import FavorX.LevelIteration
import FavorX.TigerLast

/-!
`Iterate` and `Last` of an index over either storage driver. For each driver the
contents of the database and the options decide whether the calls do what they
promise, whatever the store chooses where its documentation leaves it a choice.
-/
namespace FavorX.Iteration
open ByteKeys Cursors
open Shed (Item)

inductive Backend where
  | leveldb
  | wiredtiger

namespace Backend

/-- The drivers that a database of these contents may turn out to have: for wiredtiger one for every choice that
`search_near` may make. -/
def drivers (store : List Entry) : Backend → Set Driver
  | .leveldb => {LevelDB.driver store}
  | .wiredtiger => Set.range (fun low => WiredTiger.driver low store)

/-- What the driver lets into the database: the insert of wiredtiger refuses an empty key. -/
def Admits (ix : Index) (store : List Entry) : Backend → Prop
  | .leveldb => True
  | .wiredtiger => ∀ e ∈ store, e.key ≠ ix.keyPrefix

def Iterable (ix : Index) (store : List Entry) (options : IterateOptions) (b : Backend) : Prop :=
  match Driver.startKey ix options, b with
  | .error _, _ => True
  | .ok start, .leveldb => LevelDB.Iterable ix store options start
  | .ok start, .wiredtiger => WiredTiger.Iterable ix store options start

def HasLast (ix : Index) (store : List Entry) (pfx : Bytes) : Backend → Prop
  | .leveldb => LevelDB.HasLast ix store pfx
  | .wiredtiger => WiredTiger.HasLast ix store pfx

variable {ix : Index} {store : List Entry}

theorem iterates_error {options : IterateOptions} {err : Err} (failed : Driver.startKey ix options = .error err)
    (d : Driver) : Spec.Iterates ix store options d := by
  have none : Spec.selected ix store options = [] := by simp only [Spec.selected,failed]
  rw [Spec.Iterates,none]
  intro σ fn s fuel _
  refine ⟨some (.encodeKey err),?_⟩
  simp only [Driver.iterate,failed]
  rfl

theorem iterates_iff_iterable (b : Backend) (sorted : Sorted Entry.key store) (admits : b.Admits ix store)
    (readable : Readable ix store) (options : IterateOptions) :
    (∀ d ∈ b.drivers store, Spec.Iterates ix store options d) ↔ b.Iterable ix store options := by
  cases starts : Driver.startKey ix options with
  | error err =>
    simp only [Iterable,starts]
    exact iff_of_true (fun d _ => iterates_error starts d) trivial
  | ok start =>
    cases b with
    | leveldb =>
      simp only [Iterable,starts,drivers,Set.mem_singleton_iff,forall_eq]
      exact LevelDB.iterates_iff_iterable sorted readable starts
    | wiredtiger =>
      simp only [Iterable,starts,drivers,Set.forall_mem_range]
      exact WiredTiger.iterates_iff_iterable sorted admits readable starts

theorem findsLast_iff_hasLast (b : Backend) (sorted : Sorted Entry.key store) (admits : b.Admits ix store)
    (readable : Readable ix store) (pfx : Bytes) :
    (∀ d ∈ b.drivers store, Spec.FindsLast ix store pfx d) ↔ b.HasLast ix store pfx := by
  cases b with
  | leveldb =>
    simp only [HasLast,drivers,Set.mem_singleton_iff,forall_eq]
    exact LevelDB.findsLast_iff sorted readable pfx
  | wiredtiger =>
    simp only [HasLast,drivers,Set.forall_mem_range]
    exact WiredTiger.findsLast_iff sorted admits readable pfx

end Backend

/-- For either driver, all contents and all options: `Iterate` visits exactly the selected items and `Last` finds the
last item exactly under these conditions. -/
theorem iteration_iff (b : Backend) (ix : Index) (store : List Entry) (sorted : Sorted Entry.key store)
    (admits : b.Admits ix store) (readable : Readable ix store) (options : IterateOptions) (pfx : Bytes) :
    (∀ d ∈ b.drivers store, Spec.Iterates ix store options d ∧ Spec.FindsLast ix store pfx d) ↔
      b.Iterable ix store options ∧ b.HasLast ix store pfx := by
  rw [← b.iterates_iff_iterable sorted admits readable options,← b.findsLast_iff_hasLast sorted admits readable pfx]
  constructor
  · exact fun both => ⟨fun d member => (both d member).1,fun d member => (both d member).2⟩
  · exact fun both d member => ⟨both.1 d member,both.2 d member⟩

def addresses : Index where
  id := 2
  encodeKey item := .ok item.address
  decodeKey key := .ok { address := key }
  decodeValue _ _ := .ok {}

/-- Two items of the index, and one of the next index. -/
def sample : List Entry := [⟨[2,1],[0]⟩,⟨[2,5],[0]⟩,⟨[3,1],[0]⟩]

theorem addresses_read (e : Entry) : addresses.read e = .ok { address := e.key.drop 1 } := by
  have merged : Item.merge { address := e.key.drop 1 } {} = { address := e.key.drop 1 } := by
    by_cases empty : e.key.drop 1 = [] <;> simp [Item.merge,empty]
  exact congrArg Except.ok merged

theorem sample_readable : Readable addresses sample := by
  constructor
  · intro e _ _
    exact ⟨_,addresses_read e⟩
  rintro ⟨key,value⟩ member ⟨key',value'⟩ member' ⟨rest,equal⟩ ⟨rest',equal'⟩ same
  have values : ∀ e ∈ sample, e.value = [0] := by decide
  rw [addresses_read,addresses_read] at same
  have tails : key.drop 1 = key'.drop 1 := congrArg Item.address (Except.ok.inj same)
  simp only at equal
  subst equal equal'
  rw [show value = [0] from values _ member,show value' = [0] from values _ member',show rest = rest' from tails]

theorem iteration_sample :
    Spec.Iterates addresses sample ⟨some { address := [3] },false,[],false⟩ (LevelDB.driver sample) ∧
      Spec.FindsLast addresses sample [5] (LevelDB.driver sample) := by
  have sorted : Sorted Entry.key sample := by
    unfold Sorted
    decide
  have ahead : Spec.ahead ⟨some { address := [3] },false,[],false⟩ [2,3] sample =
    [⟨[2,5],[0]⟩,⟨[3,1],[0]⟩] := by decide
  have later : beyond [2,5] sample = [⟨[3,1],[0]⟩] := by decide
  apply (iteration_iff .leveldb addresses sample sorted trivial sample_readable _ _).mpr _ _ rfl
  refine ⟨?_,.inr ?_⟩
  · change Clear Entry.key (within [2]) (Spec.ahead ⟨some { address := [3] },false,[],false⟩ [2,3] sample)
    rw [ahead]
    rintro first ⟨⟩ outside
    exact absurd (by decide) outside
  change ∀ e ∈ beyond [2,5] sample, _
  rw [later]
  intro e member
  rw [List.mem_singleton.mp member]
  exact ⟨[6],rfl,by decide⟩

/-- The last item of an index is not found when another index follows. -/
theorem last_missed : ¬(∀ d ∈ Backend.leveldb.drivers sample,
    Spec.Iterates addresses sample ⟨none,false,[],false⟩ d ∧ Spec.FindsLast addresses sample [] d) := by
  intro right
  have found : (Except.error .notFound : Except Err Item) = .ok { address := [5] } := (right _ rfl).2
  cases found

end FavorX.Iteration
