import FavorX.ByteKeys
import FavorX.Cursors
import FavorX.Shed

/-!
Iteration over an index of the shed layer, written against the cursor that a driver returns from
`Search`. The leveldb driver has one ordered key space; the wiredtiger driver has one table for each
index, and `search_near` takes the key or either of its neighbours.
-/
namespace FavorX.Iteration
open ByteKeys Cursors
open Shed (Item)

/-- A key of the database, with the prefix of its index, and its value. -/
structure Entry where
  key : Bytes
  value : Bytes
  deriving DecidableEq

open Entry (key)

inductive Err where
  /-- driver.ErrNotFound -/
  | notFound
  /-- an error of the functions of an index, or of the function that is called -/
  | given (code : Nat)
  | encodeKey (err : Err)
  | decodeKey (err : Err)
  | decodeValue (err : Err)
  /-- get item from iterator -/
  | getItem (err : Err)
  /-- index iterator function -/
  | function (err : Err)
  /-- index iterator invalid prefix -/
  | invalidPrefix
  /-- wiredtiger: cursor search key -/
  | cursorKey
  /-- wiredtiger: cursor search value for key -/
  | cursorValue
  /-- wiredtiger: cursor seek key -/
  | cursorSeek
  /-- wiredtiger: expect to find table -/
  | otherTable
  deriving DecidableEq

/-- `errors.Is(err, driver.ErrNotFound)`, which looks through the wrapped errors. -/
def Err.isNotFound : Err → Bool
  | .notFound => true
  | .encodeKey e | .decodeKey e | .decodeValue e | .getItem e | .function e => e.isNotFound
  | _ => false

/-- An index: the byte that prefixes its keys, and its functions. -/
structure Index where
  id : UInt8
  encodeKey : Item → Except Err Bytes
  decodeKey : Bytes → Except Err Item
  decodeValue : Item → Bytes → Except Err Item

namespace Index

def keyPrefix (ix : Index) : Bytes := [ix.id]

def encodeKeyFunc (ix : Index) (item : Item) : Except Err Bytes := (ix.encodeKey item).map (ix.keyPrefix ++ ·)

def decodeKeyFunc (ix : Index) (key : Bytes) : Except Err Item := ix.decodeKey (key.drop 1)

def read (ix : Index) (e : Entry) : Except Err Item :=
  match ix.decodeKeyFunc e.key with
  | .error err => .error (.decodeKey err)
  | .ok keyItem =>
    match ix.decodeValue keyItem e.value with
    | .error err => .error (.decodeValue err)
    | .ok valueItem => .ok (keyItem.merge valueItem)

end Index

structure IterateOptions where
  startFrom : Option Item
  skipStartFromItem : Bool
  keyPrefix : Bytes
  reverse : Bool

/-- The `Search` of a driver on a database, with the methods of the cursor it returns. Reading the key may change
the cursor. -/
structure Driver where
  Cursor : Type
  search : Bytes → Cursor
  next : Cursor → Bool × Cursor
  prev : Cursor → Bool × Cursor
  last : Cursor → Bool × Cursor
  seek : Bytes → Cursor → Bool × Cursor
  key : Cursor → Bytes × Cursor
  value : Cursor → Bytes × Cursor
  valid : Cursor → Bool
  error : Cursor → Option Err

def bytesIncrement (bytes : Bytes) : Option Bytes := successor bytes

def incByteSlice (b : Bytes) : Option Bytes := carried b

/-! ### The functions of the index -/

namespace Driver
variable (d : Driver) (ix : Index)

def itemFromIterator (it : d.Cursor) (totalPrefix : Bytes) : Except Err Item × d.Cursor :=
  let key := d.key it
  if totalPrefix <+: key.1 then
    match ix.decodeKeyFunc key.1 with
    | .error e => (.error (.decodeKey e), key.2)
    | .ok keyItem =>
      let value := d.value key.2
      match ix.decodeValue keyItem value.1 with
      | .error e => (.error (.decodeValue e), value.2)
      | .ok valueItem =>
        match d.error value.2 with
        | some e => (.error e, value.2)
        | none => (.ok (keyItem.merge valueItem), value.2)
  else (.error .notFound, key.2)

def startKey (options : IterateOptions) : Except Err Bytes :=
  match options.startFrom with
  | none => .ok (ix.keyPrefix ++ options.keyPrefix)
  | some item => ix.encodeKeyFunc item

/-- The reverse seeker without a start item: the last key with the prefix. An error stands for the early return of
`Iterate`. -/
def seekLast (keyPrefix : Bytes) (it : d.Cursor) : Except (Option Err) (Bool × d.Cursor) :=
  let last := d.last it
  if last.1 = false then .error (d.error last.2)
  else
    let key := d.key last.2
    if keyPrefix <+: key.1 then .ok (true, key.2)
    else
      match bytesIncrement keyPrefix with
      | none => .error (some .invalidPrefix)
      | some incrementedPrefix =>
        let sought := d.seek incrementedPrefix key.2
        if sought.1 = false then .error (d.error sought.2)
        else
          let previous := d.prev sought.2
          if previous.1 = false then .error (d.error previous.2) else .ok previous

/-- Skip the start item if the cursor stands at it. -/
def skip (options : IterateOptions) (startKey : Bytes) (step : d.Cursor → Bool × d.Cursor) (at' : Bool × d.Cursor) :
    Bool × d.Cursor :=
  if options.skipStartFromItem then
    let key := d.key at'.2
    if startKey = key.1 then step key.2 else (at'.1, key.2)
  else at'

variable {σ : Type} (fn : σ → Item → σ × Except Err Bool)

/-- The loop of `Iterate`. The function changes its state `σ` and returns whether to stop, or an error. Without fuel
there is no result. -/
def loop (totalPrefix : Bytes) (step : d.Cursor → Bool × d.Cursor) : Nat → Bool × d.Cursor → σ → Option (σ × Option Err)
  | 0, _, _ => none
  | fuel + 1, (ok, it), s =>
    if ok then
      match d.itemFromIterator ix it totalPrefix with
      | (.error e, it) => if e.isNotFound then some (s, d.error it) else some (s, some (.getItem e))
      | (.ok item, it) =>
        match fn s item with
        | (s, .error e) => some (s, some (.function e))
        | (s, .ok true) => some (s, d.error it)
        | (s, .ok false) => loop totalPrefix step fuel (step it) s
    else some (s, d.error it)

def iterate (options : IterateOptions) (fuel : Nat) (s : σ) : Option (σ × Option Err) :=
  let keyPrefix := ix.keyPrefix ++ options.keyPrefix
  match startKey ix options with
  | .error e => some (s, some (.encodeKey e))
  | .ok startKey =>
    let it := d.search startKey
    let step := if options.reverse then d.prev else d.next
    match if options.reverse && options.startFrom.isNone then d.seekLast keyPrefix it else .ok (d.valid it, it) with
    | .error err => some (s, err)
    | .ok at' => d.loop ix fn keyPrefix step fuel (d.skip options startKey step at') s

/-- `Last`: the previous key of the next prefix, which is nil for an empty prefix and for one of bytes 255. -/
def lastItem (pfx : Bytes) : Except Err Item :=
  let it := d.search ix.keyPrefix
  let it :=
    match incByteSlice pfx with
    | some nextPrefix => (d.prev (d.seek (ix.keyPrefix ++ nextPrefix) it).2).2
    | none => (d.last it).2
  (d.itemFromIterator ix it (ix.keyPrefix ++ pfx)).1

end Driver

/-! ### The leveldb driver -/

/-- The iterator of goleveldb: before the first entry, at an entry, or after the last one. -/
inductive Position where
  | start
  | at (place : Place Entry)
  | finish

namespace LevelDB
variable (store : List Entry)

def arrive (other : Position) : Option (Place Entry) → Bool × Position
  | some place => (true, .at place)
  | none => (false, other)

def seek (key : Bytes) : Bool × Position := arrive .finish (Cursors.seek Entry.key key store)

def last : Bool × Position := arrive .start (final store)

/-- A step forward; before the first entry it leads to that one. -/
def next : Position → Bool × Position
  | .start => arrive .finish (Cursors.seek key [] store)
  | .at place => arrive .finish place.forward
  | .finish => (false, .finish)

/-- A step backward; after the last entry it leads to that one. -/
def prev : Position → Bool × Position
  | .start => (false, .start)
  | .at place => arrive .start place.backward
  | .finish => last store

def driver : Driver where
  Cursor := Position
  search key := (seek store key).2
  next := next store
  prev := prev store
  last _ := last store
  seek key _ := seek store key
  key
    | .at place => (place.here.key, .at place)
    | it => ([], it)
  value
    | .at place => (place.here.value, .at place)
    | it => ([], it)
  valid
    | .at _ => true
    | _ => false
  error _ := none

end LevelDB

/-! ### The wiredtiger driver -/

namespace WiredTiger

/-- The cursor of a search: the prefix of its table, its place if it has one, and whether the last search found its
key. -/
structure SearchCursor where
  keyPrefix : Bytes
  place : Option (Place Entry)
  found : Bool
  err : Option Err

/-- What `Search` returns: `InvalidCursor` for an empty table, else a search cursor. -/
inductive Cursor where
  | invalid
  | search (cursor : SearchCursor)

variable (low : Bytes → Bool) (store : List Entry)

def strip (e : Entry) : Entry := ⟨e.key.drop 1,e.value⟩

/-- The table for a prefix, with the keys that follow it. -/
def table (keyPrefix : Bytes) : List Entry := (store.filter (fun e => keyPrefix <+: e.key)).map strip

/-- The method `search` of a cursor. The store's `search_near` chooses between the neighbours of an absent key; `low`
tells for which keys it takes the smaller one. -/
def search (keyPrefix key : Bytes) : Option (Place Entry × Ordering) :=
  let key := if key = [] then [0] else key
  near Entry.key (low key) key (table store keyPrefix)

def moved (c : SearchCursor) : Option (Place Entry) → Bool × Cursor
  | some place => (true, .search { c with place := some place })
  | none => (false, .search { c with place := none })

/-- A step forward; without a place it leads to the first entry. -/
def next : Cursor → Bool × Cursor
  | .invalid => (false, .invalid)
  | .search c =>
    if c.found then (true, .search { c with found := false })
    else
      match c.place with
      | some place => moved c place.forward
      | none => moved c (Cursors.seek key [] (table store c.keyPrefix))

def prevSearch (c : SearchCursor) : Bool × Cursor :=
  if c.found then (true, .search { c with found := false })
  else
    match c.place with
    | some place => moved c place.backward
    | none => moved c (final (table store c.keyPrefix))

def prev : Cursor → Bool × Cursor
  | .invalid => (false, .invalid)
  | .search c => prevSearch store c

def last : Cursor → Bool × Cursor
  | .invalid => (false, .invalid)
  | .search c => prevSearch store { c with place := none }

/-- A key of another table is refused. The mark that the last search found its key is not renewed. -/
def seek (key : Bytes) : Cursor → Bool × Cursor
  | .invalid => (false, .invalid)
  | .search c =>
    if key.take 1 = c.keyPrefix then
      match search low store c.keyPrefix (key.drop 1) with
      | some (place, _) => (true, .search { c with place := some place })
      | none => (false, .search { c with err := some .cursorSeek })
    -- the table of the fields has the prefix 1 and is refused without an error
    else if key.take 1 = [1] then (false, .search c)
    else (false, .search { c with err := some .otherTable })

def driver : Driver where
  Cursor := Cursor
  search key :=
    match search low store (key.take 1) (key.drop 1) with
    | some (place, order) => .search ⟨key.take 1,some place,order = .eq,none⟩
    | none => .invalid
  next := next store
  prev := prev store
  last := last store
  seek := seek low store
  key
    | .invalid => ([], .invalid)
    | .search c =>
      match c.place with
      | some place => (c.keyPrefix ++ place.here.key, .search { c with found := false })
      | none => (c.keyPrefix, .search { c with found := false, err := some .cursorKey })
  value
    | .invalid => ([], .invalid)
    | .search c =>
      match c.place with
      | some place => (place.here.value, .search { c with found := false })
      | none => ([], .search { c with found := false, err := some .cursorValue })
  valid
    | .invalid => false
    | .search c => c.err.isNone
  error
    | .invalid => none
    | .search c => c.err

end WiredTiger

/-! ### The specification -/

def within (p : Bytes) : Set Bytes := {x | p <+: x}

instance decidableWithin (p : Bytes) : DecidablePred (· ∈ within p) := fun x => inferInstanceAs (Decidable (p <+: x))

theorem connected_within (p : Bytes) : (within p).OrdConnected := by
  refine ⟨?_⟩
  rintro x first z last y ⟨after,before⟩
  exact starts_between first last after before

theorem least_within {p : Bytes} : ∀ x ∈ within p, p ≤ x := fun _ starts => le_of_starts starts

theorem self_within (p : Bytes) : p ∈ within p := List.prefix_rfl

def Present (key : Bytes) (es : List Entry) : Prop := ∃ e ∈ es, e.key = key

def beyond (p : Bytes) (es : List Entry) : List Entry := es.filter (fun e => p < e.key ∧ e.key ∉ within p)

variable {es : List Entry} {p : Bytes}

variable {e last : Entry}

theorem mem_beyond : e ∈ beyond p es ↔ e ∈ es ∧ p < e.key ∧ e.key ∉ within p := by
  simp [beyond]

namespace Spec
variable (ix : Index) (store : List Entry) (options : IterateOptions)

/-- The entries on the chosen side of the start key, in the order of the iteration. -/
def ahead (start : Bytes) (es : List Entry) : List Entry :=
  match options.startFrom, options.reverse with
  | none, false => es
  | none, true => es.reverse
  | some _, false => after Entry.key options.skipStartFromItem start es
  | some _, true => (before Entry.key options.skipStartFromItem start es).reverse

def total : Bytes := ix.keyPrefix ++ options.keyPrefix

/-- The entries of the index that an iteration has to visit. -/
def selected : List Entry :=
  match Driver.startKey ix options with
  | .error _ => []
  | .ok start => members key (within (total ix options)) (ahead options start store)

/-- Call the function on the items of entries until it stops or an entry cannot be read. -/
def visit {σ : Type} (fn : σ → Item → σ × Except Err Bool) : σ → List Entry → σ
  | s, [] => s
  | s, e :: rest =>
    match ix.read e with
    | .error _ => s
    | .ok item =>
      match fn s item with
      | (s, .ok false) => visit fn s rest
      | (s, _) => s

/-- The iteration returns, and has called its function on exactly the selected items. -/
def Iterates (d : Driver) : Prop :=
  ∀ (σ : Type) (fn : σ → Item → σ × Except Err Bool) (s : σ) (fuel : Nat), store.length < fuel →
    ∃ err, d.iterate ix fn options fuel s = some (visit ix fn s (selected ix store options), err)

def FindsLast (pfx : Bytes) (d : Driver) : Prop :=
  d.lastItem ix pfx =
    match (members key (within (ix.keyPrefix ++ pfx)) store).getLast? with
    | some e => ix.read e
    | none => .error .notFound

end Spec

/-! ### What a cursor reads -/

variable {start : Bytes}

section
variable {d : Driver} {ix : Index} {step : d.Cursor → Bool × d.Cursor}

/-- A cursor that can be read at its place and, after each step, at the following entries. -/
inductive Reads (d : Driver) (step : d.Cursor → Bool × d.Cursor) : Bool × d.Cursor → List Entry → Prop
  | done (it : d.Cursor) : Reads d step (false, it) []
  | entry {it : d.Cursor} {e : Entry} {rest : List Entry} (key : (d.key it).1 = e.key)
      (again : d.key (d.key it).2 = d.key it) (value : d.value (d.key it).2 = (e.value, (d.key it).2))
      (error : d.error (d.key it).2 = none) (later : Reads d step (step (d.key it).2) rest) :
      Reads d step (true, it) (e :: rest)

theorem itemFromIterator_outside {it : d.Cursor} (outside : ¬p <+: (d.key it).1) :
    d.itemFromIterator ix it p = (.error .notFound, (d.key it).2) := by
  simp [Driver.itemFromIterator,outside]

theorem itemFromIterator_inside (ix : Index) {it : d.Cursor} (key : (d.key it).1 = e.key)
    (value : d.value (d.key it).2 = (e.value, (d.key it).2)) (error : d.error (d.key it).2 = none)
    (inside : p <+: e.key) : (d.itemFromIterator ix it p).1 = ix.read e ∧
      ∀ item, ix.read e = .ok item → (d.itemFromIterator ix it p).2 = (d.key it).2 := by
  simp only [Driver.itemFromIterator,Index.read,key,inside,if_true]
  cases ix.decodeKeyFunc e.key with
  | error err => simp
  | ok keyItem =>
    simp only [value]
    cases ix.decodeValue keyItem e.value with
    | error err => simp
    | ok valueItem => simp [error]

theorem loop_reads (ix : Index) {σ : Type} (fn : σ → Item → σ × Except Err Bool) {c : Bool × d.Cursor}
    (reads : Reads d step c es) (fuel : Nat) (enough : es.length < fuel) (s : σ) :
    ∃ err, d.loop ix fn p step fuel c s = some (Spec.visit ix fn s (walked Entry.key (within p) es), err) := by
  induction reads generalizing fuel s with
  | done it =>
    obtain ⟨fuel,rfl⟩ := Nat.exists_eq_succ_of_ne_zero (by omega : fuel ≠ 0)
    exact ⟨d.error it,rfl⟩
  | @entry it e rest key again value error later ih =>
    obtain ⟨fuel,rfl⟩ := Nat.exists_eq_succ_of_ne_zero (by omega : fuel ≠ 0)
    by_cases inside : p <+: e.key
    · obtain ⟨result,after⟩ := itemFromIterator_inside ix key value error inside
      rw [walked_cons_inside (show Entry.key e ∈ within p from inside)]
      cases taken : d.itemFromIterator ix it p with
      | mk got it' =>
        rw [taken] at result after
        cases read : ix.read e with
        | error err =>
          have failed : got = .error err := result.trans read
          subst failed
          simp only [Driver.loop,taken,Spec.visit,read]
          cases err.isNotFound with
          | true => exact ⟨_,rfl⟩
          | false => exact ⟨_,rfl⟩
        | ok item =>
          have success : got = .ok item := result.trans read
          have moved := after item read
          subst success moved
          simp only [Driver.loop,taken,Spec.visit,read]
          cases called : fn s item with
          | mk s' verdict =>
            cases verdict with
            | error err => exact ⟨_,rfl⟩
            | ok stop =>
              cases stop with
              | true => exact ⟨_,rfl⟩
              | false => exact ih fuel (by simp only [List.length_cons] at enough; omega) s'
    rw [walked_cons_outside (show Entry.key e ∉ within p from inside)]
    refine ⟨d.error (d.key it).2,?_⟩
    simp only [Driver.loop,if_true,itemFromIterator_outside (by rw [key]; exact inside)]
    rfl

theorem Reads.reread {it : d.Cursor} (reads : Reads d step (true, it) es) : Reads d step (true, (d.key it).2) es := by
  cases reads with
  | entry key again value error later =>
    exact .entry (by rw [again]; exact key) (by rw [again,again]) (by rw [again]; exact value) (by rw [again]; exact error)
      (by rw [again]; exact later)

theorem reads_skip {options : IterateOptions} {c : Bool × d.Cursor} (reads : Reads d step c es)
    (away : c.1 = false → (d.key c.2).1 ≠ start) :
    Reads d step (d.skip options start step c) (passing Entry.key options.skipStartFromItem start es) := by
  cases skips : options.skipStartFromItem with
  | false =>
    simp only [Driver.skip,skips,Bool.false_eq_true,if_false]
    cases es <;> exact reads
  | true =>
    cases reads with
    | done it =>
      simp only [Driver.skip,skips,if_true,if_neg (Ne.symm (away rfl)),passing]
      exact .done _
    | @entry it e rest key again value error later =>
      by_cases same : e.key = start
      · simp only [Driver.skip,skips,if_true,passing,key,same,decide_true,Bool.and_self]
        exact later
      · simp only [Driver.skip,skips,if_true,passing,key,same,Ne.symm same,if_false,decide_false,Bool.and_false,
          Bool.false_eq_true]
        exact Reads.reread (.entry key again value error later)

theorem loop_silent (ix : Index) {step : d.Cursor → Bool × d.Cursor} {σ : Type}
    (fn : σ → Item → σ × Except Err Bool) {p : Bytes} {it : d.Cursor} {err : Err}
    (failed : d.error (d.value (d.key it).2).2 = some err) {fuel : Nat} (enough : 0 < fuel) (ok : Bool) (s : σ) :
    ∃ err, d.loop ix fn p step fuel (ok, it) s = some (s, err) := by
  obtain ⟨fuel,rfl⟩ := Nat.exists_eq_succ_of_ne_zero (by omega : fuel ≠ 0)
  cases ok with
  | false => exact ⟨d.error it,rfl⟩
  | true =>
    have none : ∃ e, (d.itemFromIterator ix it p).1 = .error e := by
      simp only [Driver.itemFromIterator]
      split
      · cases ix.decodeKeyFunc (d.key it).1 with
        | error e => exact ⟨_,rfl⟩
        | ok keyItem =>
          simp only
          cases ix.decodeValue keyItem (d.value (d.key it).2).1 with
          | error e => exact ⟨_,rfl⟩
          | ok valueItem => simp only [failed]; exact ⟨_,rfl⟩
      · exact ⟨_,rfl⟩
    cases taken : d.itemFromIterator ix it p with
    | mk got it' =>
      rw [taken] at none
      obtain ⟨e,rfl⟩ := none
      simp only [Driver.loop,taken]
      cases e.isNotFound with
      | true => exact ⟨_,rfl⟩
      | false => exact ⟨_,rfl⟩

end

/-! ### Visits and lists of entries -/

/-- The entries of an index can be read, and different ones are different items. -/
structure Readable (ix : Index) (store : List Entry) : Prop where
  reads : ∀ e ∈ store, ix.keyPrefix <+: e.key → ∃ item, ix.read e = .ok item
  distinct : ∀ e ∈ store, ∀ e' ∈ store, ix.keyPrefix <+: e.key → ix.keyPrefix <+: e'.key →
    ix.read e = ix.read e' → e = e'

variable {options : IterateOptions} {d : Driver}

section
variable {ix : Index} {store : List Entry}

/-- A function that goes on and records the items it is called on. -/
def record (s : List Item) (item : Item) : List Item × Except Err Bool := (s ++ [item], .ok false)

theorem visit_record (s : List Item) (readable : ∀ e ∈ es, ∃ item, ix.read e = .ok item) :
    (Spec.visit ix record s es).map Except.ok = s.map Except.ok ++ es.map ix.read := by
  induction es generalizing s with
  | nil => simp [Spec.visit]
  | cons e rest ih =>
    obtain ⟨item,read⟩ := readable e List.mem_cons_self
    simp only [Spec.visit,read,record]
    rw [ih _ (fun e' member => readable e' (List.mem_cons_of_mem e member))]
    simp [read]

/-- If all functions are called alike on two lists of entries of the index, these are the same. -/
theorem visits_injective (readable : Readable ix store) {es' : List Entry}
    (inside : ∀ e ∈ es, e ∈ store ∧ ix.keyPrefix <+: e.key) (inside' : ∀ e ∈ es', e ∈ store ∧ ix.keyPrefix <+: e.key)
    (same : Spec.visit ix record [] es = Spec.visit ix record [] es') : es = es' := by
  have read (e : Entry) (held : e ∈ store ∧ ix.keyPrefix <+: e.key) := readable.reads e held.1 held.2
  have mapped := congrArg (List.map (Except.ok (ε := Err))) same
  rw [visit_record [] (fun e member => read e (inside e member)),
    visit_record [] (fun e member => read e (inside' e member))] at mapped
  simp only [List.map_nil,List.nil_append] at mapped
  clear same
  induction es generalizing es' with
  | nil => exact (List.map_eq_nil_iff.mp mapped.symm).symm
  | cons e rest ih =>
    cases es' with
    | nil => simp at mapped
    | cons e' rest' =>
      simp only [List.map_cons,List.cons.injEq] at mapped
      have heads := inside e List.mem_cons_self
      have heads' := inside' e' List.mem_cons_self
      rw [readable.distinct e heads.1 e' heads'.1 heads.2 heads'.2 mapped.1]
      rw [ih (fun x member => inside x (List.mem_cons_of_mem e member))
        (fun x member => inside' x (List.mem_cons_of_mem e' member)) mapped.2]

theorem ahead_subset (member : e ∈ Spec.ahead options start es) : e ∈ es := by
  unfold Spec.ahead at member
  split at member
  · exact member
  · exact List.mem_reverse.mp member
  · exact (List.mem_filter.mp member).1
  · exact (List.mem_filter.mp (List.mem_reverse.mp member)).1

theorem selected_inside : ∀ e ∈ Spec.selected ix store options, e ∈ store ∧ ix.keyPrefix <+: e.key := by
  intro e member
  unfold Spec.selected at member
  split at member
  · exact absurd member List.not_mem_nil
  · obtain ⟨held,inside⟩ := mem_members.mp member
    exact ⟨ahead_subset held,(List.prefix_append _ _).trans inside⟩

/-- An iteration whose function is called on the entries `es`. -/
def Visits (d : Driver) (ix : Index) (store : List Entry) (options : IterateOptions) (es : List Entry) : Prop :=
  ∀ (σ : Type) (fn : σ → Item → σ × Except Err Bool) (s : σ) (fuel : Nat), store.length < fuel →
    ∃ err, d.iterate ix fn options fuel s = some (Spec.visit ix fn s es, err)

theorem iterates_iff (readable : Readable ix store) (inside : ∀ e ∈ es, e ∈ store ∧ ix.keyPrefix <+: e.key)
    (visits : Visits d ix store options es) :
    Spec.Iterates ix store options d ↔ es = Spec.selected ix store options := by
  constructor
  · intro iterates
    obtain ⟨err,visited⟩ := visits _ record [] (store.length + 1) (Nat.lt_succ_self _)
    obtain ⟨err',wanted⟩ := iterates _ record [] (store.length + 1) (Nat.lt_succ_self _)
    have same := (Prod.mk.inj (Option.some.inj (visited.symm.trans wanted))).1
    exact visits_injective readable inside selected_inside same
  · rintro rfl
    exact visits

def placed (d : Driver) (options : IterateOptions) (p start : Bytes) : Except (Option Err) (Bool × d.Cursor) :=
  if options.reverse && options.startFrom.isNone then d.seekLast p (d.search start)
  else .ok (d.valid (d.search start), d.search start)

def direction (d : Driver) (options : IterateOptions) : d.Cursor → Bool × d.Cursor :=
  if options.reverse then d.prev else d.next

section
variable (starts : Driver.startKey ix options = .ok start)
include starts

theorem iterate_placed {σ : Type} (fn : σ → Item → σ × Except Err Bool) (fuel : Nat) (s : σ) :
    d.iterate ix fn options fuel s =
      match placed d options (Spec.total ix options) start with
      | .error err => some (s, err)
      | .ok c => d.loop ix fn (Spec.total ix options) (direction d options) fuel
        (d.skip options start (direction d options) c) s := by
  simp only [Driver.iterate,starts]
  rfl

theorem visits_placed {c : Bool × d.Cursor} (at' : placed d options (Spec.total ix options) start = .ok c)
    (reads : Reads d (direction d options) c es) (small : es.length ≤ store.length)
    (away : c.1 = false → (d.key c.2).1 ≠ start) : Visits d ix store options
      (walked key (within (Spec.total ix options)) (passing key options.skipStartFromItem start es)) := by
  intro σ fn s fuel enough
  have shorter : (passing key options.skipStartFromItem start es).length ≤ es.length := passing_length
  rw [iterate_placed starts,at']
  exact loop_reads ix fn (reads_skip reads away) fuel (by omega) s

end

theorem visits_silent {c : Bool × d.Cursor} {failed : d.Cursor → Prop} (key : ∀ it, failed it → failed (d.key it).2)
    (value : ∀ it, failed it → failed (d.value it).2) (step : ∀ it, failed it → failed (direction d options it).2)
    (error : ∀ it, failed it → ∃ err, d.error it = some err) (starts : Driver.startKey ix options = .ok start)
    (at' : placed d options (Spec.total ix options) start = .ok c) (fails : failed c.2) :
    Visits d ix store options [] := by
  have skipped : failed (d.skip options start (direction d options) c).2 := by
    unfold Driver.skip
    split
    · dsimp only
      split
      · exact step _ (key _ fails)
      · exact key _ fails
    · exact fails
  intro σ fn s fuel enough
  obtain ⟨err,failure⟩ := error _ (value _ (key _ skipped))
  rw [iterate_placed starts,at']
  exact loop_silent ix fn failure (by omega)
    (d.skip options start (direction d options) c).1 s

theorem start_key (starts : Driver.startKey ix options = .ok start) : ∃ k, start = ix.keyPrefix ++ k := by
  unfold Driver.startKey at starts
  split at starts
  · exact ⟨options.keyPrefix,(Except.ok.inj starts).symm⟩
  next item _ =>
  cases encoded : ix.encodeKey item with
  | error err => simp [Index.encodeKeyFunc,encoded,Except.map] at starts
  | ok key =>
    simp only [Index.encodeKeyFunc,encoded,Except.map,Except.ok.injEq] at starts
    exact ⟨key,starts.symm⟩

theorem start_total (free : options.startFrom = none) (starts : Driver.startKey ix options = .ok start) :
    start = Spec.total ix options := by
  simp only [Driver.startKey,free,Except.ok.injEq] at starts
  exact starts.symm

theorem selected_of_start (starts : Driver.startKey ix options = .ok start) :
    Spec.selected ix store options =
      members key (within (Spec.total ix options)) (Spec.ahead options start store) := by
  simp only [Spec.selected,starts]

/-- What is met from a place on in the direction of an iteration. -/
def met (options : IterateOptions) (place : Option (Place Entry)) : List Entry :=
  if options.reverse then toLeft place else toRight place

section
variable {d : Driver} {options : IterateOptions} {c : Bool × d.Cursor} {place : Option (Place Entry)}
  (readable : Readable ix store) (starts : Driver.startKey ix options = .ok start)
  (whole : ∀ q ∈ place, q.whole = es) (held : es.Sublist store) (away : c.1 = false → (d.key c.2).1 ≠ start)

include readable starts whole held away

/-- The loop is right if what the cursor reads while it has the prefix is what lies ahead of the start key. -/
theorem iterates_placed_iff (at' : placed d options (Spec.total ix options) start = .ok c)
    (reads : Reads d (direction d options) c (met options place)) : Spec.Iterates ix store options d ↔
      walked Entry.key (within (Spec.total ix options)) (passing Entry.key options.skipStartFromItem start (met options place)) =
        members Entry.key (within (Spec.total ix options)) (Spec.ahead options start store) := by
  have part : (met options place).Subperm es := by
    unfold met
    split
    · exact subperm_toLeft whole
    · exact subperm_toRight whole
  rw [← selected_of_start starts]
  apply iterates_iff readable _ (visits_placed starts at' reads (part.length_le.trans held.length_le) away)
  intro e member
  obtain ⟨read,owned⟩ := mem_walked member
  exact ⟨held.subset (part.subset (mem_passing read)),(List.prefix_append _ _).trans owned⟩

theorem iterates_search_iff (direct : (options.reverse && options.startFrom.isNone) = false)
    (searched : (d.valid (d.search start), d.search start) = c) (forth : Reads d d.next c (toRight place))
    (back : Reads d d.prev c (toLeft place)) : Spec.Iterates ix store options d ↔
      walked key (within (Spec.total ix options)) (passing key options.skipStartFromItem start (met options place)) =
        members key (within (Spec.total ix options)) (Spec.ahead options start store) := by
  apply iterates_placed_iff readable starts whole held away
  · rw [placed,direct,if_neg Bool.false_ne_true,searched]
  unfold direction met
  split
  · exact back
  · exact forth

end

theorem iterates_returned_iff {err : Option Err} (readable : Readable ix store)
    (starts : Driver.startKey ix options = .ok start)
    (at' : placed d options (Spec.total ix options) start = .error err) :
    Spec.Iterates ix store options d ↔
      members key (within (Spec.total ix options)) (Spec.ahead options start store) = [] := by
  rw [← selected_of_start starts,eq_comm]
  refine iterates_iff readable (fun e member => absurd member List.not_mem_nil) ?_
  intro σ fn s fuel _
  rw [iterate_placed starts,at']
  exact ⟨err,rfl⟩

/-! ### Walks over entries with a prefix -/

section
variable (sorted : Sorted key store)
include sorted

theorem walked_from_start (p : Bytes) :
    walked key (within p) (onward key p store) = members key (within p) store := by
  have ordered : Sorted key (onward key p store) := sorted.filter _
  rw [(walked_eq_members_iff (connected_within p) ordered).mpr
    (clear_onward (connected_within p) (self_within p) sorted)]
  exact members_onward least_within store

theorem walked_back_from_last {rest : List Entry} (ends : store.reverse = last :: rest) (inside : last.key ∈ within p) :
    walked key (within p) store.reverse = (members key (within p) store).reverse := by
  rw [(walked_reverse_iff (connected_within p) sorted).mpr]
  · exact List.filter_reverse
  · exact ends ▸ clear_cons inside

theorem walked_back_from_next {next : Bytes} (incremented : bytesIncrement p = some next) :
    walked Entry.key (within p) (below Entry.key next store).reverse =
      (members Entry.key (within p) store).reverse := by
  have before := lt_successor_iff incremented
  have greatest : ∀ x ∈ within p, x < next := fun x starts => (before x).mpr (.inr starts)
  have ordered : Sorted Entry.key (below Entry.key next store) := sorted.filter _
  rw [(walked_reverse_iff (connected_within p) ordered).mpr]
  · rw [← members_below greatest store]
    exact List.filter_reverse
  -- the last key before the next prefix is before all keys with the prefix if it does not have it
  intro last head outside e member inside
  have first : last ∈ below Entry.key next store := List.mem_reverse.mp (List.mem_of_head? head)
  have less : last.key < p := by
    rcases (before last.key).mp (mem_below.mp first).2 with less | starts
    · exact less
    · exact absurd starts outside
  have order : e.key ≤ last.key := le_of_last ordered head (List.mem_reverse.mp member)
  exact absurd (le_of_starts inside) (not_le.mpr (order.trans_lt less))

theorem members_of_last (head : last ∈ store.reverse.head?) (less : last.key < p) :
    members key (within p) store = [] := by
  rw [members_eq_nil]
  intro e member inside
  exact absurd (least_within _ inside) (not_le.mpr ((le_of_last sorted head member).trans_lt less))

end

/-- Backward from an absent key the first key is one after it, so that there must be nothing to meet at all. -/
theorem walked_absent_iff {key : Bytes} (skip : Bool) (absent : ¬Present key es) :
    walked Entry.key (within p) (passing Entry.key skip key (toLeft (Cursors.seek Entry.key key es))) =
        members Entry.key (within p) (before Entry.key skip key es).reverse ↔
      (∀ e ∈ below Entry.key key es, e.key ∉ within p) ∧ ∀ e ∈ (onward Entry.key key es).head?, e.key ∉ within p := by
  have different : ∀ e ∈ es, e.key ≠ key := fun e member same => absent ⟨e,member,same⟩
  rw [before_of_absent different,toLeft_seek]
  cases hi : onward Entry.key key es with
  | nil =>
    simp only [passing,List.head?_nil,Option.not_mem_none,false_implies,implies_true,and_true]
    rw [show walked Entry.key (within p) ([] : List Entry) = [] from rfl,eq_comm,members_eq_nil]
    simp
  | cons e rest =>
    have member : e ∈ onward Entry.key key es := hi ▸ List.mem_cons_self
    obtain ⟨held,reached⟩ := mem_onward.mp member
    have kept : passing Entry.key skip key (e :: (below Entry.key key es).reverse) =
        e :: (below Entry.key key es).reverse := by
      apply passing_of_ne
      intro e' head
      rw [List.head?_cons,Option.mem_some_iff] at head
      exact head ▸ different e held
    simp only [kept,List.head?_cons,Option.mem_some_iff,forall_eq']
    by_cases inside : e.key ∈ within p
    · apply iff_of_false
      · intro equal
        have met : e ∈ walked Entry.key (within p) (e :: (below Entry.key key es).reverse) := by
          rw [walked_cons_inside inside]
          exact List.mem_cons_self
        rw [equal] at met
        have less := (mem_below.mp (List.mem_reverse.mp (mem_members.mp met).1)).2
        exact absurd reached (not_le.mpr less)
      · intro both
        exact both.2 inside
    · rw [walked_cons_outside inside,eq_comm,members_eq_nil]
      simp [inside]

/-! ### The last entry with a prefix -/

/-- The item of the entry at which a cursor stands, if it has the prefix. -/
def lookAt (ix : Index) (p : Bytes) : Option Entry → Except Err Item
  | some e => if e.key ∈ within p then ix.read e else .error .notFound
  | none => .error .notFound

theorem looks_at {step : d.Cursor → Bool × d.Cursor} {it : d.Cursor} (reads : Reads d step (true, it) es) (p : Bytes) :
    (d.itemFromIterator ix it p).1 = lookAt ix p es.head? := by
  cases reads with
  | @entry _ e rest key again value error later =>
    by_cases inside : p <+: e.key
    · rw [(itemFromIterator_inside ix key value error inside).1]
      simp [lookAt,show e.key ∈ within p from inside]
    · rw [itemFromIterator_outside (by rw [key]; exact inside)]
      simp [lookAt,show e.key ∉ within p from inside]

/-- Backward from the end the entries with a prefix come first if there is nothing beyond them. -/
theorem clear_reverse_iff (sorted : Sorted key es) :
    Clear key (within p) es.reverse ↔ members key (within p) es = [] ∨ beyond p es = [] := by
  constructor
  · intro clear
    by_cases none : members key (within p) es = []
    · exact .inl none
    right
    rw [members_eq_nil] at none
    simp only [not_forall,not_not] at none
    obtain ⟨item,held,inside⟩ := none
    rw [List.eq_nil_iff_forall_not_mem]
    intro e later
    obtain ⟨member,after,outside⟩ := mem_beyond.mp later
    obtain ⟨last,head⟩ : ∃ last, last ∈ es.reverse.head? := by
      cases back : es.reverse with
      | nil => rw [List.reverse_eq_nil_iff.mp back] at held; exact absurd held List.not_mem_nil
      | cons last rest => exact ⟨last,rfl⟩
    have lastInside : last.key ∈ within p := by
      by_contra lastOutside
      exact clear last head lastOutside item (List.mem_reverse.mpr held) inside
    exact outside ((connected_within p).out (self_within p) lastInside ⟨after.le,le_of_last sorted head member⟩)
  rintro (none | empty) last head outside e member inside
  · exact members_eq_nil.mp none e (List.mem_reverse.mp member) inside
  have held : last ∈ es := List.mem_reverse.mp (List.mem_of_head? head)
  have after : p < last.key := by
    have order := (least_within _ inside).trans (le_of_last sorted head (List.mem_reverse.mp member))
    exact lt_of_le_of_ne order (fun same => outside (same ▸ self_within p))
  exact absurd (mem_beyond.mpr ⟨held,after,outside⟩) (empty ▸ List.not_mem_nil)

theorem beyond_below {n : Bytes} : beyond p (below key n es) = [] ↔ ∀ e ∈ beyond p es, n ≤ e.key := by
  simp only [List.eq_nil_iff_forall_not_mem,mem_beyond,mem_below]
  constructor
  · intro none e later
    exact not_lt.mp (fun less => none e ⟨⟨later.1,less⟩,later.2⟩)
  · intro far e later
    exact absurd later.1.2 (not_lt.mpr (far e ⟨later.1.1,later.2⟩))

theorem lt_next (ix : Index) {pfx next : Bytes} (incremented : incByteSlice pfx = some next) :
    ∀ x ∈ within (ix.keyPrefix ++ pfx), x < ix.keyPrefix ++ next := by
  rintro x ⟨rest,rfl⟩
  rw [List.append_assoc,append_lt_iff]
  exact lt_carried incremented (.inr (List.prefix_append pfx rest))

/-- `Last` is right exactly when the entry it looks at is the last one with the prefix, or neither exists. -/
theorem findsLast_iff_looked {pfx : Bytes} (readable : Readable ix store) {looked : Option Entry}
    (held : ∀ e ∈ looked, e ∈ store) (looks : d.lastItem ix pfx = lookAt ix (ix.keyPrefix ++ pfx) looked) :
    Spec.FindsLast ix store pfx d ↔ looked.filter (fun e => e.key ∈ within (ix.keyPrefix ++ pfx)) =
      (members key (within (ix.keyPrefix ++ pfx)) store).getLast? := by
  have own (e : Entry) (inside : e.key ∈ within (ix.keyPrefix ++ pfx)) : ix.keyPrefix <+: e.key :=
    (List.prefix_append _ _).trans inside
  rw [Spec.FindsLast,looks]
  cases last : (members key (within (ix.keyPrefix ++ pfx)) store).getLast? with
  | none =>
    have empty := members_eq_nil.mp (List.getLast?_eq_none_iff.mp last)
    cases looked with
    | none => exact iff_of_true rfl rfl
    | some e =>
      have outside := empty e (held e rfl)
      simp [lookAt,outside]
  | some e' =>
    obtain ⟨held',inside'⟩ := mem_members.mp (List.mem_of_getLast? last)
    obtain ⟨item,read⟩ := readable.reads e' held' (own e' inside')
    cases looked with
    | none => simp [lookAt,read]
    | some e =>
      by_cases inside : e.key ∈ within (ix.keyPrefix ++ pfx)
      · simp only [lookAt,inside,if_true,Option.filter_some,decide_true,Option.some.injEq]
        constructor
        · exact readable.distinct e (held e rfl) e' held' (own e inside) (own e' inside')
        · rintro rfl
          rfl
      · simp only [lookAt,inside,if_false,read,Option.filter_some,decide_false,Bool.false_eq_true,reduceCtorEq]

/-- The last entry of a list is the last one with the prefix if nothing else comes first backward. -/
theorem last_iff_clear (p : Bytes) (es : List Entry) : es.reverse.head?.filter (fun e => e.key ∈ within p) =
    (members key (within p) es).getLast? ↔ Clear key (within p) es.reverse := by
  rw [← List.head?_reverse]
  rw [show (members key (within p) es).reverse = members key (within p) es.reverse from
    List.filter_reverse.symm]
  cases es.reverse with
  | nil => exact iff_of_true rfl (by simp [Clear])
  | cons e rest =>
    by_cases inside : e.key ∈ within p
    · simp [members_cons_inside inside,Clear,inside]
    simp only [members_cons_outside inside,Clear,inside,List.head?_cons,Option.filter_some,decide_false,
      Bool.false_eq_true,if_false,Option.mem_some_iff,forall_eq',not_false_eq_true,true_implies,List.mem_cons,
      forall_eq_or_imp,true_and]
    rw [eq_comm,List.head?_eq_none_iff,members_eq_nil]

theorem findsLast_iff_clear {pfx : Bytes} (readable : Readable ix store) (held : ∀ e ∈ es, e ∈ store)
    (all : members key (within (ix.keyPrefix ++ pfx)) es = members key (within (ix.keyPrefix ++ pfx)) store)
    (looks : d.lastItem ix pfx = lookAt ix (ix.keyPrefix ++ pfx) es.reverse.head?) :
    Spec.FindsLast ix store pfx d ↔ Clear key (within (ix.keyPrefix ++ pfx)) es.reverse := by
  rw [findsLast_iff_looked readable (fun e head => held e (List.mem_reverse.mp (List.mem_of_head? head))) looks,← all]
  exact last_iff_clear _ es

end

end FavorX.Iteration
