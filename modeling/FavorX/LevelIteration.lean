import FavorX.Iteration

/-!
Iteration over an index of the leveldb driver. The cursor starts at the first key
from the start key on, whichever index that key belongs to; backward it is wrong
for a start item that the index does not hold. `Last` with an empty prefix looks
at the last key of the whole database.
-/
namespace FavorX.Iteration.LevelDB
open ByteKeys Cursors
open Entry (key)

variable {ix : Index} {store : List Entry} {options : IterateOptions} {start : Bytes}

/-- When an iteration is right, by the contents of the database and the options. -/
def Iterable (ix : Index) (store : List Entry) (options : IterateOptions) (start : Bytes) : Prop :=
  match options.startFrom, options.reverse with
  | none, _ =>
    options.skipStartFromItem = true →
      ∀ e ∈ (members key (within (Spec.total ix options)) (Spec.ahead options start store)).head?, e.key ≠ start
  | some _, false => Clear key (within (Spec.total ix options)) (Spec.ahead options start store)
  | some _, true =>
    (Present start store ∧ Clear key (within (Spec.total ix options)) (Spec.ahead options start store)) ∨
    (¬Present start store ∧ (∀ e ∈ below key start store, e.key ∉ within (Spec.total ix options)) ∧
      ∀ e ∈ (onward key start store).head?, e.key ∉ within (Spec.total ix options))

theorem reads_next (left : List Entry) (here : Entry) (right : List Entry) :
    Reads (driver store) (next store) (true, .at ⟨left,here,right⟩) (here :: right) := by
  induction right generalizing left here with
  | nil => exact .entry rfl rfl rfl rfl (.done _)
  | cons e rest ih => exact .entry rfl rfl rfl rfl (ih (here :: left) e)

theorem reads_prev (left : List Entry) (here : Entry) (right : List Entry) :
    Reads (driver store) (prev store) (true, .at ⟨left,here,right⟩) (here :: left) := by
  induction left generalizing right here with
  | nil => exact .entry rfl rfl rfl rfl (.done _)
  | cons e rest ih => exact .entry rfl rfl rfl rfl (ih e (here :: right))

theorem reads_arrive_next {other : Position} {place : Option (Place Entry)} :
    Reads (driver store) (next store) (arrive other place) (toRight place) := by
  cases place with
  | none => exact .done _
  | some place => exact reads_next place.left place.here place.right

theorem reads_arrive_prev {other : Position} {place : Option (Place Entry)} :
    Reads (driver store) (prev store) (arrive other place) (toLeft place) := by
  cases place with
  | none => exact .done _
  | some place => exact reads_prev place.left place.here place.right

theorem search_eq_seek {key : Bytes} :
    ((driver store).valid ((driver store).search key), (driver store).search key) = seek store key := by
  simp only [driver,seek]
  cases Cursors.seek Entry.key key store <;> rfl

theorem seek_away {key : Bytes} {start : Bytes} (nonempty : start ≠ []) (missed : (seek store key).1 = false) :
    ((driver store).key (seek store key).2).1 ≠ start := by
  simp only [seek] at missed ⊢
  cases place : Cursors.seek Entry.key key store with
  | none => exact Ne.symm nonempty
  | some place => simp [place,arrive] at missed

section
variable (sorted : Sorted key store)
include sorted

theorem searched_iff (readable : Readable ix store) (starts : Driver.startKey ix options = .ok start)
    (direct : (options.reverse && options.startFrom.isNone) = false) :
    Spec.Iterates ix store options (driver store) ↔
      walked key (within (Spec.total ix options)) (passing key options.skipStartFromItem start
          (met options (Cursors.seek key start store))) =
        members key (within (Spec.total ix options)) (Spec.ahead options start store) := by
  have nonempty : start ≠ [] := by
    obtain ⟨k,rfl⟩ := start_key starts
    exact List.cons_ne_nil _ _
  exact iterates_search_iff readable starts (seek_whole sorted) (List.Sublist.refl store) (seek_away nonempty)
    direct search_eq_seek reads_arrive_next reads_arrive_prev

/-- The reverse seeker finds a place from which the items are met, or returns when there are none. -/
theorem seekLast_cases {p : Bytes} {it : Position} :
    (∃ err, (driver store).seekLast p it = .error err ∧ members key (within p) store = []) ∨
    ∃ place : Place Entry, (driver store).seekLast p it = .ok (true, .at place) ∧ place.whole = store ∧
      walked key (within p) (place.here :: place.left) = (members key (within p) store).reverse := by
  cases back : store.reverse with
  | nil =>
    left
    have empty : store = [] := List.reverse_eq_nil_iff.mp back
    subst empty
    exact ⟨none,rfl,rfl⟩
  | cons e rest =>
    have head : e ∈ store.reverse.head? := by rw [back]; rfl
    have ends : final store = some ⟨rest,e,[]⟩ := by simp only [final,back]
    simp only [Driver.seekLast,driver,last,ends,arrive,Bool.true_eq_false,if_false]
    by_cases inside : e.key ∈ within p
    · right
      refine ⟨⟨rest,e,[]⟩,if_pos inside,final_whole _ ends,?_⟩
      rw [← back]
      exact walked_back_from_last sorted back inside
    rw [if_neg (show ¬p <+: e.key from inside)]
    cases incremented : bytesIncrement p with
    | none =>
      exact .inl ⟨_,rfl,members_of_last sorted head ((lt_or_starts incremented e.key).resolve_right inside)⟩
    | some next =>
      have walks := walked_back_from_next sorted incremented
      cases hi : onward key next store with
      | nil =>
        have less : e.key < next := onward_eq_nil.mp hi e (List.mem_reverse.mp (List.mem_of_head? head))
        refine .inl ⟨none,?_,members_of_last sorted head (((lt_successor_iff incremented e.key).mp less).resolve_right inside)⟩
        simp only [seek,Cursors.seek,hi,arrive,if_true]
      | cons first later =>
        have found : Cursors.seek key next store = some ⟨(below key next store).reverse,first,later⟩ := by
          simp only [Cursors.seek,hi]
        simp only [seek,found,arrive,prev]
        cases lo : (below key next store).reverse with
        | nil =>
          rw [lo] at walks
          exact .inl ⟨none,rfl,List.reverse_eq_nil_iff.mp walks.symm⟩
        | cons b left =>
          rw [lo] at walks found
          exact .inr ⟨⟨left,b,first :: later⟩,rfl,(backward_whole _ rfl).trans (seek_whole sorted _ found),walks⟩

variable (readable : Readable ix store)
include readable

/-- Without a start item the items are met in the order of the iteration, and only the skipping of the prefix itself
can go wrong. -/
theorem unbounded_iff (free : options.startFrom = none) (starts : Driver.startKey ix options = .ok start) :
    Spec.Iterates ix store options (driver store) ↔ (options.skipStartFromItem = true →
      ∀ e ∈ (members key (within (Spec.total ix options)) (Spec.ahead options start store)).head?,
        e.key ≠ start) := by
  obtain rfl := start_total free starts
  cases way : options.reverse with
  | false =>
    have ahead : Spec.ahead options (Spec.total ix options) store = store := by simp only [Spec.ahead,free,way]
    rw [searched_iff sorted readable starts (by rw [way]; rfl),ahead,met,way,toRight_seek]
    exact walked_passing_iff (self_within _) (walked_from_start sorted _)
  | true =>
    have ahead : members key (within (Spec.total ix options)) (Spec.ahead options (Spec.total ix options) store) =
        (members key (within (Spec.total ix options)) store).reverse := by
      simp only [Spec.ahead,free,way]
      exact List.filter_reverse
    have at' : placed (driver store) options (Spec.total ix options) (Spec.total ix options) =
        (driver store).seekLast (Spec.total ix options) ((driver store).search (Spec.total ix options)) := by
      simp only [placed,way,free,Option.isNone_none,Bool.and_self,if_true]
    rcases seekLast_cases sorted with
      ⟨err,returned,empty⟩ | ⟨place,arrived,whole,walks⟩
    · rw [iterates_returned_iff readable starts (at'.trans returned),ahead,empty]
      exact iff_of_true rfl (by simp)
    have wholes : ∀ p ∈ some place, p.whole = store := fun p same => Option.some.inj same ▸ whole
    have reads : Reads (driver store) (direction (driver store) options) (true, .at place)
        (met options (some place)) := by
      rw [direction,met,way]
      exact reads_prev place.left place.here place.right
    rw [iterates_placed_iff readable starts wholes (List.Sublist.refl store) (fun missed => by simp at missed) (at'.trans arrived) reads,
      ahead,met,way]
    exact walked_passing_iff (self_within _) walks

theorem bounded_forward_iff {item : Shed.Item} (given : options.startFrom = some item)
    (forward : options.reverse = false) (starts : Driver.startKey ix options = .ok start) :
    Spec.Iterates ix store options (driver store) ↔
      Clear key (within (Spec.total ix options)) (Spec.ahead options start store) := by
  have ahead : Spec.ahead options start store = after key options.skipStartFromItem start store := by
    simp only [Spec.ahead,given,forward]
  have ordered : Sorted key (after key options.skipStartFromItem start store) := sorted.filter _
  rw [searched_iff sorted readable starts (by rw [forward]; rfl),ahead,met,forward,if_neg Bool.false_ne_true,toRight_seek,
    passing_onward sorted]
  exact walked_eq_members_iff (connected_within _) ordered

theorem bounded_backward_iff {item : Shed.Item} (given : options.startFrom = some item)
    (backward : options.reverse = true) (starts : Driver.startKey ix options = .ok start) :
    Spec.Iterates ix store options (driver store) ↔
      (Present start store ∧ Clear key (within (Spec.total ix options)) (Spec.ahead options start store)) ∨
      (¬Present start store ∧ (∀ e ∈ below key start store, e.key ∉ within (Spec.total ix options)) ∧
        ∀ e ∈ (onward key start store).head?, e.key ∉ within (Spec.total ix options)) := by
  have ahead : Spec.ahead options start store = (before key options.skipStartFromItem start store).reverse := by
    simp only [Spec.ahead,given,backward]
  rw [searched_iff sorted readable starts (by rw [given,Option.isNone_some,Bool.and_false]),ahead,met,backward,if_pos rfl]
  by_cases present : Present start store
  · obtain ⟨e,rest,found,same⟩ := onward_of_present sorted present
    simp only [present,true_and,not_true_eq_false,false_and,or_false,toLeft_seek,found]
    rw [passing_back sorted _ found same]
    have ordered : Sorted key (before key options.skipStartFromItem start store) := sorted.filter _
    exact walked_reverse_iff (connected_within _) ordered
  · simp only [present,false_and,not_false_eq_true,true_and,false_or]
    exact walked_absent_iff _ present

theorem iterates_iff_iterable (starts : Driver.startKey ix options = .ok start) :
    Spec.Iterates ix store options (driver store) ↔ Iterable ix store options start := by
  unfold Iterable
  cases given : options.startFrom with
  | none => exact unbounded_iff sorted readable given starts
  | some item =>
    cases way : options.reverse with
    | false => exact bounded_forward_iff sorted readable given way starts
    | true => exact bounded_backward_iff sorted readable given way starts

end

/-- When `Last` is right: no other key comes between the last one with the prefix and the place that is looked at. -/
def HasLast (ix : Index) (store : List Entry) (pfx : Bytes) : Prop :=
  members Entry.key (within (ix.keyPrefix ++ pfx)) store = [] ∨
    ∀ e ∈ beyond (ix.keyPrefix ++ pfx) store, ∃ next, incByteSlice pfx = some next ∧ ix.keyPrefix ++ next ≤ e.key

theorem looks_at_arrived {place : Option (Place Entry)} {p : Bytes} (nonempty : p ≠ []) :
    ((driver store).itemFromIterator ix (arrive .start place).2 p).1 = lookAt ix p (toLeft place).head? := by
  cases place with
  | none =>
    have outside : ¬p <+: ((driver store).key (arrive .start none).2).1 := by
      simp only [arrive,driver,List.prefix_nil]
      exact nonempty
    rw [itemFromIterator_outside outside]
    rfl
  | some place => exact looks_at (reads_prev place.left place.here place.right) p

theorem prev_seek (sorted : Sorted Entry.key store) {key : Bytes} :
    ∃ place, prev store (seek store key).2 = arrive .start place ∧ toLeft place = (below Entry.key key store).reverse := by
  cases hi : onward Entry.key key store with
  | nil =>
    refine ⟨final store,?_,?_⟩
    · simp only [seek,Cursors.seek,hi,arrive,prev,last]
    · rw [toLeft_final,below_of_onward sorted hi]
  | cons e rest =>
    refine ⟨Place.backward ⟨(below Entry.key key store).reverse,e,rest⟩,?_,toLeft_backward _⟩
    simp only [seek,Cursors.seek,hi,arrive,prev]

theorem findsLast_iff (sorted : Sorted key store) (readable : Readable ix store) (pfx : Bytes) :
    Spec.FindsLast ix store pfx (driver store) ↔ HasLast ix store pfx := by
  have nonempty : ix.keyPrefix ++ pfx ≠ [] := by simp [Index.keyPrefix]
  cases incremented : incByteSlice pfx with
  | none =>
    have looks : (driver store).lastItem ix pfx = lookAt ix (ix.keyPrefix ++ pfx) store.reverse.head? := by
      simp only [Driver.lastItem,incremented,← toLeft_final]
      exact looks_at_arrived nonempty
    rw [findsLast_iff_clear readable (fun _ => id) rfl looks,clear_reverse_iff sorted,HasLast]
    simp only [incremented,reduceCtorEq,false_and,exists_false,List.eq_nil_iff_forall_not_mem,imp_false]
  | some next =>
    have greatest := lt_next ix incremented
    obtain ⟨place,arrived,left⟩ := prev_seek sorted
    have looks : (driver store).lastItem ix pfx =
        lookAt ix (ix.keyPrefix ++ pfx) (below key (ix.keyPrefix ++ next) store).reverse.head? := by
      rw [← left,← looks_at_arrived nonempty,← arrived]
      simp only [Driver.lastItem,incremented]
      rfl
    have ordered : Sorted key (below key (ix.keyPrefix ++ next) store) := sorted.filter _
    rw [findsLast_iff_clear readable (fun _ member => (mem_below.mp member).1)
      (members_below greatest store) looks,clear_reverse_iff ordered,members_below greatest store,beyond_below,HasLast]
    simp only [incremented,Option.some.injEq,exists_eq_left']

end FavorX.Iteration.LevelDB
