import FavorX.Iteration

/-!
Iteration over an index of the wiredtiger driver. `search_near` may place the
cursor on either side of an absent key, and nothing corrects the place. Besides,
the mark that the start key was found makes the next backward move stand still.
-/
namespace FavorX.Iteration.WiredTiger
open ByteKeys Cursors
open Entry (key)

variable {low : Bytes → Bool} {ix : Index} {store : List Entry} {options : IterateOptions} {start : Bytes}

def own (ix : Index) (store : List Entry) : List Entry := store.filter (fun e => ix.keyPrefix <+: e.key)

variable {e last : Entry}

theorem mem_own : e ∈ own ix store ↔ e ∈ store ∧ ix.keyPrefix <+: e.key := by
  simp [own]

theorem sorted_own (sorted : Sorted key store) : Sorted key (own ix store) := sorted.filter _

/-- The key that is searched for in place of a start key; the empty key is replaced by a zero byte. -/
def sought (ix : Index) (start : Bytes) : Bytes := if start = ix.keyPrefix then ix.keyPrefix ++ [0] else start

/-- When an iteration is right, by the contents of the index and the options. -/
def Iterable (ix : Index) (store : List Entry) (options : IterateOptions) (start : Bytes) : Prop :=
  match options.startFrom, options.reverse with
  | none, false =>
    (options.skipStartFromItem = true → ∀ e ∈
      (members key (within (Spec.total ix options)) (own ix store)).head?, e.key ≠ start) ∧
    (Present start (own ix store) ∨ below key start (own ix store) = [] ∨
      members key (within (Spec.total ix options)) (own ix store) = [])
  | none, true =>
    ¬Present (sought ix start) (own ix store) ∧
    (members key (within (Spec.total ix options)) (own ix store) = [] ∨
      beyond (Spec.total ix options) (own ix store) = [] ∨
      ∃ next, bytesIncrement (Spec.total ix options) = some next ∧ Present next (own ix store))
  | some _, false =>
    ((Present start (own ix store) ∨ below key start (own ix store) = []) ∧
      Clear key (within (Spec.total ix options)) (Spec.ahead options start (own ix store))) ∨
    (¬Present start (own ix store) ∧ below key start (own ix store) ≠ [] ∧
      (∀ e ∈ onward key start (own ix store), e.key ∉ within (Spec.total ix options)) ∧
      ∀ e ∈ (below key start (own ix store)).getLast?, e.key ∉ within (Spec.total ix options))
  | some _, true =>
    ((Present start (own ix store) ∨ onward key start (own ix store) = []) ∧
      Clear key (within (Spec.total ix options)) (Spec.ahead options start (own ix store))) ∨
    (¬Present start (own ix store) ∧ onward key start (own ix store) ≠ [] ∧
      (∀ e ∈ below key start (own ix store), e.key ∉ within (Spec.total ix options)) ∧
      ∀ e ∈ (onward key start (own ix store)).head?, e.key ∉ within (Spec.total ix options))

/-! ### The table -/

theorem restore_strip (owned : ix.keyPrefix <+: e.key) : ix.keyPrefix ++ (strip e).key = e.key := by
  obtain ⟨rest,equal⟩ := owned
  simp only [strip]
  rw [← equal]
  rfl

theorem table_own : table store ix.keyPrefix = (own ix store).map strip := rfl

theorem near_table (choice : Bool) (key : Bytes) : near Entry.key choice key (table store ix.keyPrefix) =
    (near Entry.key choice (ix.keyPrefix ++ key) (own ix store)).map (fun found => (found.1.map strip, found.2)) := by
  apply near_map
  · intro e member
    rw [← restore_strip (mem_own.mp member).2,append_lt_iff]
  · intro e member
    rw [← restore_strip (mem_own.mp member).2,List.append_cancel_left_eq]

/-- A search cursor at a place among the entries of the index. -/
def cursorAt (ix : Index) (place : Place Entry) (found : Bool) : Cursor :=
  .search ⟨ix.keyPrefix,some (place.map strip),found,none⟩

theorem reads_next (left : List Entry) (here : Entry) (right : List Entry) (found : Bool)
    (owned : ∀ e ∈ here :: right, ix.keyPrefix <+: e.key) :
    Reads (driver low store) (next store) (true, cursorAt ix ⟨left,here,right⟩ found) (here :: right) := by
  induction right generalizing left here found with
  | nil => exact .entry (restore_strip (owned here List.mem_cons_self)) rfl rfl rfl (.done _)
  | cons e rest ih =>
    exact .entry (restore_strip (owned here List.mem_cons_self)) rfl rfl rfl
      (ih (here :: left) e false (fun e' member => owned e' (List.mem_cons_of_mem here member)))

theorem reads_prev (left : List Entry) (here : Entry) (right : List Entry) (found : Bool)
    (owned : ∀ e ∈ here :: left, ix.keyPrefix <+: e.key) :
    Reads (driver low store) (prev store) (true, cursorAt ix ⟨left,here,right⟩ found) (here :: left) := by
  induction left generalizing right here found with
  | nil => exact .entry (restore_strip (owned here List.mem_cons_self)) rfl rfl rfl (.done _)
  | cons e rest ih =>
    exact .entry (restore_strip (owned here List.mem_cons_self)) rfl rfl rfl
      (ih e (here :: right) false (fun e' member => owned e' (List.mem_cons_of_mem here member)))

/-- What lies ahead of the start key and has the prefix belongs to the index. -/
theorem ahead_own (options : IterateOptions) (start : Bytes) :
    members Entry.key (within (Spec.total ix options)) (Spec.ahead options start store) =
      members Entry.key (within (Spec.total ix options)) (Spec.ahead options start (own ix store)) := by
  have inside (e : Entry) : e.key ∈ within (Spec.total ix options) → ix.keyPrefix <+: e.key :=
    fun starts => (List.prefix_append _ _).trans starts
  have filtered (q : Entry → Bool) : members Entry.key (within (Spec.total ix options)) (store.filter q) =
      members Entry.key (within (Spec.total ix options)) ((own ix store).filter q) := by
    rw [own,List.filter_comm]
    exact (members_filter fun e _ starts => decide_eq_true (inside e starts)).symm
  have plain : members Entry.key (within (Spec.total ix options)) store =
      members Entry.key (within (Spec.total ix options)) (own ix store) := by
    simpa only [List.filter_true] using filtered (fun _ => true)
  unfold Spec.ahead
  split
  · exact plain
  · rw [members,List.filter_reverse,members,List.filter_reverse]
    exact congrArg List.reverse plain
  · exact filtered _
  · rw [members,List.filter_reverse,members,List.filter_reverse]
    exact congrArg List.reverse (filtered _)

/-! ### The first place of the cursor -/

/-- The choice of `search_near` for the key that is searched for in place of a start key. -/
def choice (low : Bytes → Bool) (ix : Index) (start : Bytes) : Bool := low ((sought ix start).drop 1)

theorem sought_append (k : Bytes) : ix.keyPrefix ++ (if k = [] then [0] else k) = sought ix (ix.keyPrefix ++ k) := by
  by_cases empty : k = []
  · simp [sought,empty]
  · have longer : ix.keyPrefix ++ k ≠ ix.keyPrefix := by simpa using empty
    simp [sought,empty,longer]

theorem search_own (k : Bytes) : search low store ix.keyPrefix k =
    (near key (choice low ix (ix.keyPrefix ++ k)) (sought ix (ix.keyPrefix ++ k)) (own ix store)).map
      (fun found => (found.1.map strip, found.2)) := by
  rw [search,near_table,choice,← sought_append]
  rfl

theorem search_start (low : Bytes → Bool) (ix : Index) (store : List Entry) (k : Bytes) : (driver low store).search (ix.keyPrefix ++ k) =
    match near key (choice low ix (ix.keyPrefix ++ k)) (sought ix (ix.keyPrefix ++ k)) (own ix store) with
    | some (place, order) => cursorAt ix place (order = .eq)
    | none => .invalid := by
  have first : (ix.keyPrefix ++ k).take 1 = ix.keyPrefix := rfl
  have rest : (ix.keyPrefix ++ k).drop 1 = k := rfl
  simp only [driver,first,rest,search_own]
  cases near key (choice low ix (ix.keyPrefix ++ k)) (sought ix (ix.keyPrefix ++ k)) (own ix store) with
  | none => rfl
  | some found => rfl

theorem below_zero (filled : ∀ e ∈ store, e.key ≠ ix.keyPrefix) (k : Bytes) (bound : k ≤ ix.keyPrefix ++ [0]) :
    below key k (own ix store) = [] := by
  rw [below,List.filter_eq_nil_iff]
  intro e member
  obtain ⟨held,rest,equal⟩ := mem_own.mp member
  cases rest with
  | nil => exact absurd (equal.symm.trans (List.append_nil _)) (filled e held)
  | cons b rest =>
    have least : ix.keyPrefix ++ [0] ≤ e.key := by
      rw [← equal,append_le_iff,← not_lt,cons_lt]
      rintro (less | ⟨_,less⟩)
      · exact absurd less (UInt8.not_lt_zero)
      · exact absurd less (List.not_lt_nil rest)
    simpa using bound.trans least

/-- The place is the one that a search for the start key itself would take. -/
theorem near_sought (sorted : Sorted Entry.key store) (filled : ∀ e ∈ store, e.key ≠ ix.keyPrefix) (low' : Bool)
    (k : Bytes) : (near Entry.key low' (sought ix (ix.keyPrefix ++ k)) (own ix store)).map Prod.fst =
      (near Entry.key low' (ix.keyPrefix ++ k) (own ix store)).map Prod.fst := by
  by_cases empty : k = []
  · subst empty
    have ordered : Sorted Entry.key (own ix store) := sorted.filter _
    have lower := below_zero filled (ix.keyPrefix ++ [0]) le_rfl
    have lower' := below_zero filled (ix.keyPrefix ++ []) (le_of_starts (List.prefix_append ix.keyPrefix [0]))
    have upper := below_append_onward (k := ix.keyPrefix ++ [0]) ordered
    have upper' := below_append_onward (k := ix.keyPrefix ++ []) ordered
    rw [lower,List.nil_append] at upper
    rw [lower',List.nil_append] at upper'
    simp only [sought,List.append_nil,if_true] at upper' lower' ⊢
    rw [near,near,lower,lower',upper,upper']
    cases own ix store <;> rfl
  · have longer : ix.keyPrefix ++ k ≠ ix.keyPrefix := by simpa using empty
    simp [sought,longer]

/-- Where a search for a key of the index ends. -/
def standing (low : Bytes → Bool) (ix : Index) (store : List Entry) (key : Bytes) : Option (Place Entry) :=
  (near Entry.key (choice low ix key) key (own ix store)).map Prod.fst

theorem standing_whole (low : Bytes → Bool) (ix : Index) (sorted : Sorted Entry.key store) (key : Bytes) :
    ∀ q ∈ standing low ix store key, q.whole = own ix store := near_whole (sorted.filter _)

theorem forall_standing (property : Option (Place Entry) → Prop) {key : Bytes} :
    (∀ low, property (standing low ix store key)) ↔
      ∀ low', property ((near Entry.key low' key (own ix store)).map Prod.fst) :=
  ⟨fun all low' => all (fun _ => low'),fun all _ => all _⟩

variable (low) in
theorem search_reads (sorted : Sorted key store) (filled : ∀ e ∈ store, e.key ≠ ix.keyPrefix)
    (starts : Driver.startKey ix options = .ok start) :
    ∃ c, ((driver low store).valid ((driver low store).search start), (driver low store).search start) = c ∧
      Reads (driver low store) (next store) c (toRight (standing low ix store start)) ∧
      Reads (driver low store) (prev store) c (toLeft (standing low ix store start)) ∧
      (c.1 = false → ((driver low store).key c.2).1 ≠ start) := by
  obtain ⟨k,rfl⟩ := start_key starts
  refine ⟨_,rfl,?_⟩
  have whole := standing_whole low ix sorted (ix.keyPrefix ++ k)
  rw [standing,← near_sought sorted filled] at whole ⊢
  rw [search_start]
  generalize near key (choice low ix (ix.keyPrefix ++ k)) (sought ix (ix.keyPrefix ++ k)) (own ix store) = found
    at whole ⊢
  cases found with
  | none => exact ⟨.done _,.done _,fun _ => by simp [driver,Index.keyPrefix]⟩
  | some at' =>
    refine ⟨reads_next at'.1.left at'.1.here at'.1.right _ ?_,reads_prev at'.1.left at'.1.here at'.1.right _ ?_,?_⟩
    · exact fun e member => (mem_own.mp ((subperm_toRight whole).subset member)).2
    · exact fun e member => (mem_own.mp ((subperm_toLeft whole).subset member)).2
    · intro invalid
      exact Bool.noConfusion (show true = false from invalid)

theorem searched_iff (sorted : Sorted key store) (filled : ∀ e ∈ store, e.key ≠ ix.keyPrefix)
    (readable : Readable ix store) (starts : Driver.startKey ix options = .ok start)
    (direct : (options.reverse && options.startFrom.isNone) = false) :
    (∀ low, Spec.Iterates ix store options (driver low store)) ↔ ∀ low',
      walked key (within (Spec.total ix options)) (passing key options.skipStartFromItem start
          (met options ((near key low' start (own ix store)).map Prod.fst))) =
        members key (within (Spec.total ix options)) (Spec.ahead options start (own ix store)) := by
  rw [← forall_standing (fun place => walked key _ (passing key _ _ (met options place)) = _),← ahead_own]
  refine forall_congr' (fun low => ?_)
  obtain ⟨c,searched,forth,back,away⟩ := search_reads low sorted filled starts
  exact iterates_search_iff readable starts (standing_whole low ix sorted start) List.filter_sublist away direct searched
    forth back

/-! ### All choices of the store -/

section
variable {es : List Entry} {p k : Bytes} {skip : Bool}

/-- Forward from the entry before an absent key, that entry and all others must be none of those to be met. -/
theorem walked_prior_iff (skip : Bool) (inhabited : below Entry.key k es ≠ []) :
    walked Entry.key (within p) (passing Entry.key skip k (toRight (prior Entry.key k es))) =
        members Entry.key (within p) (onward Entry.key k es) ↔
      (∀ e ∈ onward Entry.key k es, e.key ∉ within p) ∧ ∀ e ∈ (below Entry.key k es).getLast?, e.key ∉ within p := by
  rw [← List.head?_reverse]
  cases lo : (below Entry.key k es).reverse with
  | nil => exact absurd (List.reverse_eq_nil_iff.mp lo) inhabited
  | cons b left =>
    have lower : b ∈ below Entry.key k es := List.mem_reverse.mp (lo ▸ List.mem_cons_self)
    have less := (mem_below.mp lower).2
    have kept : passing Entry.key skip k (b :: onward Entry.key k es) = b :: onward Entry.key k es := by
      apply passing_of_ne
      intro e head
      rw [List.head?_cons,Option.mem_some_iff] at head
      exact head ▸ less.ne
    simp only [prior,lo,toRight,kept,List.head?_cons,Option.mem_some_iff,forall_eq']
    by_cases inside : b.key ∈ within p
    · apply iff_of_false _ (fun both => both.2 inside)
      intro equal
      rw [walked_cons_inside inside] at equal
      have member := (mem_members.mp (equal ▸ List.mem_cons_self)).1
      exact absurd (mem_onward.mp member).2 (not_le.mpr less)
    · rw [walked_cons_outside inside,eq_comm,members_eq_nil]
      simp [inside]

theorem not_present_iff : ¬Present k es ↔ ∀ e ∈ es, e.key ≠ k := by
  simp [Present,not_exists,not_and]

variable (sorted : Sorted key es)
include sorted

theorem bounded_forward_all :
    (∀ low', walked key (within p) (passing key skip k (toRight ((near key low' k es).map Prod.fst))) =
        members key (within p) (after key skip k es)) ↔
      ((Present k es ∨ below key k es = []) ∧ Clear key (within p) (after key skip k es)) ∨
      (¬Present k es ∧ below key k es ≠ [] ∧ (∀ e ∈ onward key k es, e.key ∉ within p) ∧
        ∀ e ∈ (below key k es).getLast?, e.key ∉ within p) := by
  have ordered : Sorted key (after key skip k es) := sorted.filter _
  have empty : es = [] → walked key (within p) (passing key skip k (toRight none)) =
      members key (within p) (after key skip k es) := by
    rintro rfl
    rfl
  rw [forall_near sorted (fun place => walked key (within p) (passing key skip k (toRight place)) = _),
    and_iff_right empty,toRight_seek,passing_onward sorted,walked_eq_members_iff (connected_within p) ordered]
  by_cases simple : Present k es ∨ below key k es = []
  · rw [and_iff_left (fun some' absent => (simple.elim (not_present_iff.mpr absent) some').elim)]
    constructor
    · refine fun clear => .inl ⟨simple,?_⟩
      by_cases none : onward key k es = []
      · rw [← passing_onward sorted,none]
        exact fun _ head => absurd head (Option.not_mem_none _)
      · exact clear none
    · rintro (⟨-,clear⟩ | ⟨absent,some',-⟩) _
      · exact clear
      · exact (simple.elim absent some').elim
  obtain ⟨missing,lower⟩ := not_or.mp simple
  have absent := not_present_iff.mp missing
  rw [after_of_absent absent,walked_prior_iff skip lower]
  constructor
  · exact fun both => .inr ⟨missing,lower,both.2 lower absent⟩
  · rintro (⟨simple',-⟩ | ⟨-,-,outside⟩)
    · exact absurd simple' simple
    · exact ⟨fun _ _ _ _ => outside.1,fun _ _ => outside⟩

theorem unbounded_forward_all :
    (∀ low', walked key (within p) (passing key skip p (toRight ((near key low' p es).map Prod.fst))) =
        members key (within p) es) ↔
      (skip = true → ∀ e ∈ (members key (within p) es).head?, e.key ≠ p) ∧
      (Present p es ∨ below key p es = [] ∨ members key (within p) es = []) := by
  have from' : members key (within p) (onward key p es) = _ := members_onward least_within es
  have empty : es = [] → walked key (within p) (passing key skip p (toRight none)) =
      members key (within p) es := by
    rintro rfl
    rfl
  rw [forall_near sorted (fun place => walked key (within p) (passing key skip p (toRight place)) = _),
    and_iff_right empty,toRight_seek,walked_passing_iff (self_within p) (walked_from_start sorted p)]
  by_cases simple : Present p es ∨ below key p es = []
  · rw [and_iff_left (fun some' absent => (simple.elim (not_present_iff.mpr absent) some').elim)]
    refine ⟨fun kept => ⟨?_,simple.imp_right .inl⟩,fun both _ => both.1⟩
    by_cases none : onward key p es = []
    · rw [← from',none]
      exact fun _ _ head => absurd head (Option.not_mem_none _)
    · exact kept none
  obtain ⟨missing,lower⟩ := not_or.mp simple
  have last : ∀ e ∈ (below key p es).getLast?, e.key ∉ within p := fun e head inside =>
    absurd (least_within _ inside) (not_le.mpr (mem_below.mp (List.mem_of_getLast? head)).2)
  have walks := walked_prior_iff (p := p) skip lower
  rw [← members_eq_nil,from',and_iff_left last] at walks
  rw [walks]
  constructor
  · intro both
    have none := both.2 lower (not_present_iff.mp missing)
    exact ⟨by simp [none],.inr (.inr none)⟩
  · rintro ⟨kept,fine⟩
    exact ⟨fun _ => kept,fun _ _ => (fine.resolve_left missing).resolve_left lower⟩

theorem bounded_backward_all :
    (∀ low', walked key (within p) (passing key skip k (toLeft ((near key low' k es).map Prod.fst))) =
        members key (within p) (before key skip k es).reverse) ↔
      ((Present k es ∨ onward key k es = []) ∧ Clear key (within p) (before key skip k es).reverse) ∨
      (¬Present k es ∧ onward key k es ≠ [] ∧ (∀ e ∈ below key k es, e.key ∉ within p) ∧
        ∀ e ∈ (onward key k es).head?, e.key ∉ within p) := by
  have ordered : Sorted key (before key skip k es) := sorted.filter _
  have walks := walked_reverse_iff (connected_within p) ordered
  have empty : es = [] → walked key (within p) (passing key skip k (toLeft none)) =
      members key (within p) (before key skip k es).reverse := by
    rintro rfl
    rfl
  rw [forall_near sorted (fun place => walked key (within p) (passing key skip k (toLeft place)) = _),
    and_iff_right empty]
  by_cases present : Present k es
  · obtain ⟨e,rest,hi,same⟩ := onward_of_present sorted present
    rw [and_iff_left (fun _ absent => (not_present_iff.mpr absent present).elim),toLeft_seek,hi]
    rw [passing_back sorted skip hi same,walks]
    constructor
    · exact fun clear => .inl ⟨.inl present,clear (List.cons_ne_nil e rest)⟩
    · rintro (⟨-,clear⟩ | ⟨absent,-⟩) _
      · exact clear
      · exact absurd present absent
  have absent := not_present_iff.mp present
  have kept : passing key skip k (below key k es).reverse = (below key k es).reverse := by
    apply passing_of_ne
    intro e head
    exact (mem_below.mp (List.mem_reverse.mp (List.mem_of_head? head))).2.ne
  have back : toLeft (prior key k es) = (below key k es).reverse := by
    cases lo : (below key k es).reverse <;> simp only [prior,lo,toLeft]
  rw [before_of_absent absent] at walks
  rw [walked_absent_iff skip present,before_of_absent absent,back,kept,walks]
  by_cases upper : onward key k es = []
  · constructor
    · refine fun both => .inl ⟨.inr upper,?_⟩
      by_cases none : below key k es = []
      · rw [none]
        exact fun _ head => absurd head (Option.not_mem_none _)
      · exact both.2 none absent
    · rintro (⟨-,clear⟩ | ⟨-,some',-⟩)
      · exact ⟨fun some' => absurd upper some',fun _ _ => clear⟩
      · exact absurd upper some'
  constructor
  · exact fun both => .inr ⟨present,upper,both.1 upper⟩
  · rintro (⟨simple,-⟩ | ⟨-,-,outside⟩)
    · exact absurd simple (not_or.mpr ⟨present,upper⟩)
    · exact ⟨fun _ => outside,fun _ _ _ _ _ e member => outside.1 e (List.mem_reverse.mp member)⟩

end

/-! ### Backward without a start item -/

def Failed : Cursor → Prop
  | .invalid => False
  | .search c => ∃ err, c.err = some err

variable {it : Cursor}

theorem failed_key (failed : Failed it) : Failed ((driver low store).key it).2 := by
  cases it with
  | invalid => exact failed
  | search c =>
    cases place : c.place <;> simp only [driver,place]
    · exact ⟨_,rfl⟩
    · exact failed

theorem failed_value (failed : Failed it) : Failed ((driver low store).value it).2 := by
  cases it with
  | invalid => exact failed
  | search c =>
    cases place : c.place <;> simp only [driver,place]
    · exact ⟨_,rfl⟩
    · exact failed

theorem failed_moved {c : SearchCursor} (failed : ∃ err, c.err = some err) {place : Option (Place Entry)} :
    Failed (moved c place).2 := by
  cases place <;> exact failed

theorem failed_prev (failed : Failed it) : Failed (prev store it).2 := by
  cases it with
  | invalid => exact failed
  | search c =>
    simp only [prev,prevSearch]
    split
    · exact failed
    · split
      · exact failed_moved failed
      · exact failed_moved failed

theorem failed_seek (failed : Failed it) {key : Bytes} : Failed (seek low store key it).2 := by
  cases it with
  | invalid => exact failed
  | search c =>
    simp only [seek]
    split
    · split
      · exact failed
      · exact ⟨_,rfl⟩
    · split
      · exact failed
      · exact ⟨_,rfl⟩

theorem visits_failed {c : Bool × Cursor} (backward : options.reverse = true)
    (starts : Driver.startKey ix options = .ok start)
    (at' : placed (driver low store) options (Spec.total ix options) start = .ok c) (failed : Failed c.2) :
    Visits (driver low store) ix store options [] := by
  have way : direction (driver low store) options = prev store := by
    rw [direction,backward]
    rfl
  refine visits_silent (fun _ => failed_key) (fun _ => failed_value) ?_ ?_ starts at' failed
  · intro it fails
    rw [way]
    exact failed_prev fails
  intro it fails
  cases it with
  | invalid => exact absurd fails not_false
  | search c => exact fails

/-- If the start key was found, the reset cursor is taken to stand at the last key. -/
theorem seekLast_found (low : Bytes → Bool) (ix : Index) {store : List Entry} {place : Place Entry} (p : Bytes) :
    (∃ err, (driver low store).seekLast p (cursorAt ix place true) = .error err) ∨
    ∃ c, (driver low store).seekLast p (cursorAt ix place true) = .ok c ∧ Failed c.2 := by
  have reset : (driver low store).last (cursorAt ix place true) = (true, .search ⟨ix.keyPrefix,none,false,none⟩) := rfl
  have failed : Failed (.search ⟨ix.keyPrefix,none,false,some .cursorKey⟩) := ⟨_,rfl⟩
  simp only [Driver.seekLast,reset,Bool.true_eq_false,if_false]
  split
  · exact .inr ⟨_,rfl,failed⟩
  cases bytesIncrement p with
  | none => exact .inl ⟨_,rfl⟩
  | some next =>
    simp only
    split
    · exact .inl ⟨_,rfl⟩
    · split
      · exact .inl ⟨_,rfl⟩
      · exact .inr ⟨_,rfl,failed_prev (failed_seek failed)⟩

def leftOf : Option (Place Entry) → List Entry
  | none => []
  | some place => place.left

/-- What is read backward from where `Iterate` looks for the last key with a prefix. -/
def readBack (low : Bytes → Bool) (ix : Index) (store : List Entry) (p : Bytes) : List Entry :=
  match (own ix store).reverse with
  | [] => []
  | last :: rest =>
    if last.key ∈ within p then last :: rest
    else match bytesIncrement p with
      | none => []
      | some next => if next.take 1 = ix.keyPrefix then leftOf (standing low ix store next) else []

theorem last_cursorAt (place : Place Entry) {rest : List Entry} (ends : (own ix store).reverse = last :: rest) :
    (driver low store).last (cursorAt ix place false) = (true, cursorAt ix ⟨rest,last,[]⟩ false) := by
  have final' : final (table store ix.keyPrefix) = some (Place.map strip ⟨rest,last,[]⟩) := by
    rw [table_own,final_map]
    simp [final,ends]
  have unfolded : (driver low store).last (cursorAt ix place false) =
      moved ⟨ix.keyPrefix,none,false,none⟩ (final (table store ix.keyPrefix)) := rfl
  rw [unfolded,final']
  rfl

theorem prev_cursorAt (low : Bytes → Bool) (ix : Index) (store : List Entry) (place : Place Entry) : (driver low store).prev (cursorAt ix place false) =
    match place.backward with
    | some q => (true, cursorAt ix q false)
    | none => (false, .search ⟨ix.keyPrefix,none,false,none⟩) := by
  have unfolded : (driver low store).prev (cursorAt ix place false) =
      moved ⟨ix.keyPrefix,some (place.map strip),false,none⟩ (place.map strip).backward := rfl
  rw [unfolded,backward_map]
  cases place.backward <;> rfl

theorem seek_cursorAt (low : Bytes → Bool) (sorted : Sorted key store)
    (filled : ∀ e ∈ store, e.key ≠ ix.keyPrefix) (place : Place Entry) (found : Bool) (k : Bytes) :
    (driver low store).seek (ix.keyPrefix ++ k) (cursorAt ix place found) =
      match standing low ix store (ix.keyPrefix ++ k) with
      | some q => (true, cursorAt ix q found)
      | none => (false, .search ⟨ix.keyPrefix,some (place.map strip),found,some .cursorSeek⟩) := by
  have unfolded : (driver low store).seek (ix.keyPrefix ++ k) (cursorAt ix place found) =
      match search low store ix.keyPrefix k with
      | some (q, _) => (true, .search ⟨ix.keyPrefix,some q,found,none⟩)
      | none => (false, .search ⟨ix.keyPrefix,some (place.map strip),found,some .cursorSeek⟩) :=
    if_pos (show (ix.keyPrefix ++ k).take 1 = ix.keyPrefix from rfl)
  rw [unfolded,search_own,standing,← near_sought sorted filled]
  cases near key (choice low ix (ix.keyPrefix ++ k)) (sought ix (ix.keyPrefix ++ k)) (own ix store) <;> rfl

theorem seek_other (low : Bytes → Bool) {store : List Entry} {next : Bytes} (other : next.take 1 ≠ ix.keyPrefix) {place : Place Entry} :
    ((driver low store).seek next (cursorAt ix place false)).1 = false := by
  simp only [driver,seek,cursorAt,if_neg other]
  split <;> rfl

theorem seekLast_open (sorted : Sorted key store) (filled : ∀ e ∈ store, e.key ≠ ix.keyPrefix)
    {place : Place Entry} (p : Bytes) {rest : List Entry} (ends : (own ix store).reverse = last :: rest) :
    (∃ q, (driver low store).seekLast p (cursorAt ix place false) = .ok (true, cursorAt ix q false) ∧
      q.whole = own ix store ∧ toLeft (some q) = readBack low ix store p) ∨
    (∃ err, (driver low store).seekLast p (cursorAt ix place false) = .error err) ∧ readBack low ix store p = [] := by
  have owned : ix.keyPrefix <+: last.key :=
    (mem_own.mp (List.mem_reverse.mp (ends ▸ List.mem_cons_self : last ∈ (own ix store).reverse))).2
  have read : (driver low store).key (cursorAt ix ⟨rest,last,[]⟩ false) = (last.key, cursorAt ix ⟨rest,last,[]⟩ false) := by
    rw [← restore_strip owned]
    rfl
  simp only [Driver.seekLast,last_cursorAt place ends,read,Bool.true_eq_false,if_false,readBack,ends]
  by_cases inside : last.key ∈ within p
  · left
    refine ⟨_,if_pos inside,final_whole _ ?_,(if_pos inside).symm⟩
    simp only [final,ends]
    rfl
  rw [if_neg inside,if_neg (show ¬p <+: last.key from inside)]
  cases bytesIncrement p with
  | none => exact .inr ⟨⟨_,rfl⟩,rfl⟩
  | some next =>
    dsimp only
    by_cases same : next.take 1 = ix.keyPrefix
    · have split : next = ix.keyPrefix ++ next.drop 1 := by rw [← same,List.take_append_drop]
      have sought' := seek_cursorAt low sorted filled ⟨rest,last,[]⟩ false (next.drop 1)
      rw [← split] at sought'
      rw [if_pos same,sought']
      cases found : standing low ix store next with
      | none => exact .inr ⟨⟨_,rfl⟩,rfl⟩
      | some q =>
        have moves := prev_cursorAt low ix store q
        have left' := toLeft_backward q
        simp only [moves,Bool.true_eq_false,if_false]
        cases back : q.backward with
        | none => exact .inr ⟨⟨_,rfl⟩,by rw [back] at left'; exact left'.symm⟩
        | some q' =>
          rw [back] at left'
          exact .inl ⟨q',rfl,(backward_whole q' back).trans (standing_whole low ix sorted next q found),left'⟩
    · rw [if_neg same,if_pos (seek_other low same)]
      exact .inr ⟨⟨_,rfl⟩,rfl⟩

/-- The walk back from the place before the next prefix, for every choice of the store. -/
theorem walked_left_all {es : List Entry} {p next : Bytes} (sorted : Sorted key es)
    (incremented : bytesIncrement p = some next) :
    (∀ low', walked key (within p) (leftOf ((near key low' next es).map Prod.fst)) =
        (members key (within p) es).reverse) ↔
      members key (within p) es = [] ∨ Present next es := by
  have back := walked_back_from_next sorted incremented
  rw [forall_near sorted (fun place => walked key (within p) (leftOf place) = _)]
  have empty : es = [] → walked key (within p) (leftOf none) = (members key (within p) es).reverse := by
    rintro rfl
    rfl
  have seeks : onward key next es ≠ [] →
      walked key (within p) (leftOf (Cursors.seek key next es)) = (members key (within p) es).reverse := by
    intro some'
    cases hi : onward key next es with
    | nil => exact absurd hi some'
    | cons e rest =>
      simp only [Cursors.seek,hi,leftOf]
      exact back
  by_cases present : Present next es
  · have found : ¬∀ e ∈ es, e.key ≠ next := fun absent => not_present_iff.mpr absent present
    tauto
  have absent := not_present_iff.mp present
  cases lo : (below key next es).reverse with
  | nil =>
    have lower := List.reverse_eq_nil_iff.mp lo
    rw [lo] at back
    have none := List.reverse_eq_nil_iff.mp back.symm
    tauto
  | cons b left =>
    have lower : below key next es ≠ [] := fun none => by simp [none] at lo
    have met : walked key (within p) (leftOf (prior key next es)) = (members key (within p) es).reverse ↔
        members key (within p) es = [] := by
      simp only [prior,lo,leftOf]
      rw [lo] at back
      rw [← List.reverse_eq_nil_iff,← back]
      by_cases inside : b.key ∈ within p
      · rw [walked_cons_inside inside]
        apply iff_of_false _ (by simp)
        intro equal
        have lengths := congrArg List.length equal
        rw [List.length_cons] at lengths
        omega
      rw [walked_cons_outside inside] at back ⊢
      have none := members_eq_nil.mp (List.reverse_eq_nil_iff.mp back.symm)
      apply iff_of_true _ rfl
      rw [walked_eq_nil]
      intro first head
      have member : first ∈ (below key next es).reverse := lo ▸ List.mem_cons_of_mem b (List.mem_of_head? head)
      exact none first (mem_below.mp (List.mem_reverse.mp member)).1
    tauto

theorem sought_within {p : Bytes} : sought ix p ∈ within p := by
  by_cases plain : p = ix.keyPrefix
  · rw [sought,if_pos plain,plain]
    exact List.prefix_append _ _
  · rw [sought,if_neg plain]
    exact self_within p

section
variable {p : Bytes} (sorted : Sorted key store) (filled : ∀ e ∈ store, e.key ≠ ix.keyPrefix)
  (readable : Readable ix store) (free : options.startFrom = none) (backward : options.reverse = true)
  (total : Spec.total ix options = p) (starts : Driver.startKey ix options = .ok p)

include free backward total

theorem ahead_back (start : Bytes) : members key (within p) (Spec.ahead options start store) =
    (members key (within p) (own ix store)).reverse := by
  rw [← total,ahead_own]
  simp only [Spec.ahead,free,backward]
  exact List.filter_reverse

variable (low ix store) in
theorem placed_back : placed (driver low store) options p p = (driver low store).seekLast p
    (match near key (choice low ix p) (sought ix p) (own ix store) with
      | some (place, order) => cursorAt ix place (order = .eq)
      | none => .invalid) := by
  subst total
  simp only [placed,backward,free,Option.isNone_none,Bool.and_self,if_true]
  exact congrArg _ (search_start low ix store options.keyPrefix)

include readable starts in
theorem iterates_back_returned {err : Option Err} (returned : placed (driver low store) options p p = .error err) :
    Spec.Iterates ix store options (driver low store) ↔ (members key (within p) (own ix store)).reverse = [] := by
  subst total
  rw [iterates_returned_iff readable starts returned,ahead_back free backward rfl]

include sorted readable starts in
theorem not_iterates_found (present : Present (sought ix p) (own ix store)) :
    ¬Spec.Iterates ix store options (driver low store) := by
  have some' : (members key (within p) (own ix store)).reverse ≠ [] := by
    obtain ⟨e,held,same⟩ := present
    intro empty
    exact members_eq_nil.mp (List.reverse_eq_nil_iff.mp empty) e held (same ▸ sought_within)
  obtain ⟨e,rest,-,-,found⟩ := near_present (sorted_own sorted) present (choice low ix p)
  have at' := placed_back low ix store free backward total
  rw [found] at at'
  rcases seekLast_found low ix p with ⟨err,returned⟩ | ⟨c,arrived,failed⟩
  · rw [iterates_back_returned readable free backward total starts (at'.trans returned)]
    exact some'
  rw [iterates_iff readable (fun e member => absurd member List.not_mem_nil)
    (visits_failed backward starts (by rw [total]; exact at'.trans arrived) failed),selected_of_start starts,total,
    ahead_back free backward total]
  exact Ne.symm some'

include sorted filled readable starts in
/-- If the table does not hold the prefix itself, nothing is skipped and what is read back is visited. -/
theorem iterates_open (missing : ¬Present (sought ix p) (own ix store)) :
    Spec.Iterates ix store options (driver low store) ↔
      walked key (within p) (readBack low ix store p) = (members key (within p) (own ix store)).reverse := by
  have absent : ∀ e ∈ own ix store, e.key ≠ p := by
    intro e member same
    by_cases plain : p = ix.keyPrefix
    · exact filled e (mem_own.mp member).1 (same.trans plain)
    · exact missing ⟨e,member,by rw [sought,if_neg plain]; exact same⟩
  have at' := placed_back low ix store free backward total
  have returns {err : Option Err} (empty : readBack low ix store p = [])
      (returned : placed (driver low store) options p p = .error err) : Spec.Iterates ix store options (driver low store) ↔
        walked key (within p) (readBack low ix store p) = (members key (within p) (own ix store)).reverse := by
    rw [iterates_back_returned readable free backward total starts returned,empty,eq_comm]
    rfl
  cases ends : (own ix store).reverse with
  | nil =>
    rw [List.reverse_eq_nil_iff.mp ends] at at'
    exact returns (by simp only [readBack,ends]) at'
  | cons last rest =>
    obtain ⟨place,found⟩ : ∃ place, placed (driver low store) options p p =
        (driver low store).seekLast p (cursorAt ix place false) := by
      rw [at']
      cases found : near key (choice low ix p) (sought ix p) (own ix store) with
      | none => exact absurd found (near_ne_none (sorted.filter _) (fun none : own ix store = [] => by simp [none] at ends))
      | some near' =>
        obtain ⟨place,order⟩ := near'
        have other : order ≠ .eq := fun equal => missing (near_eq (equal ▸ found))
        exact ⟨place,by simp only [other,decide_false]⟩
    rcases seekLast_open sorted filled p ends with ⟨q,arrived,whole,left'⟩ | ⟨⟨err,returned⟩,empty⟩
    · have wholes : ∀ q' ∈ some q, q'.whole = own ix store := fun q' equal => Option.some.inj equal ▸ whole
      have reads : Reads (driver low store) (direction (driver low store) options) (true, cursorAt ix q false)
          (met options (some q)) := by
        rw [direction,met,backward,if_pos rfl,if_pos rfl]
        exact reads_prev q.left q.here q.right false (fun e member => (mem_own.mp ((subperm_toLeft wholes).subset member)).2)
      rw [iterates_placed_iff readable starts wholes List.filter_sublist (fun missed => by simp at missed)
        (by rw [total]; exact found.trans arrived) reads,total,ahead_back free backward total,met,backward,if_pos rfl,passing_of_ne,left']
      intro e head
      exact absent e ((subperm_toLeft wholes).subset (List.mem_of_head? head))
    · exact returns empty (found.trans returned)

end

section
variable {p : Bytes} (starts : ix.keyPrefix <+: p) (ordered : Sorted key (own ix store))
include starts ordered

/-- Without keys before the next prefix in the table, the last key is before the prefix or has it. -/
theorem members_of_other (head : last ∈ (own ix store).reverse.head?) (outside : last.key ∉ within p)
    (other : ∀ k, bytesIncrement p ≠ some (ix.keyPrefix ++ k)) : members Entry.key (within p) (own ix store) = [] := by
  apply members_of_last ordered head
  obtain ⟨pfx,rfl⟩ := starts
  obtain ⟨-,x,equal⟩ := mem_own.mp (List.mem_reverse.mp (List.mem_of_head? head))
  have none : successor pfx = none := by
    cases next : successor pfx with
    | none => rfl
    | some r =>
      refine absurd ?_ (other r)
      simp [bytesIncrement,Index.keyPrefix,successor,next]
  rw [← equal,append_lt_iff]
  rcases lt_or_starts none x with less | starts
  · exact less
  · exact absurd (equal ▸ (List.prefix_append_right_inj ix.keyPrefix).mpr starts) outside

theorem readBack_all :
    (∀ low, walked key (within p) (readBack low ix store p) =
        (members key (within p) (own ix store)).reverse) ↔
      members key (within p) (own ix store) = [] ∨ beyond p (own ix store) = [] ∨
        ∃ next, bytesIncrement p = some next ∧ Present next (own ix store) := by
  cases ends : (own ix store).reverse with
  | nil => simp [readBack,List.reverse_eq_nil_iff.mp ends,walked,members]
  | cons last rest =>
    have head : last ∈ (own ix store).reverse.head? := by rw [ends]; rfl
    by_cases inside : last.key ∈ within p
    · apply iff_of_true
      · intro low
        simp only [readBack,ends,if_pos inside]
        rw [← ends]
        exact walked_back_from_last ordered ends inside
      · exact ((clear_reverse_iff ordered).mp (ends ▸ clear_cons inside)).imp_right .inl
    have nothing : beyond p (own ix store) = [] → members key (within p) (own ix store) = [] := fun none =>
      members_eq_nil.mpr (fun e member =>
        (clear_reverse_iff ordered).mpr (.inr none) last head inside e (List.mem_reverse.mpr member))
    simp only [readBack,ends,if_neg inside]
    by_cases table : ∃ k, bytesIncrement p = some (ix.keyPrefix ++ k)
    · obtain ⟨k,next⟩ := table
      have own' : (ix.keyPrefix ++ k).take 1 = ix.keyPrefix := rfl
      simp only [next,own',if_true,Option.some.injEq,exists_eq_left']
      rw [forall_standing (fun place => walked key (within p) (leftOf place) = _),walked_left_all ordered next]
      exact ⟨fun fine => fine.imp_right .inr,fun fine => fine.elim .inl fun rest => rest.imp_left nothing⟩
    have other : ∀ k, bytesIncrement p ≠ some (ix.keyPrefix ++ k) := fun k equal => table ⟨k,equal⟩
    have empty := members_of_other starts ordered head inside other
    apply iff_of_true _ (.inl empty)
    intro low
    rw [empty]
    cases next : bytesIncrement p with
    | none => rfl
    | some n =>
      have elsewhere : n.take 1 ≠ ix.keyPrefix := fun same =>
        other (n.drop 1) (by rw [next,← same,List.take_append_drop])
      simp only [if_neg elsewhere]
      rfl

end

theorem unbounded_backward_iff (sorted : Sorted key store) (filled : ∀ e ∈ store, e.key ≠ ix.keyPrefix)
    (readable : Readable ix store) (free : options.startFrom = none) (backward : options.reverse = true)
    (starts : Driver.startKey ix options = .ok start) : (∀ low, Spec.Iterates ix store options (driver low store)) ↔
      ¬Present (sought ix start) (own ix store) ∧
      (members key (within (Spec.total ix options)) (own ix store) = [] ∨
        beyond (Spec.total ix options) (own ix store) = [] ∨
        ∃ next, bytesIncrement (Spec.total ix options) = some next ∧ Present next (own ix store)) := by
  obtain rfl := start_total free starts
  by_cases present : Present (sought ix (Spec.total ix options)) (own ix store)
  · apply iff_of_false
    · intro all
      exact not_iterates_found sorted readable free backward rfl starts present (all (fun _ => false))
    · exact fun both => both.1 present
  · simp only [present,not_false_eq_true,true_and]
    rw [← readBack_all (show ix.keyPrefix <+: Spec.total ix options from List.prefix_append _ _) (sorted.filter _)]
    exact forall_congr' (fun _ => iterates_open sorted filled readable free backward rfl starts present)

theorem iterates_iff_iterable (sorted : Sorted key store) (filled : ∀ e ∈ store, e.key ≠ ix.keyPrefix)
    (readable : Readable ix store) (starts : Driver.startKey ix options = .ok start) :
    (∀ low, Spec.Iterates ix store options (driver low store)) ↔ Iterable ix store options start := by
  unfold Iterable
  cases given : options.startFrom with
  | none =>
    cases way : options.reverse with
    | false =>
      obtain rfl := start_total given starts
      have ahead : Spec.ahead options (Spec.total ix options) (own ix store) = own ix store := by
        simp only [Spec.ahead,given,way]
      rw [searched_iff sorted filled readable starts (by rw [way]; rfl),ahead]
      simp only [met,way,Bool.false_eq_true,if_false]
      exact unbounded_forward_all (sorted.filter _)
    | true => exact unbounded_backward_iff sorted filled readable given way starts
  | some item =>
    cases way : options.reverse with
    | false =>
      have ahead : Spec.ahead options start (own ix store) =
          after key options.skipStartFromItem start (own ix store) := by simp only [Spec.ahead,given,way]
      rw [searched_iff sorted filled readable starts (by rw [way]; rfl),ahead]
      simp only [met,way,Bool.false_eq_true,if_false]
      exact bounded_forward_all (sorted.filter _)
    | true =>
      have ahead : Spec.ahead options start (own ix store) =
          (before key options.skipStartFromItem start (own ix store)).reverse := by
        simp only [Spec.ahead,given,way]
      rw [searched_iff sorted filled readable starts (by rw [given,Option.isNone_some,Bool.and_false]),ahead]
      simp only [met,way,if_true]
      exact bounded_backward_all (sorted.filter _)

end FavorX.Iteration.WiredTiger
