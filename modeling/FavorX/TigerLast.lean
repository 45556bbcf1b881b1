import FavorX.TigerIteration

/-!
`Last` of an index of the wiredtiger driver. The search for the next prefix may end
before it, so that the move backward passes over the item that is asked for; or the
mark of the first search is still set and the move stands still.
-/
namespace FavorX.Iteration.WiredTiger
open ByteKeys Cursors
open Entry (key)

variable {low : Bytes → Bool} {ix : Index} {store : List Entry}

/-- When `Last` is right, by the contents of the index. -/
def HasLast (ix : Index) (store : List Entry) (pfx : Bytes) : Prop :=
  members key (within (ix.keyPrefix ++ pfx)) (own ix store) = [] ∨
    match incByteSlice pfx with
    | none => ¬Present (ix.keyPrefix ++ [0]) (own ix store)
    | some next =>
      (Present (ix.keyPrefix ++ [0]) (own ix store) ∧ beyond (ix.keyPrefix ++ pfx) (own ix store) = []) ∨
      (¬Present (ix.keyPrefix ++ [0]) (own ix store) ∧ Present (ix.keyPrefix ++ next) (own ix store) ∧
        ∀ e ∈ beyond (ix.keyPrefix ++ pfx) (own ix store), ix.keyPrefix ++ next ≤ e.key) ∨
      (¬Present (ix.keyPrefix ++ [0]) (own ix store) ∧ onward key (ix.keyPrefix ++ next) (own ix store) = [] ∧
        (beyond (ix.keyPrefix ++ pfx) (own ix store)).length = 1)

theorem search_first (low : Bytes → Bool) (sorted : Sorted key store) (inhabited : own ix store ≠ []) :
    ∃ place, (driver low store).search ix.keyPrefix =
      cursorAt ix place (decide (∃ e ∈ own ix store, e.key = ix.keyPrefix ++ [0])) := by
  have searched := search_start low ix store []
  simp only [List.append_nil,sought,if_true] at searched
  cases found : near key (choice low ix ix.keyPrefix) (ix.keyPrefix ++ [0]) (own ix store) with
  | none => exact absurd found (near_ne_none (sorted.filter _) inhabited)
  | some near' =>
    obtain ⟨place,order⟩ := near'
    refine ⟨place,?_⟩
    rw [searched,found]
    simp only
    congr 1
    rw [decide_eq_decide]
    constructor
    · rintro rfl
      exact near_eq found
    intro present
    obtain ⟨e,rest,-,-,exact'⟩ := near_present (sorted_own sorted) present (choice low ix ix.keyPrefix)
    rw [found] at exact'
    exact (Prod.mk.inj (Option.some.inj exact')).2

theorem item_unplaced (low : Bytes → Bool) (ix : Index) (store : List Entry) (p : Bytes) :
    ∃ e, ((driver low store).itemFromIterator ix (.search ⟨ix.keyPrefix,none,false,none⟩) p).1 = .error e ∧
      (¬p <+: ix.keyPrefix → e = .notFound) := by
  have key : (driver low store).key (.search ⟨ix.keyPrefix,none,false,none⟩) =
    (ix.keyPrefix, .search ⟨ix.keyPrefix,none,false,some .cursorKey⟩) := rfl
  have value : (driver low store).value (.search ⟨ix.keyPrefix,none,false,some .cursorKey⟩) =
    ([], .search ⟨ix.keyPrefix,none,false,some .cursorValue⟩) := rfl
  have error : (driver low store).error (.search ⟨ix.keyPrefix,none,false,some .cursorValue⟩) =
    some .cursorValue := rfl
  simp only [Driver.itemFromIterator,key]
  by_cases inside : p <+: ix.keyPrefix
  · simp only [inside,if_true,not_true_eq_false,false_implies,and_true]
    cases ix.decodeKeyFunc ix.keyPrefix with
    | error e => exact ⟨_,rfl⟩
    | ok keyItem =>
      simp only [value]
      cases ix.decodeValue keyItem [] with
      | error e => exact ⟨_,rfl⟩
      | ok valueItem => simp only [error]; exact ⟨_,rfl⟩
  · simp only [inside,if_false]
    exact ⟨_,rfl,fun _ => rfl⟩

theorem item_placed {place : Place Entry} (whole : place.whole = own ix store) {p : Bytes} :
    ((driver low store).itemFromIterator ix (cursorAt ix place false) p).1 = lookAt ix p (some place.here) := by
  have wholes : ∀ q ∈ some place, q.whole = own ix store := fun q equal => Option.some.inj equal ▸ whole
  exact looks_at (reads_prev place.left place.here place.right false (fun e member =>
    (mem_own.mp ((subperm_toLeft wholes).subset member)).2)) p

/-- The entry at which `Last` looks after its search: where the cursor stands if the backward move stands still, else
the entry before. -/
def looked (found : Bool) (place : Option (Place Entry)) : Option Entry :=
  if found then place.map Place.here else (leftOf place).head?

variable {e b : Entry}

section
variable {es : List Entry} {p n : Bytes}

theorem looked_held {found : Bool} {place : Option (Place Entry)} (whole : ∀ q ∈ place, q.whole = es) :
    ∀ e ∈ looked found place, e ∈ es := by
  intro e member
  cases place with
  | none => cases found <;> simp [looked,leftOf] at member
  | some q =>
    apply (subperm_toLeft whole).subset
    cases found with
    | true =>
      simp only [looked,if_true,Option.map_some,Option.mem_some_iff] at member
      exact member ▸ List.mem_cons_self
    | false => exact List.mem_cons_of_mem _ (List.mem_of_head? member)

theorem looked_nothing (empty : members key (within p) es = []) {look : Option Entry} (held : ∀ e ∈ look, e ∈ es) :
    look.filter (fun e => e.key ∈ within p) = (members key (within p) es).getLast? := by
  rw [empty]
  cases look with
  | none => rfl
  | some e =>
    have outside := members_eq_nil.mp empty e (held e rfl)
    simp [outside]

theorem looked_after (greatest : ∀ x ∈ within p, x < n) (after : n ≤ e.key)
    (right : (some e).filter (fun e => e.key ∈ within p) = (members key (within p) es).getLast?) :
    members key (within p) es = [] := by
  have outside : e.key ∉ within p := fun inside => absurd after (not_le.mpr (greatest _ inside))
  simp only [Option.filter_some,outside,decide_false,Bool.false_eq_true,if_false] at right
  exact List.getLast?_eq_none_iff.mp right.symm

theorem mem_beyond_of_after (greatest : ∀ x ∈ within p, x < n) (member : e ∈ es) (after : n ≤ e.key) :
    e ∈ beyond p es :=
  mem_beyond.mpr ⟨member,(greatest p (self_within p)).trans_le after,
    fun inside => absurd after (not_le.mpr (greatest _ inside))⟩

theorem looked_found_all (sorted : Sorted key es) (greatest : ∀ x ∈ within p, x < n) :
    (∀ low', (looked true ((near key low' n es).map Prod.fst)).filter (fun e => e.key ∈ within p) =
        (members key (within p) es).getLast?) ↔
      members key (within p) es = [] ∨ beyond p es = [] := by
  by_cases empty : members key (within p) es = []
  · exact iff_of_true (fun low' => looked_nothing empty (looked_held (near_whole sorted))) (.inl empty)
  have inhabited : es ≠ [] := fun none => empty (by rw [none]; rfl)
  rw [forall_near sorted (fun place => (looked true place).filter _ = _),and_iff_right (fun none => absurd none inhabited)]
  cases hi : onward key n es with
  | nil =>
    -- the search ends at the last entry of all
    have lower := below_of_onward sorted hi
    have absent : ∀ e ∈ es, e.key ≠ n := fun e held => (onward_eq_nil.mp hi e held).ne
    have last : looked true (prior key n es) = es.reverse.head? := by
      rw [prior,lower]
      cases es.reverse <;> rfl
    rw [lower,last,last_iff_clear,clear_reverse_iff sorted]
    exact ⟨fun both => both.2 inhabited absent,fun right => ⟨fun some' => absurd rfl some',fun _ _ => right⟩⟩
  | cons e rest =>
    obtain ⟨held,after⟩ := mem_onward.mp (hi ▸ List.mem_cons_self : e ∈ onward key n es)
    apply iff_of_false
    · intro both
      have right := both.1 (List.cons_ne_nil e rest)
      simp only [Cursors.seek,hi] at right
      exact empty (looked_after greatest after right)
    · rintro (none | none)
      · exact empty none
      · exact absurd (mem_beyond_of_after greatest held after) (none ▸ List.not_mem_nil)

theorem not_again {left : List Entry} (sorted : Sorted key es) (back : es.reverse = b :: left) (again : b ∈ left) :
    False := by
  have descending : es.reverse.Pairwise (fun a b => b.key < a.key) := List.pairwise_reverse.mpr sorted
  rw [back] at descending
  exact lt_irrefl _ ((List.pairwise_cons.mp descending).1 b again)

theorem mem_of_filter {look : Option Entry} (right : look.filter (fun e => e.key ∈ within p) = some b) :
    look = some b ∧ b.key ∈ within p := by
  obtain ⟨same,inside⟩ := Option.filter_eq_some_iff.mp right
  exact ⟨same,by simpa using inside⟩

/-- The entry before the last one is the last one with the prefix if exactly one entry is beyond the prefix. -/
theorem second_last_iff (sorted : Sorted key es) (some' : members key (within p) es ≠ [])
    {left : List Entry} (back : es.reverse = b :: left) :
    left.head?.filter (fun e => e.key ∈ within p) = (members key (within p) es).getLast? ↔
      (beyond p es).length = 1 := by
  have forth : es = left.reverse ++ [b] := by
    have reversed := congrArg List.reverse back
    rwa [List.reverse_reverse,List.reverse_cons] at reversed
  by_cases inside : b.key ∈ within p
  · have last : (members key (within p) es).getLast? = some b := by
      rw [forth,members]
      simp [inside]
    apply iff_of_false
    · intro right
      rw [last] at right
      exact not_again sorted back (List.mem_of_head? (mem_of_filter right).1)
    · have none := ((clear_reverse_iff sorted).mp (back ▸ clear_cons inside)).resolve_left some'
      simp [none]
  have same : members key (within p) es = members key (within p) left.reverse := by
    rw [forth]
    simp [inside,members]
  have ordered : Sorted key left.reverse := by
    rw [forth] at sorted
    exact (List.pairwise_append.mp sorted).1
  have after : p < b.key := by
    obtain ⟨e,held⟩ := List.exists_mem_of_ne_nil _ some'
    obtain ⟨member,within'⟩ := mem_members.mp held
    have order := (least_within _ within').trans (le_of_last sorted (by rw [back]; rfl) member)
    exact lt_of_le_of_ne order (fun equal => inside (equal ▸ self_within p))
  have more : beyond p es = beyond p left.reverse ++ [b] := by
    rw [forth]
    simp [inside,after,beyond]
  have looks := last_iff_clear p left.reverse
  rw [List.reverse_reverse] at looks
  have clear := clear_reverse_iff (p := p) ordered
  rw [List.reverse_reverse] at clear
  rw [more,same,looks,clear]
  rw [same] at some'
  simp [some']

/-- Without the mark, the look is at the entry before the place of the search. -/
theorem looked_missed_all (sorted : Sorted key es) (greatest : ∀ x ∈ within p, x < n) :
    (∀ low', (looked false ((near key low' n es).map Prod.fst)).filter (fun e => e.key ∈ within p) =
        (members key (within p) es).getLast?) ↔
      members key (within p) es = [] ∨ (Present n es ∧ ∀ e ∈ beyond p es, n ≤ e.key) ∨
      (onward key n es = [] ∧ (beyond p es).length = 1) := by
  by_cases empty : members key (within p) es = []
  · exact iff_of_true (fun low' => looked_nothing empty (looked_held (near_whole sorted))) (.inl empty)
  have inhabited : es ≠ [] := fun none => empty (by rw [none]; rfl)
  have ordered : Sorted key (below key n es) := sorted.filter _
  have lower : members key (within p) (below key n es) = members key (within p) es :=
    members_below greatest es
  rw [forall_near sorted (fun place => (looked false place).filter _ = _),and_iff_right (fun none => absurd none inhabited)]
  simp only [empty,false_or]
  cases lo : (below key n es).reverse with
  | nil =>
    rw [List.reverse_eq_nil_iff.mp lo] at lower
    exact absurd lower.symm empty
  | cons b left =>
    have some' : below key n es ≠ [] := fun none => by simp [none] at lo
    have back : looked false (prior key n es) = left.head? := by
      rw [prior,lo]
      rfl
    rw [back]
    cases hi : onward key n es with
    | nil =>
      have all := below_of_onward sorted hi
      have absent : ∀ e ∈ es, e.key ≠ n := fun e held => (onward_eq_nil.mp hi e held).ne
      rw [all] at lo some'
      rw [all,second_last_iff sorted empty lo]
      simp only [not_present_iff.mpr absent,false_and,false_or,true_and,ne_eq,not_true_eq_false,false_implies]
      exact ⟨fun right => right some' absent,fun right _ _ => right⟩
    | cons e rest =>
      have seeks : looked false (Cursors.seek key n es) = (below key n es).reverse.head? := by
        rw [Cursors.seek,hi]
        rfl
      have far : (below key n es).reverse.head?.filter (fun e => e.key ∈ within p) =
          (members key (within p) es).getLast? ↔ ∀ e ∈ beyond p es, n ≤ e.key := by
        rw [← lower,last_iff_clear,clear_reverse_iff ordered,lower,beyond_below]
        exact or_iff_right empty
      rw [seeks,far]
      simp only [reduceCtorEq,ne_eq,not_false_eq_true,true_implies,false_and,or_false,some']
      by_cases present : Present n es
      · exact ⟨fun both => ⟨present,both.1⟩,fun both => ⟨both.2,fun absent => absurd present (not_present_iff.mpr absent)⟩⟩
      apply iff_of_false _ (fun both => present both.1)
      -- the two neighbours lead to different entries
      rintro ⟨high,low'⟩
      have high := far.mpr high
      have low' := low' (not_present_iff.mp present)
      obtain ⟨item,last⟩ := Option.ne_none_iff_exists'.mp (fun none => empty (List.getLast?_eq_none_iff.mp none))
      rw [last] at high low'
      rw [lo] at high
      have first := Option.some.inj (mem_of_filter high).1
      have second := (mem_of_filter low').1
      rw [← first] at second
      exact not_again ordered lo (List.mem_of_head? second)

end

theorem members_own (pfx : Bytes) : members key (within (ix.keyPrefix ++ pfx)) (own ix store) =
    members key (within (ix.keyPrefix ++ pfx)) store :=
  members_filter fun _ _ inside => decide_eq_true ((List.prefix_append _ _).trans inside)

theorem lastItem_next (low : Bytes → Bool) (sorted : Sorted key store) (filled : ∀ e ∈ store, e.key ≠ ix.keyPrefix)
    (inhabited : own ix store ≠ []) {pfx next : Bytes} (incremented : incByteSlice pfx = some next) :
    (driver low store).lastItem ix pfx = lookAt ix (ix.keyPrefix ++ pfx)
      (looked (decide (∃ e ∈ own ix store, e.key = ix.keyPrefix ++ [0]))
        (standing low ix store (ix.keyPrefix ++ next))) := by
  obtain ⟨first,searched⟩ := search_first low sorted inhabited
  generalize decide (∃ e ∈ own ix store, e.key = ix.keyPrefix ++ [0]) = found at searched
  have sought' := seek_cursorAt low sorted filled first found next
  have whole := standing_whole low ix sorted (ix.keyPrefix ++ next)
  cases near' : standing low ix store (ix.keyPrefix ++ next) with
  | none => exact absurd (Option.map_eq_none_iff.mp near') (near_ne_none (sorted.filter _) inhabited)
  | some q =>
    rw [near'] at sought'
    have outside : ¬ix.keyPrefix ++ pfx <+: ix.keyPrefix := by
      intro shorter
      have lengths := shorter.length_le
      cases pfx with
      | nil => simp [incByteSlice,carried] at incremented
      | cons b rest =>
        simp only [List.length_append,List.length_cons] at lengths
        omega
    simp only [Driver.lastItem,incremented,searched,sought']
    cases found with
    | true =>
      -- the mark of the first search is still set
      have still : (driver low store).prev (cursorAt ix q true) = (true, cursorAt ix q false) := rfl
      rw [still,item_placed (whole q near')]
      rfl
    | false =>
      rw [prev_cursorAt]
      have left' := toLeft_backward q
      cases back : q.backward with
      | none =>
        rw [back] at left'
        obtain ⟨e,failed,missing⟩ := item_unplaced low ix store (ix.keyPrefix ++ pfx)
        rw [failed,missing outside]
        simp only [looked,Bool.false_eq_true,if_false,leftOf,← left',toLeft]
        rfl
      | some q' =>
        rw [back] at left'
        rw [item_placed ((backward_whole q' back).trans (whole q near'))]
        simp only [looked,Bool.false_eq_true,if_false,leftOf,← left',toLeft]
        rfl

theorem findsLast_empty (readable : Readable ix store) (empty : own ix store = []) (pfx : Bytes) :
    Spec.FindsLast ix store pfx (driver low store) := by
  have searched : (driver low store).search ix.keyPrefix = .invalid := by
    have start := search_start low ix store []
    rw [empty] at start
    exact start
  have looks : (driver low store).lastItem ix pfx = lookAt ix (ix.keyPrefix ++ pfx) none := by
    have outside : ¬ix.keyPrefix ++ pfx <+: ((driver low store).key .invalid).1 := by
      simp [driver,Index.keyPrefix]
    simp only [Driver.lastItem,searched]
    cases incByteSlice pfx with
    | none | some next => exact congrArg Prod.fst (itemFromIterator_outside outside)
  rw [findsLast_iff_looked readable (fun _ member => absurd member (Option.not_mem_none _)) looks,← members_own,empty]
  rfl

theorem findsLast_unbounded (sorted : Sorted key store) (readable : Readable ix store)
    (inhabited : own ix store ≠ []) {pfx : Bytes} (incremented : incByteSlice pfx = none) :
    Spec.FindsLast ix store pfx (driver low store) ↔
      members key (within (ix.keyPrefix ++ pfx)) (own ix store) = [] ∨
        ¬Present (ix.keyPrefix ++ [0]) (own ix store) := by
  obtain ⟨first,searched⟩ := search_first low sorted inhabited
  by_cases mark : ∃ e ∈ own ix store, e.key = ix.keyPrefix ++ [0]
  · have present : Present (ix.keyPrefix ++ [0]) (own ix store) := mark
    simp only [mark,decide_true] at searched
    have reset : (driver low store).last (cursorAt ix first true) =
      (true, .search ⟨ix.keyPrefix,none,false,none⟩) := rfl
    obtain ⟨e,failed,missing⟩ := item_unplaced low ix store (ix.keyPrefix ++ pfx)
    simp only [present,not_true_eq_false,or_false]
    rw [Spec.FindsLast,← members_own]
    simp only [Driver.lastItem,incremented,searched,reset]
    rw [failed]
    cases last : (members key (within (ix.keyPrefix ++ pfx)) (own ix store)).getLast? with
    | none =>
      have none := List.getLast?_eq_none_iff.mp last
      apply iff_of_true _ none
      have outside : ¬ix.keyPrefix ++ pfx <+: ix.keyPrefix := by
        intro inside
        obtain ⟨entry,held⟩ := List.exists_mem_of_ne_nil _ inhabited
        exact members_eq_nil.mp none entry held (inside.trans (mem_own.mp held).2)
      rw [missing outside]
    | some entry =>
      obtain ⟨held,inside⟩ := mem_members.mp (List.mem_of_getLast? last)
      obtain ⟨item,read⟩ := readable.reads entry (mem_own.mp held).1 (mem_own.mp held).2
      apply iff_of_false
      · simp only [read]
        rintro ⟨⟩
      · intro none
        simp [none] at last
  have missing : ¬Present (ix.keyPrefix ++ [0]) (own ix store) := mark
  simp only [mark,decide_false] at searched
  apply iff_of_true _ (.inr missing)
  have looks : (driver low store).lastItem ix pfx = lookAt ix (ix.keyPrefix ++ pfx) (own ix store).reverse.head? := by
    cases ends : (own ix store).reverse with
    | nil => exact absurd (List.reverse_eq_nil_iff.mp ends) inhabited
    | cons last rest =>
      simp only [Driver.lastItem,incremented,searched,last_cursorAt first ends]
      exact item_placed (final_whole _ (by simp only [final,ends]; rfl))
  rw [findsLast_iff_clear readable (fun e member => (mem_own.mp member).1) (members_own pfx) looks,
    clear_reverse_iff (sorted_own sorted)]
  right
  rw [List.eq_nil_iff_forall_not_mem]
  intro e later
  obtain ⟨member,after,outside⟩ := mem_beyond.mp later
  obtain ⟨-,x,equal⟩ := mem_own.mp member
  rw [← equal,append_lt_iff] at after
  rcases lt_or_starts (carried_eq_none.mp incremented) x with less | starts
  · exact lt_asymm less after
  · exact outside (equal ▸ (List.prefix_append_right_inj ix.keyPrefix).mpr starts)

theorem findsLast_iff (sorted : Sorted key store) (filled : ∀ e ∈ store, e.key ≠ ix.keyPrefix)
    (readable : Readable ix store) (pfx : Bytes) :
    (∀ low, Spec.FindsLast ix store pfx (driver low store)) ↔ HasLast ix store pfx := by
  by_cases empty : own ix store = []
  · apply iff_of_true _ (.inl (by rw [empty]; rfl))
    intro low
    exact findsLast_empty readable empty pfx
  cases incremented : incByteSlice pfx with
  | none =>
    simp only [HasLast,incremented]
    rw [forall_congr' (fun _ => findsLast_unbounded sorted readable empty incremented)]
    exact forall_const _
  | some next =>
    have greatest := lt_next ix incremented
    have looks (low : Bytes → Bool) := lastItem_next low sorted filled empty incremented
    rw [forall_congr' (fun low => findsLast_iff_looked readable
      (fun e member => (mem_own.mp (looked_held (standing_whole low ix sorted _) e member)).1) (looks low)),← members_own,
      forall_standing (fun place => (looked _ place).filter _ = _)]
    simp only [HasLast,incremented]
    by_cases mark : ∃ e ∈ own ix store, e.key = ix.keyPrefix ++ [0]
    · have present : Present (ix.keyPrefix ++ [0]) (own ix store) := mark
      simp only [mark,decide_true,present,true_and,not_true_eq_false,false_and,or_false]
      exact looked_found_all (sorted.filter _) greatest
    · have missing : ¬Present (ix.keyPrefix ++ [0]) (own ix store) := mark
      simp only [mark,decide_false,missing,false_and,not_false_eq_true,true_and,false_or]
      exact looked_missed_all (sorted.filter _) greatest

end FavorX.Iteration.WiredTiger
