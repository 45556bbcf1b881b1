import Mathlib

/-!
Lists that are arranged by a comparison with ties and cut into pages. Pages that
are cut from lists arranged one by one fit together exactly when no tie lies
across the end of a page (`cuts_perm`, `cut_twice`).
-/
namespace FavorX.Orders

section
variable {α : Type}

/-- A comparison that orders the classes of its ties. -/
structure Weak (less : α → α → Bool) : Prop where
  asymm : ∀ {a b}, less a b = true → less b a = false
  split : ∀ {a c} (b), less a c = true → less a b = true ∨ less b c = true

theorem weak_of_lt {β : Type} [LinearOrder β] {key : α → β} [∀ a b, Decidable (key a < key b)] :
    Weak (fun a b => decide (key a < key b)) := by
  constructor
  · intro a b less
    simp only [decide_eq_true_eq,decide_eq_false_iff_not] at less ⊢
    exact not_lt_of_gt less
  intro a c b less
  simp only [decide_eq_true_eq] at less ⊢
  rcases lt_or_ge (key a) (key b) with before | after
  · exact .inl before
  · exact .inr (lt_of_le_of_lt after less)

theorem Weak.flip {less : α → α → Bool} (weak : Weak less) : Weak (fun a b => less b a) := by
  constructor
  · intro a b before
    exact weak.asymm before
  · intro a c b before
    exact (weak.split b before).symm

theorem weak_none : Weak (fun _ _ : α => false) := by
  constructor
  · intro a b before
    cases before
  · intro a c b before
    cases before

variable {less : α → α → Bool}

def Sorted (less : α → α → Bool) (l : List α) : Prop := l.Pairwise (fun a b => less b a = false)

/-- How many elements are less than `a`. -/
def rank (less : α → α → Bool) (l : List α) (a : α) : Nat := l.countP (fun b => less b a)

/-- How many elements are less than `a` or tied with it. -/
def through (less : α → α → Bool) (l : List α) (a : α) : Nat := l.countP (fun b => !less a b)

variable {l l' files : List α}

theorem rank_perm (perm : l.Perm l') (a : α) : rank less l a = rank less l' a := perm.countP_eq _

theorem through_perm (perm : l.Perm l') (a : α) : through less l a = through less l' a :=
  perm.countP_eq _

variable {i size k : Nat} {a b : α}

section
variable {l : List α}

theorem rank_le_place (weak : Weak less) (sorted : Sorted less l) (here : l[i]? = some a) : rank less l a ≤ i := by
  obtain ⟨inside,is⟩ := List.getElem?_eq_some_iff.mp here
  have later : (l.drop i).countP (fun b => less b a) = 0 := by
    rw [List.countP_eq_zero]
    intro b mem
    rw [List.drop_eq_getElem_cons inside,is] at mem
    have rest := sorted.drop (i := i)
    rw [List.drop_eq_getElem_cons inside,is] at rest
    rcases List.mem_cons.mp mem with rfl | mem
    · intro self
      have not := weak.asymm self
      rw [self] at not
      cases not
    · rw [(List.pairwise_cons.mp rest).1 b mem]
      exact Bool.false_ne_true
  have parts : rank less l a = (l.take i).countP (fun b => less b a) + (l.drop i).countP (fun b => less b a) := by
    rw [← List.countP_append,List.take_append_drop,rank]
  rw [parts,later]
  exact Nat.le_trans List.countP_le_length (List.length_take_le _ _)

theorem place_lt_through (weak : Weak less) (sorted : Sorted less l) (here : l[i]? = some a) :
    i < through less l a := by
  obtain ⟨inside,is⟩ := List.getElem?_eq_some_iff.mp here
  have earlier : (l.take (i + 1)).countP (fun b => !less a b) = (l.take (i + 1)).length := by
    rw [List.countP_eq_length]
    intro b mem
    have front := sorted.take (i := i + 1)
    rw [List.take_add_one,here] at mem front
    rcases List.mem_append.mp mem with mem | mem
    · have ordered := (List.pairwise_append.mp front).2.2
      rw [ordered b mem a (by simp)]
      rfl
    have same : b = a := by simpa using mem
    cases self : less a b with
    | false => rfl
    | true =>
      rw [same] at self
      have not := weak.asymm self
      rw [self] at not
      cases not
  have part : (l.take (i + 1)).countP (fun b => !less a b) ≤ through less l a :=
    (List.take_sublist (i + 1) l).countP_le
  rw [earlier,List.length_take] at part
  omega

theorem tied_of_place (weak : Weak less) (sorted : Sorted less l) (here : l[i]? = some b) (least : rank less l a ≤ i)
    (most : i < through less l a) : less a b = false ∧ less b a = false := by
  constructor
  · cases after : less a b with
    | false => rfl
    | true =>
      -- everything up to `a` is less than `b`
      have more : through less l a ≤ rank less l b := by
        refine List.countP_mono_left (fun c _ upto => ?_)
        rcases weak.split c after with other | before
        · simp [other] at upto
        · exact before
      have bound := rank_le_place weak sorted here
      omega
  cases before : less b a with
  | false => rfl
  | true =>
    have fewer : through less l b ≤ rank less l a := by
      refine List.countP_mono_left (fun c _ upto => ?_)
      rcases weak.split c before with other | less
      · simp [other] at upto
      · exact less
    have bound := place_lt_through weak sorted here
    omega

end

/-- The page with number `k`, counted from zero. -/
def cut (size k : Nat) (l : List α) : List α := (l.drop (size * k)).take size

theorem mem_cut (pos : 0 < size) : a ∈ cut size k l ↔ ∃ i, i / size = k ∧ l[i]? = some a := by
  simp only [cut,List.mem_iff_getElem?,List.getElem?_take,List.getElem?_drop]
  constructor
  · rintro ⟨j,here⟩
    split at here
    · next inside =>
      refine ⟨size * k + j,?_,here⟩
      rw [Nat.mul_add_div pos,Nat.div_eq_of_lt inside,Nat.add_zero]
    · cases here
  rintro ⟨i,rfl,here⟩
  refine ⟨i % size,?_⟩
  rw [if_pos (Nat.mod_lt i pos),Nat.div_add_mod]
  exact here

def Fits (less : α → α → Bool) (size : Nat) (l : List α) : Prop :=
  ∀ a ∈ l, rank less l a / size = (through less l a - 1) / size

theorem mem_cut_iff (weak : Weak less) (pos : 0 < size) (perm : l.Perm files) (sorted : Sorted less l)
    (fits : Fits less size files) : a ∈ cut size k l ↔ a ∈ files ∧ rank less files a / size = k := by
  -- all places that `a` can have lie on one page
  have page : ∀ {i}, l[i]? = some a → i / size = rank less files a / size := by
    intro i here
    have least := rank_le_place weak sorted here
    have most := place_lt_through weak sorted here
    rw [rank_perm perm] at least
    rw [through_perm perm] at most
    have same := fits a (perm.mem_iff.mp (List.mem_of_getElem? here))
    have low := Nat.div_le_div_right (c := size) least
    have high := Nat.div_le_div_right (c := size) (show i ≤ through less files a - 1 by omega)
    omega
  rw [mem_cut pos]
  constructor
  · rintro ⟨i,rfl,here⟩
    exact ⟨perm.mem_iff.mp (List.mem_of_getElem? here),(page here).symm⟩
  · rintro ⟨mem,rfl⟩
    obtain ⟨i,here⟩ := List.mem_iff_getElem?.mp (perm.mem_iff.mpr mem)
    exact ⟨i,page here,here⟩

/-- Pages of arranged lists, each of its own, hold every element once when no tie lies across a page. -/
theorem cuts_perm (weak : Weak less) (pos : 0 < size) (nodup : files.Nodup) {lists : Nat → List α}
    (perm : ∀ k, (lists k).Perm files) (sorted : ∀ k, Sorted less (lists k)) (fits : Fits less size files) {m : Nat}
    (enough : files.length ≤ size * m) : ((List.range m).flatMap (fun k => cut size k (lists k))).Perm files := by
  have mem : ∀ {k a}, a ∈ cut size k (lists k) ↔ a ∈ files ∧ rank less files a / size = k :=
    mem_cut_iff weak pos (perm _) (sorted _) fits
  refine (List.perm_ext_iff_of_nodup ?_ nodup).mpr (fun a => ?_)
  · rw [List.nodup_flatMap]
    refine ⟨fun k _ => ((perm k).nodup_iff.mpr nodup).sublist ((List.take_sublist _ _).trans (List.drop_sublist _ _)),?_⟩
    refine List.Pairwise.imp ?_ List.nodup_range
    intro j k other a first second
    exact other ((mem.mp first).2.symm.trans (mem.mp second).2)
  rw [List.mem_flatMap]
  constructor
  · rintro ⟨k,-,held⟩
    exact (mem.mp held).1
  intro held
  refine ⟨rank less files a / size,?_,mem.mpr ⟨held,rfl⟩⟩
  rw [List.mem_range,Nat.div_lt_iff_lt_mul pos,Nat.mul_comm]
  obtain ⟨i,here⟩ := List.mem_iff_getElem?.mp ((perm 0).mem_iff.mpr held)
  have least := rank_le_place weak (sorted 0) here
  obtain ⟨inside,-⟩ := List.getElem?_eq_some_iff.mp here
  rw [rank_perm (perm 0)] at least
  rw [(perm 0).length_eq] at inside
  omega

/-- A way to arrange lists by a comparison that looks at nothing else: renaming
elements without changing the comparison renames them in the result. -/
structure Arranges (less : α → α → Bool) (arrange : List α → List α) : Prop where
  perm : ∀ l, (arrange l).Perm l
  sorted : ∀ l, Sorted less (arrange l)
  natural : ∀ (e : α ≃ α), (∀ a b, less (e a) (e b) = less a b) → ∀ l, arrange (l.map e) = (arrange l).map e

theorem arranges_none : Arranges (fun _ _ : α => false) id where
  perm _ := List.Perm.refl _
  sorted _ := List.pairwise_of_forall (fun _ _ => rfl)
  natural _ _ _ := rfl

/-- A sort that arranges by every comparison of this kind. -/
structure Sorter (α : Type) where
  run : (α → α → Bool) → List α → List α
  arranges : ∀ {less}, Weak less → Arranges less (run less)

/-- Put an element into a list that is arranged from the last to the first. -/
def place (less : α → α → Bool) (a : α) : List α → List α
  | [] => [a]
  | b :: l => if less a b then b :: place less a l else a :: b :: l

def insertionSort (less : α → α → Bool) (l : List α) : List α :=
  (l.foldl (fun done a => place less a done) []).reverse

theorem place_perm (a : α) {l : List α} : (place less a l).Perm (a :: l) := by
  induction l with
  | nil => exact List.Perm.refl _
  | cons b l ih =>
    rw [place]
    split
    · exact (ih.cons b).trans (List.Perm.swap a b l)
    · exact List.Perm.refl _

theorem place_sorted (weak : Weak less) (a : α) (sorted : Sorted (fun a b => less b a) l) :
    Sorted (fun a b => less b a) (place less a l) := by
  induction l with
  | nil => exact List.pairwise_singleton _ _
  | cons b l ih =>
    obtain ⟨first,rest⟩ := List.pairwise_cons.mp sorted
    rw [place]
    split
    · next before =>
      refine List.pairwise_cons.mpr ⟨fun c mem => ?_,ih rest⟩
      rcases List.mem_cons.mp ((place_perm a).mem_iff.mp mem) with rfl | mem
      · exact weak.asymm before
      · exact first c mem
    next not =>
    refine List.pairwise_cons.mpr ⟨fun c mem => ?_,sorted⟩
    have here : less a b = false := by simpa using not
    rcases List.mem_cons.mp mem with rfl | mem
    · exact here
    have next : less b c = false := first c mem
    have none : ¬less a c = true := by
      intro before
      rcases weak.split b before with earlier | later
      · exact not earlier
      · rw [next] at later
        cases later
    simpa using none

theorem place_map {e : α ≃ α} (same : ∀ a b, less (e a) (e b) = less a b) (a : α) (l : List α) :
    place less (e a) (l.map e) = (place less a l).map e := by
  induction l with
  | nil => rfl
  | cons b l ih =>
    simp only [List.map_cons,place,same]
    split
    · rw [ih,List.map_cons]
    · rfl

theorem arranges_insertionSort (weak : Weak less) : Arranges less (insertionSort less) := by
  -- the invariant of the outer loop: what is done is arranged and holds what was taken
  have runs : ∀ (l done : List α), Sorted (fun a b => less b a) done →
      Sorted (fun a b => less b a) (l.foldl (fun done a => place less a done) done) ∧
        (l.foldl (fun done a => place less a done) done).Perm (l ++ done) := by
    intro l
    induction l with
    | nil => exact fun done sorted => ⟨sorted,List.Perm.refl _⟩
    | cons a l ih =>
      intro done sorted
      obtain ⟨arranged,perm⟩ := ih (place less a done) (place_sorted weak a sorted)
      exact ⟨arranged,perm.trans (((place_perm a).append_left l).trans List.perm_middle)⟩
  constructor
  · intro l
    have perm := (runs l [] List.Pairwise.nil).2
    rw [List.append_nil] at perm
    exact (List.reverse_perm _).trans perm
  · intro l
    exact List.pairwise_reverse.mpr (runs l [] List.Pairwise.nil).1
  intro e same l
  have maps : ∀ (l done : List α), (l.map e).foldl (fun done a => place less a done) (done.map e) =
      (l.foldl (fun done a => place less a done) done).map e := by
    intro l
    induction l with
    | nil => exact fun _ => rfl
    | cons a l ih =>
      simp [place_map same,ih]
  rw [insertionSort,insertionSort,List.map_reverse]
  exact congrArg List.reverse (maps l [])

def insertionSorter (α : Type) : Sorter α := ⟨insertionSort,arranges_insertionSort⟩

section
variable [DecidableEq α]

theorem less_swap (weak : Weak less) (first : less a b = false) (second : less b a = false) (c d : α) :
    less (Equiv.swap a b c) (Equiv.swap a b d) = less c d := by
  have left : ∀ z, less a z = less b z := by
    intro z
    rw [Bool.eq_iff_iff]
    constructor
    · intro less
      rcases weak.split b less with none | here
      · rw [first] at none
        cases none
      · exact here
    intro less
    rcases weak.split a less with none | here
    · rw [second] at none
      cases none
    · exact here
  have right : ∀ z, less z a = less z b := by
    intro z
    rw [Bool.eq_iff_iff]
    constructor
    · intro less
      rcases weak.split b less with here | none
      · exact here
      · rw [second] at none
        cases none
    intro less
    rcases weak.split a less with here | none
    · exact here
    · rw [first] at none
      cases none
  have swapped : ∀ z w, less (Equiv.swap a b z) w = less z w := by
    intro z w
    rw [Equiv.swap_apply_def]
    split
    · next same => rw [same,left]
    · split
      · next same => rw [same,left]
      · rfl
  rw [swapped,Equiv.swap_apply_def]
  split
  · next same => rw [same,right]
  · split
    · next same => rw [same,right]
    · rfl

theorem map_swap_perm (nodup : l.Nodup) (first : a ∈ l) (second : b ∈ l) : (l.map (Equiv.swap a b)).Perm l := by
  refine (List.perm_ext_iff_of_nodup (nodup.map (Equiv.swap a b).injective) nodup).mpr (fun c => ?_)
  have moved : Equiv.swap a b c ∈ l ↔ c ∈ l := by
    rw [Equiv.swap_apply_def]
    split
    · next same => simp [same,first,second]
    · split
      · next same => simp [same,first,second]
      · rfl
  rw [List.mem_map_of_involutive (fun x => Equiv.swap_apply_self a b x),moved]

/-- A tie across the end of a page: two arrangements put one element on both sides. -/
theorem cut_twice (weak : Weak less) (pos : 0 < size) {arrange : List α → List α} (arranges : Arranges less arrange)
    (nodup : files.Nodup) (not : ¬Fits less size files) :
    ∃ other : List α, other.Perm files ∧ ∃ k a, size * (k + 1) < files.length ∧
      a ∈ cut size k (arrange files) ∧ a ∈ cut size (k + 1) (arrange other) := by
  simp only [Fits,not_forall] at not
  obtain ⟨c,mem,across⟩ := not
  have perm := arranges.perm files
  have sorted := arranges.sorted files
  obtain ⟨i,here⟩ := List.mem_iff_getElem?.mp (perm.mem_iff.mpr mem)
  have least := rank_le_place weak sorted here
  have most := place_lt_through weak sorted here
  rw [rank_perm perm] at least
  rw [through_perm perm] at most
  -- the end of the page of the first place
  have lower := Nat.div_le_div_right (c := size) (show rank less files c ≤ through less files c - 1 by omega)
  have start := Nat.lt_mul_div_succ (rank less files c) pos
  have stop : size * (rank less files c / size + 1) ≤ through less files c - 1 := by
    refine Nat.le_trans (Nat.mul_le_mul_left size ?_) (Nat.mul_div_le (through less files c - 1) size)
    omega
  generalize rank less files c / size = k at start stop
  have bound : through less files c ≤ files.length := List.countP_le_length
  have len := perm.length_eq
  have before : (arrange files)[size * (k + 1) - 1]? = some (arrange files)[size * (k + 1) - 1] :=
    List.getElem?_eq_getElem (by omega)
  have after : (arrange files)[size * (k + 1)]? = some (arrange files)[size * (k + 1)] :=
    List.getElem?_eq_getElem (by omega)
  generalize (arrange files)[size * (k + 1) - 1] = a at before
  generalize (arrange files)[size * (k + 1)] = b at after
  have tiedA : less c a = false ∧ less a c = false :=
    tied_of_place weak sorted before (by rw [rank_perm perm]; omega) (by rw [through_perm perm]; omega)
  have tiedB : less c b = false ∧ less b c = false :=
    tied_of_place weak sorted after (by rw [rank_perm perm]; omega) (by rw [through_perm perm]; omega)
  have tied : ∀ {x y : α}, less x c = false → less c y = false → less x y = false := by
    intro x y first second
    cases less' : less x y with
    | false => rfl
    | true => rcases weak.split c less' with here | here <;> simp_all
  have memA : a ∈ files := perm.mem_iff.mp (List.mem_of_getElem? before)
  have memB : b ∈ files := perm.mem_iff.mp (List.mem_of_getElem? after)
  refine ⟨files.map (Equiv.swap a b),map_swap_perm nodup memA memB,k,a,by omega,?_,?_⟩
  · refine (mem_cut pos).mpr ⟨size * (k + 1) - 1,?_,before⟩
    rw [Nat.div_eq_iff pos]
    constructor <;> grind
  · refine (mem_cut pos).mpr ⟨size * (k + 1),Nat.mul_div_cancel_left _ pos,?_⟩
    rw [arranges.natural _ (less_swap weak (tied tiedA.2 tiedB.1) (tied tiedB.2 tiedA.1)),List.getElem?_map,after]
    simp

end
end

end FavorX.Orders
