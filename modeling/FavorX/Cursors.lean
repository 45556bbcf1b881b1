import Mathlib

/-!
Places in a list that is sorted by a key, as the cursor of an ordered store takes
them. An interval of keys is read off by walking as long as the keys belong to it:
the walk meets all of its entries ahead exactly when the first entry ahead
belongs to it, or none does.
-/
namespace FavorX.Cursors

/-- An entry of a list with what stands before it, the nearest first, and after it. -/
structure Place (α : Type) where
  left : List α
  here : α
  right : List α

section
variable {α K : Type} [LinearOrder K] (key : α → K)

def Sorted (es : List α) : Prop := es.Pairwise (fun a b => key a < key b)

def below (k : K) (es : List α) : List α := es.filter (fun e => key e < k)
def onward (k : K) (es : List α) : List α := es.filter (fun e => k ≤ key e)

/-- The first entry from `k` on. -/
def seek (k : K) (es : List α) : Option (Place α) :=
  match onward key k es with
  | [] => none
  | e :: rest => some ⟨(below key k es).reverse,e,rest⟩

/-- The last entry before `k`. -/
def prior (k : K) (es : List α) : Option (Place α) :=
  match (below key k es).reverse with
  | [] => none
  | b :: left => some ⟨left,b,onward key k es⟩

/-- The entry of the key `k`, or else a neighbour: the one before it if there is none after it or if `low` is set.
The sign tells on which side of `k` the entry stands. -/
def near (low : Bool) (k : K) (es : List α) : Option (Place α × Ordering) :=
  match (below key k es).reverse, onward key k es with
  | [], [] => none
  | b :: left, [] => some (⟨left,b,[]⟩, .lt)
  | [], e :: rest => some (⟨[],e,rest⟩, if key e = k then .eq else .gt)
  | b :: left, e :: rest =>
    if key e = k then some (⟨b :: left,e,rest⟩, .eq)
    else if low then some (⟨left,b,e :: rest⟩, .lt)
    else some (⟨b :: left,e,rest⟩, .gt)

end

section
variable {α : Type}

def final (es : List α) : Option (Place α) :=
  match es.reverse with
  | [] => none
  | e :: rest => some ⟨rest,e,[]⟩

def Place.forward (p : Place α) : Option (Place α) :=
  match p.right with
  | [] => none
  | e :: rest => some ⟨p.here :: p.left,e,rest⟩

def Place.backward (p : Place α) : Option (Place α) :=
  match p.left with
  | [] => none
  | e :: rest => some ⟨rest,e,p.here :: p.right⟩

/-- What is met from a place on, forward and backward. -/
def toRight : Option (Place α) → List α
  | none => []
  | some p => p.here :: p.right

def toLeft : Option (Place α) → List α
  | none => []
  | some p => p.here :: p.left

def Place.whole (p : Place α) : List α := p.left.reverse ++ p.here :: p.right

variable {place : Option (Place α)}

theorem subperm_toRight {es : List α} (whole : ∀ p ∈ place, p.whole = es) : (toRight place).Subperm es := by
  cases place with
  | none => exact List.nil_subperm
  | some p => exact whole p rfl ▸ (List.sublist_append_right _ _).subperm

theorem subperm_toLeft {es : List α} (whole : ∀ p ∈ place, p.whole = es) : (toLeft place).Subperm es := by
  cases place with
  | none => exact List.nil_subperm
  | some p =>
    have back : (p.here :: p.left).Sublist p.whole.reverse := by simp [Place.whole]
    exact whole p rfl ▸ back.subperm.trans p.whole.reverse_perm.subperm

theorem final_whole {es : List α} : ∀ p ∈ final es, p.whole = es := by
  intro p found
  cases back : es.reverse with
  | nil => simp [final,back] at found
  | cons e rest =>
    simp only [final,back,Option.mem_some_iff] at found
    subst found
    have forth := congrArg List.reverse back
    rw [List.reverse_reverse,List.reverse_cons] at forth
    exact forth.symm

theorem backward_whole {p : Place α} : ∀ q ∈ p.backward, q.whole = p.whole := by
  intro q found
  cases left : p.left with
  | nil => simp [Place.backward,left] at found
  | cons e rest =>
    simp only [Place.backward,left,Option.mem_some_iff] at found
    subst found
    simp [Place.whole,left]

theorem toLeft_backward (p : Place α) : toLeft p.backward = p.left := by
  cases left : p.left <;> simp only [Place.backward,left,toLeft]

theorem toLeft_final (es : List α) : toLeft (final es) = es.reverse := by
  cases back : es.reverse <;> simp only [final,back,toLeft]

end

variable {skip : Bool}

section
variable {α K : Type} [LinearOrder K] {key : α → K} {k : K} {es : List α}

theorem toRight_seek : toRight (seek key k es) = onward key k es := by
  cases hi : onward key k es <;> simp only [seek,hi,toRight]

section
variable (sorted : Sorted key es)
include sorted

theorem below_append_onward : below key k es ++ onward key k es = es := by
  induction es with
  | nil => rfl
  | cons e rest ih =>
    obtain ⟨least,sortedRest⟩ := List.pairwise_cons.mp sorted
    by_cases less : key e < k
    · have rest' := ih sortedRest
      simp only [below,onward,List.filter_cons,less,not_le.mpr less,decide_true,decide_false,if_true,Bool.false_eq_true,
        if_false,List.cons_append,List.cons.injEq,true_and]
      exact rest'
    have after : ∀ e' ∈ e :: rest, k ≤ key e' := by
      intro e' member
      rcases List.mem_cons.mp member with rfl | later
      · exact not_lt.mp less
      · exact (not_lt.mp less).trans (least e' later).le
    rw [below,onward,List.filter_eq_nil_iff.mpr (by simpa using after),List.filter_eq_self.mpr (by simpa using after)]
    rfl

theorem below_of_onward (none : onward key k es = []) : below key k es = es := by
  simpa [none] using below_append_onward (k := k) sorted

theorem le_of_first {first : α} (head : first ∈ es.head?) {e : α} (member : e ∈ es) : key first ≤ key e := by
  cases es with
  | nil => simp at head
  | cons first' rest =>
    rw [List.head?_cons,Option.mem_some_iff] at head
    subst head
    rcases List.mem_cons.mp member with same | later
    · exact (congrArg key same).ge
    · exact ((List.pairwise_cons.mp sorted).1 e later).le

theorem Sorted.dual : Sorted (fun e => OrderDual.toDual (key e)) es.reverse :=
  List.pairwise_reverse.mpr sorted

theorem le_of_last {last : α} (head : last ∈ es.reverse.head?) {e : α} (member : e ∈ es) :
    key e ≤ key last := le_of_first sorted.dual head (List.mem_reverse.mpr member)

theorem seek_whole : ∀ p ∈ seek key k es, p.whole = es := by
  intro p found
  cases hi : onward key k es with
  | nil => simp [seek,hi] at found
  | cons e rest =>
    simp only [seek,hi,Option.mem_some_iff] at found
    subst found
    rw [Place.whole,List.reverse_reverse,← hi]
    exact below_append_onward sorted

end

theorem toLeft_seek : toLeft (seek key k es) =
    match onward key k es with
    | [] => []
    | e :: _ => e :: (below key k es).reverse := by
  cases hi : onward key k es <;> simp only [seek,hi,toLeft]

theorem mem_below {e : α} : e ∈ below key k es ↔ e ∈ es ∧ key e < k := by
  simp [below]

theorem mem_onward {e : α} : e ∈ onward key k es ↔ e ∈ es ∧ k ≤ key e := by
  simp [onward]

theorem Sorted.filter (sorted : Sorted key es) (p : α → Bool) : Sorted key (es.filter p) := List.Pairwise.filter p sorted

theorem onward_of_present (sorted : Sorted key es) (present : ∃ e ∈ es, key e = k) :
    ∃ e rest, onward key k es = e :: rest ∧ key e = k := by
  obtain ⟨e,held,same⟩ := present
  have member : e ∈ onward key k es := mem_onward.mpr ⟨held,same.ge⟩
  cases hi : onward key k es with
  | nil => simp [hi] at member
  | cons first rest =>
    have ordered : Sorted key (onward key k es) := sorted.filter _
    have reached : k ≤ key first := (mem_onward.mp (hi ▸ List.mem_cons_self : first ∈ onward key k es)).2
    have least : key first ≤ key e := le_of_first ordered (by rw [hi]; rfl) member
    exact ⟨first,rest,rfl,le_antisymm (same ▸ least) reached⟩

/-- The list without its first entry if that one has the key `k` and is to be skipped. -/
def passing (key : α → K) (skip : Bool) (k : K) : List α → List α
  | [] => []
  | e :: rest => if skip && key e = k then rest else e :: rest

/-- The entries from `k` on, or after `k`. -/
def after (key : α → K) (skip : Bool) (k : K) (es : List α) : List α :=
  es.filter (fun e => if skip then k < key e else k ≤ key e)

/-- The entries up to `k`, or before `k`. -/
def before (key : α → K) (skip : Bool) (k : K) (es : List α) : List α :=
  es.filter (fun e => if skip then key e < k else key e ≤ k)

theorem passing_of_ne (other : ∀ e ∈ es.head?, key e ≠ k) : passing key skip k es = es := by
  cases es with
  | nil => rfl
  | cons e rest =>
    have different : key e ≠ k := other e rfl
    simp [passing,different]

theorem mem_passing {e : α} (member : e ∈ passing key skip k es) : e ∈ es := by
  cases es with
  | nil => exact member
  | cons first rest =>
    simp only [passing] at member
    split at member
    · exact List.mem_cons_of_mem first member
    · exact member

theorem passing_length {skip : Bool} : (passing key skip k es).length ≤ es.length := by
  cases es with
  | nil => exact Nat.le_refl 0
  | cons e rest =>
    simp only [passing]
    split
    · exact Nat.le_succ _
    · exact Nat.le_refl _

theorem after_of_absent (absent : ∀ e ∈ es, key e ≠ k) : after key skip k es = onward key k es := by
  apply List.filter_congr
  intro e member
  cases skip with
  | false => rfl
  | true => simp [(Ne.symm (absent e member)).le_iff_lt]

theorem before_of_absent (absent : ∀ e ∈ es, key e ≠ k) : before key skip k es = below key k es := by
  apply List.filter_congr
  intro e member
  cases skip with
  | true => rfl
  | false => simp [(absent e member).le_iff_lt]

theorem passing_onward (sorted : Sorted key es) (skip : Bool) : passing key skip k (onward key k es) = after key skip k es := by
  cases skip with
  | false =>
    cases hi : onward key k es with
    | nil => exact hi.symm
    | cons e rest => exact hi.symm
  | true =>
    have split : after key true k es = (onward key k es).filter (fun e => k < key e) := by
      rw [onward,List.filter_filter]
      apply List.filter_congr
      intro e _
      by_cases less : k < key e
      · simp [less,less.le]
      · simp [less]
    rw [split]
    have ordered := sorted.filter (fun e => k ≤ key e)
    have bounded : ∀ e ∈ onward key k es, k ≤ key e := fun e member => (mem_onward.mp member).2
    change Sorted key (onward key k es) at ordered
    cases hi : onward key k es with
    | nil => rfl
    | cons e rest =>
      rw [hi] at ordered bounded
      have later : ∀ e' ∈ rest, k < key e' := fun e' member =>
        (bounded e List.mem_cons_self).trans_lt ((List.pairwise_cons.mp ordered).1 e' member)
      have all : rest.filter (fun e => k < key e) = rest := List.filter_eq_self.mpr (by simpa using later)
      by_cases same : key e = k
      · simp [passing,same,all]
      · have less : k < key e := lt_of_le_of_ne (bounded e List.mem_cons_self) (Ne.symm same)
        simp [passing,same,less,all]

theorem passing_back (sorted : Sorted key es) (skip : Bool) {e : α} {rest : List α} (found : onward key k es = e :: rest)
    (same : key e = k) : passing key skip k (e :: (below key k es).reverse) = (before key skip k es).reverse := by
  cases skip with
  | true => simp [passing,same,before,below]
  | false =>
    have ordered := sorted.filter (fun e => k ≤ key e)
    change Sorted key (onward key k es) at ordered
    rw [found] at ordered
    have none : rest.filter (fun e => key e ≤ k) = [] := by
      rw [List.filter_eq_nil_iff]
      intro e' member
      have greater := (List.pairwise_cons.mp ordered).1 e' member
      rw [same] at greater
      simpa using greater
    have all : (below key k es).filter (fun e => key e ≤ k) = below key k es := by
      rw [List.filter_eq_self]
      intro e' member
      simpa using (mem_below.mp member).2.le
    have split : before key false k es = below key k es ++ [e] := by
      conv_lhs => rw [← below_append_onward (k := k) sorted]
      simp [before,all,found,none,same]
    rw [split,List.reverse_append]
    rfl

end

def Place.map {α β : Type} (f : α → β) (p : Place α) : Place β := ⟨p.left.map f,f p.here,p.right.map f⟩

theorem final_map {α β : Type} (f : α → β) (es : List α) : final (es.map f) = (final es).map (Place.map f) := by
  rw [final,final,← List.map_reverse]
  cases es.reverse <;> rfl

theorem backward_map {α β : Type} (f : α → β) (p : Place α) : (p.map f).backward = p.backward.map (Place.map f) := by
  obtain ⟨left,here,right⟩ := p
  cases left <;> rfl

section
variable {α β K L : Type} [LinearOrder K] [LinearOrder L] {key : α → K} {k : K} {es : List α}

/-- The neighbours are the same in a list of images that is compared alike. -/
theorem near_map (f : α → β) {key' : β → L} {l : L} (low : Bool) (less : ∀ e ∈ es, key' (f e) < l ↔ key e < k)
    (same : ∀ e ∈ es, key' (f e) = l ↔ key e = k) :
    near key' low l (es.map f) = (near key low k es).map (fun found => (found.1.map f, found.2)) := by
  have lower : below key' l (es.map f) = (below key k es).map f := by
    rw [below,List.filter_map]
    congr 1
    apply List.filter_congr
    intro e member
    simp [less e member]
  have upper : onward key' l (es.map f) = (onward key k es).map f := by
    rw [onward,List.filter_map]
    congr 1
    apply List.filter_congr
    intro e member
    simp [← not_lt,less e member]
  have equal (e : α) (rest : List α) (hi : onward key k es = e :: rest) : key' (f e) = l ↔ key e = k :=
    same e (mem_onward.mp (hi ▸ List.mem_cons_self : e ∈ onward key k es)).1
  rw [near,near,lower,upper,← List.map_reverse]
  cases lo : (below key k es).reverse with
  | nil =>
    cases hi : onward key k es with
    | nil => rfl
    | cons e rest => simp [equal e rest hi,Place.map]
  | cons b left =>
    cases hi : onward key k es with
    | nil => rfl
    | cons e rest =>
      simp only [List.map_cons,equal e rest hi]
      split
      · rfl
      · cases low <;> rfl

theorem onward_eq_nil : onward key k es = [] ↔ ∀ e ∈ es, key e < k := by
  simp [onward]

section
variable (sorted : Sorted key es)
include sorted

/-- A neighbour is the first entry from the key on or, if the key is absent, the last one before it. -/
theorem near_place (low : Bool) : (near key low k es).map Prod.fst =
    if onward key k es = [] ∨ low ∧ below key k es ≠ [] ∧ ∀ e ∈ es, key e ≠ k then prior key k es
    else seek key k es := by
  have lower : below key k es ≠ [] ↔ (below key k es).reverse ≠ [] := not_congr List.reverse_eq_nil_iff.symm
  cases hi : onward key k es with
  | nil => cases lo : (below key k es).reverse <;> simp [near,prior,lo,hi]
  | cons e rest =>
    have absent : (∀ e ∈ es, key e ≠ k) ↔ key e ≠ k := by
      constructor
      · exact fun all => all e (mem_onward.mp (hi ▸ List.mem_cons_self : e ∈ onward key k es)).1
      · intro other e' held same
        obtain ⟨first,rest',hi',same'⟩ := onward_of_present sorted ⟨e',held,same⟩
        exact other ((List.cons.inj (hi.symm.trans hi')).1 ▸ same')
    simp only [absent,lower]
    cases lo : (below key k es).reverse with
    | nil => simp [near,seek,lo,hi]
    | cons b left =>
      by_cases same : key e = k
      · simp [near,seek,lo,hi,same]
      · cases low <;> simp [near,seek,prior,lo,hi,same]

/-- A statement about all neighbours is one about the two that there can be. -/
theorem forall_near (property : Option (Place α) → Prop) :
    (∀ low, property ((near key low k es).map Prod.fst)) ↔ (es = [] → property none) ∧
      (onward key k es ≠ [] → property (seek key k es)) ∧
      (below key k es ≠ [] → (∀ e ∈ es, key e ≠ k) → property (prior key k es)) := by
  have split := below_append_onward (k := k) sorted
  simp only [near_place sorted,Bool.forall_bool,Bool.false_eq_true,false_and,or_false,true_and]
  by_cases hi : onward key k es = []
  · have absent : ∀ e ∈ es, key e ≠ k := fun e held => (onward_eq_nil.mp hi e held).ne
    rw [hi,List.append_nil] at split
    simp only [hi,true_or,if_true,and_self,ne_eq,not_true_eq_false,false_implies,true_and,split]
    by_cases empty : es = []
    · simp [empty,prior,below]
    · simp only [empty,false_implies,true_and,not_false_eq_true,true_implies]
      exact ⟨fun holds _ => holds,fun holds => holds absent⟩
  have inhabited : es ≠ [] := by
    rintro rfl
    exact hi rfl
  simp only [hi,false_or,if_false,inhabited,false_implies,ne_eq,not_false_eq_true,true_implies,true_and]
  by_cases lower : ¬below key k es = [] ∧ ∀ e ∈ es, ¬key e = k
  · rw [if_pos lower]
    exact and_congr_right fun _ => ⟨fun holds _ _ => holds,fun holds => holds lower.1 lower.2⟩
  · rw [if_neg lower]
    exact ⟨fun both => ⟨both.1,fun some' absent => absurd ⟨some',absent⟩ lower⟩,fun both => ⟨both.1,both.1⟩⟩

theorem near_whole {low : Bool} : ∀ p ∈ (near key low k es).map Prod.fst, p.whole = es := by
  rw [near_place sorted]
  split
  · intro p found
    cases lo : (below key k es).reverse with
    | nil => simp [prior,lo] at found
    | cons b left =>
      simp only [prior,lo,Option.mem_some_iff] at found
      subst found
      have split := below_append_onward (k := k) sorted
      rw [← List.reverse_reverse (below key k es),lo] at split
      simpa [Place.whole] using split
  · exact seek_whole sorted

theorem near_ne_none (inhabited : es ≠ []) {low : Bool} : near key low k es ≠ none := by
  have split := below_append_onward (k := k) sorted
  cases lo : (below key k es).reverse with
  | nil =>
    rw [List.reverse_eq_nil_iff.mp lo,List.nil_append] at split
    rw [near,lo,split]
    cases es with
    | nil => exact absurd rfl inhabited
    | cons e rest => nofun
  | cons b left =>
    rw [near,lo]
    cases onward key k es with
    | nil => nofun
    | cons e rest =>
      dsimp only
      split_ifs <;> nofun

theorem near_present (present : ∃ e ∈ es, key e = k) (low : Bool) :
    ∃ e rest, onward key k es = e :: rest ∧ key e = k ∧
      near key low k es = some (⟨(below key k es).reverse,e,rest⟩, .eq) := by
  obtain ⟨e,rest,hi,same⟩ := onward_of_present sorted present
  refine ⟨e,rest,hi,same,?_⟩
  cases lo : (below key k es).reverse <;> simp only [near,lo,hi,same,if_true]

end

theorem near_eq {low : Bool} {place : Place α} (found : near key low k es = some (place, .eq)) : ∃ e ∈ es, key e = k := by
  by_contra missing
  have other (e : α) (rest : List α) (hi : onward key k es = e :: rest) : key e ≠ k := fun same =>
    missing ⟨e,(mem_onward.mp (hi ▸ List.mem_cons_self : e ∈ onward key k es)).1,same⟩
  cases lo : (below key k es).reverse with
  | nil =>
    cases hi : onward key k es with
    | nil => simp [near,lo,hi] at found
    | cons e rest => simp [near,lo,hi,other e rest hi] at found
  | cons b left =>
    cases hi : onward key k es with
    | nil => simp [near,lo,hi] at found
    | cons e rest => cases low <;> simp [near,lo,hi,other e rest hi] at found

end

section
variable {α K : Type} {key : α → K} {inside : Set K} [DecidablePred (· ∈ inside)]

def members (key : α → K) (inside : Set K) [DecidablePred (· ∈ inside)] (es : List α) : List α :=
  es.filter (fun e => key e ∈ inside)

/-- The entries of an interval up to the first one outside of it. -/
def walked (key : α → K) (inside : Set K) [DecidablePred (· ∈ inside)] (es : List α) : List α :=
  es.takeWhile (fun e => key e ∈ inside)

/-- The interval comes first in the list, or not at all. -/
def Clear (key : α → K) (inside : Set K) (es : List α) : Prop :=
  ∀ first ∈ es.head?, key first ∉ inside → ∀ e ∈ es, key e ∉ inside

theorem mem_members {es : List α} {e : α} : e ∈ members key inside es ↔ e ∈ es ∧ key e ∈ inside := by
  simp [members]

theorem members_eq_nil {es : List α} : members key inside es = [] ↔ ∀ e ∈ es, key e ∉ inside := by
  simp [members]

theorem walked_cons_inside {e : α} {rest : List α} (within : key e ∈ inside) :
    walked key inside (e :: rest) = e :: walked key inside rest := by
  simp [walked,within]

theorem walked_cons_outside {e : α} {rest : List α} (outside : key e ∉ inside) :
    walked key inside (e :: rest) = [] := by
  simp [walked,outside]

theorem members_cons_inside {e : α} {rest : List α} (within : key e ∈ inside) :
    members key inside (e :: rest) = e :: members key inside rest := by
  simp [members,within]

theorem members_cons_outside {e : α} {rest : List α} (outside : key e ∉ inside) :
    members key inside (e :: rest) = members key inside rest := by
  simp [members,outside]

theorem mem_walked {es : List α} {e : α} (member : e ∈ walked key inside es) : e ∈ es ∧ key e ∈ inside := by
  refine ⟨(List.takeWhile_sublist _).mem member,?_⟩
  simpa using List.mem_takeWhile_imp member

theorem walked_eq_nil {es : List α} : walked key inside es = [] ↔ ∀ first ∈ es.head?, key first ∉ inside := by
  cases es with
  | nil => exact iff_of_true rfl (by simp)
  | cons e rest =>
    by_cases within : key e ∈ inside
    · simp [walked_cons_inside within,within]
    · simp [walked_cons_outside within,within]

variable [LinearOrder K]

omit [LinearOrder K] [DecidablePred (· ∈ inside)] in
theorem clear_cons {first : α} {rest : List α} (within : key first ∈ inside) : Clear key inside (first :: rest) := by
  intro e head outside
  rw [List.head?_cons,Option.mem_some_iff] at head
  exact absurd (head ▸ within) outside

section
variable (connected : inside.OrdConnected)
include connected

theorem walked_of_inside {first : α} (member : key first ∈ inside) {es : List α} (sorted : Sorted key (first :: es)) :
    walked key inside es = members key inside es := by
  induction es generalizing first with
  | nil => rfl
  | cons e rest ih =>
    obtain ⟨least,sortedRest⟩ := List.pairwise_cons.mp sorted
    by_cases within : key e ∈ inside
    · rw [walked_cons_inside within,members_cons_inside within,ih within sortedRest]
    rw [walked_cons_outside within,eq_comm,members_eq_nil]
    intro later member' within'
    have order := least e List.mem_cons_self
    rcases List.mem_cons.mp member' with same | after
    · exact within (same ▸ within')
    · have order' := (List.pairwise_cons.mp sortedRest).1 later after
      exact within (connected.out member within' ⟨order.le,order'.le⟩)

theorem walked_eq_members_iff {es : List α} (sorted : Sorted key es) :
    walked key inside es = members key inside es ↔ Clear key inside es := by
  cases es with
  | nil => exact iff_of_true rfl (by simp [Clear])
  | cons first rest =>
    by_cases within : key first ∈ inside
    · apply iff_of_true
      · rw [walked_cons_inside within,members_cons_inside within,walked_of_inside connected within sorted]
      · exact clear_cons within
    rw [walked_cons_outside within,eq_comm,members_eq_nil]
    constructor
    · intro empty _ _ _
      exact empty
    · intro clear
      exact clear first rfl within

theorem walked_reverse_iff {es : List α} (sorted : Sorted key es) :
    walked key inside es.reverse = members key inside es.reverse ↔ Clear key inside es.reverse := by
  exact @walked_eq_members_iff _ _ _ (Set.preimage OrderDual.ofDual inside)
    (fun k => inferInstanceAs (Decidable (OrderDual.ofDual k ∈ inside))) _ connected.dual _ sorted.dual

end

omit [DecidablePred (· ∈ inside)] in
theorem clear_onward (connected : inside.OrdConnected) {k : K} (within : k ∈ inside) {es : List α}
    (sorted : Sorted key es) : Clear key inside (onward key k es) := by
  intro first head outside e member within'
  have ordered : Sorted key (onward key k es) := sorted.filter _
  have reached : k ≤ key first := (mem_onward.mp (List.mem_of_head? head)).2
  exact outside (connected.out within within' ⟨reached,le_of_first ordered head member⟩)

omit [LinearOrder K] in
theorem members_filter {p : α → Bool} {es : List α} (all : ∀ e ∈ es, key e ∈ inside → p e) :
    members key inside (es.filter p) = members key inside es := by
  rw [members,members,List.filter_filter]
  apply List.filter_congr
  intro e member
  by_cases within : key e ∈ inside
  · simp [within,all e member within]
  · simp [within]

theorem members_onward {k : K} (least : ∀ x ∈ inside, k ≤ x) (es : List α) :
    members key inside (onward key k es) = members key inside es :=
  members_filter fun _ _ within => decide_eq_true (least _ within)

theorem members_below {k : K} (greatest : ∀ x ∈ inside, x < k) (es : List α) :
    members key inside (below key k es) = members key inside es :=
  members_filter fun _ _ within => decide_eq_true (greatest _ within)

/-- Skipping the key `k` of the interval does no harm unless it is the first to be met. -/
theorem walked_passing_iff {k : K} (within : k ∈ inside) {es met : List α} (walks : walked key inside es = met)
    {skip : Bool} : walked key inside (passing key skip k es) = met ↔
      (skip = true → ∀ e ∈ met.head?, key e ≠ k) := by
  subst walks
  cases es with
  | nil => exact iff_of_true rfl (by simp [walked])
  | cons e rest =>
    by_cases same : key e = k
    · have first : key e ∈ inside := same ▸ within
      rw [walked_cons_inside first]
      cases skip with
      | false => exact iff_of_true (by simp [passing,walked_cons_inside first]) (by simp)
      | true =>
        apply iff_of_false
        · intro equal
          have lengths := congrArg List.length equal
          simp [passing,same] at lengths
        · intro distinct
          exact distinct rfl e rfl same
    have kept : passing key skip k (e :: rest) = e :: rest :=
      passing_of_ne (fun e' head => by rw [List.head?_cons,Option.mem_some_iff] at head; exact head ▸ same)
    rw [kept]
    apply iff_of_true rfl
    intro _ e' head
    by_cases first : key e ∈ inside
    · rw [walked_cons_inside first,List.head?_cons,Option.mem_some_iff] at head
      exact head ▸ same
    · rw [walked_cons_outside first] at head
      simp at head

end

end FavorX.Cursors
