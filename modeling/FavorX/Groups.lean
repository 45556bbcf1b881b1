import Mathlib

/-!
Cutting a list into groups of one width. Writing piece by piece passes on the same groups as writing
everything at once (`fulls_append`). `gather` joins each group to one element and hands a single
left over element on.
-/
namespace FavorX.Groups

section
variable {α β : Type} (w : Nat)

def fulls (l : List α) : List (List α) :=
  if l.length < w ∨ w = 0 then [] else l.take w :: fulls (l.drop w)
termination_by l.length
decreasing_by simp only [List.length_drop]; omega

def rest (l : List α) : List α :=
  if l.length < w ∨ w = 0 then l else rest (l.drop w)
termination_by l.length
decreasing_by simp only [List.length_drop]; omega

variable {w}

variable {l : List α}

theorem fulls_short (short : l.length < w) : fulls w l = [] := by
  rw [fulls,if_pos (.inl short)]

theorem rest_short (short : l.length < w) : rest w l = l := by
  rw [rest,if_pos (.inl short)]

variable {g : List α}

section
variable (pos : 0 < w)
include pos

theorem fulls_cons (full : g.length = w) (l : List α) : fulls w (g ++ l) = g :: fulls w l := by
  rw [fulls,if_neg (by simp; omega),List.take_left' full,List.drop_left' full]

theorem rest_cons (full : g.length = w) (l : List α) : rest w (g ++ l) = rest w l := by
  rw [rest,if_neg (by simp; omega),List.drop_left' full]

theorem groups_induction {P : List α → Prop} (short : ∀ l : List α, l.length < w → P l)
    (full : ∀ g l : List α, g.length = w → P l → P (g ++ l)) (l : List α) : P l := by
  induction h : l.length using Nat.strong_induction_on generalizing l with
  | _ n ih =>
    by_cases less : l.length < w
    · exact short l less
    · have rest := ih _ (by simp only [List.length_drop]; omega) (l.drop w) rfl
      have whole := full (l.take w) (l.drop w) (by simp only [List.length_take]; omega) rest
      rwa [List.take_append_drop] at whole

theorem fulls_append (l m : List α) : fulls w (l ++ m) = fulls w l ++ fulls w (rest w l ++ m) := by
  induction l using groups_induction pos with
  | short l less => rw [fulls_short less,rest_short less,List.nil_append]
  | full g l full ih => rw [List.append_assoc,fulls_cons pos full,fulls_cons pos full,rest_cons pos full,ih,List.cons_append]

theorem rest_append (l m : List α) : rest w (l ++ m) = rest w (rest w l ++ m) := by
  induction l using groups_induction pos with
  | short l less => rw [rest_short less]
  | full g l full ih => rw [List.append_assoc,rest_cons pos full,rest_cons pos full,ih]

theorem length_rest (l : List α) : (rest w l).length = l.length % w := by
  induction l using groups_induction pos with
  | short l less => rw [rest_short less,Nat.mod_eq_of_lt less]
  | full g l full ih => rw [rest_cons pos full,ih,List.length_append,full,Nat.add_mod_left]

theorem length_fulls (l : List α) : (fulls w l).length = l.length / w := by
  induction l using groups_induction pos with
  | short l less => rw [fulls_short less,Nat.div_eq_of_lt less,List.length_nil]
  | full g l full ih =>
    rw [fulls_cons pos full,List.length_cons,ih,List.length_append,full,Nat.add_div_left _ pos]

theorem rest_lt (l : List α) : (rest w l).length < w := by
  rw [length_rest pos]
  exact Nat.mod_lt _ pos

theorem length_of_mem_fulls (mem : g ∈ fulls w l) : g.length = w := by
  induction l using groups_induction pos with
  | short l less => simp [fulls_short less] at mem
  | full h l full ih =>
    rw [fulls_cons pos full,List.mem_cons] at mem
    rcases mem with rfl | mem
    · exact full
    · exact ih mem

theorem flatten_fulls (l : List α) : (fulls w l).flatten ++ rest w l = l := by
  induction l using groups_induction pos with
  | short l less => rw [fulls_short less,rest_short less,List.flatten_nil,List.nil_append]
  | full g l full ih =>
    rw [fulls_cons pos full,rest_cons pos full,List.flatten_cons,List.append_assoc,ih]

theorem fulls_snoc_short {a : α} (room : (rest w l).length + 1 < w) : fulls w (l ++ [a]) = fulls w l := by
  rw [fulls_append pos,fulls_short (l := rest w l ++ [a]) (by simpa using room),List.append_nil]

theorem rest_snoc_short {a : α} (room : (rest w l).length + 1 < w) : rest w (l ++ [a]) = rest w l ++ [a] := by
  rw [rest_append pos,rest_short (by simpa using room)]

theorem fulls_snoc_full {a : α} (fills : (rest w l).length + 1 = w) :
    fulls w (l ++ [a]) = fulls w l ++ [rest w l ++ [a]] := by
  rw [fulls_append pos]
  have one := fulls_cons pos (g := rest w l ++ [a]) (by simpa using fills) []
  rw [List.append_nil,fulls_short (l := []) pos] at one
  rw [one]

theorem rest_snoc_full {a : α} (fills : (rest w l).length + 1 = w) : rest w (l ++ [a]) = [] := by
  rw [rest_append pos]
  have none := rest_cons pos (g := rest w l ++ [a]) (by simpa using fills) []
  rwa [List.append_nil,rest_short (l := []) pos] at none

end

variable (w) (join : List α → α)

/-- Join what is left over, unless it is a single element. -/
def carry : List α → List α
  | [] => []
  | [a] => [a]
  | a :: b :: l => [join (a :: b :: l)]

def gather (l : List α) : List α := (fulls w l).map join ++ carry join (rest w l)

def gathered : Nat → List α → List α
  | 0,l => l
  | k + 1,l => gathered k (gather w join l)

/-- The number of elements after joining the groups of `n` elements. -/
def groupCount (n : Nat) : Nat := n / w + min (n % w) 1

def joinCount (n : Nat) : Nat := n / w + if 2 ≤ n % w then 1 else 0

/-- How many more elements the joined groups had room for. -/
def spareCount (n : Nat) : Nat := if 2 ≤ n % w then w - n % w else 0

variable {w} {join}

theorem carry_many (many : 2 ≤ l.length) : carry join l = [join l] := by
  match l,many with
  | _ :: _ :: _,_ => rfl

theorem length_carry (l : List α) : (carry join l).length = min l.length 1 := by
  match l with
  | [] => rfl
  | [_] => rfl
  | _ :: _ :: _ => simp [carry]

theorem length_gather (pos : 0 < w) (l : List α) : (gather w join l).length = groupCount w l.length := by
  rw [gather,List.length_append,List.length_map,length_carry,length_fulls pos,length_rest pos,groupCount]

variable (join) in
theorem gather_cons (pos : 0 < w) (full : g.length = w) (l : List α) :
    gather w join (g ++ l) = join g :: gather w join l := by
  rw [gather,gather,fulls_cons pos full,rest_cons pos full,List.map_cons,List.cons_append]

variable (join) in
theorem gather_few (many : 2 ≤ l.length) (few : l.length ≤ w) : gather w join l = [join l] := by
  rcases Nat.lt_or_eq_of_le few with short | full
  · rw [gather,fulls_short short,rest_short short,carry_many many]
    rfl
  have pos : 0 < w := by omega
  have none : ([] : List α).length < w := pos
  have groups := fulls_cons pos full []
  have left := rest_cons pos full []
  rw [List.append_nil,fulls_short none] at groups
  rw [List.append_nil,rest_short none] at left
  rw [gather,groups,left]
  rfl

variable (join) in
theorem gather_append (wide : 2 ≤ w) {m : List α} (one : (rest w l ++ m).length ≤ w) :
    gather w join (l ++ m) = (fulls w l).map join ++ carry join (rest w l ++ m) := by
  have pos : 0 < w := by omega
  rw [gather,fulls_append pos,rest_append pos,List.map_append,List.append_assoc]
  congr 1
  rcases Nat.lt_or_eq_of_le one with less | full
  · rw [fulls_short less,rest_short less]
    rfl
  have group := gather_cons join pos full []
  rw [List.append_nil,gather] at group
  rw [group,gather,fulls_short (l := []) pos,rest_short (l := []) pos,carry_many (l := rest w l ++ m) (by omega)]
  rfl

/-- Every element is whole but for the last, which may be in part. -/
def Laid (whole part : α → Prop) (l : List α) : Prop :=
  ∃ init last, l = init ++ [last] ∧ (∀ a ∈ init, whole a) ∧ part last

theorem laid_gather {whole part whole' part' : α → Prop} (wide : 2 ≤ w)
    (joinWhole : ∀ g, g.length = w → (∀ a ∈ g, whole a) → whole' (join g))
    (joinPart : ∀ g, 2 ≤ g.length → g.length ≤ w → Laid whole part g → part' (join g))
    (single : ∀ a, part a → part' a) (laid : Laid whole part l) : Laid whole' part' (gather w join l) := by
  have pos : 0 < w := by omega
  induction l using groups_induction pos with
  | short l less =>
    rw [gather,fulls_short less,rest_short less]
    obtain ⟨init,last,rfl,wholes,ends⟩ := laid
    cases init with
    | nil => exact ⟨[],last,rfl,by simp,single last ends⟩
    | cons a init =>
      rw [carry_many (by simp)]
      exact ⟨[],_,rfl,by simp,joinPart _ (by simp) less.le ⟨_,_,rfl,wholes,ends⟩⟩
  | full g l full ih =>
    rw [gather_cons join pos full]
    obtain rfl | ⟨front,tail,rfl⟩ := List.eq_nil_or_concat l
    · rw [List.append_nil] at laid
      refine ⟨[],join g,?_,by simp,joinPart g (by omega) full.le laid⟩
      rw [gather,fulls_short pos,rest_short pos]
      rfl
    obtain ⟨init,last,same,wholes,ends⟩ := laid
    rw [List.concat_eq_append,← List.append_assoc] at same
    obtain ⟨rfl,tails⟩ := List.append_inj' same rfl
    obtain rfl := List.singleton_inj.mp tails
    have below : Laid whole part (front.concat tail) :=
      ⟨front,tail,List.concat_eq_append,fun a mem => wholes a (by simp [mem]),ends⟩
    obtain ⟨joined,final,same,allWhole,ends⟩ := ih below
    refine ⟨join g :: joined,final,by rw [same,List.cons_append],?_,ends⟩
    intro a mem
    rcases List.mem_cons.mp mem with rfl | mem
    · exact joinWhole g full (fun a mem => wholes a (by simp [mem]))
    · exact allWhole a mem

/-- Counts of joining `k` times. -/
def countAfter (w : Nat) : Nat → Nat → Nat
  | 0,n => n
  | k + 1,n => countAfter w k (groupCount w n)

def joinsAfter (w : Nat) : Nat → Nat → Nat
  | 0,_ => 0
  | k + 1,n => joinCount w n + joinsAfter w k (groupCount w n)

def sparesAfter (w : Nat) : Nat → Nat → Nat
  | 0,_ => 0
  | k + 1,n => spareCount w n + sparesAfter w k (groupCount w n)

variable (join) in
theorem length_gathered (pos : 0 < w) (k : Nat) (l : List α) :
    (gathered w join k l).length = countAfter w k l.length := by
  induction k generalizing l with
  | zero => rfl
  | succ k ih => rw [gathered,ih,length_gather pos,countAfter]

theorem groupCount_pos (pos : 0 < w) {n : Nat} (some : 0 < n) : 0 < groupCount w n := by
  unfold groupCount
  rcases Nat.lt_or_ge n w with less | more
  · rw [Nat.mod_eq_of_lt less]
    exact Nat.add_pos_right _ (by omega)
  · exact Nat.add_pos_left (Nat.div_pos more pos) _

theorem groupCount_le (pos : 0 < w) {n m : Nat} (fits : n ≤ m * w) : groupCount w n ≤ m := by
  unfold groupCount
  rcases Nat.eq_zero_or_pos (n % w) with zero | left
  · rw [zero]
    exact Nat.div_le_of_le_mul (by rwa [Nat.mul_comm] at fits)
  have : n / w < m := by
    rw [Nat.div_lt_iff_lt_mul pos]
    by_contra no
    have same : n = m * w := by omega
    rw [same,Nat.mul_mod_left] at left
    omega
  omega

theorem countAfter_one (pos : 0 < w) {k n : Nat} (some : 0 < n) (fits : n ≤ w ^ k) : countAfter w k n = 1 := by
  induction k generalizing n with
  | zero =>
    rw [countAfter]
    simp only [Nat.pow_zero] at fits
    omega
  | succ k ih =>
    exact ih (groupCount_pos pos some) (groupCount_le pos (by rwa [Nat.pow_succ] at fits))

/-- Every join takes `w - 1` elements away, but for the room that it leaves. -/
theorem joins_once (wide : 2 ≤ w) {n : Nat} :
    n + spareCount w n = groupCount w n + joinCount w n * (w - 1) := by
  unfold spareCount groupCount joinCount
  obtain ⟨v,rfl⟩ : ∃ v, w = v + 1 := ⟨w - 1,by omega⟩
  have split := Nat.div_add_mod n (v + 1)
  have less := Nat.mod_lt n (by omega : 0 < v + 1)
  generalize n / (v + 1) = q at *
  rw [Nat.add_sub_cancel]
  have expand : (v + 1) * q = v * q + q := by ring
  split
  · have : (q + 1) * v = v * q + v := by ring
    omega
  · have : (q + 0) * v = v * q := by ring
    omega

theorem joins_after (wide : 2 ≤ w) (k n : Nat) :
    n + sparesAfter w k n = countAfter w k n + joinsAfter w k n * (w - 1) := by
  induction k generalizing n with
  | zero => simp [sparesAfter,countAfter,joinsAfter]
  | succ k ih =>
    have once := joins_once wide (n := n)
    have more := ih (groupCount w n)
    rw [sparesAfter,countAfter,joinsAfter,Nat.add_mul]
    omega

theorem flatMap_gather {content : α → List β} (pos : 0 < w) (kept : ∀ g, content (join g) = g.flatMap content)
    (l : List α) : (gather w join l).flatMap content = l.flatMap content := by
  have carried : ∀ l : List α, (carry join l).flatMap content = l.flatMap content := by
    intro l
    match l with
    | [] => rfl
    | [_] => rfl
    | _ :: _ :: _ => rw [carry,List.flatMap_singleton,kept]
  induction l using groups_induction pos with
  | short l less => rw [gather,fulls_short less,rest_short less,List.map_nil,List.nil_append,carried]
  | full g l full ih => rw [gather_cons join pos full,List.flatMap_cons,kept,ih,List.flatMap_append]

variable (join) in
theorem flatMap_gathered {content : α → List β} (pos : 0 < w) (kept : ∀ g, content (join g) = g.flatMap content)
    (k : Nat) (l : List α) : (gathered w join k l).flatMap content = l.flatMap content := by
  induction k generalizing l with
  | zero => rfl
  | succ k ih => rw [gathered,ih,flatMap_gather pos kept]

theorem gathered_singleton (wide : 2 ≤ w) (k : Nat) (a : α) : gathered w join k [a] = [a] := by
  have once : gather w join [a] = [a] := by
    rw [gather,fulls_short (by simp; omega),rest_short (by simp; omega)]
    rfl
  induction k with
  | zero => rfl
  | succ k ih => rw [gathered,once,ih]

theorem gathered_add (k m : Nat) (l : List α) : gathered w join (k + m) l = gathered w join m (gathered w join k l) := by
  induction k generalizing l with
  | zero => rw [Nat.zero_add,gathered]
  | succ k ih => rw [Nat.succ_add,gathered,gathered,ih]

variable (weigh : α → Nat)

/-- The sum over a list of what its elements weigh. -/
def weight (l : List α) : Nat := (l.map weigh).sum

theorem weight_append (l m : List α) : weight weigh (l ++ m) = weight weigh l + weight weigh m := by
  simp [weight]

theorem weight_gather (wide : 2 ≤ w) (one : ∀ g, weigh (join g) = weight weigh g + 1) (l : List α) :
    weight weigh (gather w join l) = weight weigh l + joinCount w l.length := by
  have pos : 0 < w := by omega
  induction l using groups_induction pos with
  | short l less =>
    rw [gather,fulls_short less,rest_short less,joinCount,Nat.div_eq_of_lt less,Nat.mod_eq_of_lt less]
    split
    · next many => rw [carry_many many,← one]; simp [weight]
    next few =>
    match l,few with
    | [],_ => rfl
    | [_],_ => rfl
    | _ :: _ :: _,few => simp at few
  | full g l full ih =>
    rw [gather_cons join pos full,← List.singleton_append,weight_append,ih,weight_append,List.length_append,full,joinCount,
      joinCount,Nat.add_div_left _ pos,Nat.add_mod_left]
    have : weight weigh [join g] = weight weigh g + 1 := by rw [← one]; simp [weight]
    omega

theorem weight_gathered (wide : 2 ≤ w) (one : ∀ g, weigh (join g) = weight weigh g + 1) (k : Nat) (l : List α) :
    weight weigh (gathered w join k l) = weight weigh l + joinsAfter w k l.length := by
  have pos : 0 < w := by omega
  induction k generalizing l with
  | zero => rfl
  | succ k ih => rw [gathered,ih,weight_gather weigh wide one,length_gather pos,joinsAfter,Nat.add_assoc]

end
end FavorX.Groups
