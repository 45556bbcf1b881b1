import Mathlib

/-!
Byte strings in the order of the bytes, as an ordered store keeps its keys.
The strings that start with a given one are an interval; `successor` is the
least string after that interval, `carried` a string of the same length that
lies at or after it.
-/
namespace FavorX.ByteKeys

instance linearOrderByte : LinearOrder UInt8 where
  le := (· ≤ ·)
  lt := (· < ·)
  le_refl := UInt8.le_refl
  le_trans _ _ _ := UInt8.le_trans
  lt_iff_le_not_ge a b := by rw [UInt8.lt_iff_toNat_lt,UInt8.le_iff_toNat_le,UInt8.le_iff_toNat_le]; omega
  le_antisymm _ _ := UInt8.le_antisymm
  le_total := UInt8.le_total
  toDecidableLE := inferInstance

abbrev Bytes := List UInt8

variable {x y p q : Bytes}

theorem cons_lt {a b : UInt8} : a :: x < b :: y ↔ a < b ∨ a = b ∧ x < y := List.cons_lt_cons_iff

theorem nil_lt {a : UInt8} : ([] : Bytes) < a :: x := List.nil_lt_cons a x

theorem append_lt_iff (p : Bytes) : p ++ x < p ++ y ↔ x < y := by
  induction p with
  | nil => rfl
  | cons a p ih => simp [ih]

theorem append_le_iff (p : Bytes) : p ++ x ≤ p ++ y ↔ x ≤ y := by
  rw [← not_lt,← not_lt,append_lt_iff]

theorem le_of_starts (starts : p <+: x) : p ≤ x := by
  obtain ⟨y,rfl⟩ := starts
  conv_lhs => rw [← List.append_nil p]
  rw [append_le_iff]
  exact not_lt.mp (List.not_lt_nil y)

theorem starts_between {p x y z : Bytes} (first : p <+: x) (last : p <+: z) (after : x ≤ y) (before : y ≤ z) :
    p <+: y := by
  induction p generalizing x y z with
  | nil => exact List.nil_prefix
  | cons a p ih =>
    obtain ⟨x,rfl⟩ := first
    obtain ⟨z,rfl⟩ := last
    simp only [List.cons_append] at after before
    cases y with
    | nil => exact absurd after (not_le.mpr nil_lt)
    | cons b y =>
      rw [← not_lt,cons_lt] at after before
      have same : b = a := by
        rcases lt_trichotomy b a with less | equal | greater
        · exact absurd (.inl less) after
        · exact equal
        · exact absurd (.inl greater) before
      subst same
      rw [List.prefix_cons_inj]
      apply ih (List.prefix_append p x) (List.prefix_append p z)
      · exact not_lt.mp (fun less => after (.inr ⟨rfl,less⟩))
      · exact not_lt.mp (fun less => before (.inr ⟨rfl,less⟩))

/-- The last byte that is not 255 is incremented and the bytes after it are cut off. -/
def successor : Bytes → Option Bytes
  | [] => none
  | b :: rest =>
    match successor rest with
    | some next => some (b :: next)
    | none => if b = 255 then none else some [b + 1]

/-- The next number of the same length, or nothing when all bytes are 255. -/
def carried : Bytes → Option Bytes
  | [] => none
  | b :: rest =>
    match carried rest with
    | some next => some (b :: next)
    | none => if b = 255 then none else some ((b + 1) :: List.replicate rest.length 0)

theorem lt_succ_iff {b c : UInt8} (room : b ≠ 255) : c < b + 1 ↔ c < b ∨ c = b := by
  have bound : b.toNat < 255 := by
    have small := b.toNat_lt
    have other : b.toNat ≠ 255 := fun equal => room (UInt8.toNat_inj.mp equal)
    omega
  rw [UInt8.lt_iff_toNat_lt,UInt8.lt_iff_toNat_lt,← UInt8.toNat_inj,UInt8.toNat_add]
  simp only [UInt8.reduceToNat]
  omega

theorem le_max (b : UInt8) : b ≤ 255 := by
  rw [UInt8.le_iff_toNat_le]
  have small := b.toNat_lt
  simp only [UInt8.reduceToNat]
  omega

/-- Without a successor nothing comes after the strings that start with `p`. -/
theorem lt_or_starts (last : successor p = none) (x : Bytes) : x < p ∨ p <+: x := by
  induction p generalizing x with
  | nil => exact .inr List.nil_prefix
  | cons b rest ih =>
    cases next : successor rest with
    | some q => simp only [successor,next,reduceCtorEq] at last
    | none =>
      have top : b = 255 := by
        by_contra other
        simp [successor,next,other] at last
      subst top
      cases x with
      | nil => exact .inl nil_lt
      | cons c x =>
        rw [cons_lt]
        rcases lt_or_eq_of_le (le_max c) with less | equal
        · exact .inl (.inl less)
        subst equal
        rw [List.prefix_cons_inj]
        rcases ih next x with less | starts
        · exact .inl (.inr ⟨rfl,less⟩)
        · exact .inr starts

theorem lt_successor_iff (next : successor p = some q) (x : Bytes) : x < q ↔ x < p ∨ p <+: x := by
  induction p generalizing q x with
  | nil => simp only [successor,reduceCtorEq] at next
  | cons b rest ih =>
    cases later : successor rest with
    | some r =>
      simp only [successor,later,Option.some.injEq] at next
      subst next
      cases x with
      | nil => exact iff_of_true nil_lt (.inl nil_lt)
      | cons c x =>
        rw [cons_lt,cons_lt,List.cons_prefix_cons,ih later x]
        constructor
        · rintro (less | ⟨same,less | starts⟩)
          · exact .inl (.inl less)
          · exact .inl (.inr ⟨same,less⟩)
          · exact .inr ⟨same.symm,starts⟩
        rintro ((less | ⟨same,less⟩) | ⟨same,starts⟩)
        · exact .inl less
        · exact .inr ⟨same,.inl less⟩
        · exact .inr ⟨same.symm,.inr starts⟩
    | none =>
      have room : b ≠ 255 := by
        intro top
        simp [successor,later,top] at next
      simp only [successor,later,room,if_false,Option.some.injEq] at next
      subst next
      cases x with
      | nil => exact iff_of_true nil_lt (.inl nil_lt)
      | cons c x =>
        rw [cons_lt,cons_lt,List.cons_prefix_cons,lt_succ_iff room]
        constructor
        · rintro ((less | same) | ⟨_,less⟩)
          · exact .inl (.inl less)
          · rcases lt_or_starts later x with less | starts
            · exact .inl (.inr ⟨same,less⟩)
            · exact .inr ⟨same.symm,starts⟩
          · exact absurd less (List.not_lt_nil x)
        rintro ((less | ⟨same,-⟩) | ⟨same,-⟩)
        · exact .inl (.inl less)
        · exact .inl (.inr same)
        · exact .inl (.inr same.symm)

theorem carried_eq_none : carried p = none ↔ successor p = none := by
  induction p with
  | nil => exact iff_of_true rfl rfl
  | cons b rest ih =>
    cases later : carried rest with
    | some r =>
      cases next : successor rest with
      | some q => simp [carried,successor,later,next]
      | none => rw [ih.mpr next] at later; contradiction
    | none =>
      simp only [carried,successor,ih.mp later,later]
      split <;> simp only [reduceCtorEq]

theorem lt_carried (next : carried p = some q) (inside : x < p ∨ p <+: x) : x < q := by
  induction p generalizing q x with
  | nil => simp only [carried,reduceCtorEq] at next
  | cons b rest ih =>
    cases x with
    | nil =>
      cases q with
      | nil => cases later : carried rest <;> simp [carried,later] at next
      | cons c q => exact nil_lt
    | cons c x =>
      cases later : carried rest with
      | some r =>
        simp only [carried,later,Option.some.injEq] at next
        subst next
        rw [cons_lt,List.cons_prefix_cons] at inside
        rw [cons_lt]
        rcases inside with (less | ⟨same,less⟩) | ⟨same,starts⟩
        · exact .inl less
        · exact .inr ⟨same,ih later (.inl less)⟩
        · exact .inr ⟨same.symm,ih later (.inr starts)⟩
      | none =>
        have room : b ≠ 255 := by
          intro top
          simp [carried,later,top] at next
        simp only [carried,later,room,if_false,Option.some.injEq] at next
        subst next
        rw [cons_lt,List.cons_prefix_cons] at inside
        rw [cons_lt,lt_succ_iff room]
        rcases inside with (less | ⟨same,-⟩) | ⟨same,-⟩
        · exact .inl (.inl less)
        · exact .inl (.inr same)
        · exact .inl (.inr same.symm)

end FavorX.ByteKeys
