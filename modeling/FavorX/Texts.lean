import Mathlib

/-!
Byte strings written in hexadecimal, two digits a byte. Written digits are
lower case; both cases are read. What is written reads back, and digits are
never one of the characters that join the parts of a key.
-/
namespace FavorX.Texts

/-- The value of a hexadecimal digit of either case. -/
def digitValue (c : Char) : Option Nat :=
  if '0' ≤ c ∧ c ≤ '9' then some (c.toNat - '0'.toNat)
  else if 'a' ≤ c ∧ c ≤ 'f' then some (c.toNat - 'a'.toNat + 10)
  else if 'A' ≤ c ∧ c ≤ 'F' then some (c.toNat - 'A'.toNat + 10)
  else none

def encodeToString : List UInt8 → List Char
  | [] => []
  | x :: b => Nat.digitChar (x.toNat / 16) :: Nat.digitChar (x.toNat % 16) :: encodeToString b

/-- The bytes that a text of digits stands for. An odd digit at the end or a
    character that is no digit is an error. -/
def decodeString : List Char → Option (List UInt8)
  | [] => some []
  | [_] => none
  | c :: d :: s => do
    let high ← digitValue c
    let low ← digitValue d
    let b ← decodeString s
    return UInt8.ofNat (16 * high + low) :: b

theorem digitValue_digitChar {n : Nat} (small : n < 16) : digitValue (Nat.digitChar n) = some n := by
  interval_cases n <;> rfl

theorem decodeString_encodeToString (b : List UInt8) : decodeString (encodeToString b) = some b := by
  induction b with
  | nil => rfl
  | cons x b ih =>
    have size : x.toNat < 256 := x.toNat_lt
    have halves : 16 * (x.toNat / 16) + x.toNat % 16 = x.toNat := by omega
    rw [encodeToString,decodeString,digitValue_digitChar (by omega),digitValue_digitChar (by omega),ih]
    simp only [Option.bind_eq_bind,Option.bind_some,Option.pure_def,halves,UInt8.ofNat_toNat]

theorem encodeToString_injective : Function.Injective encodeToString := by
  intro a b same
  have read := congrArg decodeString same
  rwa [decodeString_encodeToString,decodeString_encodeToString,Option.some.injEq] at read

theorem notMem_encodeToString {c : Char} (other : digitValue c = none) (b : List UInt8) : c ∉ encodeToString b := by
  induction b with
  | nil => simp [encodeToString]
  | cons x b ih =>
    have size : x.toNat < 256 := x.toNat_lt
    have digit : ∀ n < 16, c ≠ Nat.digitChar n := by
      intro n small same
      rw [same,digitValue_digitChar small] at other
      cases other
    simp [encodeToString,ih,digit (x.toNat / 16) (by omega),digit (x.toNat % 16) (by omega)]

end FavorX.Texts
