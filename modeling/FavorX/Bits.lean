import Mathlib

/-!
Byte strings read as strings of bits, the least significant bit of each byte
first. Bits past the end are not set. Setting a bit flips it when it is not set
yet, as programs do with an exclusive or.
-/
namespace FavorX.Bits

def unit (k : Nat) : UInt8 := 1 <<< UInt8.ofNat (k % 8)

def bitAt (b : List UInt8) (i : Nat) : Bool := (b.getD (i / 8) 0).toNat.testBit (i % 8)

def flip (b : List UInt8) (i : Nat) : List UInt8 := b.modify (i / 8) (· ^^^ unit i)

theorem toNat_unit (k : Nat) : (unit k).toNat = 2 ^ (k % 8) := by
  have small : k % 8 < 8 := Nat.mod_lt _ (by decide)
  unfold unit
  generalize k % 8 = r at small
  interval_cases r <;> rfl

variable (x : UInt8)

theorem and_unit (k : Nat) : (x &&& unit k != 0) = x.toNat.testBit (k % 8) := by
  have masked : (x &&& unit k).toNat = x.toNat &&& 2 ^ (k % 8) := by rw [UInt8.toNat_and,toNat_unit]
  rw [Nat.and_two_pow] at masked
  cases bit : x.toNat.testBit (k % 8) with
  | true =>
    rw [bit] at masked
    rw [bne_iff_ne]
    intro zero
    rw [zero] at masked
    have positive : 0 < 2 ^ (k % 8) := Nat.two_pow_pos _
    simp only [UInt8.toNat_zero,Bool.toNat_true,Nat.one_mul] at masked
    omega
  | false =>
    rw [bit] at masked
    rw [bne_eq_false_iff_eq]
    apply UInt8.toNat_inj.mp
    simpa using masked

theorem testBit_large {k : Nat} (large : 8 ≤ k) : x.toNat.testBit k = false :=
  Nat.testBit_lt_two_pow (lt_of_lt_of_le x.toNat_lt (Nat.pow_le_pow_right (by decide) large))

theorem eq_full_iff : x = 0xff ↔ ∀ k < 8, x.toNat.testBit k = true := by
  constructor
  · rintro rfl k small
    interval_cases k <;> rfl
  intro bits
  apply UInt8.toNat_inj.mp
  apply Nat.eq_of_testBit_eq
  intro k
  by_cases small : k < 8
  · rw [bits k small]
    interval_cases k <;> rfl
  · rw [testBit_large _ (not_lt.mp small),testBit_large _ (not_lt.mp small)]

@[simp] theorem length_flip {b : List UInt8} (i : Nat) : (flip b i).length = b.length := by
  simp [flip]

theorem bitAt_beyond {b : List UInt8} {i : Nat} (beyond : 8 * b.length ≤ i) : bitAt b i = false := by
  have outside : b.length ≤ i / 8 := by omega
  rw [bitAt,List.getD_eq_getElem?_getD,List.getElem?_eq_none outside]
  simp

theorem eq_of_bits {b c : List UInt8} (length : b.length = c.length) (bits : ∀ i, bitAt b i = bitAt c i) : b = c := by
  apply List.ext_getElem length
  intro n left right
  apply UInt8.toNat_inj.mp
  apply Nat.eq_of_testBit_eq
  intro k
  by_cases small : k < 8
  · have byte : (8 * n + k) / 8 = n := by omega
    have place : (8 * n + k) % 8 = k := by omega
    simpa [bitAt,byte,place,left,right] using bits (8 * n + k)
  · rw [testBit_large _ (not_lt.mp small),testBit_large _ (not_lt.mp small)]

theorem bitAt_replicate (n i : Nat) : bitAt (List.replicate n 0) i = false := by
  rw [bitAt,List.getD_eq_getElem?_getD,List.getElem?_replicate]
  split <;> simp

theorem bitAt_flip {b : List UInt8} {i : Nat} (inside : i < 8 * b.length) (j : Nat) :
    bitAt (flip b i) j = (bitAt b j ^^ decide (i = j)) := by
  have held : i / 8 < b.length := by omega
  simp only [bitAt,flip,List.getD_eq_getElem?_getD,List.getElem?_modify]
  by_cases same : i / 8 = j / 8
  · rw [← same,List.getElem?_eq_getElem held]
    simp only [if_true,Option.map_eq_map,Option.map_some,Option.getD_some,UInt8.toNat_xor,
      Nat.testBit_xor,toNat_unit,Nat.testBit_two_pow]
    have bit : i % 8 = j % 8 ↔ i = j := by omega
    simp only [bit]
  · have other : i ≠ j := fun equal => same (by rw [equal])
    simp [same,other]

end FavorX.Bits
