import FavorX.Localstore

/-!
Proximity orders and the length of the common prefix of two addresses. `Proximity` is that length up to
`MaxPO` (`proximity_matches`). `ExtendedProximity` reads whole bytes, so that it passes its bound for prefixes
that end late in the last byte it reads (`extendedProximity_iff`).
-/
namespace FavorX.Proximities
open Shed (Bytes)
open Localstore (proximity maxPO)

def extendedPO : Nat := maxPO + 5

/-- The first bit in which two addresses differ, if it is in their first `b` bytes. -/
def firstDifference (b : Nat) (one other : Bytes) : Option Nat :=
  let firstBit (oxo : UInt8) : Option Nat :=
    (List.range 8).find? (fun j => (oxo >>> UInt8.ofNat (7 - j)) &&& 1 != 0)
  (List.range b).findSome? (fun i => (firstBit (one.getD i 0 ^^^ other.getD i 0)).map (i * 8 + ·))

def extendedProximity (one other : Bytes) : Nat :=
  let b := min (extendedPO / 8 + 1) (min (one.length % 256) (other.length % 256))
  (firstDifference b one other).getD extendedPO

def compare : Bytes → Bytes → Bytes → Int
  | u :: a,v :: x,w :: y =>
    let dx := v ^^^ u
    let dy := w ^^^ u
    if dx = dy then compare a x y else if dx < dy then 1 else -1
  | _,_,_ => 0

/-- 1 if `x` is closer to `a` than `y` is; the lengths must match. -/
def distanceCmp (a x y : Bytes) : Option Int :=
  if a.length ≠ x.length ∨ a.length ≠ y.length then none else some (compare a x y)

/-- The bits of an address, the most significant one of each byte first. -/
def bit (a : Bytes) (i : Nat) : Bool := (a.getD (i / 8) 0).toNat.testBit (7 - i % 8)

/-- The length of the common bit prefix of two addresses. -/
def common (a x : Bytes) : Nat := ((List.range (8 * a.length)).takeWhile (fun i => bit a i == bit x i)).length

theorem shifted_testBit (x : UInt8) {k : Nat} (small : k < 8) :
    ((x >>> UInt8.ofNat k) &&& 1 != 0) = x.toNat.testBit k := by
  have fits : k < UInt8.size := Nat.lt_trans small (by decide)
  rw [Bool.eq_iff_iff]
  simp [← UInt8.toNat_inj,UInt8.toNat_ofNat_of_lt' fits,Nat.mod_eq_of_lt small,Nat.shiftRight_eq_div_pow,
    Nat.testBit_eq_decide_div_mod_eq]

theorem bit_xor (a x : Bytes) (i : Nat) :
    (a.getD (i / 8) 0 ^^^ x.getD (i / 8) 0).toNat.testBit (7 - i % 8) = (bit a i != bit x i) := by
  rw [UInt8.toNat_xor,Nat.testBit_xor]
  rfl

theorem firstDifference_eq (b : Nat) (one other : Bytes) :
    firstDifference b one other = (List.range (8 * b)).find? (fun i => bit one i != bit other i) := by
  induction b with
  | zero => rfl
  | succ b ih =>
    -- the bits of one byte are the next eight positions
    have byte : ∀ j ∈ List.range 8,((one.getD b 0 ^^^ other.getD b 0) >>> UInt8.ofNat (7 - j) &&& 1 != 0) =
        (bit one (8 * b + j) != bit other (8 * b + j)) := by
      intro j inside
      have small := List.mem_range.mp inside
      have place : (8 * b + j) / 8 = b ∧ (8 * b + j) % 8 = j := by omega
      rw [← bit_xor,place.1,place.2,shifted_testBit _ (by omega)]
    have step : firstDifference (b + 1) one other = (firstDifference b one other).or
        (((List.range 8).find? (fun j => bit one (8 * b + j) != bit other (8 * b + j))).map (b * 8 + ·)) := by
      rw [← List.find?_congr byte,firstDifference,List.range_succ (n := b),List.findSome?_append,List.findSome?_singleton]
      rfl
    rw [step,ih,Nat.mul_succ 8 b,List.range_add,List.find?_append,List.find?_map,Nat.mul_comm b 8]
    rfl

theorem takeWhile_range (p : Nat → Bool) (n : Nat) : ((List.range n).takeWhile p).length ≤ n ∧
    (∀ i < ((List.range n).takeWhile p).length, p i) ∧
    (((List.range n).takeWhile p).length < n → ¬ p ((List.range n).takeWhile p).length) := by
  induction n with
  | zero => simp
  | succ n ih =>
    rw [List.range_succ,List.takeWhile_append,List.length_range]
    split
    · rename_i whole
      by_cases last : p n
      · simp [last]
        grind
      · simp [last]
        grind
    · grind

theorem common_agree {a x : Bytes} {i : Nat} (less : i < common a x) : bit a i = bit x i :=
  eq_of_beq ((takeWhile_range _ _).2.1 i less)

theorem common_differ {a x : Bytes} (less : common a x < 8 * a.length) : bit a (common a x) ≠ bit x (common a x) := by
  have differ := (takeWhile_range _ _).2.2 less
  rwa [beq_iff_eq] at differ

/-- The loop over `b` bytes finds the end of the common prefix, if it is in these bytes. -/
theorem firstDifference_common {a : Bytes} (x : Bytes) {b : Nat} (le : b ≤ a.length) :
    firstDifference b a x = if common a x < 8 * b then some (common a x) else none := by
  rw [firstDifference_eq]
  split
  · rename_i less
    rw [List.find?_range_eq_some]
    refine ⟨by simpa using common_differ (by omega),by simpa using less,?_⟩
    intro i below
    simp [common_agree below]
  · rename_i whole
    rw [List.find?_range_eq_none]
    intro i below
    simp [common_agree (show i < common a x by omega)]

theorem proximity_eq {a x : Bytes} (ha : a.length = 32) (hx : x.length = 32) : proximity a x = min maxPO (common a x) := by
  have found : proximity a x = (firstDifference 4 a x).getD maxPO := by
    simp only [proximity,ha,hx]
    rfl
  rw [found,firstDifference_common x (by omega)]
  split <;> simp [maxPO] <;> omega

theorem common_symm {a x : Bytes} (same : a.length = x.length) : common a x = common x a := by
  simp only [common,same,Bool.beq_comm]

theorem common_le {a x y : Bytes} (ha : a.length = 32) (hx : x.length = 32) :
    min (common a x) (common a y) ≤ common x y := by
  by_contra shorter
  rw [not_le,lt_min_iff] at shorter
  have inside : common a x ≤ 8 * a.length := (takeWhile_range _ _).1
  refine common_differ (a := x) (x := y) (by omega) ?_
  rw [← common_agree shorter.1,common_agree shorter.2]

/-- The first byte that decides the comparison. -/
theorem compare_one {a x y : Bytes} (closer : compare a x y = 1) : ∃ i,
    (∀ j < i,x.getD j 0 ^^^ a.getD j 0 = y.getD j 0 ^^^ a.getD j 0) ∧
    x.getD i 0 ^^^ a.getD i 0 < y.getD i 0 ^^^ a.getD i 0 := by
  fun_induction compare a x y with
  | case1 u a v x w y dx dy same ih =>
    obtain ⟨i,before,less⟩ := ih closer
    refine ⟨i + 1,?_,less⟩
    rintro (_ | j) below
    · exact same
    · exact before j (by omega)
  | case2 u a v x w y dx dy other less => exact ⟨0,by simp,less⟩
  | case3 => simp at closer
  | case4 => simp at closer

/-- The highest bit in which two bytes differ is set in the greater one. -/
theorem top_bit {u v : UInt8} (less : u < v) : ∃ t < 8,v.toNat.testBit t = true ∧
    ∀ j,t < j → u.toNat.testBit j = v.toNat.testBit j := by
  have less : u.toNat < v.toNat := less
  have other : u.toNat ^^^ v.toNat ≠ 0 := by
    intro same
    exact less.ne (Nat.xor_eq_zero_iff.mp same)
  obtain ⟨t,top,above⟩ := Nat.exists_most_significant_bit other
  have equal : ∀ j,t < j → u.toNat.testBit j = v.toNat.testBit j := by
    intro j high
    simpa using above j high
  have set : v.toNat.testBit t = true := by
    by_contra clear
    rw [Bool.not_eq_true] at clear
    have greater : v.toNat < u.toNat := by
      refine Nat.lt_of_testBit t clear (by simpa [clear] using top) ?_
      intro j high
      exact (equal j high).symm
    omega
  refine ⟨t,?_,set,equal⟩
  by_contra big
  have fits : v.toNat < 2 ^ t := (UInt8.toNat_lt v).trans_le (Nat.pow_le_pow_right (by omega) (by omega))
  simp [Nat.testBit_lt_two_pow fits] at set

/-- A smaller distance: up to some bit of `y` that is not that of `a`, `x` agrees with `a` wherever `y` does. -/
theorem closer_bits {a x y : Bytes} (closer : compare a x y = 1) : ∃ q,bit a q ≠ bit y q ∧
    ∀ i < q,(bit a i = bit x i ↔ bit a i = bit y i) := by
  obtain ⟨n,before,less⟩ := compare_one closer
  obtain ⟨t,small,set,equal⟩ := top_bit less
  have agree : ∀ (z : Bytes) i,bit a i = bit z i ↔
      (z.getD (i / 8) 0 ^^^ a.getD (i / 8) 0).toNat.testBit (7 - i % 8) = false := by
    intro z i
    rw [bit_xor,bne_eq_false_iff_eq,eq_comm]
  have place : (8 * n + (7 - t)) / 8 = n ∧ 7 - (8 * n + (7 - t)) % 8 = t := by omega
  refine ⟨8 * n + (7 - t),?_,?_⟩
  · rw [Ne,agree,place.1,place.2,set]
    decide
  · intro i below
    rw [agree,agree]
    obtain earlier | here := Nat.lt_or_eq_of_le (show i / 8 ≤ n by omega)
    · rw [before _ earlier]
    · rw [here,equal _ (by omega)]

theorem closer_common {a x y : Bytes} (closer : compare a x y = 1) : common a y ≤ common a x := by
  obtain ⟨q,differ,same⟩ := closer_bits closer
  have short : common a y ≤ q := by
    by_contra longer
    exact differ (common_agree (by omega))
  by_contra shorter
  have inside : common a y ≤ 8 * a.length := (takeWhile_range _ _).1
  exact common_differ (a := a) (x := x) (by omega)
    ((same _ (by omega)).mpr (common_agree (by omega)))

/-- The proximity order is the length of the common prefix up to `MaxPO`. It is symmetric, closeness to `a` carries
over to each other, and a smaller distance never has a smaller order. -/
theorem proximity_matches {a x y : Bytes} (ha : a.length = 32) (hx : x.length = 32) (hy : y.length = 32) :
    proximity a x = min maxPO (common a x) ∧ proximity a x = proximity x a ∧
    min (proximity a x) (proximity a y) ≤ proximity x y ∧
    (distanceCmp a x y = some 1 → proximity a y ≤ proximity a x) := by
  simp only [proximity_eq,ha,hx,hy,true_and]
  refine ⟨?_,?_,?_⟩
  · rw [common_symm (ha.trans hx.symm)]
  · have := common_le (y := y) ha hx
    omega
  · intro closer
    have := closer_common (a := a) (x := x) (y := y) (by simpa [distanceCmp,ha,hx,hy] using closer)
    omega

theorem proximity_matches_third :
    min (proximity (List.replicate 32 0) (1 :: List.replicate 31 0))
      (proximity (List.replicate 32 0) (3 :: List.replicate 31 0)) ≤
      proximity (1 :: List.replicate 31 0) (3 :: List.replicate 31 0) :=
  (proximity_matches (by simp) (by simp) (by simp)).2.2.1

theorem extendedProximity_eq {a x : Bytes} (ha : a.length = 32) (hx : x.length = 32) :
    extendedProximity a x = if common a x < 40 then common a x else extendedPO := by
  have found : extendedProximity a x = (firstDifference 5 a x).getD extendedPO := by
    simp only [extendedProximity,ha,hx]
    rfl
  rw [found,firstDifference_common x (by omega)]
  split <;> rfl

/-- What the extended order promises: it is bounded, a longer common prefix never has a smaller order, and no address
has a greater order than `a` itself. -/
def Monotone (a x y : Bytes) : Prop :=
  extendedProximity a x ≤ extendedPO ∧
  (common a y < common a x → extendedProximity a y ≤ extendedProximity a x) ∧
  extendedProximity a x ≤ extendedProximity a a

/-- The prefix ends in the part of the last byte that is past the bound. -/
def Beyond (a x : Bytes) : Prop := extendedPO < common a x ∧ common a x < 8 * (extendedPO / 8 + 1)

theorem extendedProximity_iff {a x y : Bytes} (ha : a.length = 32) (hx : x.length = 32) (hy : y.length = 32) :
    Monotone a x y ↔ ¬ Beyond a x ∧ (Beyond a y → common a x ≤ common a y) := by
  have self : common a a = 256 := by
    have inside : common a a ≤ 8 * a.length := (takeWhile_range _ _).1
    by_contra shorter
    exact common_differ (a := a) (x := a) (by omega) rfl
  simp only [Monotone,Beyond,extendedProximity_eq,ha,hx,hy,self,extendedPO,maxPO]
  grind

theorem extendedProximity_near :
    Monotone (List.replicate 32 0) (1 :: List.replicate 31 0) (2 :: List.replicate 31 0) :=
  (extendedProximity_iff (by simp) (by simp) (by simp)).mpr (by unfold Beyond; decide)

/-- A prefix of 37 bits has a greater order than the address itself. -/
theorem extendedProximity_passes : let a := List.replicate 32 0
    let y := List.replicate 4 0 ++ 4 :: List.replicate 27 0
    extendedPO < extendedProximity a y ∧ common a y < common a a ∧
    ¬ extendedProximity a y ≤ extendedProximity a a := by
  decide +kernel

def distanceRaw (x y : Bytes) : Option Bytes :=
  if x.length ≠ y.length then none else some (List.zipWith (· ^^^ ·) x y)

/-- The big integer of some bytes, the first one being the most significant. -/
def setBytes : Bytes → Nat
  | [] => 0
  | d :: b => 256 ^ b.length * d.toNat + setBytes b

def distance (x y : Bytes) : Option Nat := (distanceRaw x y).map setBytes

theorem next_digit (w : Nat) {i j : Nat} (less : i < j) : w * i + w ≤ w * j := by
  rw [← Nat.mul_succ]
  exact Nat.mul_le_mul_left w less

theorem setBytes_lt (b : Bytes) : setBytes b < 256 ^ b.length := by
  induction b with
  | nil => decide
  | cons d b ih =>
    have digit := next_digit (256 ^ b.length) d.toNat_lt
    rw [setBytes,List.length_cons,Nat.pow_succ]
    omega

theorem sign_digit {i j p q w : Nat} (hp : p < w) (hq : q < w) : (((w * j + q : Nat) : Int) - (w * i + p : Nat)).sign =
    if i = j then ((q : Int) - p).sign else if i < j then 1 else -1 := by
  rcases lt_trichotomy i j with less | rfl | more
  · have step := next_digit w less
    rw [if_neg less.ne,if_pos less,Int.sign_eq_one_of_pos (by omega)]
  · simp
  · have step := next_digit w more
    rw [if_neg more.ne',if_neg more.not_gt,Int.sign_eq_neg_one_of_neg (by omega)]

/-- The loop over the bytes compares the distances, and only equal addresses have the same one. -/
theorem compare_eq {a x y : Bytes} (hx : x.length = a.length) (hy : y.length = a.length) :
    compare a x y = ((setBytes (List.zipWith (· ^^^ ·) a y) : Int) - setBytes (List.zipWith (· ^^^ ·) a x)).sign ∧
    (compare a x y = 0 ↔ x = y) := by
  induction a generalizing x y with
  | nil => simp [compare,List.length_eq_zero_iff.mp hx,List.length_eq_zero_iff.mp hy]
  | cons u a ih =>
    obtain ⟨v,x,rfl⟩ := List.exists_cons_of_length_eq_add_one hx
    obtain ⟨w,y,rfl⟩ := List.exists_cons_of_length_eq_add_one hy
    simp only [List.length_cons,Nat.succ.injEq] at hx hy
    obtain ⟨rest,same⟩ := ih hx hy
    have low := setBytes_lt (List.zipWith (· ^^^ ·) a x)
    have low' := setBytes_lt (List.zipWith (· ^^^ ·) a y)
    simp only [List.length_zipWith,hx,hy,Nat.min_self] at low low'
    constructor
    · simp only [compare,List.zipWith_cons_cons,setBytes,List.length_zipWith,hx,hy,Nat.min_self,
        UInt8.xor_comm u,sign_digit low low',rest,UInt8.toNat_inj,UInt8.lt_iff_toNat_lt]
    · simp only [compare,UInt8.xor_left_inj,List.cons.injEq]
      split_ifs with here <;> simp [here,same]

/-- `DistanceCmp` compares the distances to `a` as numbers, and no two addresses have the same distance. -/
theorem distanceCmp_orders (a x y : Bytes) :
    (distanceCmp a x y = (distance a x).bind fun dx => (distance a y).map fun dy => ((dy : Int) - dx).sign) ∧
    (distanceCmp a x y = some 0 ↔ a.length = x.length ∧ x = y) := by
  by_cases hx : a.length = x.length
  · by_cases hy : a.length = y.length
    · obtain ⟨sign,zero⟩ := compare_eq hx.symm hy.symm
      simp [distanceCmp,distance,distanceRaw,hx.symm,hy.symm,sign,← zero]
    · rw [hx] at hy
      have other : x ≠ y := fun same => hy (congrArg _ same)
      simp [distanceCmp,distance,distanceRaw,hx,hy,other]
  · simp [distanceCmp,distance,distanceRaw,hx]

end FavorX.Proximities
