import Pqcoin.Lib.SignedWord
import Mathlib.Tactic.Ring

/-! Reduction and rounding of coefficients modulo `Q`, and the functions `Decompose` and
`UseHint` of the signature scheme that they are to implement.
-/

namespace Pqcoin.Dilithium

open Int

abbrev Q : ℕ := 8380417
abbrev D : ℕ := 13
abbrev GAMMA2 : ℕ := (Q - 1) / 32

theorem Q_eq : (Q : ℤ) = 8380417 := rfl

theorem GAMMA2_eq : (GAMMA2 : ℤ) = 261888 := rfl

-- The functions of the source

def reduce32 (a : BitVec 32) : BitVec 32 :=
  let t := (a + (1#32 <<< 22)).sshiftRight 23
  a - t * BitVec.ofNat 32 Q

def caddq (a : BitVec 32) : BitVec 32 := a + (a.sshiftRight 31 &&& BitVec.ofNat 32 Q)

/-- The high bits `a1` and the low bits `a0`. -/
def decompose (a : BitVec 32) : BitVec 32 × BitVec 32 :=
  let a1 := (a + 127#32).sshiftRight 7
  let a1 := (a1 * 1025#32 + (1#32 <<< 21)).sshiftRight 22
  let a1 := a1 &&& 15#32
  let a0 := a - a1 * 2#32 * BitVec.ofNat 32 GAMMA2
  let a0 := a0 - ((BitVec.ofNat 32 ((Q - 1) / 2) - a0).sshiftRight 31 &&& BitVec.ofNat 32 Q)
  (a1, a0)

def useHint (a hint : BitVec 32) : BitVec 32 :=
  let (a1, a0) := decompose a
  if hint = 0 then a1
  else if 0 < a0.toInt then (a1 + 1#32) &&& 15#32
  else (a1 - 1#32) &&& 15#32

-- Decompose and UseHint on numbers

/-- `r mod± 2 * GAMMA2`: the remainder above `-GAMMA2`, up to `GAMMA2`. -/
def centered (r : ℤ) : ℤ :=
  if r % (2 * GAMMA2) ≤ GAMMA2 then r % (2 * GAMMA2) else r % (2 * GAMMA2) - 2 * GAMMA2

/-- `Decompose` of a number in `[0, Q)`: the multiple of `2 * GAMMA2` nearest to it and the
rest, except that the topmost multiple, `Q - 1`, counts as zero.
-/
def Decompose (r : ℤ) : ℤ × ℤ :=
  if r - centered r = Q - 1 then (0, centered r - 1)
  else ((r - centered r) / (2 * GAMMA2), centered r)

/-- A hint moves the high bits one step towards the low bits, modulo `16`. -/
def applyHint (hint : ℤ) (parts : ℤ × ℤ) : ℤ :=
  if hint = 0 then parts.1
  else if 0 < parts.2 then (parts.1 + 1) % 16
  else (parts.1 - 1) % 16

def UseHint (hint r : ℤ) : ℤ := applyHint hint (Decompose r)

-- The functions of the source on numbers

open SignedWord

/-- `reduce32` subtracts the nearest multiple of `Q`, estimated by a shift. -/
theorem toInt_reduce32 (a) (small : a.toInt < 2 ^ 31 - 2 ^ 22)
    : (reduce32 a).toInt = a.toInt - (a.toInt + 2 ^ 22) / 2 ^ 23 * Q := by
  have low := BitVec.le_toInt a
  have half : (1#32 <<< 22).toInt = 2 ^ 22 := by decide
  have modulus : (BitVec.ofNat 32 Q).toInt = Q := by decide
  have sum : (a + (1#32 <<< 22)).toInt = a.toInt + 2 ^ 22 := by
    rw [toInt_add (by rw [half, Fits]; omega), half]
  have quot : ((a + (1#32 <<< 22)).sshiftRight 23).toInt = (a.toInt + 2 ^ 22) / 2 ^ 23 := by
    rw [toInt_sshiftRight, sum]
  have product : ((a + (1#32 <<< 22)).sshiftRight 23 * BitVec.ofNat 32 Q).toInt
      = (a.toInt + 2 ^ 22) / 2 ^ 23 * Q := by
    rw [toInt_mul (by rw [quot, modulus, Q_eq, Fits]; omega), quot, modulus]
  rw [reduce32, toInt_sub (by rw [product, Q_eq, Fits]; omega), product]

/-- `caddq` adds `Q` to the negative numbers. -/
theorem toInt_caddq (a) : (caddq a).toInt = if a.toInt < 0 then a.toInt + Q else a.toInt := by
  have low := BitVec.le_toInt a
  have modulus : (BitVec.ofNat 32 Q).toInt = Q := by decide
  have size := Q_eq
  rw [caddq, sign_mask_and]
  split <;> rename_i sign
  · rw [toInt_add (by rw [modulus, Fits]; omega), modulus]
  · exact congrArg BitVec.toInt (BitVec.add_zero a)

/-- The high bits before they are taken modulo `16`: a division by `4092 * 128`, through a
multiplication by `1025 / 2 ^ 22`.
-/
def roundedHigh (a : ℤ) : ℤ := ((a + 127) / 2 ^ 7 * 1025 + 2 ^ 21) / 2 ^ 22

/-- The rounding of the high bits, on the range that the verification reaches. -/
theorem toInt_roundedHigh (a) (low : -2 ^ 23 < a.toInt) (high : a.toInt < 2 ^ 24)
    : (((a + 127#32).sshiftRight 7 * 1025#32 + (1#32 <<< 21)).sshiftRight 22).toInt
      = roundedHigh a.toInt := by
  have sum : (a + 127#32).toInt = a.toInt + 127 := by
    have constant : (127#32).toInt = 127 := by decide
    rw [toInt_add (by rw [constant, Fits]; omega), constant]
  have shifted : ((a + 127#32).sshiftRight 7).toInt = (a.toInt + 127) / 2 ^ 7 := by
    rw [toInt_sshiftRight, sum]
  have scaled : ((a + 127#32).sshiftRight 7 * 1025#32).toInt
      = (a.toInt + 127) / 2 ^ 7 * 1025 := by
    have constant : (1025#32).toInt = 1025 := by decide
    rw [toInt_mul (by rw [shifted, constant, Fits]; omega), shifted, constant]
  have constant : (1#32 <<< 21).toInt = 2 ^ 21 := by decide
  rw [toInt_sshiftRight, toInt_add (by rw [scaled, constant, Fits]; omega), scaled, constant,
    roundedHigh]

/-- The last line of `decompose`: a low part above the middle is moved down by `q`. -/
theorem toInt_fold (a0 middle q : BitVec 32) (diff : Fits 32 (middle.toInt - a0.toInt))
    (folded : Fits 32 (a0.toInt - q.toInt))
    : (a0 - ((middle - a0).sshiftRight 31 &&& q)).toInt
      = if middle.toInt < a0.toInt then a0.toInt - q.toInt else a0.toInt := by
  rw [sign_mask_and, toInt_sub diff]
  by_cases above : middle.toInt < a0.toInt
  · rw [if_pos above, if_pos (by omega), toInt_sub folded]
  rw [if_neg above, if_neg (by omega)]
  exact congrArg BitVec.toInt (BitVec.sub_zero a0)

/-- Multiplying the high bits out stays within `int32_t`. -/
theorem toInt_highProduct (a1) (range : 0 ≤ a1.toInt ∧ a1.toInt < 16)
    : (a1 * 2#32 * BitVec.ofNat 32 GAMMA2).toInt = a1.toInt * (2 * GAMMA2) := by
  have two : (2#32).toInt = 2 := by decide
  have constant : (BitVec.ofNat 32 GAMMA2).toInt = 261888 := by decide
  have doubled : (a1 * 2#32).toInt = a1.toInt * 2 := by
    rw [toInt_mul (by rw [two, Fits]; omega), two]
  rw [toInt_mul (by rw [doubled, constant, Fits]; omega), doubled, constant, Int.mul_assoc]
  rfl

/-- The low part of `a` under the high bits `h`, before and after folding. -/
theorem fits_low {a h} (low : -2 ^ 23 < a) (high : a < 2 ^ 24) (range : 0 ≤ h ∧ h < 16)
    : Fits 32 (a - h * (2 * GAMMA2)) ∧ Fits 32 ((Q - 1) / 2 - (a - h * (2 * GAMMA2)))
      ∧ Fits 32 (a - h * (2 * GAMMA2) - Q) := by
  simp only [Fits, Q_eq, GAMMA2_eq]
  omega

/-- What `decompose` computes, as numbers. -/
def decomposed (a : ℤ) : ℤ × ℤ :=
  let a1 := roundedHigh a % 16
  let a0 := a - a1 * (2 * GAMMA2)
  (a1, if (Q - 1) / 2 < a0 then a0 - Q else a0)

/-- `decompose` on the range that the verification reaches. -/
theorem toInt_decompose (a : BitVec 32) (low : -2 ^ 23 < a.toInt) (high : a.toInt < 2 ^ 24)
    : ((decompose a).1.toInt, (decompose a).2.toInt) = decomposed a.toInt := by
  have masked : (decompose a).1.toInt = roundedHigh a.toInt % 16 := by
    have mask : (15#32) = BitVec.ofNat 32 (2 ^ 4 - 1) := by decide
    simp only [decompose]
    rw [mask, toInt_and_mask _ (by decide), toInt_roundedHigh a low high]
    norm_num
  have range : 0 ≤ roundedHigh a.toInt % 16 ∧ roundedHigh a.toInt % 16 < 16 :=
    ⟨emod_nonneg _ (by decide), emod_lt_of_pos _ (by decide)⟩
  obtain ⟨fitsLow, fitsMiddle, fitsFolded⟩ := fits_low low high range
  have product := toInt_highProduct (decompose a).1 (by rwa [masked])
  rw [masked] at product
  have diff : (a - (decompose a).1 * 2#32 * BitVec.ofNat 32 GAMMA2).toInt
      = a.toInt - roundedHigh a.toInt % 16 * (2 * GAMMA2) := by
    rw [toInt_sub (by rwa [product]), product]
  have middle : (BitVec.ofNat 32 ((Q - 1) / 2)).toInt = (Q - 1) / 2 := by decide
  have modulus : (BitVec.ofNat 32 Q).toInt = Q := by decide
  have lowBits : (decompose a).2
      = a - (decompose a).1 * 2#32 * BitVec.ofNat 32 GAMMA2
        - ((BitVec.ofNat 32 ((Q - 1) / 2)
            - (a - (decompose a).1 * 2#32 * BitVec.ofNat 32 GAMMA2)).sshiftRight 31
          &&& BitVec.ofNat 32 Q) := by
    simp only [decompose]
  have folded := toInt_fold (a - (decompose a).1 * 2#32 * BitVec.ofNat 32 GAMMA2)
    (BitVec.ofNat 32 ((Q - 1) / 2)) (BitVec.ofNat 32 Q)
    (by simpa only [middle, diff] using fitsMiddle)
    (by simpa only [modulus, diff] using fitsFolded)
  simp only [middle, modulus, diff] at folded
  exact Prod.ext masked ((congrArg BitVec.toInt lowBits).trans folded)

theorem toInt_useHint (a hint) (low : -2 ^ 23 < a.toInt) (high : a.toInt < 2 ^ 24)
    : (useHint a hint).toInt = applyHint hint.toInt (decomposed a.toInt) := by
  have parts := toInt_decompose a low high
  have range : 0 ≤ (decompose a).1.toInt ∧ (decompose a).1.toInt < 16 := by
    rw [show (decompose a).1.toInt = (decomposed a.toInt).1 from congrArg Prod.fst parts]
    exact ⟨emod_nonneg _ (by decide), emod_lt_of_pos _ (by decide)⟩
  rw [← parts, applyHint, useHint]
  have zero : hint.toInt = 0 ↔ hint = 0 := by
    rw [← BitVec.toInt_inj]
    rfl
  have one : (1#32).toInt = 1 := by decide
  have mask : (15#32) = BitVec.ofNat 32 (2 ^ 4 - 1) := by decide
  simp only [zero]
  split
  · rfl
  split
  · rw [mask, toInt_and_mask _ (by decide), toInt_add (by rw [one, Fits]; omega), one]
    norm_num
  · rw [mask, toInt_and_mask _ (by decide), toInt_sub (by rw [one, Fits]; omega), one]
    norm_num

-- Rounding against the exact decomposition

/-- A number as its nearest multiple of `2 * GAMMA2` and the rest. -/
theorem centered_spec (r)
    : ∃ k, r = 523776 * k + centered r ∧ -261888 < centered r ∧ centered r ≤ 261888 := by
  refine ⟨(r - centered r) / 523776, ?_⟩
  rw [centered, GAMMA2_eq]
  split <;> omega

/-- The rounding finds the nearest multiple from zero on. -/
theorem roundedHigh_of_nonneg {k l} (nonneg : 0 ≤ k) (small : k ≤ 256)
    (low : -261888 < l) (high : l ≤ 261888)
    : roundedHigh (523776 * k + l) = k := by
  rw [roundedHigh]
  omega

/-- Below zero, the topmost `128` numbers of a multiple are rounded to the next one. -/
theorem roundedHigh_of_neg {k l} (negative : k < 0) (small : -256 ≤ k)
    (low : -261888 < l) (high : l ≤ 261888)
    : roundedHigh (523776 * k + l) = if l ≤ 261760 then k else k + 1 := by
  rw [roundedHigh]
  split <;> omega

theorem Decompose_eq {k l} (low : -261888 < l) (high : l ≤ 261888)
    : Decompose (523776 * k + l) = if k = 16 then (0, l - 1) else (k, l) := by
  have rest : centered (523776 * k + l) = l := by
    rw [centered, GAMMA2_eq]
    split <;> omega
  have top : (523776 * k + l - l = Q - 1) ↔ k = 16 := by
    rw [Q_eq]
    omega
  have quot : (523776 * k + l - l) / (2 * 261888) = k := by omega
  simp only [Decompose, rest, top, GAMMA2_eq, quot]

/-- The code's parts, once the high bits are known. -/
theorem decomposed_eq {a h} (rounded : roundedHigh a % 16 = h)
    : decomposed a
      = (h, if 4190208 < a - h * 523776 then a - h * 523776 - 8380417 else a - h * 523776) := by
  simp only [decomposed, rounded]
  rfl

/-- On the standard representatives, the code computes `Decompose`. -/
theorem decomposed_eq_Decompose {a : ℤ} (nonneg : 0 ≤ a) (below : a < Q)
    : decomposed a = Decompose a := by
  obtain ⟨k, split, low, high⟩ := centered_spec a
  generalize centered a = l at split low high
  subst split
  rw [Q_eq] at below
  have rounded := roundedHigh_of_nonneg (k := k) (l := l) (by omega) (by omega) low high
  rw [Decompose_eq low high]
  by_cases top : k = 16
  · rw [if_pos top, decomposed_eq (h := 0) (by rw [rounded]; omega), if_pos (by omega)]
    exact Prod.ext rfl (by simp only; omega)
  · rw [if_neg top, decomposed_eq (h := k) (by rw [rounded]; omega), if_neg (by omega)]
    exact Prod.ext rfl (by simp only; omega)

/-- A number of `[Q, Q + 6283009]` is rounded like its representative, except at the very
top of a multiple.
-/
theorem decomposed_add_Q {k l} (nonneg : 0 ≤ 523776 * k + l)
    (small : 523776 * k + l ≤ 6283009) (low : -261888 < l) (high : l ≤ 261888)
    : decomposed (523776 * k + l + Q) = if l = 261888 then (k + 1, -261888) else (k, l) := by
  rw [Q_eq]
  by_cases top : l = 261888
  · have next : 523776 * k + l + 8380417 = 523776 * (k + 17) + -261887 := by omega
    have rounded := roundedHigh_of_nonneg (k := k + 17) (l := -261887) (by omega) (by omega)
      (by omega) (by omega)
    rw [if_pos top, next, decomposed_eq (h := k + 1) (by rw [rounded]; omega), if_pos (by omega)]
    exact Prod.ext rfl (by simp only; omega)
  · have same : 523776 * k + l + 8380417 = 523776 * (k + 16) + (l + 1) := by omega
    have rounded := roundedHigh_of_nonneg (k := k + 16) (l := l + 1) (by omega) (by omega)
      (by omega) (by omega)
    rw [if_neg top, same, decomposed_eq (h := k) (by rw [rounded]; omega), if_pos (by omega)]
    exact Prod.ext rfl (by simp only; omega)

/-- The rounding just below zero, in terms of the representative in `[0, Q)`. -/
theorem roundedHigh_sub_Q {k l : ℤ} (below : 523776 * k + l < Q)
    (large : Q - 6283009 ≤ 523776 * k + l) (low : -261888 < l) (high : l ≤ 261888)
    : roundedHigh (523776 * k + l - Q)
      = if k = 16 then 0 else if l ≤ 261761 then k - 16 else k - 15 := by
  rw [Q_eq] at below large ⊢
  by_cases bottom : l = -261887
  · have previous : 523776 * k + l - 8380417 = 523776 * (k - 17) + 261888 := by omega
    rw [previous, roundedHigh_of_neg (by omega) (by omega) (by omega) (by omega)]
    split <;> split <;> omega
  have same : 523776 * k + l - 8380417 = 523776 * (k - 16) + (l - 1) := by omega
  rw [same]
  by_cases top : k = 16
  · rw [roundedHigh_of_nonneg (by omega) (by omega) (by omega) (by omega), if_pos top]
    omega
  · rw [roundedHigh_of_neg (by omega) (by omega) (by omega) (by omega), if_neg top]
    split <;> split <;> omega

/-- A number of `[-6283009, -1]` keeps the high bits of its representative short of the top
`127` numbers of a multiple, and always gets negative low bits.
-/
theorem decomposed_sub_Q {k l : ℤ} (below : 523776 * k + l < Q)
    (large : Q - 6283009 ≤ 523776 * k + l) (low : -261888 < l) (high : l ≤ 261888)
    : (decomposed (523776 * k + l - Q)).1
        = (if k = 16 then 0 else if l ≤ 261761 then k else (k + 1) % 16)
      ∧ (decomposed (523776 * k + l - Q)).2 < 0 := by
  have rounded := roundedHigh_sub_Q below large low high
  rw [Q_eq] at below large rounded ⊢
  have mask : 0 ≤ roundedHigh (523776 * k + l - 8380417) % 16 := emod_nonneg _ (by decide)
  rw [decomposed_eq rfl]
  constructor
  · simp only
    rw [rounded]
    split
    · rfl
    · split <;> omega
  · simp only
    split <;> omega

-- Hints for numbers that miss the standard range by one `Q`

/-- Above the range, only the topmost low bits make a difference. -/
theorem applyHint_add_Q {r} (hint) (nonneg : 0 ≤ r) (small : r ≤ 6283009)
    : applyHint hint (decomposed (r + Q)) = UseHint hint r ↔ (Decompose r).2 ≠ GAMMA2 := by
  obtain ⟨k, split, low, high⟩ := centered_spec r
  generalize centered r = l at split low high
  subst split
  have inner : k ≠ 16 := by omega
  rw [UseHint, decomposed_add_Q nonneg small low high, Decompose_eq low high, if_neg inner,
    GAMMA2_eq]
  by_cases top : l = 261888
  · simp only [top, applyHint, if_true, ne_eq, not_true_eq_false, iff_false]
    split
    · omega
    rw [if_neg (by decide), if_pos (by decide)]
    omega
  · simp [top]

/-- Below the range, the low bits are always taken for negative, and the high bits are wrong
near the top of a multiple.
-/
theorem applyHint_sub_Q {r : ℤ} (hint) (below : r < Q) (large : Q - 6283009 ≤ r)
    : applyHint hint (decomposed (r - Q)) = UseHint hint r
      ↔ if hint = 0 then (Decompose r).2 < GAMMA2 - 126 else (Decompose r).2 ≤ 0 := by
  obtain ⟨k, split, low, high⟩ := centered_spec r
  generalize centered r = l at split low high
  subst split
  obtain ⟨highBits, lowBits⟩ := decomposed_sub_Q below large low high
  rw [Q_eq] at below large
  rw [UseHint, Decompose_eq low high, applyHint, applyHint, highBits, if_neg (not_lt_of_gt lowBits),
    GAMMA2_eq]
  by_cases top : k = 16
  · simp only [if_pos top]
    by_cases hinted : hint = 0
    · simp only [if_pos hinted]
      exact iff_of_true trivial (by omega)
    simp only [if_neg hinted]
    rw [if_neg (by omega)]
    exact iff_of_true rfl (by omega)
  · simp only [if_neg top]
    by_cases hinted : hint = 0
    · simp only [if_pos hinted]
      split <;> omega
    · simp only [if_neg hinted]
      split <;> split <;> omega

end Pqcoin.Dilithium
