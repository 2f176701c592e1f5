import Mathlib.Data.BitVec
import Mathlib.Data.Int.Basic
import Mathlib.Tactic.NormNum.Basic

/-! Signed machine arithmetic without overflow: the operations on words are those on the
integers they denote.
-/

namespace SignedWord

open BitVec Int

variable {w : ℕ}

/-- An integer that a signed word of this width represents. -/
def Fits (w : ℕ) (n : ℤ) : Prop := -2 ^ (w - 1) ≤ n ∧ n < 2 ^ (w - 1)

theorem toInt_add {x y : BitVec w} (fits : Fits w (x.toInt + y.toInt))
    : (x + y).toInt = x.toInt + y.toInt := by
  apply toInt_add_of_not_saddOverflow
  simp only [saddOverflow, Bool.or_eq_true, decide_eq_true_eq]
  rw [Fits] at fits
  omega

theorem toInt_sub {x y : BitVec w} (fits : Fits w (x.toInt - y.toInt))
    : (x - y).toInt = x.toInt - y.toInt := by
  apply toInt_sub_of_not_ssubOverflow
  simp only [ssubOverflow, Bool.or_eq_true, decide_eq_true_eq]
  rw [Fits] at fits
  omega

theorem toInt_mul {x y : BitVec w} (fits : Fits w (x.toInt * y.toInt))
    : (x * y).toInt = x.toInt * y.toInt := by
  apply toInt_mul_of_not_smulOverflow
  simp only [smulOverflow, Bool.or_eq_true, decide_eq_true_eq]
  rw [Fits] at fits
  omega

/-- Division of a value that is not negative rounds down. -/
theorem toInt_sdiv {x y : BitVec w} (nonneg : 0 ≤ x.toInt) (pos : 0 < y.toInt)
    : (x.sdiv y).toInt = x.toInt / y.toInt := by
  have regular : y ≠ -1#w := by
    rintro rfl
    rw [neg_one_eq_allOnes, toInt_allOnes] at pos
    split at pos <;> omega
  rw [toInt_sdiv_of_ne_or_ne x y (.inr regular), tdiv_eq_ediv_of_nonneg nonneg]

theorem toInt_shiftLeft {x : BitVec w} {k} (inside : k + 1 < w) (fits : Fits w (x.toInt * 2 ^ k))
    : (x <<< k).toInt = x.toInt * 2 ^ k := by
  have power : (twoPow w k).toInt = 2 ^ k := by
    rw [toInt_twoPow, if_neg (by omega), if_neg (by omega)]
  rw [shiftLeft_eq_mul_twoPow, toInt_mul (by rwa [power]), power]

/-- A word with a nonnegative integer denotes the same number when read as unsigned. -/
theorem toNat_of_nonneg {x : BitVec w} (nonnegative : 0 ≤ x.toInt) : (x.toNat : ℤ) = x.toInt := by
  have small := x.isLt
  rw [toInt_eq_toNat_cond] at nonnegative ⊢
  split at nonnegative <;> rename_i half
  · rw [if_pos half]
  · omega

/-- An arithmetic shift divides by a power of two, rounding down. -/
theorem toInt_sshiftRight (x : BitVec w) (k) : (x.sshiftRight k).toInt = x.toInt / 2 ^ k := by
  rw [BitVec.toInt_sshiftRight, shiftRight_eq_div_pow]
  norm_cast

/-- The shift by all but the sign bit, used as a mask, selects a word for the negative
numbers only.
-/
theorem sign_mask_and (x y : BitVec (w + 1))
    : x.sshiftRight w &&& y = if x.toInt < 0 then y else 0 := by
  have low := le_toInt x
  have high := toInt_lt (x := x)
  have shifted := toInt_sshiftRight x w
  rw [Nat.add_sub_cancel] at low high
  split <;> rename_i sign
  · have ones : x.sshiftRight w = allOnes (w + 1) := by
      apply eq_of_toInt_eq
      rw [shifted, toInt_allOnes, if_pos (Nat.succ_pos w)]
      exact ediv_eq_neg_one_of_neg_of_le sign (by omega)
    rw [ones, allOnes_and]
  · have zero : x.sshiftRight w = 0 := by
      apply eq_of_toInt_eq
      rw [shifted, ediv_eq_zero_of_lt (not_lt.mp sign) high]
      simp
    rw [zero]
    simp

/-- Masking the low bits takes the remainder. -/
theorem toInt_and_mask {k} (x) (inside : k < w)
    : (x &&& BitVec.ofNat w (2 ^ k - 1)).toInt = x.toInt % 2 ^ k := by
  have powers : 2 ^ w = 2 ^ k * 2 ^ (w - k) := by
    rw [← Nat.pow_add, Nat.add_sub_cancel' (Nat.le_of_lt inside)]
  have smaller : 2 * 2 ^ k ≤ 2 ^ w := by
    rw [← Nat.pow_succ']
    exact Nat.pow_le_pow_right (by decide) inside
  have pos : 0 < 2 ^ k := Nat.two_pow_pos k
  have unsigned : (x &&& BitVec.ofNat w (2 ^ k - 1)).toNat = x.toNat % 2 ^ k := by
    rw [toNat_and, toNat_ofNat, Nat.mod_eq_of_lt (by omega), Nat.and_two_pow_sub_one_eq_mod]
  have below : x.toNat % 2 ^ k < 2 ^ k := Nat.mod_lt _ pos
  rw [toInt_eq_toNat_of_lt (by omega), unsigned, toInt_eq_toNat_cond]
  split
  · norm_cast
  rw [powers]
  push_cast
  rw [sub_mul_emod_self_left]

end SignedWord
