import Pqcoin.Dilithium.Rounding
import Mathlib.Algebra.Order.Group.Int

/-! Hints: with the bit of `make_hint` the verifier finds the signer's high bits, for low bits
within the bounds that `crypto_sign_signature` checks.
-/

namespace Pqcoin.Dilithium
open BitVec SignedWord

abbrev BETA : ℕ := 196

def makeHint (a0 a1 : BitVec 32) : BitVec 32 :=
  if a0.toInt ≤ GAMMA2 ∨ Q - GAMMA2 < a0.toInt ∨ (a0.toInt = Q - GAMMA2 ∧ a1 = 0) then 0 else 1

/-- The high bits are small, and the parts give the number back modulo `Q`. -/
theorem Decompose_spec {w : ℤ} (nonneg : 0 ≤ w) (below : w < Q)
    : (0 ≤ (Decompose w).1 ∧ (Decompose w).1 < 16)
      ∧ (w = 523776 * (Decompose w).1 + (Decompose w).2
        ∨ w = 523776 * (Decompose w).1 + (Decompose w).2 + Q) := by
  have size := Q_eq
  obtain ⟨k, split, low, high⟩ := centered_spec w
  generalize centered w = l at split low high
  subst split
  rw [Decompose_eq low high]
  split <;> dsimp only <;> omega

/-- The bit of `make_hint` for high bits `h`, when the low bits are `v` instead. -/
def hintFor (v h : ℤ) : ℤ :=
  if (-GAMMA2 < v ∧ v ≤ GAMMA2) ∨ (v = -GAMMA2 ∧ h = 0) then 0 else 1

theorem toInt_makeHint {a0 a1 : BitVec 32} (range : -2 * GAMMA2 < a0.toInt ∧ a0.toInt < 2 * GAMMA2)
    : (makeHint (caddq a0) a1).toInt = hintFor a0.toInt a1.toInt := by
  have zero : a1 = 0 ↔ a1.toInt = 0 := by
    rw [← toInt_inj]
    rfl
  rw [GAMMA2_eq] at range
  rw [makeHint, hintFor, toInt_caddq, Q_eq, GAMMA2_eq, apply_ite BitVec.toInt]
  refine ite_congr (propext ?_) (fun _ => rfl) (fun _ => rfl)
  rw [zero]
  split <;> omega

/-- Low bits that are off by less than the next multiple are made good by the hint: the number
lies by the multiple `h`, or by one of its neighbours, on the side that the hint corrects.
-/
theorem UseHint_hintFor {h v} (high : 0 ≤ h ∧ h < 16) (low : -523776 < v ∧ v < 523776)
    : UseHint (hintFor v h) ((523776 * h + v) % Q) = h := by
  have known {k l} (same : (523776 * h + v) % Q = 523776 * k + l) (above : -261888 < l)
      (below : l ≤ 261888)
      : UseHint (hintFor v h) ((523776 * h + v) % Q)
        = applyHint (hintFor v h) (if k = 16 then (0, l - 1) else (k, l)) := by
    rw [same, UseHint, Decompose_eq above below]
  rw [Q_eq] at known ⊢
  by_cases near : (-261888 < v ∧ v ≤ 261888) ∨ (v = -261888 ∧ h = 0)
  · have bit : hintFor v h = 0 := by rw [hintFor, GAMMA2_eq, if_pos near]
    by_cases negative : 523776 * h + v < 0
    · obtain rfl : h = 0 := by omega
      rw [known (k := 16) (l := v + 1) (by omega) (by omega) (by omega), bit, if_pos rfl,
        applyHint, if_pos rfl]
    · rw [known (k := h) (l := v) (by omega) (by omega) (by omega), bit, if_neg (by omega),
        applyHint, if_pos rfl]
  · have bit : hintFor v h = 1 := by rw [hintFor, GAMMA2_eq, if_neg near]
    by_cases above : 0 < v
    · rw [known (k := h + 1) (l := v - 523776) (by omega) (by omega) (by omega), bit, applyHint,
        if_neg one_ne_zero, if_neg]
      · split <;> dsimp only <;> omega
      · split <;> dsimp only <;> omega
    · by_cases bottom : h = 0
      · rw [known (k := 15) (l := v + 523777) (by omega) (by omega) (by omega), bit,
          if_neg (by decide), applyHint, if_neg one_ne_zero, if_pos (by dsimp only; omega), bottom]
        rfl
      rw [known (k := h - 1) (l := v + 523776) (by omega) (by omega) (by omega), bit,
        if_neg (by omega), applyHint, if_neg one_ne_zero, if_pos (by dsimp only; omega)]
      dsimp only
      omega

/-- The verifier's high bits are the signer's, whatever `r` and `t` the low bits were changed by
within the bounds of the rejections.
-/
theorem useHint_makeHint (w : BitVec 32) (nonneg : 0 ≤ w.toInt) (below : w.toInt < Q)
    {r t : ℤ} (reduced : |(decompose w).2.toInt - r| < GAMMA2 - BETA) (rest : |t| < GAMMA2)
    : useHint (BitVec.ofInt 32 ((w.toInt - r + t) % Q))
        (makeHint (caddq (BitVec.ofInt 32 ((decompose w).2.toInt - r + t))) (decompose w).1)
      = (decompose w).1 := by
  have size := Q_eq
  have beta : (BETA : ℤ) = 196 := rfl
  have parts := toInt_decompose w (by omega) (by omega)
  rw [decomposed_eq_Decompose nonneg below] at parts
  obtain ⟨highBits, whole⟩ := Decompose_spec nonneg below
  rw [← parts] at highBits whole
  dsimp only at highBits whole
  rw [GAMMA2_eq, beta, abs_lt] at reduced
  rw [GAMMA2_eq, abs_lt] at rest
  generalize (decompose w).2.toInt = w0 at *
  generalize (decompose w).1 = w1 at *
  have lowBits : (BitVec.ofInt 32 (w0 - r + t)).toInt = w0 - r + t := by
    rw [toInt_ofInt, Int.bmod_eq_of_le] <;> omega
  have number : (BitVec.ofInt 32 ((w.toInt - r + t) % Q)).toInt
      = (523776 * w1.toInt + (w0 - r + t)) % Q := by
    rw [size] at whole ⊢
    rw [toInt_ofInt, Int.bmod_eq_of_le] <;> omega
  have range : 0 ≤ (523776 * w1.toInt + (w0 - r + t)) % Q
      ∧ (523776 * w1.toInt + (w0 - r + t)) % Q < Q :=
    ⟨Int.emod_nonneg _ (by decide), Int.emod_lt_of_pos _ (by decide)⟩
  rw [← toInt_inj, toInt_useHint _ _ (by rw [number]; omega) (by rw [number]; omega),
    toInt_makeHint (by rw [lowBits, GAMMA2_eq]; omega), number, lowBits,
    decomposed_eq_Decompose range.1 range.2]
  exact UseHint_hintFor highBits (by omega)

/-- The hint for a coefficient of one. -/
theorem useHint_makeHint_one
    : useHint (BitVec.ofInt 32 ((1 - 0 + 261887) % Q))
        (makeHint (caddq (BitVec.ofInt 32 ((decompose 1).2.toInt - 0 + 261887))) (decompose 1).1)
      = (decompose 1).1 :=
  useHint_makeHint 1 (by decide) (by decide) (by decide) (by decide)

end Pqcoin.Dilithium
