import Pqcoin.Dilithium.MultExact
import Pqcoin.Dilithium.Rounding

/-! The reconstruction of the commitment bits in `crypto_sign_verify`: from the transformed
product `w1` on, with `c * t1 * 2 ^ D` subtracted and the hints applied.
-/

namespace Pqcoin.Dilithium
open Int SignedWord

-- The code, coefficientwise

def polyReduce (a : Poly) : Poly := fun i => reduce32 (a i)

def polyCaddq (a : Poly) : Poly := fun i => caddq (a i)

def polySub (a b : Poly) : Poly := fun i => a i - b i

def polyShiftl (a : Poly) : Poly := fun i => a i <<< D

def polyUseHint (a h : Poly) : Poly := fun i => useHint (a i) (h i)

/-- The part of `crypto_sign_verify` from `prepare_t1_table` to `polyveck_use_hint`, for the
vector `w1` that `polyveck_invntt_tomont` leaves.
-/
def reconstructW1 (cp : Poly) (t10_table t11_table : Table) (t1 w1 h : PolyVec K) : PolyVec K :=
  let t1 := evaluateCt1 cp (prepareT1Table t10_table t11_table t1)
  let t1 : PolyVec K := fun j => polyShiftl (t1 j)
  let t1 : PolyVec K := fun j => polyReduce (t1 j)
  let w1 : PolyVec K := fun j => polySub (w1 j) (t1 j)
  let w1 : PolyVec K := fun j => polyCaddq (w1 j)
  fun j => polyUseHint (w1 j) (h j)

/-- What is left of `w` after the reduced multiple of `2 ^ D` is subtracted. -/
def reducedDifference (w product : ℤ) : ℤ :=
  w - (product * 2 ^ D - (product * 2 ^ D + 2 ^ 22) / 2 ^ 23 * Q)

/-- The subtraction is exact modulo `Q`, and leaves less than `Q + 6283009`. -/
theorem reducedDifference_spec {w product : ℤ} (low : -Q < w) (high : w < Q)
    (productLow : -50176 ≤ product) (productHigh : product < 80896)
    : reducedDifference w product % Q = (w - product * 2 ^ D) % Q
      ∧ -Q - 6283009 < reducedDifference w product
      ∧ reducedDifference w product < Q + 6283009 := by
  have scale : (2 : ℤ) ^ D = 8192 := rfl
  rw [reducedDifference]
  refine ⟨?_, ?_, ?_⟩
  · rw [show w - (product * 2 ^ D - (product * 2 ^ D + 2 ^ 22) / 2 ^ 23 * Q)
      = w - product * 2 ^ D + (product * 2 ^ D + 2 ^ 22) / 2 ^ 23 * Q by ring]
    exact add_mul_emod_self_right _ _ _
  · rw [Q_eq] at low high ⊢
    rw [scale]
    omega
  · rw [Q_eq] at low high ⊢
    rw [scale]
    omega

/-- One coefficient of `c * t1` stays far within `int32_t`. -/
theorem product_range (c : Challenge) (t1 : BoundedVec K 0 1023) (v i)
    : -50176 ≤ Negacyclic.mul (coeffs c.poly) (coeffs (t1.vec v)) i
      ∧ Negacyclic.mul (coeffs c.poly) (coeffs (t1.vec v)) i < 80896 := by
  have bounded (i) : -0x400 ≤ coeffs (t1.vec v) i ∧ coeffs (t1.vec v) i ≤ 0x400 := by
    have bounds := t1.bounded v i
    omega
  have range := product_bounds layoutT1_safe c bounded i
  have width : (2 : ℤ) ^ layoutT1.width = 131072 := rfl
  have total : (TAU : ℤ) * 0x400 = 50176 := rfl
  rw [width, total] at range
  omega

theorem toInt_sub_reduced (x w : BitVec 32) (low : -Q < w.toInt) (high : w.toInt < Q)
    (productLow : -50176 ≤ x.toInt) (productHigh : x.toInt < 80896)
    : (w - reduce32 (x <<< D)).toInt = reducedDifference w.toInt x.toInt := by
  have scale : (2 : ℤ) ^ D = 8192 := rfl
  obtain ⟨_, above, below⟩ := reducedDifference_spec low high productLow productHigh
  have shifted : (x <<< D).toInt = x.toInt * 2 ^ D :=
    toInt_shiftLeft (by decide) (by rw [scale, Fits]; omega)
  have reduced : (reduce32 (x <<< D)).toInt
      = x.toInt * 2 ^ D - (x.toInt * 2 ^ D + 2 ^ 22) / 2 ^ 23 * Q := by
    rw [toInt_reduce32 _ (by rw [shifted, scale]; omega), shifted]
  have fits : Fits 32 (reducedDifference w.toInt x.toInt) := by
    rw [Q_eq] at above below
    constructor <;> omega
  rw [toInt_sub (by rw [reduced]; exact fits), reduced]
  rfl

/-- `caddq` on a number. -/
def corrected (a : ℤ) : ℤ := if a < 0 then a + Q else a

/-- The whole reconstruction on words. -/
theorem toInt_useHint_caddq (x w hint : BitVec 32) (low : -Q < w.toInt) (high : w.toInt < Q)
    (productLow : -50176 ≤ x.toInt) (productHigh : x.toInt < 80896)
    : (useHint (caddq (w - reduce32 (x <<< D))) hint).toInt
      = applyHint hint.toInt (decomposed (corrected (reducedDifference w.toInt x.toInt))) := by
  obtain ⟨_, above, below⟩ := reducedDifference_spec low high productLow productHigh
  have added : (caddq (w - reduce32 (x <<< D))).toInt
      = corrected (reducedDifference w.toInt x.toInt) := by
    rw [toInt_caddq, toInt_sub_reduced x w low high productLow productHigh]
    rfl
  have range : -2 ^ 23 < corrected (reducedDifference w.toInt x.toInt)
      ∧ corrected (reducedDifference w.toInt x.toInt) < 2 ^ 24 := by
    rw [Q_eq] at above below
    rw [corrected, Q_eq]
    split <;> omega
  rw [← added] at range
  rw [toInt_useHint _ hint range.1 range.2, added]

theorem coeffs_reconstructW1 (c : Challenge) (t1 : BoundedVec K 0 1023)
    (w1 : BoundedVec K (-Q + 1) (Q - 1)) (h t10_table t11_table) (v i)
    : coeffs (reconstructW1 c.poly t10_table t11_table t1.vec w1.vec h v) i
      = applyHint (coeffs (h v) i)
        (decomposed (corrected (reducedDifference (coeffs (w1.vec v) i)
          (Negacyclic.mul (coeffs c.poly) (coeffs (t1.vec v)) i)))) := by
  obtain ⟨productLow, productHigh⟩ := product_range c t1 v i
  obtain ⟨low, high⟩ := w1.bounded v i
  have product := congrFun (coeffs_evaluateCt1 c t1 t10_table t11_table v) i
  rw [← product] at productLow productHigh ⊢
  have lowest : -Q < (w1.vec v i).toInt := add_one_le_iff.mp low
  have highest : (w1.vec v i).toInt < Q := le_sub_one_iff.mp high
  exact toInt_useHint_caddq _ _ (h v i) lowest highest productLow productHigh

-- Against UseHint of the standard representative

/-- A difference whose high bits come out right although it may lie outside `[-Q, Q)`. Beyond
`Q` only the topmost low bits go wrong; below `-Q` the high bits are off within `127` of the
top, and a hint is always applied downwards.
-/
def ReliableDifference (hint diff : ℤ) : Prop :=
  (-Q ≤ diff ∧ diff < Q)
  ∨ (Q ≤ diff ∧ (Decompose (diff % Q)).2 ≠ GAMMA2)
  ∨ (diff < -Q
    ∧ if hint = 0 then (Decompose (diff % Q)).2 < GAMMA2 - 126
      else (Decompose (diff % Q)).2 ≤ 0)

/-- Adding `Q` once to the negative differences gives the bits of the representative exactly
for the reliable ones.
-/
theorem applyHint_corrected_iff {diff : ℤ} (hint)
    (above : -Q - 6283009 < diff) (below : diff < Q + 6283009)
    : applyHint hint (decomposed (corrected diff)) = UseHint hint (diff % Q)
      ↔ ReliableDifference hint diff := by
  rw [ReliableDifference]
  by_cases beyond : Q ≤ diff
  · have representative : diff % Q = diff - Q := by
      rw [Q_eq] at above below beyond ⊢
      omega
    have whole : corrected diff = diff - Q + Q := by
      rw [corrected, if_neg (by omega)]
      omega
    rw [representative, whole, applyHint_add_Q hint (by omega) (by omega)]
    constructor
    · intro reliable
      exact .inr (.inl ⟨beyond, reliable⟩)
    · rintro (⟨_, within⟩ | ⟨_, reliable⟩ | ⟨under, _⟩)
      · omega
      · exact reliable
      · omega
  · by_cases under : diff < -Q
    · have representative : diff % Q = diff + 2 * Q := by
        rw [Q_eq] at above below under ⊢
        omega
      have whole : corrected diff = diff + 2 * Q - Q := by
        rw [corrected, if_pos (by omega)]
        omega
      rw [representative, whole, applyHint_sub_Q hint (by omega) (by omega)]
      constructor
      · intro reliable
        exact .inr (.inr ⟨under, reliable⟩)
      · rintro (⟨within, _⟩ | ⟨beyond, _⟩ | ⟨_, reliable⟩)
        · omega
        · omega
        · exact reliable
    · have representative : corrected diff = diff % Q := by
        rw [corrected]
        rw [Q_eq] at beyond under ⊢
        split <;> omega
      have range : 0 ≤ diff % Q ∧ diff % Q < Q :=
        ⟨emod_nonneg _ (by decide), emod_lt_of_pos _ (by decide)⟩
      rw [representative, UseHint, decomposed_eq_Decompose range.1 range.2]
      exact iff_of_true rfl (.inl ⟨by omega, by omega⟩)

/-- `crypto_sign_verify` reconstructs the bits of the representative of `w - c * t1 * 2 ^ D`
in a coefficient exactly when the difference it forms there is reliable.
-/
theorem reconstructW1_eq_useHint_iff (c : Challenge) (t1 : BoundedVec K 0 1023)
    (w1 : BoundedVec K (-Q + 1) (Q - 1)) (h : BoundedVec K 0 1) (t10_table t11_table : Table)
    (v : Fin K) (i : Fin N)
    : coeffs (reconstructW1 c.poly t10_table t11_table t1.vec w1.vec h.vec v) i
        = UseHint (coeffs (h.vec v) i)
          ((coeffs (w1.vec v) i - Negacyclic.mul (coeffs c.poly) (coeffs (t1.vec v)) i * 2 ^ D) % Q)
      ↔ ReliableDifference (coeffs (h.vec v) i)
        (reducedDifference (coeffs (w1.vec v) i)
          (Negacyclic.mul (coeffs c.poly) (coeffs (t1.vec v)) i)) := by
  obtain ⟨productLow, productHigh⟩ := product_range c t1 v i
  obtain ⟨low, high⟩ := w1.bounded v i
  obtain ⟨same, above, below⟩ := reducedDifference_spec (add_one_le_iff.mp low)
    (le_sub_one_iff.mp high) productLow productHigh
  rw [coeffs_reconstructW1, ← same]
  exact applyHint_corrected_iff _ above below

def constantVec (n : BitVec 32) : PolyVec K := fun _ i => if i.val = 0 then n else 0

theorem mul_constantVec (c : Fin N → ℤ) (n v)
    : Negacyclic.mul c (coeffs (constantVec n v)) 0 = c 0 * n.toInt := by
  rw [Negacyclic.mul, Finset.sum_eq_single 0]
  · simp [Negacyclic.rotate, coeffs, constantVec]
  · intro i _ nonzero
    simp [Negacyclic.rotate, coeffs, constantVec, nonzero]
  · simp

/-- With `w = 1 - Q`, a constant coefficient `40` of `c * t1` and a hint, the code computes
`14` where `UseHint` gives `0`.
-/
theorem reconstructW1_below_range
    : coeffs
          (reconstructW1 (default : Challenge).poly (fun _ => 0) (fun _ => 0) (constantVec 40)
            (fun _ _ => BitVec.ofInt 32 (1 - Q)) (fun _ _ => 1) 0) 0
        = 14
      ∧ UseHint 1
          ((1 - Q
            - Negacyclic.mul (coeffs (default : Challenge).poly) (coeffs (constantVec 40 0)) 0
              * 2 ^ D) % Q)
        = 0 := by
  have inT1 (j) (i)
      : 0 ≤ coeffs (constantVec 40 j) i ∧ coeffs (constantVec 40 j) i ≤ 1023 := by
    simp only [coeffs, constantVec]
    split <;> decide
  have inW1 : -(Q : ℤ) + 1 ≤ (BitVec.ofInt 32 (1 - Q)).toInt
      ∧ (BitVec.ofInt 32 (1 - Q)).toInt ≤ Q - 1 := by decide
  have one : coeffs (default : Challenge).poly 0 = 1 := by decide
  have product : Negacyclic.mul (coeffs (default : Challenge).poly) (coeffs (constantVec 40 0)) 0
      = 40 := by
    rw [mul_constantVec, one]
    decide
  constructor
  · rw [coeffs_reconstructW1 default ⟨constantVec 40, inT1⟩
      ⟨fun _ _ => BitVec.ofInt 32 (1 - Q), fun _ _ => inW1⟩, product]
    have bits : applyHint (1 : BitVec 32).toInt
        (decomposed (corrected (reducedDifference (BitVec.ofInt 32 (1 - Q)).toInt 40))) = 14 := by
      decide
    exact bits
  · rw [product]
    decide

end Pqcoin.Dilithium
