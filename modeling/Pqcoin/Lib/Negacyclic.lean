import Mathlib.Algebra.Polynomial.OfFn
import Mathlib.RingTheory.AdjoinRoot
import Mathlib.Algebra.BigOperators.Fin

/-! Multiplication in `R[X] / (X ^ n + 1)` on coefficient vectors. -/

namespace Negacyclic
open AdjoinRoot Finset Polynomial

variable {R : Type*} [CommRing R] {n : ℕ}

/-- Coefficient `k` of `X ^ i` times the element with coefficients `a`: what is rotated past
the top returns negated. The subtraction wraps at `n`.
-/
def rotate [NeZero n] (i : Fin n) (a : Fin n → R) (k : Fin n) : R :=
  if i ≤ k then a (k - i) else -a (k - i)

def mul [NeZero n] (c a : Fin n → R) (k : Fin n) : R := ∑ i, c i * rotate i a k

theorem root_pow : AdjoinRoot.root (X ^ n + 1 : R[X]) ^ n = -1 := by
  have zero : AdjoinRoot.mk (X ^ n + 1 : R[X]) (X ^ n + 1) = 0 := mk_self
  rw [map_add, map_pow, map_one, mk_X] at zero
  exact eq_neg_of_add_eq_zero_left zero

theorem map_product {S : Type*} [CommRing S] [NeZero n] (f : R →+* S) (c a : Fin n → R) (k)
    : f (mul c a k) = mul (fun i => f (c i)) (fun i => f (a i)) k := by
  simp only [mul, rotate, map_sum, RingHom.map_mul, apply_ite f, map_neg]

variable [DecidableEq R]

noncomputable def ofCoeffs (a : Fin n → R) : AdjoinRoot (X ^ n + 1 : R[X]) :=
  AdjoinRoot.mk _ (Polynomial.ofFn n a)

theorem ofCoeffs_eq_sum (a : Fin n → R)
    : ofCoeffs a
      = ∑ i, AdjoinRoot.of _ (a i) * AdjoinRoot.root (X ^ n + 1 : R[X]) ^ (i : ℕ) := by
  simp only [ofCoeffs, ofFn_eq_sum_monomial, map_sum, ← C_mul_X_pow_eq_monomial,
    map_mul, map_pow, mk_C, mk_X]

/-- The vector of an element is unique, since `X ^ n + 1` is monic of degree `n`. -/
theorem ofCoeffs_injective [Nontrivial R] [NeZero n]
    : Function.Injective (ofCoeffs : (Fin n → R) → AdjoinRoot (X ^ n + 1 : R[X])) := by
  intro left right same
  have monic : (X ^ n + 1 : R[X]).Monic := monic_X_pow_add_C 1 (NeZero.ne n)
  have degree : (X ^ n + 1 : R[X]).degree = n := degree_X_pow_add_C (NeZero.pos n) 1
  have zero : AdjoinRoot.mk (X ^ n + 1 : R[X]) (Polynomial.ofFn n (left - right)) = 0 := by
    rw [map_sub, map_sub, sub_eq_zero]
    exact same
  have equal : Polynomial.ofFn n (left - right) = 0 := by
    by_contra nonzero
    refine mk_ne_zero_of_degree_lt monic nonzero ?_ zero
    rw [degree]
    exact ofFn_degree_lt _
  exact sub_eq_zero.mp (injective_ofFn n (equal.trans (map_zero _).symm))

/-- Rotating a vector multiplies its element by a power of the root. -/
theorem ofCoeffs_rotate [NeZero n] (i) (a : Fin n → R)
    : ofCoeffs (rotate i a) = AdjoinRoot.root _ ^ (i : ℕ) * ofCoeffs a := by
  rw [ofCoeffs_eq_sum, ofCoeffs_eq_sum, mul_sum]
  symm
  apply Fintype.sum_equiv (Equiv.addRight i)
  intro j
  have power : AdjoinRoot.root (X ^ n + 1 : R[X]) ^ (i : ℕ)
      * (AdjoinRoot.of _ (a j) * AdjoinRoot.root (X ^ n + 1 : R[X]) ^ (j : ℕ))
      = AdjoinRoot.of _ (a j) * AdjoinRoot.root (X ^ n + 1 : R[X]) ^ ((j : ℕ) + i) := by
    rw [pow_add]
    ring
  rw [power, Equiv.coe_addRight, rotate, add_sub_cancel_right]
  have value := Fin.val_add_eq_ite j i
  by_cases wraps : n ≤ (j : ℕ) + i
  · rw [if_pos wraps] at value
    have past : ¬ i ≤ j + i := by
      rw [Fin.le_def, value]
      omega
    obtain ⟨k, sum⟩ := Nat.exists_eq_add_of_le wraps
    rw [if_neg past, value, sum, Nat.add_sub_cancel_left, pow_add, root_pow, map_neg]
    ring
  · rw [if_neg wraps] at value
    have within : i ≤ j + i := by
      rw [Fin.le_def, value]
      omega
    rw [if_pos within, value]

/-- The product of vectors is the product in the ring. -/
theorem ofCoeffs_mul [NeZero n] (c a : Fin n → R)
    : ofCoeffs (mul c a) = ofCoeffs c * ofCoeffs a := by
  have columns : ofCoeffs (mul c a) = ∑ i, AdjoinRoot.of _ (c i) * ofCoeffs (rotate i a) := by
    simp only [ofCoeffs_eq_sum, mul, map_sum, map_mul, sum_mul, mul_sum]
    rw [sum_comm]
    simp only [mul_assoc]
  rw [columns, ofCoeffs_eq_sum c, sum_mul]
  apply sum_congr rfl
  intro i _
  rw [ofCoeffs_rotate, mul_assoc]

theorem ofCoeffs_eq_mul_iff [Nontrivial R] [NeZero n] {c a product : Fin n → R}
    : ofCoeffs product = ofCoeffs c * ofCoeffs a ↔ product = mul c a := by
  rw [← ofCoeffs_mul]
  exact ofCoeffs_injective.eq_iff

/-- Products are products of values at the roots of `X ^ n + 1`. -/
theorem sum_mul_pow [NeZero n] {r} (power : r ^ n = -1) (c a : Fin n → R)
    : ∑ k, mul c a k * r ^ (k : ℕ) = (∑ k, c k * r ^ (k : ℕ)) * ∑ k, a k * r ^ (k : ℕ) := by
  have vanishes : (X ^ n + 1 : R[X]).eval₂ (RingHom.id R) r = 0 := by
    rw [eval₂_add, eval₂_X_pow, eval₂_one, power, neg_add_cancel]
  have value (a : Fin n → R)
      : AdjoinRoot.lift (RingHom.id R) r vanishes (ofCoeffs a) = ∑ k, a k * r ^ (k : ℕ) := by
    simp [ofCoeffs_eq_sum]
  rw [← value, ← value, ← value, ofCoeffs_mul, RingHom.map_mul]

end Negacyclic
