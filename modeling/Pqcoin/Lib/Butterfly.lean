import Mathlib.Algebra.BigOperators.Ring.Finset
import Mathlib.Tactic.Ring
import Mathlib.Logic.Function.Basic

/-! Transforms in place. A polynomial is reduced modulo `x ^ len - root` for smaller and smaller
`len`, where the two residues of a step come from the entries of one pair; and a loop over pairs
that do not meet changes each of them by one step.
-/

namespace Butterfly

open Function List

-- Residues

section Residues

variable {R : Type*} [CommRing R]

/-- Coefficient `j` of the residue modulo `x ^ len - root` of a polynomial with `blocks * len`
coefficients.
-/
def residue (p : ℕ → R) (len blocks : ℕ) (root : R) (j : ℕ) : R :=
  ∑ q ∈ Finset.range blocks, p (q * len + j) * root ^ q

theorem sum_range_double (f : ℕ → R) (n)
    : ∑ q ∈ Finset.range (2 * n), f q = ∑ q ∈ Finset.range n, (f (2 * q) + f (2 * q + 1)) := by
  induction n with
  | zero => rfl
  | succ n ih =>
    rw [Nat.mul_succ, Finset.sum_range_succ, Finset.sum_range_succ, ih, Finset.sum_range_succ,
      add_assoc]

/-- A residue modulo `x ^ (2 * len) - z ^ 2`, reduced modulo `x ^ len - z`. -/
theorem residue_split {root z} (square : z ^ 2 = root) (p : ℕ → R) (len blocks j)
    : residue p (2 * len) blocks root j + z * residue p (2 * len) blocks root (len + j)
      = residue p len (2 * blocks) z j := by
  rw [residue, residue, residue, sum_range_double, Finset.mul_sum, ← Finset.sum_add_distrib]
  refine Finset.sum_congr rfl fun q _ => ?_
  have even : q * (2 * len) + j = 2 * q * len + j := by ring
  have odd : q * (2 * len) + (len + j) = (2 * q + 1) * len + j := by ring
  rw [even, odd, ← square]
  ring

/-- The other root of the same square. -/
theorem residue_split_neg {root z} (square : z ^ 2 = root) (p : ℕ → R) (len blocks j)
    : residue p (2 * len) blocks root j - z * residue p (2 * len) blocks root (len + j)
      = residue p len (2 * blocks) (-z) j := by
  rw [← residue_split (z := -z) (neg_sq z ▸ square)]
  ring

end Residues

-- Loops over pairs

section Pairs

variable {α κ : Type*}

/-- A loop over pairs of entries at a distance: `step` replaces both entries of each. -/
def pairLoop (step : κ → α → α → Option (α × α)) (len : ℕ)
    : List (κ × ℕ) → (ℕ → α) → Option (ℕ → α)
  | [], a => some a
  | (key, j) :: rest, a =>
    match step key (a j) (a (j + len)) with
    | none => none
    | some (left, right) =>
      pairLoop step len rest (Function.update (Function.update a (j + len) right) j left)

/-- If the pairs do not meet, each pair ends up as one step leaves it. -/
theorem pairLoop_spec {step} {len} {pairs}
    {a} {P : κ × ℕ → α → α → Prop} (unique : (pairs.map Prod.snd).Nodup)
    (apart : ∀ p ∈ pairs, ∀ q ∈ pairs, p.2 ≠ q.2 + len)
    (steps : ∀ p ∈ pairs, ∃ left right, step p.1 (a p.2) (a (p.2 + len)) = some (left, right)
      ∧ P p left right)
    : ∃ after, pairLoop step len pairs a = some after
      ∧ (∀ p ∈ pairs, P p (after p.2) (after (p.2 + len)))
      ∧ ∀ i, (∀ p ∈ pairs, i ≠ p.2 ∧ i ≠ p.2 + len) → after i = a i := by
  induction pairs generalizing a with
  | nil => exact ⟨a, rfl, fun _ listed => absurd listed not_mem_nil, fun _ _ => rfl⟩
  | cons pair rest ih =>
    obtain ⟨key, j⟩ := pair
    rw [map_cons, nodup_cons] at unique
    have self := apart _ mem_cons_self _ mem_cons_self
    obtain ⟨left, right, stepped, holds⟩ := steps _ mem_cons_self
    have others (p) (listed : p ∈ rest)
        : p.2 ≠ j ∧ p.2 + len ≠ j + len ∧ p.2 ≠ j + len ∧ p.2 + len ≠ j := by
      have other : p.2 ≠ j := fun same => unique.1 (mem_map.mpr ⟨p, listed, same⟩)
      exact ⟨other, fun same => other (Nat.add_right_cancel same),
        apart p (.tail _ listed) _ mem_cons_self,
        (apart _ mem_cons_self p (.tail _ listed)).symm⟩
    obtain ⟨after, ran, done, kept⟩ :=
      ih (a := Function.update (Function.update a (j + len) right) j left) unique.2
        (fun p listed q found => apart p (.tail _ listed) q (.tail _ found)) (by
          intro p listed
          obtain ⟨here, there, across, back⟩ := others p listed
          rw [update_of_ne here, update_of_ne across, update_of_ne back, update_of_ne there]
          exact steps p (.tail _ listed))
    refine ⟨after, ?_, ?_, ?_⟩
    · rw [pairLoop, stepped]
      exact ran
    · intro p listed
      rcases mem_cons.mp listed with rfl | listed
      · have first := kept j fun p found => ⟨(others p found).1.symm, (others p found).2.2.2.symm⟩
        have second := kept (j + len) fun p found =>
          ⟨(others p found).2.2.1.symm, (others p found).2.1.symm⟩
        rw [update_self] at first
        rw [update_of_ne (fun same => self same.symm), update_self] at second
        rw [first, second]
        exact holds
      · exact done p listed
    · intro i untouched
      obtain ⟨here, there⟩ := untouched _ mem_cons_self
      rw [kept i fun p found => untouched p (.tail _ found), update_of_ne here, update_of_ne there]

end Pairs

end Butterfly
