import Mathlib.Algebra.BigOperators.Group.List.Basic
import Mathlib.Algebra.Order.BigOperators.Group.List
import Pqcoin.Lib.SignedWord

/-! Sums in signed machine words that record whether one of their operations has overflowed. -/

open SignedWord

/-- A signed word with the overflows on the way to it. -/
structure Tally (w : ℕ) where
  amount : BitVec w
  overflow : Bool
  deriving DecidableEq

namespace Tally

open List

variable {w : ℕ}

def of (amount : BitVec w) : Tally w := ⟨amount, false⟩

def add (first second : Tally w) : Tally w :=
  ⟨first.amount + second.amount,
    first.overflow || second.overflow || first.amount.saddOverflow second.amount⟩

def sub (first second : Tally w) : Tally w :=
  ⟨first.amount - second.amount,
    first.overflow || second.overflow || first.amount.ssubOverflow second.amount⟩

def addAll (tally : Tally w) (amounts : List (BitVec w)) : Tally w :=
  amounts.foldl (fun tally amount => tally.add (of amount)) tally

/-- Nothing has overflowed, and the word denotes the total. -/
structure Exact (tally : Tally w) (total : ℤ) : Prop where
  amount : tally.amount.toInt = total
  overflow : tally.overflow = false

variable {first second : Tally w} {m n : ℤ}

theorem exact_of (amount : BitVec w) : Exact (of amount) amount.toInt := ⟨rfl, rfl⟩

theorem exact_zero : Exact (of (0 : BitVec w)) 0 := ⟨BitVec.toInt_zero, rfl⟩

theorem Exact.add (one : Exact first m) (other : Exact second n) (fits : Fits w (m + n))
    : Exact (first.add second) (m + n) := by
  rw [← one.amount, ← other.amount] at fits ⊢
  refine ⟨toInt_add fits, ?_⟩
  rw [Fits] at fits
  simp only [Tally.add, one.overflow, other.overflow, Bool.false_or, BitVec.saddOverflow,
    Bool.or_eq_false_iff, decide_eq_false_iff_not]
  omega

theorem Exact.sub (one : Exact first m) (other : Exact second n) (fits : Fits w (m - n))
    : Exact (first.sub second) (m - n) := by
  rw [← one.amount, ← other.amount] at fits ⊢
  refine ⟨toInt_sub fits, ?_⟩
  rw [Fits] at fits
  simp only [Tally.sub, one.overflow, other.overflow, Bool.false_or, BitVec.ssubOverflow,
    Bool.or_eq_false_iff, decide_eq_false_iff_not]
  omega

theorem Exact.addAll {amounts} (start : Exact first m) (pos : 0 ≤ m)
    (nonneg : ∀ amount ∈ amounts, 0 ≤ amount.toInt)
    (fits : m + (amounts.map BitVec.toInt).sum < 2 ^ (w - 1))
    : Exact (first.addAll amounts) (m + (amounts.map BitVec.toInt).sum) := by
  induction amounts generalizing first m with
  | nil => simpa [Tally.addAll] using start
  | cons amount rest ih =>
    rw [forall_mem_cons] at nonneg
    have later : 0 ≤ (rest.map BitVec.toInt).sum := by
      refine sum_nonneg fun value mem => ?_
      obtain ⟨amount, found, rfl⟩ := mem_map.mp mem
      exact nonneg.2 amount found
    rw [map_cons, sum_cons, ← add_assoc] at fits ⊢
    have here : Fits w (m + amount.toInt) := by
      rw [Fits]
      have power : (0 : ℤ) ≤ 2 ^ (w - 1) := Int.le_of_lt (Int.pow_pos (by decide))
      omega
    exact ih (start.add (exact_of amount) here) (by omega) nonneg.2 fits

end Tally
