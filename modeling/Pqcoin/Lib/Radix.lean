import Mathlib.Data.Nat.Digits.Lemmas
import Mathlib.Data.Nat.Bitwise
import Mathlib.Data.Nat.Size
import Mathlib.Tactic.Ring
import Mathlib.Tactic.Linarith

/-! Multi-word numbers as lists of machine words, least significant word first.
The value of a word list is Mathlib's `Nat.ofDigits` in radix `2 ^ w`; carry chains, bit
positions and top-down comparison are stated once here for any word width.
-/

namespace Radix

open BitVec List

variable {w : Nat}

def value (words : List (BitVec w)) : Nat :=
  Nat.ofDigits (2 ^ w) (words.map BitVec.toNat)

@[simp] theorem value_nil : value ([] : List (BitVec w)) = 0 := rfl

@[simp] theorem value_cons (word : BitVec w) (rest : List (BitVec w))
    : value (word :: rest) = word.toNat + 2 ^ w * value rest := by
  simp [value, Nat.ofDigits_cons]

theorem value_append (low high : List (BitVec w))
    : value (low ++ high) = value low + 2 ^ (w * low.length) * value high := by
  simp [value, Nat.ofDigits_append, pow_mul]

theorem value_lt (words : List (BitVec w)) : value words < 2 ^ (w * words.length) := by
  induction words with
  | nil => simp
  | cons word rest ih =>
    rw [value_cons, length_cons, Nat.mul_succ, Nat.add_comm, pow_add]
    have small := word.isLt
    have next : 2 ^ w * value rest + 2 ^ w ≤ 2 ^ (w * rest.length) * 2 ^ w := by
      calc 2 ^ w * value rest + 2 ^ w
          = (value rest + 1) * 2 ^ w := by ring
        _ ≤ 2 ^ (w * rest.length) * 2 ^ w := Nat.mul_le_mul_right _ ih
    omega

theorem value_replicate_zero (n) : value (List.replicate n 0#w) = 0 := by
  induction n with
  | zero => rfl
  | succ n ih => simp [List.replicate_succ, ih]

-- Carry chains

/-- One column of a carry chain: emitting the low digit of `n` and passing `n / base` on
keeps the total modulo the larger radix.
-/
theorem carry_step (base modulus n rest) (pos : 0 < base)
    : n % base + base * ((rest + n / base) % modulus)
      = (n + base * rest) % (base * modulus) := by
  rw [Nat.mod_mul, Nat.add_mul_mod_self_left, Nat.add_mul_div_left _ _ pos, Nat.add_comm rest]

-- Bits and words

theorem testBit_value (pos : 0 < w) (words : List (BitVec w)) (i)
    : (value words).testBit i = (words.getD (i / w) 0).getLsbD (i % w) := by
  induction words generalizing i with
  | nil => simp
  | cons word rest ih =>
    rw [value_cons, Nat.add_comm, Nat.testBit_two_pow_mul_add _ word.isLt]
    by_cases low : i < w
    · simp [low, Nat.div_eq_of_lt low, Nat.mod_eq_of_lt low, BitVec.getLsbD]
    obtain ⟨j, rfl⟩ : ∃ j, i = j + w := ⟨i - w, by omega⟩
    rw [if_neg low, Nat.add_sub_cancel, ih, Nat.add_div_right _ pos, Nat.add_mod_right]
    simp

theorem value_eq_of_testBit (pos : 0 < w) {words : List (BitVec w)} {n}
    (agree : ∀ i, (words.getD (i / w) 0).getLsbD (i % w) = n.testBit i)
    : value words = n :=
  Nat.eq_of_testBit_eq (fun i => (testBit_value pos words i).trans (agree i))

theorem value_injective {left right : List (BitVec w)}
    (sameLength : left.length = right.length) (sameValue : value left = value right)
    : left = right := by
  induction left generalizing right with
  | nil => exact (length_eq_zero_iff.mp sameLength.symm).symm
  | cons word rest ih =>
    cases right with
    | nil => simp at sameLength
    | cons other others =>
      simp only [value_cons] at sameValue
      have hm := congrArg (· % 2 ^ w) sameValue
      have hd := congrArg (· / 2 ^ w) sameValue
      simp only [Nat.add_mul_mod_self_left, Nat.mod_eq_of_lt word.isLt,
        Nat.mod_eq_of_lt other.isLt] at hm
      simp only [Nat.add_mul_div_left _ _ (Nat.two_pow_pos w),
        Nat.div_eq_of_lt word.isLt, Nat.div_eq_of_lt other.isLt, Nat.zero_add] at hd
      rw [eq_of_toNat_eq hm, ih (by simpa using sameLength) hd]

/-- Cutting a bit vector into words keeps its number. -/
theorem value_extract {n} (pos : 0 < w) (a : BitVec n) (count) (covers : n ≤ w * count)
    : value ((List.range count).map (fun x => a.extractLsb' (w * x) w)) = a.toNat := by
  apply value_eq_of_testBit pos
  intro i
  by_cases inside : i / w < count
  · have select : ((List.range count).map (fun x => a.extractLsb' (w * x) w)).getD (i / w) 0
        = a.extractLsb' (w * (i / w)) w := by
      simp [getD_eq_getElem?_getD, List.getElem?_range inside]
    rw [select, getLsbD_extractLsb', Nat.div_add_mod, testBit_toNat]
    simp [Nat.mod_lt i pos]
  · have beyond : n ≤ i := calc
      n ≤ w * count := covers
      _ ≤ w * (i / w) := Nat.mul_le_mul_left w (Nat.le_of_not_lt inside)
      _ ≤ i := Nat.mul_div_le i w
    rw [getD_eq_default _ _ (by simpa using inside)]
    simp [testBit_toNat, getLsbD_of_ge a i beyond]

/-- Splitting off the top word of a prefix. -/
theorem value_take_succ (words : List (BitVec w)) (n) (inside : n < words.length)
    : value (words.take (n + 1))
      = value (words.take n) + 2 ^ (w * n) * (words.getD n 0).toNat := by
  rw [take_succ_eq_append_getElem inside, value_append]
  simp [getD_eq_getElem?_getD, List.getElem?_eq_getElem inside,
    Nat.min_eq_left (Nat.le_of_lt inside)]

theorem value_take_lt (words : List (BitVec w)) (n) : value (words.take n) < 2 ^ (w * n) :=
  Nat.lt_of_lt_of_le (value_lt _)
    (Nat.pow_le_pow_right (by omega) (Nat.mul_le_mul_left w (length_take_le n words)))

-- Bit length and shift-and-subtract division

/-- Below its next power of two, a number has its top bit set exactly when it reaches the
power below.
-/
theorem testBit_top (x n) (bound : x < 2 ^ (n + 1)) : x.testBit n = true ↔ 2 ^ n ≤ x := by
  constructor
  · exact Nat.ge_two_pow_of_testBit
  · intro reached
    have quot : x / 2 ^ n = 1 := by
      apply Nat.div_eq_of_lt_le
      · simpa using reached
      · rw [pow_succ] at bound
        omega
    rw [Nat.testBit_eq_decide_div_mod_eq, quot]
    rfl

/-- The bit length of a number is that of its nonzero high part, shifted. -/
theorem size_add_mul (k low high) (small : low < 2 ^ k) (nonzero : high ≠ 0)
    : (low + 2 ^ k * high).size = k + high.size := by
  have highSize : 0 < high.size := Nat.size_pos.mpr (Nat.pos_of_ne_zero nonzero)
  apply Nat.le_antisymm
  · apply Nat.size_le.mpr
    calc low + 2 ^ k * high
        < 2 ^ k * (high + 1) := by rw [Nat.mul_succ]; omega
      _ ≤ 2 ^ k * 2 ^ high.size := Nat.mul_le_mul_left _ (Nat.lt_size_self high)
      _ = 2 ^ (k + high.size) := (pow_add 2 k _).symm
  · have top : 2 ^ (high.size - 1) ≤ high := Nat.lt_size.mp (by omega)
    have reached : k + (high.size - 1) < (low + 2 ^ k * high).size := by
      apply Nat.lt_size.mpr
      calc 2 ^ (k + (high.size - 1))
          = 2 ^ k * 2 ^ (high.size - 1) := pow_add 2 k _
        _ ≤ 2 ^ k * high := Nat.mul_le_mul_left _ top
        _ ≤ low + 2 ^ k * high := Nat.le_add_left _ _
    omega

/-- Subtracting a shifted divisor that fits contributes its power of two to the quotient. -/
theorem div_sub_shifted (num d k) (pos : 0 < d) (fits : d * 2 ^ k ≤ num)
    : 2 ^ k + (num - d * 2 ^ k) / d = num / d := by
  obtain ⟨rest, rfl⟩ := Nat.exists_eq_add_of_le fits
  rw [Nat.add_sub_cancel_left, Nat.mul_add_div pos]

end Radix
