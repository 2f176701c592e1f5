import Mathlib.Data.Nat.Digits.Lemmas
import Mathlib.Data.List.DropRight
import Mathlib.Tactic.Ring
import Mathlib.Tactic.Linarith

/-! Conversion between number bases by repeated multiplication of a digit buffer of fixed
size, least significant digit first. Each pass stops at the first position beyond the digits
in use where no carry is left.
-/

namespace BaseConversion

open List

/-- One pass `buffer = m * buffer + carry` in base `b`, from position `i` on: the buffer, the
carry that is left and the position where the pass stopped.
-/
def mulAdd (m b length : Nat) : Nat → Nat → List Nat → List Nat × Nat × Nat
  | carry, i, [] => ([], carry, i)
  | carry, i, digit :: rest =>
    if carry ≠ 0 ∨ i < length then
      let pass := mulAdd m b length ((carry + m * digit) / b) (i + 1) rest
      ((carry + m * digit) % b :: pass.1, pass.2)
    else (digit :: rest, carry, i)

/-- The passes for each digit of the input, most significant first: the buffer and the count
of digits in use. There is no result if a carry is left.
-/
def passes (m b : Nat) : List Nat → List Nat → Nat → Option (List Nat × Nat)
  | [], buffer, length => some (buffer, length)
  | digit :: rest, buffer, length =>
    let pass := mulAdd m b length digit 0 buffer
    if pass.2.1 = 0 then passes m b rest pass.1 pass.2.2 else none

def significant (buffer : List Nat) (length : Nat) : List Nat :=
  (buffer.take length).reverse.dropWhile (· == 0)

/-- The conversion of a number in base `m` to base `b`, in a buffer of `size` digits. -/
def convert (m b size : Nat) (input : List Nat) : Option (List Nat) :=
  (passes m b input (List.replicate size 0) 0).map (fun result => significant result.1 result.2)

-- One pass

def ZeroFrom (n : Nat) (buffer : List Nat) : Prop := ∀ digit ∈ buffer.drop n, digit = 0

theorem ofDigits_eq_zero (b) {buffer} (zero : ∀ digit ∈ buffer, digit = 0)
    : Nat.ofDigits b buffer = 0 := by
  induction buffer with
  | nil => rfl
  | cons digit rest ih =>
    rw [Nat.ofDigits_cons, zero digit mem_cons_self,
      ih (fun other inside => zero other (mem_cons_of_mem _ inside))]
    simp

theorem ZeroFrom.tail {n i digit} {rest} (zero : ZeroFrom (n - i) (digit :: rest))
    : ZeroFrom (n - (i + 1)) rest := by
  intro other inside
  apply zero other
  by_cases within : i < n
  · rw [show n - i = (n - (i + 1)) + 1 by omega, drop_succ_cons]
    exact inside
  · rw [show n - i = 0 by omega]
    exact mem_cons_of_mem _ (mem_of_mem_drop inside)

variable {m b length : Nat}

@[simp] theorem length_mulAdd (carry i : Nat) (buffer : List Nat)
    : (mulAdd m b length carry i buffer).1.length = buffer.length := by
  induction buffer generalizing carry i with
  | nil => rfl
  | cons digit rest ih =>
    rw [mulAdd]
    split
    · simp [ih]
    · rfl

/-- A pass keeps digits below the base, by list induction. -/
theorem mulAdd_lt (pos : 0 < b) {carry i} {buffer} (small : ∀ digit ∈ buffer, digit < b)
    : ∀ digit ∈ (mulAdd m b length carry i buffer).1, digit < b := by
  induction buffer generalizing carry i with
  | nil => simp [mulAdd]
  | cons first rest ih =>
    rw [mulAdd]
    split
    · intro digit inside
      rcases mem_cons.mp inside with rfl | inside
      · exact Nat.mod_lt _ pos
      · exact ih (fun other h => small other (mem_cons_of_mem _ h)) digit inside
    · exact small

/-- A pass multiplies and adds, up to the carry it leaves. Where it stops early, neither the
carry nor the rest of the buffer holds anything.
-/
theorem mulAdd_value (carry i) {buffer} (zero : ZeroFrom (length - i) buffer)
    : Nat.ofDigits b (mulAdd m b length carry i buffer).1
        + b ^ buffer.length * (mulAdd m b length carry i buffer).2.1
      = m * Nat.ofDigits b buffer + carry := by
  induction buffer generalizing carry i with
  | nil => simp [mulAdd]
  | cons digit rest ih =>
    rw [mulAdd]
    split
    · have carried := ih ((carry + m * digit) / b) (i + 1) zero.tail
      have column := Nat.mod_add_div (carry + m * digit) b
      simp only [Nat.ofDigits_cons, length_cons] at carried ⊢
      generalize mulAdd m b length ((carry + m * digit) / b) (i + 1) rest = later at carried ⊢
      calc (carry + m * digit) % b + b * Nat.ofDigits b later.1 + b ^ (rest.length + 1) * later.2.1
          = (carry + m * digit) % b
            + b * (Nat.ofDigits b later.1 + b ^ rest.length * later.2.1) := by ring
        _ = (carry + m * digit) % b + b * ((carry + m * digit) / b)
            + m * (b * Nat.ofDigits b rest) := by rw [carried]; ring
        _ = m * (digit + b * Nat.ofDigits b rest) + carry := by rw [column]; ring
    · rename_i stopped
      have done : carry = 0 ∧ length - i = 0 := by omega
      have empty : Nat.ofDigits b (digit :: rest) = 0 :=
        ofDigits_eq_zero b (by rw [ZeroFrom, done.2] at zero; exact zero)
      simp [empty, done.1]

/-- Nothing is in use behind the position where a pass stopped. -/
theorem mulAdd_zeroFrom (carry i) {buffer} (zero : ZeroFrom (length - i) buffer)
    : i ≤ (mulAdd m b length carry i buffer).2.2
      ∧ ZeroFrom ((mulAdd m b length carry i buffer).2.2 - i)
          (mulAdd m b length carry i buffer).1 := by
  induction buffer generalizing carry i with
  | nil => exact ⟨Nat.le_refl _, by simp [mulAdd, ZeroFrom]⟩
  | cons digit rest ih =>
    rw [mulAdd]
    split
    · obtain ⟨later, behind⟩ := ih ((carry + m * digit) / b) (i + 1) zero.tail
      refine ⟨by simp only; omega, ?_⟩
      intro other inside
      refine behind other ?_
      simp only at inside
      rwa [show (mulAdd m b length ((carry + m * digit) / b) (i + 1) rest).2.2 - i
          = ((mulAdd m b length ((carry + m * digit) / b) (i + 1) rest).2.2 - (i + 1)) + 1
        by omega, drop_succ_cons] at inside
    · rename_i stopped
      refine ⟨Nat.le_refl _, ?_⟩
      rw [show length - i = 0 by omega] at zero
      simpa using zero

-- The whole conversion

/-- What the buffer and the count of digits in use say between two passes. -/
structure Holds (b size : Nat) (buffer : List Nat) (length value : Nat) : Prop where
  size : buffer.length = size
  small : ∀ digit ∈ buffer, digit < b
  value : Nat.ofDigits b buffer = value
  zero : ZeroFrom length buffer

theorem Holds.initial (size) (pos : 0 < b)
    : Holds b size (replicate size 0) 0 0 where
  size := length_replicate
  small digit inside := by
    rw [eq_of_mem_replicate inside]
    exact pos
  value := ofDigits_eq_zero b (fun _ inside => eq_of_mem_replicate inside)
  zero _ inside := eq_of_mem_replicate (mem_of_mem_drop inside)

theorem Holds.pass {size value} {buffer}
    (holds : Holds b size buffer length value) (digit) (pos : 0 < b)
    (fits : m * value + digit < b ^ size)
    : (mulAdd m b length digit 0 buffer).2.1 = 0
      ∧ Holds b size (mulAdd m b length digit 0 buffer).1 (mulAdd m b length digit 0 buffer).2.2
          (m * value + digit) := by
  have total := mulAdd_value (m := m) (b := b) digit 0 holds.zero
  rw [holds.value, holds.size] at total
  have left : (mulAdd m b length digit 0 buffer).2.1 = 0 := by
    by_contra some
    have reached := Nat.le_mul_of_pos_right (b ^ size) (Nat.pos_of_ne_zero some)
    omega
  refine ⟨left, ?_, mulAdd_lt pos holds.small, ?_, ?_⟩
  · rw [length_mulAdd, holds.size]
  · rw [← total, left, Nat.mul_zero, Nat.add_zero]
  · exact (mulAdd_zeroFrom (m := m) (b := b) digit 0 holds.zero).2

/-- Dropping leading zeros keeps the number, by induction from the top digit. -/
theorem ofDigits_rdropWhile (b : Nat) (buffer)
    : Nat.ofDigits b (buffer.rdropWhile (· == 0)) = Nat.ofDigits b buffer := by
  induction buffer using reverseRecOn with
  | nil => simp
  | append_singleton rest top ih =>
    by_cases zero : top = 0
    · rw [rdropWhile_concat_pos _ _ _ (by simpa using zero), ih, Nat.ofDigits_append, zero]
      simp
    · rw [rdropWhile_concat_neg _ _ _ (by simpa using zero)]

/-- What is in use, without leading zeros, are the digits of the number. -/
theorem Holds.digits {size value} {buffer} (holds : Holds b size buffer length value) (base : 1 < b)
    : significant buffer length = (Nat.digits b value).reverse := by
  have kept : Nat.ofDigits b (buffer.take length) = value := by
    have whole := congrArg (Nat.ofDigits b) (take_append_drop length buffer)
    rw [Nat.ofDigits_append, ofDigits_eq_zero b holds.zero, holds.value] at whole
    simpa using whole
  have digits := Nat.digits_ofDigits b base ((buffer.take length).rdropWhile (· == 0))
    (fun digit inside => holds.small digit
      (mem_of_mem_take ((List.rdropWhile_prefix _ _).subset inside)))
    (fun nonempty => by simpa using rdropWhile_last_not (· == 0) _ nonempty)
  rw [ofDigits_rdropWhile, kept] at digits
  rw [digits, rdropWhile, reverse_reverse, significant]

theorem passes_holds {size value} {input buffer} (pos : 0 < b)
    (digits : ∀ digit ∈ input, digit < m) (holds : Holds b size buffer length value)
    (fits : (value + 1) * m ^ input.length ≤ b ^ size)
    : ∃ result, passes m b input buffer length = some result
      ∧ Holds b size result.1 result.2
          (value * m ^ input.length + Nat.ofDigits m input.reverse) := by
  induction input generalizing buffer length value with
  | nil => exact ⟨(buffer, length), rfl, by simpa using holds⟩
  | cons digit rest ih =>
    have small := digits digit mem_cons_self
    have next : (m * value + digit + 1) * m ^ rest.length ≤ b ^ size := by
      calc (m * value + digit + 1) * m ^ rest.length
          ≤ (m * value + m) * m ^ rest.length := Nat.mul_le_mul_right _ (by omega)
        _ = (value + 1) * m ^ (rest.length + 1) := by ring
        _ ≤ b ^ size := fits
    have power : 0 < m ^ rest.length := Nat.pow_pos (by omega)
    obtain ⟨left, held⟩ := holds.pass (m := m) digit pos
      (Nat.lt_of_lt_of_le (Nat.lt_of_lt_of_le (Nat.lt_succ_self _)
        (Nat.le_mul_of_pos_right _ power)) next)
    obtain ⟨result, ran, final⟩ :=
      ih (fun other inside => digits other (mem_cons_of_mem _ inside)) held next
    refine ⟨result, ?_, ?_⟩
    · rw [passes]
      simp only [left, if_true]
      exact ran
    · convert final using 1
      rw [reverse_cons, Nat.ofDigits_append, length_reverse, length_cons, Nat.ofDigits_singleton]
      ring

/-- A buffer that is large enough for every number of the input's length makes the passes
succeed with the digits of the number.
-/
theorem passes_initial {size} {input} (base : 1 < b)
    (digits : ∀ digit ∈ input, digit < m) (fits : m ^ input.length ≤ b ^ size)
    : ∃ result, passes m b input (replicate size 0) 0 = some result
      ∧ significant result.1 result.2
        = (Nat.digits b (Nat.ofDigits m input.reverse)).reverse := by
  have pos : 0 < b := by omega
  obtain ⟨result, ran, holds⟩ := passes_holds pos digits (Holds.initial size pos)
    (by simpa using fits)
  refine ⟨result, ran, ?_⟩
  rw [holds.digits base]
  simp

theorem convert_eq {size} {input} (base : 1 < b)
    (digits : ∀ digit ∈ input, digit < m) (fits : m ^ input.length ≤ b ^ size)
    : convert m b size input
      = some (Nat.digits b (Nat.ofDigits m input.reverse)).reverse := by
  obtain ⟨result, ran, digits⟩ := passes_initial base digits fits
  rw [convert, ran, Option.map_some, digits]

/-- A buffer estimated by a rounded rate is large enough if the rate is, over a whole
period.
-/
theorem fits_of_rate (rate period) (pos : 0 < period) (base : 0 < b)
    (enough : m ^ period ≤ b ^ rate) (n)
    : m ^ n ≤ b ^ (n * rate / period + 1) := by
  apply le_of_pow_le_pow_left₀ (Nat.pos_iff_ne_zero.mp pos) (Nat.zero_le _)
  have cover : n * rate ≤ (n * rate / period + 1) * period := by
    have division := Nat.div_add_mod (n * rate) period
    have remainder := Nat.mod_lt (n * rate) pos
    nlinarith
  calc (m ^ n) ^ period
      = (m ^ period) ^ n := by rw [← pow_mul, ← pow_mul, Nat.mul_comm]
    _ ≤ (b ^ rate) ^ n := Nat.pow_le_pow_left enough n
    _ = b ^ (n * rate) := by rw [← pow_mul, Nat.mul_comm]
    _ ≤ b ^ ((n * rate / period + 1) * period) := Nat.pow_le_pow_right base cover
    _ = (b ^ (n * rate / period + 1)) ^ period := pow_mul _ _ _

end BaseConversion
