import Pqcoin.Arith.BaseUint

/-! Every `base_uint<256>` operator computes the integer operation modulo `2 ^ 256`. -/

namespace Pqcoin.BaseUint

open BitVec List Radix

variable (a : BaseUint)

theorem toNat_lt : a.toNat < 2 ^ 256 := by
  have bound := value_lt a.pn
  rwa [a.width] at bound

theorem toNat_injective {a b : BaseUint} (same : a.toNat = b.toNat) : a = b := by
  obtain ⟨left, hl⟩ := a
  obtain ⟨right, hr⟩ := b
  have words := value_injective (hl.trans hr.symm) same
  subst words
  rfl

@[simp] theorem toNat_zero : zero.toNat = 0 := value_replicate_zero 8

/-- A 64-bit word is stored exactly, by splitting it at bit 32. -/
@[simp] theorem toNat_ofUint64 (b : BitVec 64) : (ofUint64 b).toNat = b.toNat := by
  have split := Nat.mod_add_div b.toNat (2 ^ 32)
  have high := b.isLt
  simp only [toNat, ofUint64, value_cons, ofNat_eq_ofNat, value_replicate_zero,
    toNat_setWidth, toNat_ushiftRight, Nat.shiftRight_eq_div_pow]
  omega

-- Addition, negation and subtraction

/-- A 64-bit column sum of words below `2 ^ 32` splits into its low word and its carry. -/
theorem column_split (n : BitVec 64) (total) (exact : n.toNat = total)
    : (n.setWidth 32).toNat = total % 2 ^ 32 ∧ (n >>> 32).toNat = total / 2 ^ 32 := by
  subst exact
  exact ⟨toNat_setWidth .., by
    rw [toNat_ushiftRight, Nat.shiftRight_eq_div_pow]⟩

theorem value_mulRow (d : BitVec 32) (ps qs carry)
    (covers : ps.length ≤ qs.length) (small : carry.toNat < 2 ^ 32)
    : value (mulRow d ps qs carry)
      = (value ps + d.toNat * value qs + carry.toNat) % 2 ^ (32 * ps.length) := by
  induction ps generalizing qs carry with
  | nil => simp [mulRow, Nat.mod_one]
  | cons p ps ih =>
    obtain ⟨q, qs, rfl⟩ : ∃ q rest, qs = q :: rest := exists_cons_of_length_pos (by
      rw [length_cons] at covers
      omega)
    have hp := p.isLt
    have hd := d.isLt
    have hq := q.isLt
    have product : d.toNat * q.toNat ≤ (2 ^ 32 - 1) * (2 ^ 32 - 1) :=
      Nat.mul_le_mul (by omega) (by omega)
    have exact : (carry + p.setWidth 64 + d.setWidth 64 * q.setWidth 64).toNat
        = carry.toNat + p.toNat + d.toNat * q.toNat := by
      simp only [toNat_add, toNat_mul, toNat_setWidth]
      rw [Nat.mod_eq_of_lt (show d.toNat < 2 ^ 64 by omega),
        Nat.mod_eq_of_lt (show q.toNat < 2 ^ 64 by omega)]
      omega
    obtain ⟨low, high⟩ := column_split _ _ exact
    have next := ih qs ((carry + p.setWidth 64 + d.setWidth 64 * q.setWidth 64) >>> 32)
      (by simpa using covers) (by omega)
    simp only [mulRow, value_cons, length_cons, Nat.mul_succ, next, low, high]
    rw [carry_step _ _ _ _ (Nat.two_pow_pos 32), Nat.add_comm (32 * ps.length), pow_add]
    congr 1
    ring

/-- A sum is a row with the factor one. -/
theorem addLoop_eq_mulRow (ps qs carry) : addLoop ps qs carry = mulRow 1 ps qs carry := by
  induction ps generalizing qs carry with
  | nil => rfl
  | cons p ps ih =>
    cases qs with
    | nil => rfl
    | cons q qs =>
      have one : (1 : BitVec 32).setWidth 64 * q.setWidth 64 = q.setWidth 64 := BitVec.one_mul _
      simp only [addLoop, mulRow, ih, one]

@[simp] theorem toNat_add (a b : BaseUint) : (a.add b).toNat = (a.toNat + b.toNat) % 2 ^ 256 := by
  have sum := value_mulRow 1 a.pn b.pn 0 (by rw [a.width, b.width]) (by decide)
  rw [a.width, ← addLoop_eq_mulRow] at sum
  simpa [toNat, add] using sum

/-- Incrementing a word wraps exactly when the word is full. -/
theorem word_inc_cases (p : BitVec 32)
    : (p + 1 = 0 ∧ p.toNat + 1 = 2 ^ 32) ∨ (p + 1 ≠ 0 ∧ (p + 1).toNat = p.toNat + 1) := by
  have small := p.isLt
  have next : (p + 1).toNat = (p.toNat + 1) % 2 ^ 32 := BitVec.toNat_add ..
  by_cases full : p.toNat + 1 = 2 ^ 32
  · refine Or.inl ⟨eq_of_toNat_eq ?_, full⟩
    rw [next, full]
    rfl
  have exact : (p + 1).toNat = p.toNat + 1 := by omega
  refine Or.inr ⟨fun zero => ?_, exact⟩
  rw [zero] at exact
  simp at exact

/-- The increment loop adds one with wrap-around, by induction on the words. -/
theorem value_incLoop (pn : List (BitVec 32))
    : value (incLoop pn) = (value pn + 1) % 2 ^ (32 * pn.length) := by
  induction pn with
  | nil => simp [incLoop]
  | cons p rest ih =>
    have wide : 2 ^ (32 * (rest.length + 1)) = 2 ^ 32 * 2 ^ (32 * rest.length) := by
      rw [Nat.mul_succ, Nat.add_comm, pow_add]
    rcases word_inc_cases p with ⟨wraps, full⟩ | ⟨stays, next⟩
    · rw [incLoop, if_pos wraps, value_cons, wraps, ih, value_cons, length_cons, wide]
      have total : p.toNat + 2 ^ 32 * value rest + 1 = 2 ^ 32 * (value rest + 1) := by
        omega
      rw [total, Nat.mul_mod_mul_left]
      simp
    · rw [incLoop, if_neg stays, value_cons, value_cons, next]
      have fits := value_lt (p :: rest)
      have inside := value_lt ((p + 1) :: rest)
      rw [value_cons, next] at inside
      rw [Nat.mod_eq_of_lt (by simpa [Nat.add_right_comm] using inside)]
      omega

theorem value_map_not (pn : List (BitVec 32))
    : value (pn.map (fun p => ~~~p)) + value pn + 1 = 2 ^ (32 * pn.length) := by
  induction pn with
  | nil => rfl
  | cons p rest ih =>
    have hp := p.isLt
    simp only [map_cons, value_cons, length_cons, Nat.mul_succ, pow_add, toNat_not]
    rw [← ih]
    ring_nf
    omega

theorem toNat_not : a.not.toNat = 2 ^ 256 - 1 - a.toNat := by
  have total := value_map_not a.pn
  rw [a.width] at total
  simp only [toNat, not]
  omega

@[simp] theorem toNat_inc : a.inc.toNat = (a.toNat + 1) % 2 ^ 256 := by
  have sum := value_incLoop a.pn
  rwa [a.width] at sum

theorem toNat_neg : a.neg.toNat = (2 ^ 256 - a.toNat) % 2 ^ 256 := by
  have small := a.toNat_lt
  rw [neg, toNat_inc, toNat_not]
  congr 1
  omega

/-- Subtraction is exact when it does not borrow. -/
theorem toNat_sub_of_le {a b : BaseUint} (le : b.toNat ≤ a.toNat)
    : (a.sub b).toNat = a.toNat - b.toNat := by
  have ha := a.toNat_lt
  rw [sub, toNat_add, toNat_neg]
  omega

-- Multiplication

/-- A product with one word is a row above zeros. -/
theorem mulU32Loop_eq_mulRow (b32 pn carry)
    : mulU32Loop b32 pn carry = mulRow b32 (List.replicate pn.length 0) pn carry := by
  induction pn generalizing carry with
  | nil => rfl
  | cons p rest ih =>
    have zero : carry + (0 : BitVec 32).setWidth 64 = carry := BitVec.add_zero _
    simp only [mulU32Loop, length_cons, List.replicate_succ, mulRow, ih, zero]

@[simp] theorem toNat_mulU32 (b32 : BitVec 32)
    : (a.mulU32 b32).toNat = (a.toNat * b32.toNat) % 2 ^ 256 := by
  have product := value_mulRow b32 (List.replicate 8 0) a.pn 0 (by rw [a.width]; rfl) (by decide)
  rw [← a.width, ← mulU32Loop_eq_mulRow, length_replicate, a.width] at product
  simpa [toNat, mulU32, value_replicate_zero, Nat.mul_comm] using product

/-- The rows add up to the product, by induction on them: what a row carries into the next words
is added to the rest.
-/
theorem value_mulLoop {b ds pn} (covers : pn.length ≤ b.length) (inside : ds.length ≤ pn.length)
    : value (mulLoop b ds pn) = (value pn + value ds * value b) % 2 ^ (32 * pn.length) := by
  induction ds generalizing pn with
  | nil => simpa [mulLoop] using (Nat.mod_eq_of_lt (value_lt pn)).symm
  | cons d ds ih =>
    have length := length_mulRow d pn b 0
    have sum : value (mulRow d pn b 0) = (value pn + d.toNat * value b) % 2 ^ (32 * pn.length) :=
      value_mulRow d pn b 0 covers (by decide)
    rw [min_eq_left covers] at length
    rw [mulLoop]
    cases row : mulRow d pn b 0 with
    | nil =>
      rw [row] at length
      rw [length_cons, ← length] at inside
      cases inside
    | cons p rest =>
      rw [row, length_cons] at length
      rw [length_cons] at inside
      rw [row, value_cons] at sum
      have wide : 2 ^ (32 * pn.length) = 2 ^ 32 * 2 ^ (32 * rest.length) := by
        rw [← length, Nat.mul_succ, Nat.add_comm, pow_add]
      have step := carry_step (2 ^ 32) (2 ^ (32 * rest.length)) p.toNat
        (value rest + value ds * value b) (Nat.two_pow_pos 32)
      rw [Nat.mod_eq_of_lt p.isLt, Nat.div_eq_of_lt p.isLt, Nat.add_zero, ← wide] at step
      rw [value_cons, ih (by omega) (by omega), step, value_cons, Nat.mul_add, ← Nat.add_assoc, sum,
        Nat.mod_add_mod]
      congr 1
      ring

@[simp] theorem toNat_mul (a b : BaseUint) : (a.mul b).toNat = a.toNat * b.toNat % 2 ^ 256 := by
  have product := @value_mulLoop b.pn a.pn (List.replicate 8 0) (by rw [b.width]; rfl)
    (by rw [a.width]; rfl)
  simpa [toNat, mul, value_replicate_zero] using product

end Pqcoin.BaseUint
