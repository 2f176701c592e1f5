import Pqcoin.Arith.BaseUintValue

/-! Shifts, comparison and the shift-and-subtract division of `base_uint<256>`. -/

namespace Pqcoin.BaseUint

open BitVec List Radix

-- Shifts

/-- A guarded word update changes only the word it names. -/
theorem getD_ite_modify (guard : Prop) [Decidable guard] (pn : List (BitVec 32)) (i m)
    (f : BitVec 32 → BitVec 32) (inside : m < pn.length)
    : (if guard then pn.modify i f else pn).getD m 0
      = if guard ∧ i = m then f (pn.getD m 0) else pn.getD m 0 := by
  by_cases holds : guard
  · simp only [holds, if_true, true_and, getD_eq_getElem?_getD, List.getElem?_modify,
      List.getElem?_eq_getElem inside]
    split <;> rfl
  · simp [holds]

/-- Word `m` of the left shift after `n` source words, by induction on `n`: source word `n`
only reaches the words `n + k` and `n + k + 1`.
-/
theorem getD_shiftLeftLoop (a : List (BitVec 32)) (k shift n m) (inside : m < WIDTH)
    : (shiftLeftLoop a k shift n).getD m 0
      = (if k ≤ m ∧ m < n + k then a.getD (m - k) 0 <<< shift else 0)
        ||| (if k + 1 ≤ m ∧ m < n + k + 1 ∧ shift ≠ 0 then
              a.getD (m - k - 1) 0 >>> (32 - shift) else 0) := by
  induction n with
  | zero =>
    rw [if_neg (by omega), if_neg (by omega), shiftLeftLoop, getD_replicate _ inside]
    rfl
  | succ n ih =>
    have len := length_shiftLeftLoop a k shift n
    simp only [shiftLeftLoop]
    rw [getD_ite_modify _ _ _ _ _ (by split <;> simp [len, inside]),
      getD_ite_modify _ _ _ _ _ (by rw [len]; exact inside), ih]
    by_cases here : n + k = m
    · subst here
      rw [if_neg (show ¬(k ≤ n + k ∧ n + k < n + k) by omega),
        if_pos (show k ≤ n + k ∧ n + k < n + 1 + k by omega)]
      simp [inside, BitVec.or_comm, show n + k < n + 1 + k + 1 by omega]
    · by_cases above : n + k + 1 = m
      · subst above
        rw [if_neg (show ¬(k ≤ n + k + 1 ∧ n + k + 1 < n + k) by omega),
          if_neg (show ¬(k ≤ n + k + 1 ∧ n + k + 1 < n + 1 + k) by omega),
          if_neg (show ¬(k + 1 ≤ n + k + 1 ∧ n + k + 1 < n + k + 1 ∧ shift ≠ 0) by omega)]
        simp [inside, show n + k + 1 < n + 1 + k + 1 by omega, show n + k + 1 - k - 1 = n by omega]
      · simp only [here, above, and_false, if_false]
        congr 2 <;> apply propext <;> omega

/-- Word `m` of the right shift after `n` source words, by induction on `n`: source word `n`
only reaches the words `n - k` and `n - k - 1`.
-/
theorem getD_shiftRightLoop (a : List (BitVec 32)) (k shift n m) (inside : m < WIDTH)
    : (shiftRightLoop a k shift n).getD m 0
      = (if m + k < n then a.getD (m + k) 0 >>> shift else 0)
        ||| (if m + k + 1 < n ∧ shift ≠ 0 then
              a.getD (m + k + 1) 0 <<< (32 - shift) else 0) := by
  induction n with
  | zero =>
    rw [if_neg (by omega), if_neg (by omega), shiftRightLoop, getD_replicate _ inside]
    rfl
  | succ n ih =>
    have len := length_shiftRightLoop a k shift n
    simp only [shiftRightLoop]
    rw [getD_ite_modify _ _ _ _ _ (by split <;> simp [len, inside]),
      getD_ite_modify _ _ _ _ _ (by rw [len]; exact inside), ih]
    by_cases here : n = m + k
    · subst here
      rw [if_neg (show ¬m + k < m + k by omega), if_neg (show ¬(m + k + 1 < m + k ∧ _) by omega),
        if_neg (show ¬(m + k + 1 < m + k + 1 ∧ _) by omega),
        if_neg (show ¬((k + 1 ≤ m + k ∧ shift ≠ 0) ∧ m + k - k - 1 = m) by omega),
        if_pos (show k ≤ m + k ∧ m + k - k = m by omega), if_pos (by omega)]
      simp
    · by_cases above : n = m + k + 1
      · subst above
        rw [if_neg (show ¬(k ≤ m + k + 1 ∧ m + k + 1 - k = m) by omega),
          if_pos (show m + k < m + k + 1 by omega), if_pos (show m + k < m + k + 1 + 1 by omega),
          if_neg (show ¬(m + k + 1 < m + k + 1 ∧ shift ≠ 0) by omega)]
        by_cases aligned : shift = 0
        · simp [aligned]
        · simp [aligned, show k ≤ m + k by omega, show m + k + 1 - k - 1 = m by omega]
      · rw [if_neg (show ¬(k ≤ n ∧ n - k = m) by omega),
          if_neg (show ¬((k + 1 ≤ n ∧ shift ≠ 0) ∧ n - k - 1 = m) by omega)]
        congr 2 <;> apply propext <;> omega

theorem getLsbD_ite {c : Prop} [Decidable c] (p : BitVec 32) (i)
    : (if c then p else 0).getLsbD i = (decide c && p.getLsbD i) := by
  split <;> simp [*]

/-- `operator<<=` multiplies by `2 ^ shift` and drops the bits above 256. -/
@[simp] theorem toNat_shiftLeft (a : BaseUint) (shift : Nat)
    : (a.shiftLeft shift).toNat = a.toNat * 2 ^ shift % 2 ^ 256 := by
  apply value_eq_of_testBit (by decide)
  intro i
  rw [Nat.testBit_mod_two_pow, ← Nat.shiftLeft_eq, Nat.testBit_shiftLeft, toNat,
    testBit_value (by decide)]
  have eight : WIDTH = 8 := rfl
  by_cases inside : i < 256
  · have word : i / 32 < WIDTH := Nat.div_lt_of_lt_mul inside
    have bit : i % 32 < 32 := Nat.mod_lt _ (by decide)
    simp only [shiftLeft]
    rw [getD_shiftLeftLoop _ _ _ _ _ word, getLsbD_or, getLsbD_ite, getLsbD_ite,
      getLsbD_shiftLeft, getLsbD_ushiftRight]
    by_cases low : i < shift
    · have crosses : ¬shift / 32 + 1 ≤ i / 32 := by omega
      have stays : shift / 32 ≤ i / 32 → i % 32 < shift % 32 := by omega
      simp +contextual [crosses, stays, show ¬shift ≤ i by omega]
    by_cases same : shift % 32 ≤ i % 32
    · -- the bit stays in the word shifted by whole words
      rw [show (i - shift) / 32 = i / 32 - shift / 32 by omega,
        show (i - shift) % 32 = i % 32 - shift % 32 by omega,
        getLsbD_of_ge _ (32 - shift % 32 + i % 32) (by omega)]
      simp [inside, bit, same, show shift ≤ i by omega,
        show shift / 32 ≤ i / 32 ∧ i / 32 < WIDTH + shift / 32 by omega]
    · -- the bit crosses into the next word
      rw [show (i - shift) / 32 = i / 32 - shift / 32 - 1 by omega,
        show (i - shift) % 32 = 32 - shift % 32 + i % 32 by omega]
      simp [inside, show i % 32 < shift % 32 by omega, show shift ≤ i by omega,
        show shift / 32 + 1 ≤ i / 32 ∧ i / 32 < WIDTH + shift / 32 + 1 ∧ shift % 32 ≠ 0 by omega]
  · rw [getD_eq_default]
    · simp [inside]
    · rw [BaseUint.width]
      omega

/-- `operator>>=` divides by `2 ^ shift`. -/
@[simp] theorem toNat_shiftRight (a : BaseUint) (shift : Nat)
    : (a.shiftRight shift).toNat = a.toNat / 2 ^ shift := by
  apply value_eq_of_testBit (by decide)
  intro i
  rw [← Nat.shiftRight_eq_div_pow, Nat.testBit_shiftRight, toNat, testBit_value (by decide)]
  have bit : i % 32 < 32 := Nat.mod_lt _ (by decide)
  have beyond (m : Nat) (past : 8 ≤ m) : a.pn.getD m 0 = 0 :=
    getD_eq_default _ _ (by rw [a.width]; exact past)
  have eight : WIDTH = 8 := rfl
  by_cases inside : i < 256
  · have word : i / 32 < WIDTH := Nat.div_lt_of_lt_mul inside
    simp only [shiftRight]
    rw [getD_shiftRightLoop _ _ _ _ _ word, getLsbD_or, getLsbD_ite, getLsbD_ite,
      getLsbD_shiftLeft, getLsbD_ushiftRight]
    by_cases same : i % 32 + shift % 32 < 32
    · rw [show (shift + i) / 32 = i / 32 + shift / 32 by omega,
        show (shift + i) % 32 = shift % 32 + i % 32 by omega]
      simp only [show i % 32 < 32 - shift % 32 by omega, decide_true, Bool.not_true,
        Bool.and_false, Bool.false_and, Bool.or_false]
      by_cases listed : i / 32 + shift / 32 < WIDTH
      · simp [listed]
      rw [beyond (i / 32 + shift / 32) (by omega)]
      simp
    · rw [show (shift + i) / 32 = i / 32 + shift / 32 + 1 by omega,
        show (shift + i) % 32 = i % 32 - (32 - shift % 32) by omega,
        getLsbD_of_ge _ (shift % 32 + i % 32) (by omega)]
      by_cases listed : i / 32 + shift / 32 + 1 < WIDTH
      · simp [listed, bit, show ¬i % 32 < 32 - shift % 32 by omega, show shift % 32 ≠ 0 by omega]
      rw [beyond (i / 32 + shift / 32 + 1) (by omega)]
      simp
  · rw [getD_eq_default _ _ (by rw [BaseUint.width]; omega), beyond _ (by omega)]
    simp

-- Comparison

/-- The comparison loop orders the prefixes it has seen, by induction from the low word:
a difference in the top word of a prefix outweighs everything below it.
-/
theorem compareLoop_eq (a b) (same : a.length = b.length) (n) (inside : n ≤ a.length)
    : compareLoop a b n
      = if value (a.take n) < value (b.take n) then -1
        else if value (b.take n) < value (a.take n) then 1 else 0 := by
  induction n with
  | zero => simp [compareLoop]
  | succ n ih =>
    have ha := value_take_lt a n
    have hb := value_take_lt b n
    rw [compareLoop, ih (by omega), value_take_succ a n (by omega), value_take_succ b n (by omega)]
    simp only [lt_def]
    rcases Nat.lt_trichotomy (a.getD n 0).toNat (b.getD n 0).toNat with below | equal | above
    · have gap : 2 ^ (32 * n) * (a.getD n 0).toNat + 2 ^ (32 * n)
          ≤ 2 ^ (32 * n) * (b.getD n 0).toNat := by
        rw [← Nat.mul_succ]
        exact Nat.mul_le_mul_left _ below
      rw [if_pos below, if_pos (by omega)]
    · rw [equal, if_neg (Nat.lt_irrefl _), if_neg (Nat.lt_irrefl _)]
      simp only [Nat.add_lt_add_iff_right]
    · have gap : 2 ^ (32 * n) * (b.getD n 0).toNat + 2 ^ (32 * n)
          ≤ 2 ^ (32 * n) * (a.getD n 0).toNat := by
        rw [← Nat.mul_succ]
        exact Nat.mul_le_mul_left _ above
      rw [if_neg (by omega), if_pos above, if_neg (by omega), if_pos (by omega)]

theorem compareTo_eq (a b : BaseUint)
    : a.compareTo b
      = if a.toNat < b.toNat then -1 else if b.toNat < a.toNat then 1 else 0 := by
  have order := compareLoop_eq a.pn b.pn (a.width.trans b.width.symm) WIDTH
    (Nat.le_of_eq a.width.symm)
  rwa [take_of_length_le (Nat.le_of_eq a.width), take_of_length_le (Nat.le_of_eq b.width)] at order

@[simp] theorem gt_iff (a b : BaseUint) : a.gt b = true ↔ b.toNat < a.toNat := by
  rw [gt, compareTo_eq, decide_eq_true_iff]
  split
  · simp; omega
  · split <;> simp <;> omega

@[simp] theorem ge_iff (a b : BaseUint) : a.ge b = true ↔ b.toNat ≤ a.toNat := by
  rw [ge, compareTo_eq, decide_eq_true_iff]
  split
  · simp; omega
  · split <;> simp <;> omega

/-- `EqualTo` compares the words with those of the 64-bit number. -/
@[simp] theorem equalTo_iff (a : BaseUint) (b : BitVec 64)
    : a.equalTo b = true ↔ a.toNat = b.toNat := by
  have words : a.equalTo b = true ↔ a = ofUint64 b := by
    obtain ⟨pn, width⟩ := a
    obtain ⟨p0, p1, rest, rfl⟩ : ∃ p0 p1 rest, pn = p0 :: p1 :: rest := by
      match pn, width with
      | p0 :: p1 :: rest, _ => exact ⟨p0, p1, rest, rfl⟩
    have six : rest.length = 6 := by simpa using width
    have zeros : rest = List.replicate 6 0 ↔ ∀ p ∈ rest, p = 0 := by
      rw [eq_replicate_iff, and_iff_right six]
    simp only [equalTo, ofUint64, BaseUint.mk.injEq, List.cons.injEq, zeros]
    simp
    tauto
  rw [words, ← toNat_ofUint64 b]
  exact ⟨congrArg toNat, fun same => toNat_injective same⟩

-- Bit length

theorem wordBits_eq (p n) (bound : p.toNat < 2 ^ (n + 1)) (nonzero : p.toNat ≠ 0)
    : wordBits p n = p.toNat.size := by
  induction n with
  | zero =>
    have one : p.toNat = 1 := by omega
    rw [wordBits, one, Nat.size_one]
  | succ n ih =>
    have top := testBit_top p.toNat (n + 1) bound
    rw [wordBits]
    split
    · rename_i set
      have size : n + 1 < p.toNat.size := Nat.lt_size.mpr (top.mp set)
      have limit : p.toNat.size ≤ n + 2 := Nat.size_le.mpr bound
      omega
    · rename_i clear
      exact ih (Nat.lt_of_not_le (fun reached => clear (top.mpr reached)))

theorem bitsLoop_eq (a n) (inside : n ≤ a.length) : bitsLoop a n = (value (a.take n)).size := by
  induction n with
  | zero => simp [bitsLoop, Nat.size_zero]
  | succ n ih =>
    rw [bitsLoop, value_take_succ a n (by omega)]
    split
    · rename_i nonzero
      have pos : (a.getD n 0).toNat ≠ 0 := fun zero =>
        nonzero (eq_of_toNat_eq zero)
      rw [wordBits_eq _ 31 (a.getD n 0).isLt pos,
        size_add_mul _ _ _ (value_take_lt a n) pos]
    · rename_i zero
      rw [ih (by omega), show a.getD n 0 = 0 by simpa using zero]
      simp

@[simp] theorem bits_eq (a : BaseUint) : a.bits = a.toNat.size := by
  have length := bitsLoop_eq a.pn WIDTH (Nat.le_of_eq a.width.symm)
  rwa [take_of_length_le (Nat.le_of_eq a.width)] at length

-- Division

/-- Setting a bit above which the number has no lower bits adds its power of two. -/
theorem toNat_setBit (a : BaseUint) (shift) (inside : shift < 256)
    (clear : 2 ^ (shift + 1) ∣ a.toNat)
    : (a.setBit shift).toNat = a.toNat + 2 ^ shift := by
  obtain ⟨high, factor⟩ := clear
  rw [factor, Nat.two_pow_add_eq_or_of_lt (Nat.pow_lt_pow_right (by omega) (by omega)), ← factor]
  apply value_eq_of_testBit (by decide)
  intro i
  rw [Nat.testBit_or, Nat.testBit_two_pow, toNat, testBit_value (by decide)]
  simp only [setBit]
  by_cases word : i / 32 < 8
  · have update := getD_ite_modify True a.pn (shift / 32) (i / 32)
      (· ||| (1#32 <<< (shift % 32))) (by rw [a.width]; exact word)
    simp only [if_true, true_and] at update
    rw [update]
    split
    · rename_i here
      have bit : i % 32 < 32 := Nat.mod_lt _ (by decide)
      rw [getLsbD_or, getLsbD_shiftLeft]
      congr 1
      by_cases same : shift = i
      · subst same
        simp [bit]
      by_cases low : i % 32 < shift % 32
      · simp [low, same]
      · simp [same, show i % 32 - shift % 32 ≠ 0 by omega]
    · rename_i elsewhere
      simp [show shift ≠ i by omega]
  · rw [getD_eq_default _ _ (by rw [length_modify, a.width]; omega),
      getD_eq_default _ _ (by rw [a.width]; omega)]
    simp [show shift ≠ i by omega]

/-- The division loop accumulates the quotient, by induction on the remaining shifts.
Invariant: the aligned divisor is `d * 2 ^ (shift)`, the rest is below twice that, and the
quotient has no bits at or below the current position.
-/
theorem toNat_divLoop (d k : Nat) (num div quot) (pos : 0 < d)
    (small : k ≤ 256) (aligned : 0 < k → div.toNat = d * 2 ^ (k - 1))
    (rest : num.toNat < d * 2 ^ k) (clear : 2 ^ k ∣ quot.toNat)
    : (divLoop k num div quot).toNat = quot.toNat + num.toNat / d := by
  induction k generalizing num div quot with
  | zero =>
    have zero : num.toNat / d = 0 := Nat.div_eq_of_lt (by simpa using rest)
    rw [divLoop, zero, Nat.add_zero]
  | succ k ih =>
    have here : div.toNat = d * 2 ^ k := aligned (by omega)
    have halved : 0 < k → (div.shiftRight 1).toNat = d * 2 ^ (k - 1) := by
      intro more
      rw [toNat_shiftRight, here, ← Nat.sub_add_cancel more, pow_succ, ← Nat.mul_assoc,
        Nat.add_sub_cancel]
      exact Nat.mul_div_cancel _ (by decide)
    rw [pow_succ, ← Nat.mul_assoc] at rest
    rw [divLoop]
    split
    · rename_i fits
      rw [ge_iff, here] at fits
      have less : (num.sub div).toNat = num.toNat - d * 2 ^ k := by
        rw [toNat_sub_of_le (by omega), here]
      have added := toNat_setBit quot k (by omega) clear
      rw [ih _ _ _ (by omega) halved (by rw [less]; omega), less, added, Nat.add_assoc,
        Radix.div_sub_shifted _ _ _ pos fits]
      rw [added]
      exact Nat.dvd_add (Nat.dvd_trans (pow_dvd_pow 2 (by omega)) clear) (Nat.dvd_refl _)
    · rename_i less
      rw [ge_iff, here] at less
      exact ih _ _ _ (by omega) halved (by omega) (Nat.dvd_trans (pow_dvd_pow 2 (by omega)) clear)

/-- `operator/=` is integer division whenever it does not throw. -/
theorem div_eq (a b : BaseUint) (pos : 0 < b.toNat)
    : ∃ quot, a.div b = .ok quot ∧ quot.toNat = a.toNat / b.toNat := by
  have divSize : 0 < b.toNat.size := Nat.size_pos.mpr pos
  have divTop : 2 ^ (b.toNat.size - 1) ≤ b.toNat := Nat.lt_size.mp (by omega)
  have numLt : a.toNat < 2 ^ a.toNat.size := Nat.lt_size_self _
  have numSize : a.toNat.size ≤ 256 := Nat.size_le.mpr a.toNat_lt
  simp only [div, bits_eq]
  rw [if_neg (by omega)]
  split
  · rename_i longer
    refine ⟨zero, rfl, ?_⟩
    have less : a.toNat < b.toNat := by
      calc a.toNat < 2 ^ a.toNat.size := numLt
        _ ≤ 2 ^ (b.toNat.size - 1) := Nat.pow_le_pow_right (by omega) (by omega)
        _ ≤ b.toNat := divTop
    rw [Nat.div_eq_of_lt less, toNat_zero]
  · rename_i fits
    refine ⟨_, rfl, ?_⟩
    have noWrap : b.toNat * 2 ^ (a.toNat.size - b.toNat.size) < 2 ^ 256 := by
      calc b.toNat * 2 ^ (a.toNat.size - b.toNat.size)
          < 2 ^ b.toNat.size * 2 ^ (a.toNat.size - b.toNat.size) :=
            Nat.mul_lt_mul_of_pos_right (Nat.lt_size_self _) (Nat.two_pow_pos _)
        _ = 2 ^ a.toNat.size := by rw [← pow_add]; congr 1; omega
        _ ≤ 2 ^ 256 := Nat.pow_le_pow_right (by omega) numSize
    have rest : a.toNat < b.toNat * 2 ^ (a.toNat.size - b.toNat.size + 1) := by
      calc a.toNat < 2 ^ a.toNat.size := numLt
        _ = 2 ^ (b.toNat.size - 1) * 2 ^ (a.toNat.size - b.toNat.size + 1) := by
            rw [← pow_add]; congr 1; omega
        _ ≤ b.toNat * 2 ^ (a.toNat.size - b.toNat.size + 1) := Nat.mul_le_mul_right _ divTop
    rw [toNat_divLoop b.toNat _ _ _ _ pos (by omega) _ rest (by simp), toNat_zero,
      Nat.zero_add]
    intro _
    rw [toNat_shiftLeft, Nat.mod_eq_of_lt noWrap, Nat.add_sub_cancel]

end Pqcoin.BaseUint
