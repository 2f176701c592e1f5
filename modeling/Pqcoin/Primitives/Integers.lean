import Pqcoin.Script.Build

/-! Integers of variable length on the wire, `CompactSize` and `VARINT`: written and read. -/

namespace Pqcoin

open List Option Script

def MAX_SIZE : Nat := 0x02000000

/-- `ReadCompactSize` up to its last check: only the shortest form is read. -/
def readShortest : List Byte → Option (Nat × List Byte)
  | [] => none
  | chSize :: is =>
    if chSize < 253 then some (chSize.toNat, is)
    else if chSize = 253 then (readSize 2 is).filter (253 ≤ ·.1)
    else if chSize = 254 then (readSize 4 is).filter (0x10000 ≤ ·.1)
    else (readSize 8 is).filter (0x100000000 ≤ ·.1)

def readCompactSize (is : List Byte) : Option (Nat × List Byte) :=
  (readShortest is).filter (·.1 ≤ MAX_SIZE)

def getSizeOfCompactSize (nSize : Nat) : Nat :=
  if nSize < 253 then 1 else if nSize ≤ 0xffff then 1 + 2
  else if nSize ≤ 0xffffffff then 1 + 4 else 1 + 8

/-- The bytes that the loop of `WriteVarInt` puts into `tmp` from `len` on. -/
def varIntTmp (n len : Nat) : List Byte :=
  let digit := BitVec.ofNat 8 n &&& 0x7F ||| if len = 0 then 0 else 0x80
  if n ≤ 0x7F then [digit] else digit :: varIntTmp ((n >>> 7) - 1) (len + 1)
termination_by n
decreasing_by omega

def writeVarInt (n : Nat) : List Byte := (varIntTmp n 0).reverse

def getSizeOfVarInt (n : Nat) : Nat :=
  if n ≤ 0x7F then 1 else getSizeOfVarInt ((n >>> 7) - 1) + 1
termination_by n
decreasing_by omega

/-- The loop of `ReadVarInt` for an unsigned type of `w` bits. -/
def readVarInt (w : Nat) : Nat → List Byte → Option (Nat × List Byte)
  | _, [] => none
  | n, chData :: is =>
    let n := (n <<< 7) % 2 ^ w ||| (chData &&& 0x7F).toNat
    if chData &&& 0x80 ≠ 0 then readVarInt w ((n + 1) % 2 ^ w) is else some (n, is)

-- Compact sizes

theorem eq_of_readSize {count n} {is after} (read : readSize count is = some (n, after))
    : n < 2 ^ (8 * count) ∧ is = bytesLE count (BitVec.ofNat (8 * count) n) ++ after := by
  rw [readSize] at read
  split at read
  · cases read
  rename_i long
  cases read
  have length : (is.take count).length = count := by
    rw [length_take]
    omega
  have small := Radix.value_lt (is.take count)
  rw [length] at small
  refine ⟨small, ?_⟩
  have bytes : bytesLE count (BitVec.ofNat (8 * count) (Radix.value (is.take count)))
      = is.take count := by
    apply Radix.value_injective (by rw [length_bytesLE, length])
    rw [value_bytesLE _ _ (Nat.le_refl _), BitVec.toNat_ofNat, Nat.mod_eq_of_lt small]
  rw [bytes, take_append_drop]

theorem readShortest_writeCompactSize {n} (small : n < 2 ^ 64) (is)
    : readShortest (writeCompactSize n ++ is) = some (n, is) := by
  have wide (count) (fits : n < 2 ^ (8 * count)) := readSize_bytesLE count fits is
  rw [writeCompactSize]
  split_ifs with one two four
  · have value : (BitVec.ofNat 8 n).toNat = n := by
      rw [BitVec.toNat_ofNat]
      omega
    have below : BitVec.ofNat 8 n < 253 := by
      rw [BitVec.lt_def, value]
      exact one
    rw [singleton_append, readShortest, if_pos below, value]
  · simp [readShortest, wide 2 (by omega)]
    omega
  · simp [readShortest, wide 4 (by omega)]
    omega
  · simp [readShortest, wide 8 small]
    omega

/-- What is read is the shortest form of its value. -/
theorem eq_of_readShortest {n} {is after} (read : readShortest is = some (n, after))
    : n < 2 ^ 64 ∧ is = writeCompactSize n ++ after := by
  cases is with
  | nil => cases read
  | cons chSize is =>
    have wide {count low} (read : (readSize count is).filter (low ≤ ·.1) = some (n, after))
        : low ≤ n ∧ n < 2 ^ (8 * count)
          ∧ is = bytesLE count (BitVec.ofNat (8 * count) n) ++ after := by
      obtain ⟨read, large⟩ := filter_eq_some_iff.mp read
      exact ⟨of_decide_eq_true large, eq_of_readSize read⟩
    rw [readShortest] at read
    rw [writeCompactSize]
    split_ifs at read with one two four
    · cases read
      have below : chSize.toNat < 253 := one
      exact ⟨by omega, by rw [if_pos below, BitVec.ofNat_toNat]; rfl⟩
    · obtain ⟨large, small, rfl⟩ := wide read
      rw [if_neg (by omega), if_pos (by omega), two]
      exact ⟨by omega, rfl⟩
    · obtain ⟨large, small, rfl⟩ := wide read
      rw [if_neg (by omega), if_neg (by omega), if_pos (by omega), four]
      exact ⟨by omega, rfl⟩
    · obtain ⟨large, small, rfl⟩ := wide read
      have last : chSize = 255 := by
        bv_omega
      rw [if_neg (by omega), if_neg (by omega), if_neg (by omega), last]
      exact ⟨by omega, rfl⟩

theorem length_writeCompactSize (n) : (writeCompactSize n).length = getSizeOfCompactSize n := by
  rw [writeCompactSize, getSizeOfCompactSize]
  split_ifs <;> simp

theorem readCompactSize_writeCompactSize {n} (small : n ≤ MAX_SIZE) (is)
    : readCompactSize (writeCompactSize n ++ is) = some (n, is) := by
  have word : n < 2 ^ 64 := Nat.lt_of_le_of_lt small (by decide)
  simp [readCompactSize, readShortest_writeCompactSize word, small]

theorem eq_of_readCompactSize {n} {is after} (read : readCompactSize is = some (n, after))
    : n ≤ MAX_SIZE ∧ is = writeCompactSize n ++ after := by
  obtain ⟨read, small⟩ := filter_eq_some_iff.mp read
  exact ⟨of_decide_eq_true small, (eq_of_readShortest read).2⟩

-- Variable integers

theorem length_varIntTmp (n len) : (varIntTmp n len).length = getSizeOfVarInt n := by
  fun_induction varIntTmp n len with
  | case1 n len digit small => rw [getSizeOfVarInt, if_pos small]; rfl
  | case2 n len digit large ih => rw [getSizeOfVarInt, if_neg large, length_cons, ih]

theorem getSizeOfVarInt_le {n count} (pos : 0 < count) (fits : n < 128 ^ count)
    : getSizeOfVarInt n ≤ count := by
  induction count generalizing n with
  | zero => cases pos
  | succ count ih =>
    rw [getSizeOfVarInt]
    split
    · omega
    rename_i large
    rw [Nat.pow_succ] at fits
    have next : (n >>> 7) - 1 < 128 ^ count := by omega
    rcases Nat.eq_zero_or_pos count with rfl | further
    · omega
    · exact Nat.succ_le_succ (ih further next)

theorem digit_bits (len) (byte : Byte)
    : ((byte &&& 0x7F ||| if len = 0 then 0 else 0x80) &&& 0x7F).toNat = byte.toNat % 128
      ∧ ((byte &&& 0x7F ||| if len = 0 then 0 else 0x80) &&& 0x80 ≠ 0 ↔ len ≠ 0) := by
  revert byte
  by_cases first : len = 0
  · simp only [first, if_true]
    decide
  · simp only [first, if_false, ne_eq, not_false_eq_true, iff_true]
    decide

/-- One round of the reader, behind the digits of `high`. -/
theorem readVarInt_digit {w n len high} (value : 128 * high + n % 128 = n)
    (fits : n < 2 ^ w) (below : len ≠ 0 → n + 1 < 2 ^ w) (is)
    : readVarInt w high ((BitVec.ofNat 8 n &&& 0x7F ||| if len = 0 then 0 else 0x80) :: is)
      = if len = 0 then some (n, is) else readVarInt w (n + 1) is := by
  obtain ⟨digit, more⟩ := digit_bits len (BitVec.ofNat 8 n)
  have low : (BitVec.ofNat 8 n).toNat % 128 = n % 128 := by
    rw [BitVec.toNat_ofNat]
    omega
  have joined : (high <<< 7) % 2 ^ w ||| n % 128 = n := by
    have shifted : high <<< 7 = 2 ^ 7 * high := by rw [Nat.shiftLeft_eq, Nat.mul_comm]
    rw [shifted, Nat.mod_eq_of_lt (by omega),
      ← Nat.two_pow_add_eq_or_of_lt (Nat.mod_lt n (by decide))]
    exact value
  simp only [readVarInt, digit, low, joined, more]
  by_cases first : len = 0
  · rw [if_neg (not_not.mpr first), if_pos first]
  · rw [if_pos first, if_neg first, Nat.mod_eq_of_lt (below first)]

/-- The digits of a value are read back: the last one of `tmp` ends it, and otherwise one is
added for the digits behind.
-/
theorem readVarInt_varIntTmp {w n len} (fits : n < 2 ^ w) (below : len ≠ 0 → n + 1 < 2 ^ w) (is)
    : readVarInt w 0 ((varIntTmp n len).reverse ++ is)
      = if len = 0 then some (n, is) else readVarInt w (n + 1) is := by
  fun_induction varIntTmp n len generalizing is with
  | case1 n len digit small =>
    exact readVarInt_digit (by omega) fits below is
  | case2 n len digit large ih =>
    rw [reverse_cons, append_assoc, singleton_append, ih (by omega) (fun _ => by omega),
      if_neg (Nat.succ_ne_zero len)]
    exact readVarInt_digit (by omega) fits below is

theorem readVarInt_writeVarInt {w n} (fits : n < 2 ^ w) (is)
    : readVarInt w 0 (writeVarInt n ++ is) = some (n, is) :=
  readVarInt_varIntTmp fits (absurd rfl) is

/-- Both kinds of integers are read back from exactly the bytes that are written, in the size that
is computed for them and within the buffer; neither has an encoding in front of another one, and
a compact size has one encoding.
-/
theorem integers_prefixCode
    : (∀ size n is, 0 < size → n < 2 ^ (8 * size)
        → readVarInt (8 * size) 0 (writeVarInt n ++ is) = some (n, is)
          ∧ (writeVarInt n).length = getSizeOfVarInt n
          ∧ (writeVarInt n).length ≤ (size * 8 + 6) / 7)
      ∧ (∀ n is, n ≤ MAX_SIZE → readCompactSize (writeCompactSize n ++ is) = some (n, is))
      ∧ (∀ n, (writeCompactSize n).length = getSizeOfCompactSize n)
      ∧ (∀ m n, writeVarInt m <+: writeVarInt n → m = n)
      ∧ (∀ m n, m < 2 ^ 64 → n < 2 ^ 64 → writeCompactSize m <+: writeCompactSize n → m = n)
      ∧ ∀ is is' n, readCompactSize is = some (n, []) → readCompactSize is' = some (n, [])
        → is = is' := by
  refine ⟨fun size n is pos fits => ?_, fun n is small => readCompactSize_writeCompactSize small is,
    length_writeCompactSize, ?_, ?_, ?_⟩
  · have length : (writeVarInt n).length = getSizeOfVarInt n := by
      rw [writeVarInt, length_reverse, length_varIntTmp]
    refine ⟨readVarInt_writeVarInt fits is, length, length ▸ getSizeOfVarInt_le (by omega) ?_⟩
    rw [show 128 = 2 ^ 7 from rfl, ← pow_mul]
    exact Nat.lt_of_lt_of_le fits (Nat.pow_le_pow_right (by decide) (by omega))
  · rintro m n ⟨is, same⟩
    have fits : m < 2 ^ (m + n) ∧ n < 2 ^ (m + n) :=
      ⟨Nat.lt_of_le_of_lt (Nat.le_add_right m n) Nat.lt_two_pow_self,
        Nat.lt_of_le_of_lt (Nat.le_add_left n m) Nat.lt_two_pow_self⟩
    have read := readVarInt_writeVarInt fits.1 is
    rw [same, ← append_nil (writeVarInt n), readVarInt_writeVarInt fits.2] at read
    cases read
    rfl
  · rintro m n small small' ⟨is, same⟩
    have read := readShortest_writeCompactSize small is
    rw [same, ← append_nil (writeCompactSize n), readShortest_writeCompactSize small'] at read
    cases read
    rfl
  · intro is is' n read read'
    rw [(eq_of_readCompactSize read).2, (eq_of_readCompactSize read').2]

end Pqcoin
