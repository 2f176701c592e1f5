import Pqcoin.Arith.BaseUintDiv

/-! The compact target format of `arith_uint256`, and its conversion from `uint256`. -/

namespace Pqcoin

open BitVec

/-- `uint256`: an opaque 256-bit blob; byte `data[i]` holds the bits `8 * i .. 8 * i + 7`. -/
abbrev Uint256 := BitVec 256

instance : LawfulBEq Uint256 := inferInstance

/-- `UintToArith256`: word `x` is `ReadLE32(a.begin() + x * 4)`. -/
def uintToArith256 (a : Uint256) : BaseUint where
  pn := (List.range 8).map (fun x => a.extractLsb' (32 * x) 32)
  width := by simp

/-- Reading a blob as words keeps its number. -/
@[simp] theorem toNat_uintToArith256 (a : Uint256) : (uintToArith256 a).toNat = a.toNat :=
  Radix.value_extract (by decide) a 8 (by decide)

namespace BaseUint

/-- What `SetCompact` leaves behind: the new value and its two optional flags. -/
structure Compact where
  target : BaseUint
  fNegative : Bool
  fOverflow : Bool

def setCompact (nCompact : BitVec 32) : Compact :=
  let nSize := (nCompact >>> 24).toNat
  let nWord := nCompact &&& 0x007fffff
  -- a short exponent shifts the mantissa itself, and the flags below see that value
  let nWord := if nSize ≤ 3 then nWord >>> (8 * (3 - nSize)) else nWord
  let value := ofUint64 (nWord.setWidth 64)
  {
    target := if nSize ≤ 3 then value else value.shiftLeft (8 * (nSize - 3))
    fNegative := nWord != 0 && nCompact &&& 0x00800000 != 0
    fOverflow :=
      nWord != 0
        && (nSize > 34 || (nWord.toNat > 0xff && nSize > 33)
          || (nWord.toNat > 0xffff && nSize > 32))
  }

def getCompact (a : BaseUint) (fNegative : Bool) : BitVec 32 :=
  let nSize := (a.bits + 7) / 8
  let nCompact : BitVec 32 :=
    if nSize ≤ 3 then (a.getLow64 <<< (8 * (3 - nSize))).setWidth 32
    else (a.shiftRight (8 * (nSize - 3))).getLow64.setWidth 32
  -- the bit 0x00800000 denotes the sign: a mantissa that sets it loses its low byte
  let (nCompact, nSize) :=
    if nCompact &&& 0x00800000 ≠ 0 then (nCompact >>> 8, nSize + 1) else (nCompact, nSize)
  let nCompact := nCompact ||| BitVec.ofNat 32 nSize <<< 24
  nCompact ||| if fNegative ∧ nCompact &&& 0x007fffff ≠ 0 then 0x00800000 else 0

end BaseUint

variable (nCompact : BitVec 32)

-- The number a compact word denotes

/-- "The most significant 8 bits are the unsigned exponent of base 256." -/
def compactExponent : Nat := nCompact.toNat / 2 ^ 24

/-- "The lower 23 bits are the mantissa." -/
def compactMantissa : Nat := nCompact.toNat % 2 ^ 23

/-- "N = (-1^sign) * mantissa * 256^(exponent-3)", without the sign. -/
def compactMagnitude : Nat :=
  if compactExponent nCompact ≤ 3 then
    compactMantissa nCompact / 256 ^ (3 - compactExponent nCompact)
  else compactMantissa nCompact * 256 ^ (compactExponent nCompact - 3)

/-- The signed number a compact word denotes; bit 0x00800000 is the sign. -/
def compactValue : Int :=
  if nCompact.getLsbD 23 then -(compactMagnitude nCompact : Int)
  else compactMagnitude nCompact

theorem compactMantissa_lt : compactMantissa nCompact < 2 ^ 23 :=
  Nat.mod_lt _ (by decide)

theorem pow_256 (n) : 2 ^ (8 * n) = 256 ^ n := by
  rw [pow_mul]
  norm_num

theorem toNat_mantissa : (nCompact &&& 0x007fffff).toNat = compactMantissa nCompact := by
  rw [toNat_and]
  exact Nat.and_two_pow_sub_one_eq_mod nCompact.toNat 23

theorem toNat_exponent : (nCompact >>> 24).toNat = compactExponent nCompact := by
  rw [toNat_ushiftRight, Nat.shiftRight_eq_div_pow, compactExponent]

theorem toNat_shiftedMantissa
    : (if compactExponent nCompact ≤ 3 then
          (nCompact &&& 0x007fffff) >>> (8 * (3 - compactExponent nCompact))
        else nCompact &&& 0x007fffff).toNat
      = if compactExponent nCompact ≤ 3 then compactMagnitude nCompact
        else compactMantissa nCompact := by
  split
  · rename_i short
    rw [toNat_ushiftRight, Nat.shiftRight_eq_div_pow, toNat_mantissa, compactMagnitude,
      if_pos short, pow_256]
  · exact toNat_mantissa nCompact

namespace BaseUint

variable (nCompact : BitVec 32)

theorem toNat_setCompact
    : (setCompact nCompact).target.toNat = compactMagnitude nCompact % 2 ^ 256 := by
  have small := compactMantissa_lt nCompact
  simp only [setCompact, toNat_exponent]
  by_cases short : compactExponent nCompact ≤ 3
  · have word := toNat_shiftedMantissa nCompact
    rw [if_pos short, if_pos short] at word
    have magnitude : compactMagnitude nCompact ≤ compactMantissa nCompact := by
      rw [compactMagnitude, if_pos short]
      exact Nat.div_le_self _ _
    rw [if_pos short, if_pos short, toNat_ofUint64, toNat_setWidth, word]
    omega
  · have fits : compactMantissa nCompact < 2 ^ 64 := by omega
    rw [if_neg short, if_neg short, toNat_shiftLeft, toNat_ofUint64, toNat_setWidth,
      toNat_mantissa, compactMagnitude, if_neg short, pow_256, Nat.mod_eq_of_lt fits]

/-- The word that the flags test is nonzero exactly when the magnitude is. -/
theorem shiftedMantissa_ne_zero
    : ((if compactExponent nCompact ≤ 3 then
          (nCompact &&& 0x007fffff) >>> (8 * (3 - compactExponent nCompact))
        else nCompact &&& 0x007fffff) != 0) = true
      ↔ compactMagnitude nCompact ≠ 0 := by
  have word := toNat_shiftedMantissa nCompact
  rw [bne_iff_ne, Ne, ← toNat_inj, word]
  split
  · rfl
  rename_i long
  rw [compactMagnitude, if_neg long]
  simp

/-- `*pfNegative` is set exactly for a nonzero magnitude with the sign bit. -/
theorem setCompact_fNegative
    : (setCompact nCompact).fNegative = true
      ↔ compactMagnitude nCompact ≠ 0 ∧ nCompact.getLsbD 23 = true := by
  have sign : (nCompact &&& 0x00800000 != 0) = nCompact.getLsbD 23 := by
    rw [show (0x00800000 : BitVec 32) = twoPow 32 23 by decide, and_twoPow]
    cases nCompact.getLsbD 23 <;> decide
  simp only [setCompact, toNat_exponent, Bool.and_eq_true, sign]
  rw [shiftedMantissa_ne_zero]

/-- `*pfOverflow` is set exactly when the magnitude does not fit in 256 bits: the three
size tests are the three exponents at which a 23-bit mantissa can still overflow.
-/
theorem setCompact_fOverflow
    : (setCompact nCompact).fOverflow = true ↔ 2 ^ 256 ≤ compactMagnitude nCompact := by
  have small := compactMantissa_lt nCompact
  simp only [setCompact, toNat_exponent, Bool.and_eq_true, Bool.or_eq_true, decide_eq_true_eq,
    toNat_shiftedMantissa]
  rw [shiftedMantissa_ne_zero]
  by_cases short : compactExponent nCompact ≤ 3
  · have magnitude : compactMagnitude nCompact ≤ compactMantissa nCompact := by
      rw [compactMagnitude, if_pos short]
      exact Nat.div_le_self _ _
    omega
  · rw [if_neg short, compactMagnitude, if_neg short]
    by_cases far : 34 < compactExponent nCompact
    · obtain ⟨more, exponent⟩ : ∃ more, compactExponent nCompact - 3 = 32 + more :=
        ⟨compactExponent nCompact - 35, by omega⟩
      rw [exponent, pow_add]
      have pos : 0 < 256 ^ more := by positivity
      constructor
      · rintro ⟨nonzero, _⟩
        have mantissa : 0 < compactMantissa nCompact :=
          Nat.pos_of_ne_zero (fun zero => nonzero (by rw [zero, Nat.zero_mul]))
        calc 2 ^ 256 = 1 * (256 ^ 32 * 1) := by norm_num
          _ ≤ compactMantissa nCompact * (256 ^ 32 * 256 ^ more) :=
            Nat.mul_le_mul mantissa (Nat.mul_le_mul_left _ pos)
      · intro large
        refine ⟨fun zero => ?_, Or.inl (Or.inl far)⟩
        rw [zero] at large
        exact absurd large (by norm_num)
    · -- only finitely many exponents are left
      have cases : compactExponent nCompact = 34 ∨ compactExponent nCompact = 33
          ∨ compactExponent nCompact ≤ 32 := by omega
      rcases cases with e | e | e
      · rw [e]
        norm_num
        omega
      · rw [e]
        norm_num
        omega
      · have bound : 256 ^ (compactExponent nCompact - 3) ≤ 256 ^ 29 :=
          Nat.pow_le_pow_right (by norm_num) (by omega)
        have product : compactMantissa nCompact * 256 ^ (compactExponent nCompact - 3)
            ≤ 2 ^ 23 * 256 ^ 29 := Nat.mul_le_mul (by omega) bound
        norm_num at product ⊢
        omega

/-- A compact word that raises neither flag denotes the stored target. -/
theorem compactValue_of_setCompact (nonneg : (setCompact nCompact).fNegative = false)
    (fits : (setCompact nCompact).fOverflow = false)
    : compactValue nCompact = (setCompact nCompact).target.toNat := by
  have small : compactMagnitude nCompact < 2 ^ 256 := by
    by_contra large
    rw [(setCompact_fOverflow nCompact).mpr (by omega)] at fits
    cases fits
  rw [toNat_setCompact, Nat.mod_eq_of_lt small, compactValue]
  split
  · rename_i sign
    have zero : compactMagnitude nCompact = 0 := by
      by_contra nonzero
      rw [(setCompact_fNegative nCompact).mpr ⟨nonzero, sign⟩] at nonneg
      cases nonneg
    simp [zero]
  · rfl

-- Rounding to a compact word

/-- The number with all but its leading three bytes cleared, or all but two where the third would
not leave the sign bit free.
-/
def leadingBytes (value : Nat) : Nat :=
  let length := (Nat.digits 256 value).length
  let kept := if 0x80 ≤ value / 256 ^ (length - 1) then 2 else 3
  value / 256 ^ (length - kept) * 256 ^ (length - kept)

theorem length_bytes (value) : (Nat.digits 256 value).length = (value.size + 7) / 8 := by
  refine eq_of_forall_ge_iff fun count => ?_
  rw [Nat.digits_length_le_iff (by decide), ← pow_256, ← Nat.size_le]
  omega

theorem lt_bytes (value) : value < 256 ^ ((value.size + 7) / 8) := by
  rw [← pow_256, ← Nat.size_le]
  omega

theorem toNat_getLow64 (a : BaseUint) : a.getLow64.toNat = a.toNat % 2 ^ 64 := by
  obtain ⟨pn, width⟩ := a
  match pn, width with
  | p :: q :: rest, _ =>
    have hp := p.isLt
    have hq := q.isLt
    have joined : p.toNat ||| q.toNat <<< 32 = q.toNat * 2 ^ 32 + p.toNat := by
      rw [Nat.or_comm, ← Nat.shiftLeft_add_eq_or_of_lt hp, Nat.shiftLeft_eq]
    have high : q.toNat <<< 32 < 2 ^ 64 := by
      rw [Nat.shiftLeft_eq]
      omega
    simp only [getLow64, List.getD_cons_zero, List.getD_cons_succ, toNat_or,
      BitVec.toNat_shiftLeft, toNat_setWidth, toNat, Radix.value_cons]
    rw [Nat.mod_eq_of_lt (show p.toNat < 2 ^ 64 by omega),
      Nat.mod_eq_of_lt (show q.toNat < 2 ^ 64 by omega), Nat.mod_eq_of_lt high, joined]
    omega

/-- The word of `GetCompact` before its sign bit is looked at. -/
theorem toNat_leadingWord (a : BaseUint) : let length := (a.toNat.size + 7) / 8
      (if length ≤ 3 then (a.getLow64 <<< (8 * (3 - length))).setWidth 32
        else (a.shiftRight (8 * (length - 3))).getLow64.setWidth 32 : BitVec 32).toNat
        = a.toNat * 256 ^ (3 - length) / 256 ^ (length - 3)
      ∧ a.toNat * 256 ^ (3 - length) / 256 ^ (length - 3) < 2 ^ 24 := by
  intro length
  have bound : a.toNat < 256 ^ length := lt_bytes a.toNat
  by_cases short : length ≤ 3
  · have fits : a.toNat * 256 ^ (3 - length) < 2 ^ 24 := by
      calc a.toNat * 256 ^ (3 - length) < 256 ^ length * 256 ^ (3 - length) :=
            Nat.mul_lt_mul_of_pos_right bound (by positivity)
        _ = 2 ^ 24 := by rw [← pow_add, Nat.add_sub_cancel' short]; norm_num
    have part : a.toNat ≤ a.toNat * 256 ^ (3 - length) := Nat.le_mul_of_pos_right _ (by positivity)
    rw [if_pos short, Nat.sub_eq_zero_of_le short, pow_zero, Nat.div_one]
    refine ⟨?_, fits⟩
    rw [toNat_setWidth, BitVec.toNat_shiftLeft, toNat_getLow64, Nat.shiftLeft_eq, pow_256,
      Nat.mod_eq_of_lt (show a.toNat < 2 ^ 64 by omega)]
    omega
  · have fits : a.toNat / 256 ^ (length - 3) < 2 ^ 24 := by
      rw [Nat.div_lt_iff_lt_mul (by positivity)]
      calc a.toNat < 256 ^ length := bound
        _ = 2 ^ 24 * 256 ^ (length - 3) := by
          rw [show 2 ^ 24 = 256 ^ 3 by norm_num, ← pow_add, Nat.add_sub_cancel' (by omega)]
    rw [if_neg short, Nat.sub_eq_zero_of_le (show 3 ≤ length by omega), pow_zero, Nat.mul_one]
    refine ⟨?_, fits⟩
    rw [toNat_setWidth, toNat_getLow64, toNat_shiftRight, pow_256,
      Nat.mod_eq_of_lt (fits.trans (by decide)), Nat.mod_eq_of_lt (fits.trans (by decide))]

/-- A mantissa and an exponent are read back from the word that joins them. -/
theorem compact_join {word} {exponent} (mantissa : word.toNat < 2 ^ 23) (short : exponent < 2 ^ 8)
    : compactExponent (word ||| BitVec.ofNat 32 exponent <<< 24) = exponent
      ∧ compactMantissa (word ||| BitVec.ofNat 32 exponent <<< 24) = word.toNat
      ∧ (word ||| BitVec.ofNat 32 exponent <<< 24).getLsbD 23 = false := by
  have joined : (word ||| BitVec.ofNat 32 exponent <<< 24).toNat
      = exponent * 2 ^ 24 + word.toNat := by
    have high : exponent <<< 24 < 2 ^ 32 := by
      rw [Nat.shiftLeft_eq]
      omega
    rw [toNat_or, BitVec.toNat_shiftLeft, toNat_ofNat,
      Nat.mod_eq_of_lt (show exponent < 2 ^ 32 by omega), Nat.mod_eq_of_lt high, Nat.or_comm,
      ← Nat.shiftLeft_add_eq_or_of_lt (show word.toNat < 2 ^ 24 by omega), Nat.shiftLeft_eq]
  rw [compactExponent, compactMantissa, getLsbD, Nat.testBit_eq_decide_div_mod_eq, joined,
    decide_eq_false_iff_not]
  omega

theorem sign_iff {word : BitVec 32} (small : word.toNat < 2 ^ 24)
    : word &&& 0x00800000 ≠ 0 ↔ 2 ^ 23 ≤ word.toNat := by
  rw [← Radix.testBit_top _ _ small, show (0x00800000 : BitVec 32) = twoPow 32 23 by decide,
    and_twoPow]
  change _ ↔ word.getLsbD 23 = true
  cases word.getLsbD 23 <;> decide

/-- A mantissa that sets the sign bit has a high first byte, and loses its last. -/
theorem rounded_eq {value length} (bound : value < 256 ^ length) {mantissa exponent}
    (parts : (mantissa, exponent)
      = if 2 ^ 23 ≤ value * 256 ^ (3 - length) / 256 ^ (length - 3) then
          (value * 256 ^ (3 - length) / 256 ^ (length - 3) / 256, length + 1)
        else (value * 256 ^ (3 - length) / 256 ^ (length - 3), length))
    : (if exponent ≤ 3 then mantissa / 256 ^ (3 - exponent) else mantissa * 256 ^ (exponent - 3))
      = value / 256 ^ (length - if 0x80 ≤ value / 256 ^ (length - 1) then 2 else 3)
        * 256 ^ (length - if 0x80 ≤ value / 256 ^ (length - 1) then 2 else 3) := by
  rcases length with _ | _ | _ | _ | more
  case succ.succ.succ.succ =>
    have shorter : value / 256 ^ (more + 2) = value / 256 ^ (more + 1) / 256 := by
      rw [Nat.div_div_eq_div_mul, ← pow_succ]
    have first : value / 256 ^ (more + 3) = value / 256 ^ (more + 1) / 256 / 256 := by
      rw [← shorter, Nat.div_div_eq_div_mul, ← pow_succ]
    rw [show 3 - (more + 4) = 0 by omega, show more + 4 - 3 = more + 1 by omega, pow_zero,
      Nat.mul_one] at parts
    rw [show more + 4 - 1 = more + 3 by omega, first]
    split at parts <;> cases parts
    · rw [if_neg (by omega), if_pos (by omega), show more + 4 + 1 - 3 = more + 2 by omega,
        show more + 4 - 2 = more + 2 by omega, shorter]
    · rw [if_neg (by omega), if_neg (by omega), show more + 4 - 3 = more + 1 by omega]
  all_goals
    norm_num at bound parts ⊢
    split at parts <;> cases parts <;> split_ifs <;> omega

/-- Rounding to a compact word keeps the leading bytes, and raises no flag. -/
theorem setCompact_getCompact (a : BaseUint)
    : (setCompact (a.getCompact false)).target.toNat = leadingBytes a.toNat
      ∧ (setCompact (a.getCompact false)).fNegative = false
      ∧ (setCompact (a.getCompact false)).fOverflow = false := by
  obtain ⟨magnitude, free⟩ : compactMagnitude (a.getCompact false) = leadingBytes a.toNat
      ∧ (a.getCompact false).getLsbD 23 = false := by
    obtain ⟨word, small⟩ := toNat_leadingWord a
    have bound := lt_bytes a.toNat
    have few : (a.toNat.size + 7) / 8 ≤ 32 := by
      have := Nat.size_le.mpr a.toNat_lt
      omega
    have unsigned (nCompact : BitVec 32) : nCompact ||| 0 = nCompact := or_zero
    simp only [getCompact, bits_eq, Bool.false_eq_true, false_and, if_false, unsigned]
    rw [leadingBytes, length_bytes]
    generalize (a.toNat.size + 7) / 8 = length at *
    generalize (if length ≤ 3 then _ else _ : BitVec 32) = leading at *
    generalize a.toNat = value at *
    have rounded := @rounded_eq value length bound
    rw [← word] at small rounded
    simp only [sign_iff small]
    split
    · have shifted : (leading >>> 8).toNat = leading.toNat / 256 := by
        rw [toNat_ushiftRight, Nat.shiftRight_eq_div_pow]
      obtain ⟨exponent, mantissa, free⟩ :=
        @compact_join (leading >>> 8) (length + 1) (by omega) (by omega)
      refine ⟨?_, free⟩
      rw [compactMagnitude, exponent, mantissa, shifted]
      exact rounded (if_pos ‹_›).symm
    · obtain ⟨exponent, mantissa, free⟩ := @compact_join leading length (by omega) (by omega)
      refine ⟨?_, free⟩
      rw [compactMagnitude, exponent, mantissa]
      exact rounded (if_neg ‹_›).symm
  have small : leadingBytes a.toNat < 2 ^ 256 :=
    Nat.lt_of_le_of_lt (Nat.div_mul_le_self _ _) a.toNat_lt
  refine ⟨by rw [toNat_setCompact, magnitude, Nat.mod_eq_of_lt small], ?_, ?_⟩
  · rw [Bool.eq_false_iff, Ne, setCompact_fNegative, free]
    simp
  · rw [Bool.eq_false_iff, Ne, setCompact_fOverflow, magnitude]
    omega

end BaseUint

end Pqcoin
