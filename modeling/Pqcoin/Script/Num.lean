import Pqcoin.Script.Build

/-! Numbers in scripts: `CScriptNum` with its byte strings, and pushing an integer. -/

namespace Pqcoin.Script

open List Radix

def nDefaultMaxNumSize : Nat := 4

/-- The loop of `serialize` over the absolute value. -/
def magnitude (absvalue : Nat) : List Byte := (Nat.digits 256 absvalue).map (BitVec.ofNat 8)

def hasSignBit (vch : List Byte) : Bool := vch.getLastD 0 &&& 0x80 != 0

def serializeNum (value : Int) : List Byte :=
  if value = 0 then []
  else
    let result := magnitude value.natAbs
    if hasSignBit result then result ++ [if value < 0 then 0x80 else 0]
    else if value < 0 then result.dropLast ++ [result.getLastD 0 ||| 0x80]
    else result

/-- `CScriptNum::set_vch`, for the at most five bytes that are ever given to it. -/
def setVch (vch : List Byte) : Int :=
  if hasSignBit vch then - ((Radix.value vch - 0x80 * 256 ^ (vch.length - 1) : Nat) : Int)
  else Radix.value vch

def isMinimalNum (vch : List Byte) : Bool :=
  if vch.isEmpty || vch.getLastD 0 &&& 0x7f != 0 then true
  else decide (1 < vch.length) && hasSignBit vch.dropLast

/-- `CScriptNum(vch, fRequireMinimal, nMaxNumSize)`, `none` where it throws. -/
def scriptNum (vch : List Byte) (fRequireMinimal : Bool) (nMaxNumSize : Nat) : Option Int :=
  if vch.length > nMaxNumSize then none
  else if fRequireMinimal && !isMinimalNum vch then none
  else some (setVch vch)

def getInt (value : Int) : Int := max (-2 ^ 31) (min (2 ^ 31 - 1) value)

def pushInt64 (n : Int) : Script :=
  if n = -1 ∨ (1 ≤ n ∧ n ≤ 16) then [BitVec.ofInt 8 (n + (OP_1.toNat - 1))]
  else if n = 0 then [OP_0]
  else pushData (serializeNum n)

-- Numbers survive their byte strings

theorem value_magnitude (absvalue) : Radix.value (magnitude absvalue) = absvalue := by
  have digits : (magnitude absvalue).map BitVec.toNat = Nat.digits 256 absvalue := by
    rw [magnitude, map_map]
    refine (map_congr_left fun digit mem => ?_).trans (map_id _)
    have small : digit < 256 := Nat.digits_lt_base (by decide) mem
    simp [Nat.mod_eq_of_lt small]
  rw [Radix.value, digits]
  exact Nat.ofDigits_digits 256 absvalue

theorem magnitude_ne_nil {absvalue} (nonzero : absvalue ≠ 0) : magnitude absvalue ≠ [] := by
  simp [magnitude, Nat.digits_ne_nil_iff_ne_zero.mpr nonzero]

theorem toNat_signed
    : ∀ last : Byte, (last &&& 0x80 != 0) = false → (last ||| 0x80).toNat = last.toNat + 0x80 := by
  decide

theorem signed_hasSignBit : ∀ last : Byte, ((last ||| 0x80) &&& 0x80 != 0) = true := by
  decide

theorem value_signed {vch} (nonempty : vch ≠ []) (unsigned : hasSignBit vch = false)
    : Radix.value (vch.dropLast ++ [vch.getLastD 0 ||| 0x80])
      = Radix.value vch + 0x80 * 256 ^ (vch.length - 1) := by
  obtain ⟨low, last, rfl⟩ : ∃ low last, vch = low ++ [last] :=
    ⟨_, _, (dropLast_append_getLast nonempty).symm⟩
  rw [hasSignBit, getLastD_concat] at unsigned
  rw [getLastD_concat, dropLast_concat, value_append, value_append,
    value_cons, value_cons, toNat_signed last unsigned, value_nil,
    length_append, length_singleton, Nat.add_sub_cancel, pow_mul]
  ring

/-- Reading what was written gives the number back. -/
theorem setVch_serializeNum (value) : setVch (serializeNum value) = value := by
  by_cases zero : value = 0
  · subst zero
    decide
  have nonzero : value.natAbs ≠ 0 := Int.natAbs_ne_zero.mpr zero
  have whole := value_magnitude value.natAbs
  have nonempty := magnitude_ne_nil nonzero
  rw [serializeNum, if_neg zero]
  by_cases sign : hasSignBit (magnitude value.natAbs) = true
  · simp only [sign, if_true]
    by_cases negative : value < 0
    · rw [if_pos negative, setVch, if_pos (by simp [hasSignBit]), value_append, whole,
        length_append, length_singleton, Nat.add_sub_cancel, pow_mul]
      simp
      omega
    · rw [if_neg negative, setVch, if_neg (by simp [hasSignBit]), value_append, whole]
      simp
      omega
  · rw [Bool.not_eq_true] at sign
    simp only [sign, Bool.false_eq_true, if_false]
    by_cases negative : value < 0
    · rw [if_pos negative, setVch, if_pos, value_signed nonempty sign, whole]
      · have length : ((magnitude value.natAbs).dropLast
            ++ [(magnitude value.natAbs).getLastD 0 ||| 0x80]).length
            = (magnitude value.natAbs).length := by
          have pos := length_pos_of_ne_nil nonempty
          simp
          omega
        rw [length, Nat.add_sub_cancel]
        omega
      · rw [hasSignBit, getLastD_concat]
        exact signed_hasSignBit _
    · rw [if_neg negative, setVch, if_neg (by simp [sign]), whole]
      omega

end Pqcoin.Script
