import Pqcoin.Primitives.Script

/-! Building scripts: the pushes that `CScript::operator<<` writes, and that `GetOp` reads
them back.
-/

namespace Pqcoin.Script

open List

def OP_DUP : Byte := 0x76
def OP_EQUALVERIFY : Byte := 0x88
def OP_RETURN : Byte := 0x6a

def pushHeader (size : Nat) : List Byte :=
  if size < OP_PUSHDATA1.toNat then [BitVec.ofNat 8 size]
  else if size ≤ 0xff then OP_PUSHDATA1 :: bytesLE 1 (BitVec.ofNat 8 size)
  else if size ≤ 0xffff then OP_PUSHDATA2 :: bytesLE 2 (BitVec.ofNat 16 size)
  else OP_PUSHDATA4 :: bytesLE 4 (BitVec.ofNat 32 size)

/-- `operator<<` on a byte vector: what it appends. -/
def pushData (data : List Byte) : Script := pushHeader data.length ++ data

def encodeOpN (n : Nat) : Option Byte :=
  if 16 < n then none
  else if n = 0 then some OP_0
  else some (BitVec.ofNat 8 (OP_1.toNat + n - 1))

def isPushOnly (script : Script) : Bool := (lastPush script []).isSome

-- Reading back what was pushed

def pushOpcode (size : Nat) : Byte :=
  if size < OP_PUSHDATA1.toNat then BitVec.ofNat 8 size
  else if size ≤ 0xff then OP_PUSHDATA1
  else if size ≤ 0xffff then OP_PUSHDATA2
  else OP_PUSHDATA4

theorem readSize_bytesLE (count) {size} (fits : size < 2 ^ (8 * count)) (rest)
    : readSize count (bytesLE count (BitVec.ofNat (8 * count) size) ++ rest)
      = some (size, rest) := by
  have long : ¬ (bytesLE count (BitVec.ofNat (8 * count) size) ++ rest).length < count := by simp
  rw [readSize, if_neg long, take_left' (length_bytesLE count _),
    drop_left' (length_bytesLE count _), value_bytesLE count _ (Nat.le_refl _),
    BitVec.toNat_ofNat, Nat.mod_eq_of_lt fits]

theorem pushHeader_eq {size} (small : size < 2 ^ 32)
    : ∃ operand,
        pushHeader size = pushOpcode size :: operand
        ∧ pushOpcode size ≤ OP_PUSHDATA4
        ∧ ∀ rest, pushSize (pushOpcode size) (operand ++ rest) = some (size, rest) := by
  rw [pushHeader, pushOpcode]
  split_ifs with direct one two
  · have value : (BitVec.ofNat 8 size).toNat = size := by
      rw [BitVec.toNat_ofNat]
      exact Nat.mod_eq_of_lt (Nat.lt_trans direct (by decide))
    have below : BitVec.ofNat 8 size < OP_PUSHDATA1 := by
      rw [BitVec.lt_def, value]
      exact direct
    refine ⟨[], rfl, BitVec.le_of_lt (BitVec.lt_trans below (by decide)), fun rest => ?_⟩
    rw [pushSize, if_pos below, value, nil_append]
  · exact ⟨_, rfl, by decide, readSize_bytesLE 1 (by omega)⟩
  · exact ⟨_, rfl, by decide, readSize_bytesLE 2 (by omega)⟩
  · exact ⟨_, rfl, by decide, readSize_bytesLE 4 small⟩

theorem getOp_pushData {data} (small : data.length < 2 ^ 32) (rest)
    : getOp (pushData data ++ rest) = some (pushOpcode data.length, data, rest) := by
  obtain ⟨operand, header, push, read⟩ := pushHeader_eq small
  have enough : ¬ (data ++ rest).length < data.length := by simp
  rw [pushData, header, cons_append, cons_append, append_assoc, getOp, if_pos push, read]
  simp only [if_neg enough, take_left, drop_left]

@[simp] theorem length_pushData (data : List Byte)
    : (pushData data).length = (pushHeader data.length).length + data.length := by
  rw [pushData, length_append]

-- Shapes

theorem isPayToScriptHash_dup (rest) : isPayToScriptHash (OP_DUP :: rest) = false := by
  simp [isPayToScriptHash, OP_DUP, OP_HASH160]

theorem isWitnessProgram_dup (rest) : isWitnessProgram (OP_DUP :: rest) = none := by
  rw [isWitnessProgram.eq_def]
  split
  · rename_i version size program shape
    cases shape
    split_ifs with length version
    · rfl
    · rfl
    · exact absurd version (by decide)
    · rfl
  · rfl

end Pqcoin.Script
