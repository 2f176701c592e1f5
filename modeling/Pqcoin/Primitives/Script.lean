import Pqcoin.Primitives.Transaction

/-! Reading the operations of a script, and counting the signature checks among them. -/

namespace Pqcoin.Script

-- Operations

def OP_0 : Byte := 0x00
def OP_PUSHDATA1 : Byte := 0x4c
def OP_PUSHDATA2 : Byte := 0x4d
def OP_PUSHDATA4 : Byte := 0x4e
def OP_1 : Byte := 0x51
def OP_16 : Byte := 0x60
def OP_EQUAL : Byte := 0x87
def OP_HASH160 : Byte := 0xa9
def OP_CHECKSIG : Byte := 0xac
def OP_CHECKSIGVERIFY : Byte := 0xad
def OP_CHECKMULTISIG : Byte := 0xae
def OP_CHECKMULTISIGVERIFY : Byte := 0xaf
def OP_INVALIDOPCODE : Byte := 0xff

def MAX_PUBKEYS_PER_MULTISIG : Nat := 5000

/-- A size operand of `count` bytes, least significant first. -/
def readSize (count : Nat) (rest : Script) : Option (Nat × Script) :=
  if rest.length < count then none
  else some (Radix.value (rest.take count), rest.drop count)

def pushSize (opcode : Byte) (rest : Script) : Option (Nat × Script) :=
  if opcode < OP_PUSHDATA1 then some (opcode.toNat, rest)
  else if opcode = OP_PUSHDATA1 then readSize 1 rest
  else if opcode = OP_PUSHDATA2 then readSize 2 rest
  else readSize 4 rest

/-- `GetOp2` from the start of the remaining script: the operation, its data and what
follows. There is none at the end of the script or where the data is cut off.
-/
def getOp : Script → Option (Byte × List Byte × Script)
  | [] => none
  | opcode :: rest =>
    if opcode ≤ OP_PUSHDATA4 then
      match pushSize opcode rest with
      | none => none
      | some (nSize, rest) =>
        if rest.length < nSize then none
        else some (opcode, rest.take nSize, rest.drop nSize)
    else some (opcode, [], rest)

theorem length_of_pushSize {opcode} {nSize} {rest after}
    (read : pushSize opcode rest = some (nSize, after))
    : after.length ≤ rest.length := by
  have within {count} (read : readSize count rest = some (nSize, after))
      : after.length ≤ rest.length := by
    rw [readSize] at read
    split at read
    · cases read
    cases read
    simp
  rw [pushSize] at read
  split at read
  · cases read
    exact Nat.le_refl _
  split at read
  · exact within read
  split at read <;> exact within read

/-- Every operation takes at least its own byte. -/
theorem length_of_getOp {script after} {opcode} {data}
    (read : getOp script = some (opcode, data, after))
    : after.length < script.length := by
  cases script with
  | nil => cases read
  | cons first rest =>
    rw [getOp] at read
    split at read
    · split at read
      · cases read
      rename_i nSize operand size
      have inside := length_of_pushSize size
      split at read
      · cases read
      cases read
      simp only [List.length_drop, List.length_cons]
      omega
    · cases read
      simp

/-- An operation above the pushes is read on its own. -/
theorem getOp_cons {opcode} (above : ¬ opcode ≤ OP_PUSHDATA4) (rest)
    : getOp (opcode :: rest) = some (opcode, [], rest) := by
  rw [getOp, if_neg above]

-- Signature operations

def decodeOpN (opcode : Byte) : Nat :=
  if opcode = OP_0 then 0 else opcode.toNat - (OP_1.toNat - 1)

def sigOpWeight (fAccurate : Bool) (lastOpcode opcode : Byte) : Nat :=
  if opcode = OP_CHECKSIG ∨ opcode = OP_CHECKSIGVERIFY then 1
  else if opcode = OP_CHECKMULTISIG ∨ opcode = OP_CHECKMULTISIGVERIFY then
    if fAccurate ∧ OP_1 ≤ lastOpcode ∧ lastOpcode ≤ OP_16 then decodeOpN lastOpcode
    else MAX_PUBKEYS_PER_MULTISIG
  else 0

/-- The loop of `GetSigOpCount`, with its `unsigned int` counter. -/
def sigOpLoop (fAccurate : Bool) (script : Script) (lastOpcode : Byte) (n : BitVec 32)
    : BitVec 32 :=
  match _read : getOp script with
  | none => n
  | some (opcode, _, rest) =>
    sigOpLoop fAccurate rest opcode (n + BitVec.ofNat 32 (sigOpWeight fAccurate lastOpcode opcode))
termination_by script.length
decreasing_by exact length_of_getOp _read

def getSigOpCount (fAccurate : Bool) (script : Script) : BitVec 32 :=
  sigOpLoop fAccurate script OP_INVALIDOPCODE 0

def sigOpSum (fAccurate : Bool) (script : Script) (lastOpcode : Byte) : Nat :=
  match _read : getOp script with
  | none => 0
  | some (opcode, _, rest) =>
    sigOpWeight fAccurate lastOpcode opcode + sigOpSum fAccurate rest opcode
termination_by script.length
decreasing_by exact length_of_getOp _read

def sigOps (fAccurate : Bool) (script : Script) : Nat :=
  sigOpSum fAccurate script OP_INVALIDOPCODE

theorem sigOpSum_of_none {script} (read : getOp script = none) (fAccurate lastOpcode)
    : sigOpSum fAccurate script lastOpcode = 0 := by
  rw [sigOpSum, read]

theorem sigOpSum_of_some {script rest} {opcode} {data}
    (read : getOp script = some (opcode, data, rest)) (fAccurate lastOpcode)
    : sigOpSum fAccurate script lastOpcode
      = sigOpWeight fAccurate lastOpcode opcode + sigOpSum fAccurate rest opcode := by
  rw [sigOpSum, read]

/-- The counter holds the unbounded sum modulo `2 ^ 32`, by induction on the operations. -/
theorem toNat_sigOpLoop (fAccurate script lastOpcode n)
    : (sigOpLoop fAccurate script lastOpcode n).toNat
      = (n.toNat + sigOpSum fAccurate script lastOpcode) % 2 ^ 32 := by
  fun_induction sigOpLoop fAccurate script lastOpcode n with
  | case1 script lastOpcode n read =>
    rw [sigOpSum_of_none read, Nat.add_zero, Nat.mod_eq_of_lt n.isLt]
  | case2 script lastOpcode n opcode data rest read ih =>
    rw [ih, sigOpSum_of_some read, BitVec.toNat_add, BitVec.toNat_ofNat]
    omega

theorem toNat_getSigOpCount (fAccurate script)
    : (getSigOpCount fAccurate script).toNat = sigOps fAccurate script % 2 ^ 32 := by
  simp [getSigOpCount, toNat_sigOpLoop, sigOps]

theorem sigOpSum_replicate (count lastOpcode)
    : sigOpSum false (List.replicate count OP_CHECKMULTISIG) lastOpcode
      = MAX_PUBKEYS_PER_MULTISIG * count := by
  induction count generalizing lastOpcode with
  | zero => exact sigOpSum_of_none rfl false lastOpcode
  | succ count ih =>
    rw [List.replicate_succ, sigOpSum_of_some (getOp_cons (by decide) _), ih, Nat.mul_succ,
      Nat.add_comm]
    rfl

-- Script templates

def isPayToScriptHash (script : Script) : Bool :=
  script.length == 23 && script[0]? == some OP_HASH160 && script[1]? == some 0x14
    && script[22]? == some OP_EQUAL

/-- The data of the last operation of a script that only pushes, as `GetSigOpCount`,
`IsPushOnly` and `CountWitnessSigOps` walk it; `data` is what was read before.
-/
def lastPush (script : Script) (data : List Byte) : Option (List Byte) :=
  match _read : getOp script with
  | none => if script.isEmpty then some data else none
  | some (opcode, pushed, rest) => if opcode > OP_16 then none else lastPush rest pushed
termination_by script.length
decreasing_by exact length_of_getOp _read

/-- `CScript::GetSigOpCount(const CScript&)`: the accurate count of the redeeming script. -/
def getSigOpCountOf (script scriptSig : Script) : BitVec 32 :=
  if !isPayToScriptHash script then getSigOpCount true script
  else match lastPush scriptSig [] with
    | none => 0
    | some data => getSigOpCount true data

/-- `CScript::IsWitnessProgram`: the version and the program. -/
def isWitnessProgram : Script → Option (Nat × List Byte)
  | version :: size :: program =>
    if program.length + 2 < 4 ∨ program.length + 2 > 42 then none
    else if version ≠ OP_0 ∧ (version < OP_1 ∨ version > OP_16) then none
    else if size.toNat + 2 = program.length + 2 then some (decodeOpN version, program)
    else none
  | _ => none

end Pqcoin.Script
