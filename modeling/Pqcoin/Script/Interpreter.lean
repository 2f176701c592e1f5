import Pqcoin.Script.Num
import Pqcoin.Script.SignatureHash

/-! The script interpreter: `EvalScript` as a loop over the operations of a script, with one
function for each family of operations. A stack is a list with its top in front.
-/

namespace Pqcoin

inductive ScriptError where
  | unknownError
  | evalFalse
  | opReturn
  | scriptSize
  | pushSize
  | opCount
  | stackSize
  | sigCount
  | pubkeyCount
  | verify
  | equalVerify
  | checkMultisigVerify
  | checkSigVerify
  | numEqualVerify
  | badOpcode
  | disabledOpcode
  | invalidStackOperation
  | invalidAltstackOperation
  | unbalancedConditional
  | negativeLocktime
  | unsatisfiedLocktime
  | minimalData
  | sigPushOnly
  | sigNullDummy
  | pubkeyType
  | cleanStack
  | minimalIf
  | sigNullFail
  | discourageUpgradableNops
  | discourageUpgradableWitnessProgram
  | witnessProgramWrongLength
  | witnessProgramWitnessEmpty
  | witnessProgramMismatch
  | witnessMalleated
  | witnessMalleatedP2SH
  | witnessUnexpected
  | witnessPubkeyType
  deriving DecidableEq

namespace Script

def MAX_SCRIPT_ELEMENT_SIZE : Nat := 150000
def MAX_OPS_PER_SCRIPT : Nat := 201
def MAX_SCRIPT_SIZE : Nat := 4194304

def isUnspendable (script : Script) : Bool :=
  script.head? == some OP_RETURN || decide (MAX_SCRIPT_SIZE < script.length)

-- Flags

def SCRIPT_VERIFY_P2SH : BitVec 32 := 1 <<< 0
def SCRIPT_VERIFY_STRICTENC : BitVec 32 := 1 <<< 1
def SCRIPT_VERIFY_DERSIG : BitVec 32 := 1 <<< 2
def SCRIPT_VERIFY_LOW_S : BitVec 32 := 1 <<< 3
def SCRIPT_VERIFY_NULLDUMMY : BitVec 32 := 1 <<< 4
def SCRIPT_VERIFY_SIGPUSHONLY : BitVec 32 := 1 <<< 5
def SCRIPT_VERIFY_MINIMALDATA : BitVec 32 := 1 <<< 6
def SCRIPT_VERIFY_DISCOURAGE_UPGRADABLE_NOPS : BitVec 32 := 1 <<< 7
def SCRIPT_VERIFY_CLEANSTACK : BitVec 32 := 1 <<< 8
def SCRIPT_VERIFY_CHECKLOCKTIMEVERIFY : BitVec 32 := 1 <<< 9
def SCRIPT_VERIFY_CHECKSEQUENCEVERIFY : BitVec 32 := 1 <<< 10
def SCRIPT_VERIFY_WITNESS : BitVec 32 := 1 <<< 11
def SCRIPT_VERIFY_DISCOURAGE_UPGRADABLE_WITNESS_PROGRAM : BitVec 32 := 1 <<< 12
def SCRIPT_VERIFY_MINIMALIF : BitVec 32 := 1 <<< 13
def SCRIPT_VERIFY_NULLFAIL : BitVec 32 := 1 <<< 14
def SCRIPT_VERIFY_WITNESS_PUBKEYTYPE : BitVec 32 := 1 <<< 15

def hasFlag (flags flag : BitVec 32) : Bool := flags &&& flag != 0

-- Operations

inductive StackOp where
  | opToAltStack
  | opFromAltStack
  | op2Drop
  | op2Dup
  | op3Dup
  | op2Over
  | op2Rot
  | op2Swap
  | opIfDup
  | opDepth
  | opDrop
  | opDup
  | opNip
  | opOver
  | opPick
  | opRoll
  | opRot
  | opSwap
  | opTuck
  | opSize
  deriving DecidableEq

inductive UnaryOp where
  | op1Add
  | op1Sub
  | opNegate
  | opAbs
  | opNot
  | op0NotEqual
  deriving DecidableEq

inductive BinaryOp where
  | opAdd
  | opSub
  | opBoolAnd
  | opBoolOr
  | opNumEqual
  | opNumEqualVerify
  | opNumNotEqual
  | opLessThan
  | opGreaterThan
  | opLessThanOrEqual
  | opGreaterThanOrEqual
  | opMin
  | opMax
  deriving DecidableEq

inductive HashOp where
  | opRipemd160
  | opSha1
  | opSha256
  | opHash160
  | opHash256
  deriving DecidableEq

/-- The cases of the switch over the operations above `OP_PUSHDATA4`. Operations that share
a case with a variant that verifies are told apart by `verifies`.
-/
inductive Operation where
  | pushNumber (n : Int)
  | opNop
  | opCheckLockTimeVerify
  | opCheckSequenceVerify
  | upgradableNop
  | opIf (negated : Bool)
  | opElse
  | opEndIf
  | opVerify
  | opReturn
  | stackOp (op : StackOp)
  | opEqual (verifies : Bool)
  | unaryOp (op : UnaryOp)
  | binaryOp (op : BinaryOp)
  | opWithin
  | hashOp (op : HashOp)
  | opCodeSeparator
  | opCheckSig (verifies : Bool)
  | opCheckMultisig (verifies : Bool)
  | badOpcode
  deriving DecidableEq

def decode (opcode : Byte) : Operation :=
  if OP_1 ≤ opcode ∧ opcode ≤ OP_16 then .pushNumber (decodeOpN opcode)
  else match opcode.toNat with
    | 0x4f => .pushNumber (-1)
    | 0x61 => .opNop
    | 0x63 => .opIf false
    | 0x64 => .opIf true
    | 0x67 => .opElse
    | 0x68 => .opEndIf
    | 0x69 => .opVerify
    | 0x6a => .opReturn
    | 0x6b => .stackOp .opToAltStack
    | 0x6c => .stackOp .opFromAltStack
    | 0x6d => .stackOp .op2Drop
    | 0x6e => .stackOp .op2Dup
    | 0x6f => .stackOp .op3Dup
    | 0x70 => .stackOp .op2Over
    | 0x71 => .stackOp .op2Rot
    | 0x72 => .stackOp .op2Swap
    | 0x73 => .stackOp .opIfDup
    | 0x74 => .stackOp .opDepth
    | 0x75 => .stackOp .opDrop
    | 0x76 => .stackOp .opDup
    | 0x77 => .stackOp .opNip
    | 0x78 => .stackOp .opOver
    | 0x79 => .stackOp .opPick
    | 0x7a => .stackOp .opRoll
    | 0x7b => .stackOp .opRot
    | 0x7c => .stackOp .opSwap
    | 0x7d => .stackOp .opTuck
    | 0x82 => .stackOp .opSize
    | 0x87 => .opEqual false
    | 0x88 => .opEqual true
    | 0x8b => .unaryOp .op1Add
    | 0x8c => .unaryOp .op1Sub
    | 0x8f => .unaryOp .opNegate
    | 0x90 => .unaryOp .opAbs
    | 0x91 => .unaryOp .opNot
    | 0x92 => .unaryOp .op0NotEqual
    | 0x93 => .binaryOp .opAdd
    | 0x94 => .binaryOp .opSub
    | 0x9a => .binaryOp .opBoolAnd
    | 0x9b => .binaryOp .opBoolOr
    | 0x9c => .binaryOp .opNumEqual
    | 0x9d => .binaryOp .opNumEqualVerify
    | 0x9e => .binaryOp .opNumNotEqual
    | 0x9f => .binaryOp .opLessThan
    | 0xa0 => .binaryOp .opGreaterThan
    | 0xa1 => .binaryOp .opLessThanOrEqual
    | 0xa2 => .binaryOp .opGreaterThanOrEqual
    | 0xa3 => .binaryOp .opMin
    | 0xa4 => .binaryOp .opMax
    | 0xa5 => .opWithin
    | 0xa6 => .hashOp .opRipemd160
    | 0xa7 => .hashOp .opSha1
    | 0xa8 => .hashOp .opSha256
    | 0xa9 => .hashOp .opHash160
    | 0xaa => .hashOp .opHash256
    | 0xab => .opCodeSeparator
    | 0xac => .opCheckSig false
    | 0xad => .opCheckSig true
    | 0xae => .opCheckMultisig false
    | 0xaf => .opCheckMultisig true
    | 0xb0 => .upgradableNop
    | 0xb1 => .opCheckLockTimeVerify
    | 0xb2 => .opCheckSequenceVerify
    | 0xb3 => .upgradableNop
    | 0xb4 => .upgradableNop
    | 0xb5 => .upgradableNop
    | 0xb6 => .upgradableNop
    | 0xb7 => .upgradableNop
    | 0xb8 => .upgradableNop
    | 0xb9 => .upgradableNop
    | _ => .badOpcode

def OP_IF : Byte := 0x63
def OP_ENDIF : Byte := 0x68
def OP_1NEGATE : Byte := 0x4f

/-- `OP_CAT` to `OP_RIGHT`, `OP_INVERT` to `OP_XOR`, `OP_2MUL`, `OP_2DIV`, and `OP_MUL` to
`OP_RSHIFT`.
-/
def isDisabled (opcode : Byte) : Bool :=
  [0x7e, 0x7f, 0x80, 0x81, 0x83, 0x84, 0x85, 0x86, 0x8d, 0x8e, 0x95, 0x96, 0x97, 0x98,
    0x99].contains opcode

-- States

/-- `BaseSignatureChecker`. The signature checks of a run are numbered, because what an
earlier one left in memory may decide a later one.
-/
structure SignatureChecker where
  checkSig : Nat → List Byte → List Byte → Script → SigVersion → Bool
  checkLockTime : Int → Bool
  checkSequence : Int → Bool

/-- What a run of the interpreter is given besides the script and the stack. -/
structure EvalContext where
  digests : Digests
  flags : BitVec 32
  checker : SignatureChecker
  sigversion : SigVersion

def EvalContext.fRequireMinimal (ctx : EvalContext) : Bool :=
  hasFlag ctx.flags SCRIPT_VERIFY_MINIMALDATA

/-- The local variables of `EvalScript`, and the number of signature checks made. The script
from `pbegincodehash` to `pend` stands for the iterator; `vfExec` has the innermost condition
in front.
-/
structure EvalState where
  stack : List (List Byte)
  altstack : List (List Byte)
  vfExec : List Bool
  pbegincodehash : Script
  nOpCount : Nat
  sigChecks : Nat
  deriving DecidableEq

/-- A run that ends with an error, after some signature checks. -/
structure EvalFailure where
  error : ScriptError
  sigChecks : Nat
  deriving DecidableEq

def EvalState.fail (state : EvalState) (error : ScriptError) : Except EvalFailure EvalState :=
  .error ⟨error, state.sigChecks⟩

def EvalState.put (state : EvalState) (stack : List (List Byte)) : Except EvalFailure EvalState :=
  .ok { state with stack := stack }

/-- `CastToBool`: a zero byte string, or a negative zero, is false. -/
def castToBool : List Byte → Bool
  | [] => false
  | [last] => last != 0 && last != 0x80
  | byte :: next :: rest => byte != 0 || castToBool (next :: rest)

def vchTrue : List Byte := [1]

def vchFalse : List Byte := []

def boolVch (fValue : Bool) : List Byte := if fValue then vchTrue else vchFalse

def checkMinimalPush (data : List Byte) (opcode : Byte) : Bool :=
  match data with
  | [] => opcode == OP_0
  | [byte] =>
    if 1 ≤ byte ∧ byte ≤ 16 then opcode == OP_1 + (byte - 1)
    else if byte = 0x81 then opcode == OP_1NEGATE
    else opcode == 1
  | _ =>
    if data.length ≤ 75 then opcode.toNat == data.length
    else if data.length ≤ 255 then opcode == OP_PUSHDATA1
    else if data.length ≤ 65535 then opcode == OP_PUSHDATA2
    else true

-- Stack and number operations

section Families

variable (ctx : EvalContext)

variable (state : EvalState)

def pickOrRoll (rolls : Bool) (top : List Byte) (stack : List (List Byte)) (state : EvalState)
    : Except EvalFailure EvalState :=
  match scriptNum top ctx.fRequireMinimal nDefaultMaxNumSize with
  | none => state.fail .unknownError
  | some bn =>
    let n := getInt bn
    if n < 0 then state.fail .invalidStackOperation
    else match stack[n.toNat]? with
      | none => state.fail .invalidStackOperation
      | some vch => state.put (vch :: if rolls then stack.eraseIdx n.toNat else stack)

def runStackOp (op : StackOp) (state : EvalState) : Except EvalFailure EvalState :=
  match op, state.stack with
  | .opToAltStack, x :: rest =>
    .ok { state with stack := rest, altstack := x :: state.altstack }
  | .opFromAltStack, stack =>
    match state.altstack with
    | [] => state.fail .invalidAltstackOperation
    | x :: rest => .ok { state with stack := x :: stack, altstack := rest }
  | .op2Drop, _ :: _ :: rest => state.put rest
  | .op2Dup, x2 :: x1 :: rest => state.put (x2 :: x1 :: x2 :: x1 :: rest)
  | .op3Dup, x3 :: x2 :: x1 :: rest => state.put (x3 :: x2 :: x1 :: x3 :: x2 :: x1 :: rest)
  | .op2Over, x4 :: x3 :: x2 :: x1 :: rest =>
    state.put (x2 :: x1 :: x4 :: x3 :: x2 :: x1 :: rest)
  | .op2Rot, x6 :: x5 :: x4 :: x3 :: x2 :: x1 :: rest =>
    state.put (x2 :: x1 :: x6 :: x5 :: x4 :: x3 :: rest)
  | .op2Swap, x4 :: x3 :: x2 :: x1 :: rest => state.put (x2 :: x1 :: x4 :: x3 :: rest)
  | .opIfDup, x :: rest => state.put (if castToBool x then x :: x :: rest else x :: rest)
  | .opDepth, stack => state.put (serializeNum stack.length :: stack)
  | .opDrop, _ :: rest => state.put rest
  | .opDup, x :: rest => state.put (x :: x :: rest)
  | .opNip, x2 :: _ :: rest => state.put (x2 :: rest)
  | .opOver, x2 :: x1 :: rest => state.put (x1 :: x2 :: x1 :: rest)
  | .opPick, n :: x :: rest => pickOrRoll ctx false n (x :: rest) state
  | .opRoll, n :: x :: rest => pickOrRoll ctx true n (x :: rest) state
  | .opRot, x3 :: x2 :: x1 :: rest => state.put (x1 :: x3 :: x2 :: rest)
  | .opSwap, x2 :: x1 :: rest => state.put (x1 :: x2 :: rest)
  | .opTuck, x2 :: x1 :: rest => state.put (x2 :: x1 :: x2 :: rest)
  | .opSize, x :: rest => state.put (serializeNum x.length :: x :: rest)
  | _, _ => state.fail .invalidStackOperation

def boolNum (value : Bool) : Int := if value then 1 else 0

def UnaryOp.apply : UnaryOp → Int → Int
  | .op1Add, bn => bn + 1
  | .op1Sub, bn => bn - 1
  | .opNegate, bn => -bn
  | .opAbs, bn => if bn < 0 then -bn else bn
  | .opNot, bn => boolNum (bn == 0)
  | .op0NotEqual, bn => boolNum (bn != 0)

def BinaryOp.apply : BinaryOp → Int → Int → Int
  | .opAdd, bn1, bn2 => bn1 + bn2
  | .opSub, bn1, bn2 => bn1 - bn2
  | .opBoolAnd, bn1, bn2 => boolNum (bn1 != 0 && bn2 != 0)
  | .opBoolOr, bn1, bn2 => boolNum (bn1 != 0 || bn2 != 0)
  | .opNumEqual, bn1, bn2 => boolNum (bn1 == bn2)
  | .opNumEqualVerify, bn1, bn2 => boolNum (bn1 == bn2)
  | .opNumNotEqual, bn1, bn2 => boolNum (bn1 != bn2)
  | .opLessThan, bn1, bn2 => boolNum (bn1 < bn2)
  | .opGreaterThan, bn1, bn2 => boolNum (bn1 > bn2)
  | .opLessThanOrEqual, bn1, bn2 => boolNum (bn1 ≤ bn2)
  | .opGreaterThanOrEqual, bn1, bn2 => boolNum (bn1 ≥ bn2)
  | .opMin, bn1, bn2 => if bn1 < bn2 then bn1 else bn2
  | .opMax, bn1, bn2 => if bn1 > bn2 then bn1 else bn2

def operand (vch : List Byte) : Option Int :=
  scriptNum vch ctx.fRequireMinimal nDefaultMaxNumSize

def runUnaryOp (op : UnaryOp) (state : EvalState) : Except EvalFailure EvalState :=
  match state.stack with
  | x :: rest =>
    match operand ctx x with
    | some bn => state.put (serializeNum (op.apply bn) :: rest)
    | none => state.fail .unknownError
  | _ => state.fail .invalidStackOperation

def runBinaryOp (op : BinaryOp) (state : EvalState) : Except EvalFailure EvalState :=
  match state.stack with
  | x2 :: x1 :: rest =>
    match operand ctx x1, operand ctx x2 with
    | some bn1, some bn2 =>
      let vch := serializeNum (op.apply bn1 bn2)
      if op = .opNumEqualVerify then
        if castToBool vch then state.put rest else state.fail .numEqualVerify
      else state.put (vch :: rest)
    | _, _ => state.fail .unknownError
  | _ => state.fail .invalidStackOperation

def runWithin : Except EvalFailure EvalState :=
  match state.stack with
  | x3 :: x2 :: x1 :: rest =>
    match operand ctx x1, operand ctx x2, operand ctx x3 with
    | some bn1, some bn2, some bn3 =>
      state.put (boolVch (decide (bn2 ≤ bn1) && decide (bn1 < bn3)) :: rest)
    | _, _, _ => state.fail .unknownError
  | _ => state.fail .invalidStackOperation

def runEqual (verifies : Bool) (state : EvalState) : Except EvalFailure EvalState :=
  match state.stack with
  | vch2 :: vch1 :: rest =>
    if verifies then if vch1 = vch2 then state.put rest else state.fail .equalVerify
    else state.put (boolVch (vch1 == vch2) :: rest)
  | _ => state.fail .invalidStackOperation

def HashOp.digest (D : Digests) : HashOp → List Byte → List Byte
  | .opRipemd160, vch => bytesLE 20 (D.ripemd160 vch)
  | .opSha1, vch => bytesLE 20 (D.sha1 vch)
  | .opSha256, vch => bytesLE 32 (D.sha256 vch)
  | .opHash160, vch => bytesLE 20 (D.hash160 vch)
  | .opHash256, vch => bytesLE 32 (D.hash256 vch)

def runHashOp (op : HashOp) (state : EvalState) : Except EvalFailure EvalState :=
  match state.stack with
  | vch :: rest => state.put (op.digest ctx.digests vch :: rest)
  | _ => state.fail .invalidStackOperation

-- Control

/-- The operand of `OP_CHECKLOCKTIMEVERIFY` and `OP_CHECKSEQUENCEVERIFY`, under the flag that
enables the operation, and what is then asked of it.
-/
def runLockTime (flag : BitVec 32) (satisfied : Int → Bool) (state : EvalState)
    : Except EvalFailure EvalState :=
  if !hasFlag ctx.flags flag then
    if hasFlag ctx.flags SCRIPT_VERIFY_DISCOURAGE_UPGRADABLE_NOPS then
      state.fail .discourageUpgradableNops
    else .ok state
  else match state.stack with
    | [] => state.fail .invalidStackOperation
    | top :: _ =>
      match scriptNum top ctx.fRequireMinimal 5 with
      | none => state.fail .unknownError
      | some bn =>
        if bn < 0 then state.fail .negativeLocktime
        else if !satisfied bn then state.fail .unsatisfiedLocktime
        else .ok state

def SEQUENCE_LOCKTIME_DISABLE_FLAG : Nat := 2 ^ 31

def runCheckLockTimeVerify : Except EvalFailure EvalState :=
  runLockTime ctx SCRIPT_VERIFY_CHECKLOCKTIMEVERIFY ctx.checker.checkLockTime state

/-- `OP_CHECKSEQUENCEVERIFY`; a set disable flag satisfies it. -/
def runCheckSequenceVerify : Except EvalFailure EvalState :=
  runLockTime ctx SCRIPT_VERIFY_CHECKSEQUENCEVERIFY
    (fun nSequence => nSequence.toNat &&& SEQUENCE_LOCKTIME_DISABLE_FLAG != 0
      || ctx.checker.checkSequence nSequence) state

/-- The test of `SCRIPT_VERIFY_MINIMALIF` on the condition of a witness script. -/
def isMinimalIf (vch : List Byte) : Bool := vch == [] || vch == [1]

/-- `OP_IF` and `OP_NOTIF`, executed or skipped. -/
def runIf (negated fExec : Bool) (state : EvalState) : Except EvalFailure EvalState :=
  if fExec then
    match state.stack with
    | [] => state.fail .unbalancedConditional
    | vch :: rest =>
      if ctx.sigversion = .witnessV0 ∧ hasFlag ctx.flags SCRIPT_VERIFY_MINIMALIF
          ∧ !isMinimalIf vch then
        state.fail .minimalIf
      else .ok { state with stack := rest, vfExec := (castToBool vch != negated) :: state.vfExec }
  else .ok { state with vfExec := false :: state.vfExec }

def runElse : Except EvalFailure EvalState :=
  match state.vfExec with
  | [] => state.fail .unbalancedConditional
  | fValue :: outer => .ok { state with vfExec := (!fValue) :: outer }

def runEndIf : Except EvalFailure EvalState :=
  match state.vfExec with
  | [] => state.fail .unbalancedConditional
  | _ :: outer => .ok { state with vfExec := outer }

def runVerify : Except EvalFailure EvalState :=
  match state.stack with
  | [] => state.fail .invalidStackOperation
  | vch :: rest => if castToBool vch then state.put rest else state.fail .verify

-- Signature checks

def isCompressedOrUncompressedPubKey (vchPubKey : List Byte) : Bool :=
  match vchPubKey.head? with
  | some 0x04 => vchPubKey.length == 65
  | some 0x02 => vchPubKey.length == 33
  | some 0x03 => vchPubKey.length == 33
  | _ => false

def isCompressedPubKey (vchPubKey : List Byte) : Bool :=
  vchPubKey.length == 33 && (vchPubKey.head? == some 0x02 || vchPubKey.head? == some 0x03)

/-- `CheckPubKeyEncoding`: the error it sets. `CheckSignatureEncoding`, which precedes it,
returns true for every signature.
-/
def checkPubKeyEncoding (vchPubKey : List Byte) : Option ScriptError :=
  if hasFlag ctx.flags SCRIPT_VERIFY_STRICTENC
      && !isCompressedOrUncompressedPubKey vchPubKey then
    some .pubkeyType
  else if hasFlag ctx.flags SCRIPT_VERIFY_WITNESS_PUBKEYTYPE
      && ctx.sigversion == .witnessV0 && !isCompressedPubKey vchPubKey then
    some .witnessPubkeyType
  else none

/-- The inner loop of `FindAndDelete`: occurrences of `b` at the front are skipped. -/
def skipAll (b : Byte) (bs : List Byte) (script : Script) : Script :=
  if (b :: bs).isPrefixOf script then skipAll b bs (script.drop (bs.length + 1)) else script
termination_by script.length
decreasing_by
  rename_i found
  have shorter := (List.isPrefixOf_iff_prefix.mp found).length_le
  simp only [List.length_cons, List.length_drop] at shorter ⊢
  omega

theorem length_skipAll (b bs script) : (skipAll b bs script).length ≤ script.length := by
  fun_induction skipAll b bs script with
  | case1 script found ih => exact Nat.le_trans ih (by simp)
  | case2 script absent => exact Nat.le_refl _

/-- `FindAndDelete`, for the nonempty script `b :: bs`. -/
def findAndDelete (b : Byte) (bs : List Byte) (script : Script) : Script :=
  let start := skipAll b bs script
  match _read : getOp start with
  | none => start
  | some (_, _, rest) => start.take (start.length - rest.length) ++ findAndDelete b bs rest
termination_by script.length
decreasing_by
  exact Nat.lt_of_lt_of_le (length_of_getOp _read) (length_skipAll b bs script)

/-- The script code without a signature: `FindAndDelete(CScript(vchSig))`. -/
def deleteSignature (vchSig : List Byte) (scriptCode : Script) : Script :=
  match pushData vchSig with
  | [] => scriptCode
  | b :: bs => findAndDelete b bs scriptCode

/-- The script code that signatures are checked with: from the last code separator on, in
legacy scripts without the signatures.
-/
def scriptCodeFor (vchSigs : List (List Byte)) (state : EvalState) : Script :=
  if ctx.sigversion = .base then
    vchSigs.foldl (fun scriptCode vchSig => deleteSignature vchSig scriptCode) state.pbegincodehash
  else state.pbegincodehash

def runCheckSig (verifies : Bool) (state : EvalState) : Except EvalFailure EvalState :=
  match state.stack with
  | vchPubKey :: vchSig :: rest =>
    let fSuccess := ctx.checker.checkSig state.sigChecks vchSig vchPubKey
      (scriptCodeFor ctx [vchSig] state) ctx.sigversion
    let state := { state with sigChecks := state.sigChecks + 1 }
    if !fSuccess && hasFlag ctx.flags SCRIPT_VERIFY_NULLFAIL && vchSig != [] then
      state.fail .sigNullFail
    else if verifies then
      if fSuccess then state.put rest else state.fail .checkSigVerify
    else state.put (boolVch fSuccess :: rest)
  | _ => state.fail .invalidStackOperation

/-- The loop of `OP_CHECKMULTISIG` over the remaining signatures and keys, both from the top
of the stack down; `sigChecks` is the number of signature checks so far.
-/
def multisigLoop (scriptCode : Script)
    : List (List Byte) → List (List Byte) → Nat → Except EvalFailure (Bool × Nat)
  | _, [], sigChecks => .ok (true, sigChecks)
  | [], _ :: _, sigChecks => .ok (false, sigChecks)
  | vchPubKey :: keys, vchSig :: sigs, sigChecks =>
    match checkPubKeyEncoding ctx vchPubKey with
    | some error => .error ⟨error, sigChecks⟩
    | none =>
      let fOk := ctx.checker.checkSig sigChecks vchSig vchPubKey scriptCode ctx.sigversion
      let sigs := if fOk then sigs else vchSig :: sigs
      if sigs.length > keys.length then .ok (false, sigChecks + 1)
      else multisigLoop scriptCode keys sigs (sigChecks + 1)

/-- `OP_CHECKMULTISIG` with its arguments: the keys and the signatures from the top of the
stack down, and the stack from the unused argument on.
-/
def runMultisig (verifies : Bool) (keys sigs rest : List (List Byte)) (state : EvalState)
    : Except EvalFailure EvalState :=
  match multisigLoop ctx (scriptCodeFor ctx sigs state) keys sigs state.sigChecks with
  | .error failure => .error failure
  | .ok (fSuccess, sigChecks) =>
    let state := { state with sigChecks := sigChecks }
    if !fSuccess && hasFlag ctx.flags SCRIPT_VERIFY_NULLFAIL && sigs.any (· != []) then
      state.fail .sigNullFail
    else match rest with
      | [] => state.fail .invalidStackOperation
      | dummy :: rest =>
        if hasFlag ctx.flags SCRIPT_VERIFY_NULLDUMMY && dummy != [] then
          state.fail .sigNullDummy
        else if verifies then
          if fSuccess then state.put rest else state.fail .checkMultisigVerify
        else state.put (boolVch fSuccess :: rest)

/-- `OP_CHECKMULTISIG` and `OP_CHECKMULTISIGVERIFY`: the two counts are read, and the stack is
divided by them.
-/
def runCheckMultisig (verifies : Bool) (state : EvalState) : Except EvalFailure EvalState :=
  match state.stack with
  | [] => state.fail .invalidStackOperation
  | keysCount :: below =>
    match operand ctx keysCount with
    | none => state.fail .unknownError
    | some bn =>
      let nKeysCount := getInt bn
      if nKeysCount < 0 ∨ nKeysCount > MAX_PUBKEYS_PER_MULTISIG then
        state.fail .pubkeyCount
      else
        let nKeysCount := nKeysCount.toNat
        let state := { state with nOpCount := state.nOpCount + nKeysCount }
        if state.nOpCount > MAX_OPS_PER_SCRIPT then state.fail .opCount
        else match below.drop nKeysCount with
          | [] => state.fail .invalidStackOperation
          | sigsCount :: lower =>
            match operand ctx sigsCount with
            | none => state.fail .unknownError
            | some bn =>
              let nSigsCount := getInt bn
              if nSigsCount < 0 ∨ nSigsCount > nKeysCount then state.fail .sigCount
              else if lower.length < nSigsCount.toNat + 1 then
                state.fail .invalidStackOperation
              else runMultisig ctx verifies (below.take nKeysCount)
                (lower.take nSigsCount.toNat) (lower.drop nSigsCount.toNat) state

-- EvalScript

/-- The switch; `rest` is the script behind the operation. -/
def runOperation (operation : Operation) (fExec : Bool) (rest : Script) (state : EvalState)
    : Except EvalFailure EvalState :=
  match operation with
  | .pushNumber n => state.put (serializeNum n :: state.stack)
  | .opNop => .ok state
  | .opCheckLockTimeVerify => runCheckLockTimeVerify ctx state
  | .opCheckSequenceVerify => runCheckSequenceVerify ctx state
  | .upgradableNop =>
    if hasFlag ctx.flags SCRIPT_VERIFY_DISCOURAGE_UPGRADABLE_NOPS then
      state.fail .discourageUpgradableNops
    else .ok state
  | .opIf negated => runIf ctx negated fExec state
  | .opElse => runElse state
  | .opEndIf => runEndIf state
  | .opVerify => runVerify state
  | .opReturn => state.fail .opReturn
  | .stackOp op => runStackOp ctx op state
  | .opEqual verifies => runEqual verifies state
  | .unaryOp op => runUnaryOp ctx op state
  | .binaryOp op => runBinaryOp ctx op state
  | .opWithin => runWithin ctx state
  | .hashOp op => runHashOp ctx op state
  | .opCodeSeparator => .ok { state with pbegincodehash := rest }
  | .opCheckSig verifies => runCheckSig ctx verifies state
  | .opCheckMultisig verifies => runCheckMultisig ctx verifies state
  | .badOpcode => state.fail .badOpcode

/-- A push is executed, or an operation, or neither inside a branch that is not taken. -/
def execute (opcode : Byte) (vchPushValue : List Byte) (rest : Script) (state : EvalState)
    : Except EvalFailure EvalState :=
  let fExec := state.vfExec.all id
  if fExec ∧ opcode ≤ OP_PUSHDATA4 then
    if ctx.fRequireMinimal && !checkMinimalPush vchPushValue opcode then
      state.fail .minimalData
    else state.put (vchPushValue :: state.stack)
  else if fExec ∨ (OP_IF ≤ opcode ∧ opcode ≤ OP_ENDIF) then
    runOperation ctx (decode opcode) fExec rest state
  else .ok state

def checkStackSize : Except EvalFailure EvalState :=
  if state.stack.length + state.altstack.length > 1000 then state.fail .stackSize else .ok state

def step (opcode : Byte) (vchPushValue : List Byte) (rest : Script) (state : EvalState)
    : Except EvalFailure EvalState :=
  if vchPushValue.length > MAX_SCRIPT_ELEMENT_SIZE then state.fail .pushSize
  else
    let state := if opcode > OP_16 then { state with nOpCount := state.nOpCount + 1 } else state
    if opcode > OP_16 ∧ state.nOpCount > MAX_OPS_PER_SCRIPT then state.fail .opCount
    else if isDisabled opcode then state.fail .disabledOpcode
    else execute ctx opcode vchPushValue rest state >>= checkStackSize

def evalLoop (script : Script) (state : EvalState) : Except EvalFailure EvalState :=
  match _read : getOp script with
  | none => if script.isEmpty then .ok state else state.fail .badOpcode
  | some (opcode, vchPushValue, rest) =>
    step ctx opcode vchPushValue rest state >>= evalLoop rest
termination_by script.length
decreasing_by exact length_of_getOp _read

/-- The state at the start of a script; `sigChecks` were made before it. -/
def EvalState.start (stack : List (List Byte)) (script : Script) (sigChecks : Nat) : EvalState :=
  ⟨stack, [], [], script, 0, sigChecks⟩

/-- `EvalScript`: the stack it leaves and the number of signature checks made until then. -/
def evalScript (stack : List (List Byte)) (script : Script) (sigChecks : Nat)
    : Except EvalFailure (List (List Byte) × Nat) :=
  let state := EvalState.start stack script sigChecks
  if script.length > MAX_SCRIPT_SIZE then .error ⟨.scriptSize, sigChecks⟩
  else
    match evalLoop ctx script state with
    | .error failure => .error failure
    | .ok state =>
      if state.vfExec.isEmpty then .ok (state.stack, state.sigChecks)
      else .error ⟨.unbalancedConditional, state.sigChecks⟩

end Families

end Script

end Pqcoin
