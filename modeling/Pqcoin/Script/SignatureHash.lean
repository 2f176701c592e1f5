import Pqcoin.Keys.PubKey
import Pqcoin.Primitives.Script

/-! The message a transaction signature signs, and the check of a signature in a script. -/

namespace Pqcoin

open PubKey

inductive SigVersion where
  | base
  | witnessV0
  deriving DecidableEq

def SIGHASH_ALL : BitVec 32 := 1
def SIGHASH_NONE : BitVec 32 := 2
def SIGHASH_SINGLE : BitVec 32 := 3
def SIGHASH_ANYONECANPAY : BitVec 32 := 0x80

def anyoneCanPay (nHashType : BitVec 32) : Bool := nHashType &&& SIGHASH_ANYONECANPAY != 0

def hashSingle (nHashType : BitVec 32) : Bool := nHashType &&& 0x1f == SIGHASH_SINGLE

def hashNone (nHashType : BitVec 32) : Bool := nHashType &&& 0x1f == SIGHASH_NONE

-- The script code

namespace Script

def OP_CODESEPARATOR : Byte := 0xab

/-- Where `GetOp2` leaves `pc` when it finds no operation: behind the operation byte, and
behind the size of its data if that could be read.
-/
def getOpStop : Script → Script
  | [] => []
  | opcode :: rest =>
    if opcode ≤ OP_PUSHDATA4 then
      match pushSize opcode rest with
      | none => rest
      | some (_, rest) => rest
    else rest

def codeSeparators (scriptCode : Script) : Nat :=
  match _read : getOp scriptCode with
  | none => 0
  | some (opcode, _, rest) =>
    (if opcode = OP_CODESEPARATOR then 1 else 0) + codeSeparators rest
termination_by scriptCode.length
decreasing_by exact length_of_getOp _read

/-- What the second loop of `SerializeScriptCode` writes: the operations up to where the
script stops to parse, without the code separators.
-/
def withoutCodeSeparators (scriptCode : Script) : List Byte :=
  match _read : getOp scriptCode with
  | none => scriptCode.take (scriptCode.length - (getOpStop scriptCode).length)
  | some (opcode, _, rest) =>
    (if opcode = OP_CODESEPARATOR then []
      else scriptCode.take (scriptCode.length - rest.length))
    ++ withoutCodeSeparators rest
termination_by scriptCode.length
decreasing_by exact length_of_getOp _read

def serializeScriptCode (scriptCode : Script) : List Byte :=
  writeCompactSize (scriptCode.length - codeSeparators scriptCode)
    ++ withoutCodeSeparators scriptCode

end Script

-- The signed bytes

structure TransactionSignatureSerializer where
  txTo : Transaction
  scriptCode : Script
  nIn : Nat
  fAnyoneCanPay : Bool
  fHashSingle : Bool
  fHashNone : Bool

namespace TransactionSignatureSerializer

/-- `SerializeInput`; its callers stay inside `vin`. -/
def serializeInput (serializer : TransactionSignatureSerializer) (nInput : Nat) : List Byte :=
  let nInput := if serializer.fAnyoneCanPay then serializer.nIn else nInput
  match serializer.txTo.vin[nInput]? with
  | none => []
  | some txin =>
    txin.prevout.serialize
      ++ (if nInput ≠ serializer.nIn then serializeBytes []
          else Script.serializeScriptCode serializer.scriptCode)
      ++ (if nInput ≠ serializer.nIn ∧ (serializer.fHashSingle ∨ serializer.fHashNone) then
            bytesLE 4 (0 : BitVec 32)
          else bytesLE 4 txin.nSequence)

/-- `SerializeOutput`; its callers stay inside `vout`, and `CTxOut()` has the value `-1`. -/
def serializeOutput (serializer : TransactionSignatureSerializer) (nOutput : Nat)
    : List Byte :=
  if serializer.fHashSingle ∧ nOutput ≠ serializer.nIn then TxOut.serialize ⟨-1, []⟩
  else match serializer.txTo.vout[nOutput]? with
    | none => []
    | some txout => txout.serialize

/-- `Serialize`; its counters are `unsigned int`. -/
def serialize (serializer : TransactionSignatureSerializer) : List Byte :=
  let nInputs := if serializer.fAnyoneCanPay then 1 else serializer.txTo.vin.length % 2 ^ 32
  let nOutputs :=
    if serializer.fHashNone then 0
    else if serializer.fHashSingle then (serializer.nIn + 1) % 2 ^ 32
    else serializer.txTo.vout.length % 2 ^ 32
  bytesLE 4 serializer.txTo.nVersion
    ++ writeCompactSize nInputs ++ (List.range nInputs).flatMap serializer.serializeInput
    ++ writeCompactSize nOutputs ++ (List.range nOutputs).flatMap serializer.serializeOutput
    ++ bytesLE 4 serializer.txTo.nLockTime

end TransactionSignatureSerializer

def getPrevoutHash (H : Hashing) (txTo : Transaction) : Uint256 :=
  H.hash256 (txTo.vin.flatMap (fun txin => txin.prevout.serialize))

def getSequenceHash (H : Hashing) (txTo : Transaction) : Uint256 :=
  H.hash256 (txTo.vin.flatMap (fun txin => bytesLE 4 txin.nSequence))

def getOutputsHash (H : Hashing) (txTo : Transaction) : Uint256 :=
  H.hash256 (txTo.vout.flatMap TxOut.serialize)

structure PrecomputedTransactionData where
  hashPrevouts : Uint256
  hashSequence : Uint256
  hashOutputs : Uint256

/-- The bytes that `SignatureHash` hashes for a witness program; `vin[nIn]` exists in every
call.
-/
def witnessPreimage (H : Hashing) (scriptCode : Script) (txTo : Transaction) (nIn : Nat)
    (nHashType : BitVec 32) (amount : Amount) (cache : Option PrecomputedTransactionData)
    : List Byte :=
  let hashPrevouts : Uint256 :=
    if anyoneCanPay nHashType then 0
    else (cache.map (·.hashPrevouts)).getD (getPrevoutHash H txTo)
  let hashSequence : Uint256 :=
    if anyoneCanPay nHashType ∨ hashSingle nHashType ∨ hashNone nHashType then 0
    else (cache.map (·.hashSequence)).getD (getSequenceHash H txTo)
  let hashOutputs : Uint256 :=
    if ¬ hashSingle nHashType ∧ ¬ hashNone nHashType then
      (cache.map (·.hashOutputs)).getD (getOutputsHash H txTo)
    else match txTo.vout[nIn]? with
      | some txout => if hashSingle nHashType then H.hash256 txout.serialize else 0
      | none => 0
  bytesLE 4 txTo.nVersion ++ bytesLE 32 hashPrevouts ++ bytesLE 32 hashSequence
    ++ (match txTo.vin[nIn]? with
        | none => []
        | some txin =>
          txin.prevout.serialize ++ serializeBytes scriptCode ++ bytesLE 8 amount
            ++ bytesLE 4 txin.nSequence)
    ++ bytesLE 32 hashOutputs ++ bytesLE 4 txTo.nLockTime ++ bytesLE 4 nHashType

def signatureHash (H : Hashing) (scriptCode : Script) (txTo : Transaction) (nIn : Nat)
    (nHashType : BitVec 32) (amount : Amount) (sigversion : SigVersion)
    (cache : Option PrecomputedTransactionData)
    : Uint256 :=
  match sigversion with
  | .witnessV0 =>
    H.hash256 (witnessPreimage H scriptCode txTo nIn nHashType amount cache)
  | .base =>
    if txTo.vin.length ≤ nIn then 1
    else if hashSingle nHashType ∧ txTo.vout.length ≤ nIn then 1
    else
      let txTmp : TransactionSignatureSerializer :=
        ⟨txTo, scriptCode, nIn, anyoneCanPay nHashType, hashSingle nHashType, hashNone nHashType⟩
      H.hash256 (txTmp.serialize ++ bytesLE 4 nHashType)

-- Checking a signature

structure TransactionSignatureChecker where
  txTo : Transaction
  nIn : Nat
  amount : Amount
  txdata : Option PrecomputedTransactionData

namespace TransactionSignatureChecker

def sighash (H : Hashing) (checker : TransactionSignatureChecker) (nHashType : Byte)
    (scriptCode : Script) (sigversion : SigVersion)
    : Uint256 :=
  signatureHash H scriptCode checker.txTo checker.nIn (nHashType.setWidth 32) checker.amount
    sigversion checker.txdata

/-- `CheckSig`; `memory` is what the local `pubkey` occupies before it is constructed. -/
def checkSig (S : SignatureScheme) (H : Hashing) (checker : TransactionSignatureChecker)
    (memory : PubKey) (vchSig vchPubKey : List Byte) (scriptCode : Script) (sigversion : SigVersion)
    : Bool :=
  let pubkey := memory.set vchPubKey
  if !pubkey.isValid then false
  else match vchSig.getLast? with
    | none => false
    | some nHashType =>
      pubkey.verify S (checker.sighash H nHashType scriptCode sigversion) vchSig.dropLast

variable (S : SignatureScheme) (H : Hashing) (checker : TransactionSignatureChecker)

/-- Whether `CheckSig` accepts some key bytes that the memory may hold. -/
def accepts (vchSig : List Byte) (scriptCode : Script) (sigversion : SigVersion) (bytes : List Byte)
    : Bool :=
  match vchSig.getLast? with
  | none => false
  | some nHashType =>
    S.verify vchSig.dropLast (bytesLE 32 (checker.sighash H nHashType scriptCode sigversion)) bytes

variable (vchSig vchPubKey : List Byte) (scriptCode : Script) (sigversion : SigVersion)

theorem checkSig_eq_accepts (memory)
    : checker.checkSig S H memory vchSig vchPubKey scriptCode sigversion
      = checker.accepts S H vchSig scriptCode sigversion (memory.set vchPubKey).keyBytes := by
  simp only [checkSig, isValid_eq_true, Bool.not_true, Bool.false_eq_true, if_false,
    accepts, verify_eq]

/-- Any other key is not looked at: what the memory holds takes its place. -/
theorem checkSig_of_length_ne (other : vchPubKey.length ≠ SIZE) (memory)
    : checker.checkSig S H memory vchSig vchPubKey scriptCode sigversion
      = checker.accepts S H vchSig scriptCode sigversion memory.keyBytes := by
  rw [checkSig_eq_accepts, PubKey.set, dif_neg fun fits => other (length_of_expectedLen fits),
    keyBytes_invalidate]

/-- Keys of the wrong length are rejected, and memory never decides, exactly for the one
length that replaces the memory: every other key object counts as valid.
-/
theorem checkSig_independent_of_memory
    : ((vchPubKey.length ≠ PubKey.SIZE
          → ∀ memory : PubKey,
            (memory.set vchPubKey).isValid = false
            ∧ checker.checkSig S H memory vchSig vchPubKey scriptCode sigversion = false)
        ∧ ∀ first second : PubKey,
          checker.checkSig S H first vchSig vchPubKey scriptCode sigversion
            = checker.checkSig S H second vchSig vchPubKey scriptCode sigversion)
      ↔ vchPubKey.length = PubKey.SIZE := by
  constructor
  · rintro ⟨rejected, -⟩
    by_contra other
    have invalid := (rejected other (PubKey.filled 0)).1
    rw [isValid_eq_true] at invalid
    cases invalid
  · intro exact
    refine ⟨fun other => absurd exact other, fun first second => ?_⟩
    rw [checkSig_eq_accepts, checkSig_eq_accepts, set_of_length exact, set_of_length exact]

end TransactionSignatureChecker

/-- The empty key counts as valid, and the memory below it decides whether a signature of
one hash type byte is accepted.
-/
theorem emptyKey_decided_by_memory
    : ((PubKey.filled 0).set []).isValid = true
      ∧ (let checker : TransactionSignatureChecker := ⟨⟨1, [], [], 0⟩, 0, 0, none⟩
        checker.checkSig zeroKeyScheme ⟨fun _ => 0, fun _ => 0⟩ (PubKey.filled 0) [1] [] []
            .base = true
        ∧ checker.checkSig zeroKeyScheme ⟨fun _ => 0, fun _ => 0⟩ (PubKey.filled 1) [1] [] []
            .base = false) := by
  refine ⟨isValid_eq_true _, ?_, ?_⟩
  · rw [TransactionSignatureChecker.checkSig_of_length_ne _ _ _ _ _ _ _ (by decide)]
    rfl
  · rw [TransactionSignatureChecker.checkSig_of_length_ne _ _ _ _ _ _ _ (by decide)]
    rfl

end Pqcoin
