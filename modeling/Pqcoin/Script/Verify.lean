import Pqcoin.Script.Interpreter

/-! `VerifyScript`: the two scripts of an input, pay-to-script-hash and witness programs, and
the signature checkers it is called with.
-/

namespace Pqcoin

-- Checkers

namespace TransactionSignatureChecker

def LOCKTIME_THRESHOLD : Nat := 500000000

def SEQUENCE_FINAL : BitVec 32 := 0xffffffff

def SEQUENCE_LOCKTIME_TYPE_FLAG : Nat := 2 ^ 22

def SEQUENCE_LOCKTIME_MASK : Nat := 0xffff

/-- Both numbers are on the same side of a threshold, and the first is not above the other. -/
def comparesWithin (threshold : Nat) (required actual : Int) : Bool :=
  (decide (actual < threshold) == decide (required < threshold)) && decide (required ≤ actual)

/-- `nSequence` of the input that is checked; `vin[nIn]` exists in every call. -/
def nSequence (checker : TransactionSignatureChecker) : BitVec 32 :=
  (checker.txTo.vin[checker.nIn]?.map (fun txin => txin.nSequence)).getD 0

def checkLockTime (checker : TransactionSignatureChecker) (nLockTime : Int) : Bool :=
  comparesWithin LOCKTIME_THRESHOLD nLockTime checker.txTo.nLockTime.toNat
    && checker.nSequence != SEQUENCE_FINAL

def checkSequence (checker : TransactionSignatureChecker) (nSequence : Int) : Bool :=
  let nLockTimeMask := SEQUENCE_LOCKTIME_TYPE_FLAG ||| SEQUENCE_LOCKTIME_MASK
  decide (2 ≤ checker.txTo.nVersion.toNat)
    && checker.nSequence.toNat &&& Script.SEQUENCE_LOCKTIME_DISABLE_FLAG == 0
    && comparesWithin SEQUENCE_LOCKTIME_TYPE_FLAG ((nSequence.toNat &&& nLockTimeMask : Nat) : Int)
      ((checker.nSequence.toNat &&& nLockTimeMask : Nat) : Int)

/-- The checker as the interpreter calls it; `memory` is what the key object of each check is
constructed over.
-/
def toChecker (S : SignatureScheme) (H : Hashing) (memory : Nat → PubKey)
    (checker : TransactionSignatureChecker)
    : Script.SignatureChecker where
  checkSig count vchSig vchPubKey scriptCode sigversion :=
    checker.checkSig S H (memory count) vchSig vchPubKey scriptCode sigversion
  checkLockTime := checker.checkLockTime
  checkSequence := checker.checkSequence

end TransactionSignatureChecker

namespace Script

def baseChecker : SignatureChecker :=
  ⟨fun _ _ _ _ _ => false, fun _ => false, fun _ => false⟩

def dummyChecker : SignatureChecker := { baseChecker with checkSig := fun _ _ _ _ _ => true }

-- VerifyScript

/-- What `VerifyScript` is given besides the scripts and the witness. -/
structure VerifyContext where
  digests : Digests
  flags : BitVec 32
  checker : SignatureChecker

def VerifyContext.eval (ctx : VerifyContext) (sigversion : SigVersion)
    (stack : List (List Byte)) (script : Script) (sigChecks : Nat)
    : Except EvalFailure (List (List Byte) × Nat) :=
  evalScript ⟨ctx.digests, ctx.flags, ctx.checker, sigversion⟩ stack script sigChecks

def VerifyContext.has (ctx : VerifyContext) (flag : BitVec 32) : Bool :=
  hasFlag ctx.flags flag

variable (ctx : VerifyContext)

def endsTrue (stack : List (List Byte)) : Bool :=
  match stack with
  | [] => false
  | top :: _ => castToBool top

def keyHashScript (program : List Byte) : Script :=
  OP_DUP :: OP_HASH160 :: (pushData program ++ [OP_EQUALVERIFY, OP_CHECKSIG])

def witnessScript (witness : List (List Byte)) (program : List Byte)
    : Except ScriptError (Script × List (List Byte)) :=
  if program.length = 32 then
    match witness.reverse with
    | [] => .error .witnessProgramWitnessEmpty
    | script :: stack =>
      if bytesLE 32 (ctx.digests.sha256 script) ≠ program then
        .error .witnessProgramMismatch
      else .ok (script, stack)
  else if program.length = 20 then
    if witness.length ≠ 2 then .error .witnessProgramMismatch
    else .ok (keyHashScript program, witness.reverse)
  else .error .witnessProgramWrongLength

/-- `VerifyWitnessProgram`: the number of signature checks when it succeeds. -/
def verifyWitnessProgram (witness : List (List Byte)) (witversion : Nat) (program : List Byte)
    (sigChecks : Nat)
    : Except EvalFailure Nat :=
  if witversion = 0 then
    match witnessScript ctx witness program with
    | .error error => .error ⟨error, sigChecks⟩
    | .ok (scriptPubKey, stack) =>
      if stack.any (fun vch => decide (vch.length > MAX_SCRIPT_ELEMENT_SIZE)) then
        .error ⟨.pushSize, sigChecks⟩
      else
        match ctx.eval .witnessV0 stack scriptPubKey sigChecks with
        | .error failure => .error failure
        | .ok (stack, sigChecks) =>
          if stack.length ≠ 1 ∨ !endsTrue stack then .error ⟨.evalFalse, sigChecks⟩
          else .ok sigChecks
  else if ctx.has SCRIPT_VERIFY_DISCOURAGE_UPGRADABLE_WITNESS_PROGRAM then
    .error ⟨.discourageUpgradableWitnessProgram, sigChecks⟩
  else .ok sigChecks

/-- The witness program in a script, where witnesses are verified: whether there was one, and
the number of signature checks. The script in front of it has to be `expected`.
-/
def verifyProgramIn (script scriptSig expected : Script) (malleated : ScriptError)
    (witness : List (List Byte)) (sigChecks : Nat)
    : Except EvalFailure (Bool × Nat) :=
  if !ctx.has SCRIPT_VERIFY_WITNESS then .ok (false, sigChecks)
  else match isWitnessProgram script with
    | none => .ok (false, sigChecks)
    | some (witnessversion, witnessprogram) =>
      if scriptSig ≠ expected then .error ⟨malleated, sigChecks⟩
      else
        match verifyWitnessProgram ctx witness witnessversion witnessprogram sigChecks with
        | .error failure => .error failure
        | .ok sigChecks => .ok (true, sigChecks)

def evalTrue (stack : List (List Byte)) (script : Script) (sigChecks : Nat)
    : Except EvalFailure (List (List Byte) × Nat) :=
  match ctx.eval .base stack script sigChecks with
  | .error failure => .error failure
  | .ok (stack, sigChecks) =>
    if endsTrue stack then .ok (stack, sigChecks) else .error ⟨.evalFalse, sigChecks⟩

/-- What is left to be checked at the end: how many elements the stack has, whether a witness
program was met, and the number of signature checks.
-/
structure Verified where
  stackSize : Nat
  hadWitness : Bool
  sigChecks : Nat
  deriving DecidableEq

def Verified.ofProgram (stack : List (List Byte)) (program : Bool × Nat) : Verified :=
  ⟨if program.1 then 1 else stack.length, program.1, program.2⟩

/-- The part for pay-to-script-hash; `stackCopy` is what the first script left, which the
assertion there says is not empty. The outer script is no witness program then, so one can
only be met here.
-/
def verifyScriptHash (scriptSig : Script) (witness stackCopy : List (List Byte)) (sigChecks : Nat)
    : Except EvalFailure Verified :=
  if !isPushOnly scriptSig then .error ⟨.sigPushOnly, sigChecks⟩
  else match stackCopy with
    | [] => .error ⟨.evalFalse, sigChecks⟩
    | pubKey2 :: stack =>
      match evalTrue ctx stack pubKey2 sigChecks with
      | .error failure => .error failure
      | .ok (stack, sigChecks) =>
        (verifyProgramIn ctx pubKey2 scriptSig (pushData pubKey2) .witnessMalleatedP2SH
          witness sigChecks).map (Verified.ofProgram stack)

def verifyEnd (witness : List (List Byte)) (verified : Verified) : Except EvalFailure Nat :=
  if ctx.has SCRIPT_VERIFY_CLEANSTACK && verified.stackSize != 1 then
    .error ⟨.cleanStack, verified.sigChecks⟩
  else if ctx.has SCRIPT_VERIFY_WITNESS && !verified.hadWitness && !witness.isEmpty then
    .error ⟨.witnessUnexpected, verified.sigChecks⟩
  else .ok verified.sigChecks

/-- `VerifyScript`: the number of signature checks when it succeeds. Its assertions on `flags`
hold of every flag set that a caller uses.
-/
def verifyScript (scriptSig scriptPubKey : Script) (witness : List (List Byte))
    : Except EvalFailure Nat :=
  if ctx.has SCRIPT_VERIFY_SIGPUSHONLY && !isPushOnly scriptSig then
    .error ⟨.sigPushOnly, 0⟩
  else
    match ctx.eval .base [] scriptSig 0 with
    | .error failure => .error failure
    | .ok (stackCopy, sigChecks) =>
      match evalTrue ctx stackCopy scriptPubKey sigChecks with
      | .error failure => .error failure
      | .ok (stack, sigChecks) =>
        match verifyProgramIn ctx scriptPubKey scriptSig [] .witnessMalleated witness
          sigChecks with
        | .error failure => .error failure
        | .ok program =>
          if ctx.has SCRIPT_VERIFY_P2SH && isPayToScriptHash scriptPubKey then
            verifyScriptHash ctx scriptSig witness stackCopy program.2
              >>= verifyEnd ctx witness
          else verifyEnd ctx witness (Verified.ofProgram stack program)

variable {ctx} {scriptSig scriptPubKey : Script} {witness : List (List Byte)} {made : Nat}

/-- A verification that succeeds, stage by stage. -/
theorem verifyScript_eq_ok
    : verifyScript ctx scriptSig scriptPubKey witness = .ok made
      ↔ ¬ (ctx.has SCRIPT_VERIFY_SIGPUSHONLY && !isPushOnly scriptSig) = true
        ∧ ∃ first, ctx.eval .base [] scriptSig 0 = .ok first
        ∧ ∃ second, evalTrue ctx first.1 scriptPubKey first.2 = .ok second
        ∧ ∃ program, verifyProgramIn ctx scriptPubKey scriptSig [] .witnessMalleated witness
            second.2 = .ok program
        ∧ (if ctx.has SCRIPT_VERIFY_P2SH && isPayToScriptHash scriptPubKey then
            verifyScriptHash ctx scriptSig witness first.1 program.2
              >>= verifyEnd ctx witness
          else verifyEnd ctx witness (Verified.ofProgram second.1 program)) = .ok made := by
  rw [verifyScript]
  by_cases pushes : (ctx.has SCRIPT_VERIFY_SIGPUSHONLY && !isPushOnly scriptSig) = true
  · rw [if_pos pushes]
    exact ⟨fun passes => (nomatch passes), fun passes => absurd pushes passes.1⟩
  rw [if_neg pushes, and_iff_right pushes]
  cases ctx.eval .base [] scriptSig 0 with
  | error failure => simp
  | ok first =>
    simp only [Except.ok.injEq, exists_eq_left']
    cases evalTrue ctx first.1 scriptPubKey first.2 with
    | error failure => simp
    | ok second =>
      simp only [Except.ok.injEq, exists_eq_left']
      cases verifyProgramIn ctx scriptPubKey scriptSig [] .witnessMalleated witness
        second.2 with
      | error failure => simp
      | ok program => simp only [Except.ok.injEq, exists_eq_left']

end Script

end Pqcoin
