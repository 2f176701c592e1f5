import Pqcoin.Lib.Restriction
import Pqcoin.Script.Verify

/-! Script flags only restrict: a run that succeeds under some flags succeeds, with the same result,
under fewer of them. The interpreter is compared with itself operation by operation.
-/

namespace Pqcoin.Script

open Bool Restriction
open Admits (guard)

-- Fewer flags

structure FewerFlags (lax strict : BitVec 32) : Prop where
  included : lax &&& strict = lax
  upgrades : hasFlag lax SCRIPT_VERIFY_DISCOURAGE_UPGRADABLE_NOPS = true →
    hasFlag lax SCRIPT_VERIFY_CHECKLOCKTIMEVERIFY = true
      ∧ hasFlag lax SCRIPT_VERIFY_CHECKSEQUENCEVERIFY = true

def EvalContext.under (ctx : EvalContext) (flags : BitVec 32) : EvalContext :=
  { ctx with flags := flags }

variable {ctx : EvalContext} {lax strict : BitVec 32} {state : EvalState}

section Fewer

variable (fewer : FewerFlags lax strict)

include fewer

theorem FewerFlags.hasFlag {flag} (set : hasFlag lax flag = true) : hasFlag strict flag = true := by
  rw [Script.hasFlag, bne_iff_ne] at set ⊢
  intro unset
  apply set
  rw [← fewer.included, BitVec.and_assoc, unset]
  exact BitVec.and_zero

theorem FewerFlags.test {flag test} (fails : (Script.hasFlag lax flag && test) = true)
    : (Script.hasFlag strict flag && test) = true := by
  rw [and_eq_true] at fails ⊢
  exact ⟨fewer.hasFlag fails.1, fails.2⟩

omit fewer in
theorem scriptNum_of_minimal {vch minimal minimal' size bn}
    (only : minimal = true → minimal' = true) (read : scriptNum vch minimal' size = some bn)
    : scriptNum vch minimal size = some bn := by
  rw [scriptNum] at read ⊢
  split at read
  · cases read
  rename_i short
  rw [if_neg short]
  split at read
  · cases read
  rename_i passes
  rw [if_neg]
  · exact read
  · rw [and_eq_true] at passes ⊢
    exact fun fails => passes ⟨only fails.1, fails.2⟩

theorem FewerFlags.scriptNum {vch size bn}
    (read : scriptNum vch (ctx.under strict).fRequireMinimal size = some bn)
    : scriptNum vch (ctx.under lax).fRequireMinimal size = some bn :=
  scriptNum_of_minimal fewer.hasFlag read

theorem FewerFlags.operand {vch bn} (read : operand (ctx.under strict) vch = some bn)
    : operand (ctx.under lax) vch = some bn :=
  fewer.scriptNum read

theorem FewerFlags.checkPubKeyEncoding {vchPubKey}
    (encoded : checkPubKeyEncoding (ctx.under strict) vchPubKey = none)
    : checkPubKeyEncoding (ctx.under lax) vchPubKey = none := by
  have set (flag) : Script.hasFlag lax flag = true → Script.hasFlag strict flag = true :=
    fewer.hasFlag
  grind [Script.checkPubKeyEncoding, EvalContext.under]

-- Operations that read flags

theorem admits_pickOrRoll (rolls top stack)
    : Admits (pickOrRoll (ctx.under lax) rolls top stack state)
        (pickOrRoll (ctx.under strict) rolls top stack state) := by
  rw [pickOrRoll, pickOrRoll]
  cases read : scriptNum top (ctx.under strict).fRequireMinimal nDefaultMaxNumSize with
  | none => exact admits_error _ _
  | some bn =>
    rw [fewer.scriptNum read]
    exact Admits.refl _

theorem admits_runStackOp (op)
    : Admits (runStackOp (ctx.under lax) op state)
        (runStackOp (ctx.under strict) op state) := by
  unfold runStackOp
  split
  case h_15 => exact admits_pickOrRoll fewer _ _ _
  case h_16 => exact admits_pickOrRoll fewer _ _ _
  all_goals exact Admits.refl _

theorem admits_runUnaryOp (op)
    : Admits (runUnaryOp (ctx.under lax) op state)
        (runUnaryOp (ctx.under strict) op state) := by
  rw [runUnaryOp, runUnaryOp]
  split
  · rename_i x rest stack
    cases read : operand (ctx.under strict) x with
    | none => exact admits_error _ _
    | some bn =>
      rw [fewer.operand read]
      exact Admits.refl _
  · exact Admits.refl _

theorem admits_runBinaryOp (op)
    : Admits (runBinaryOp (ctx.under lax) op state)
        (runBinaryOp (ctx.under strict) op state) := by
  rw [runBinaryOp, runBinaryOp]
  split
  · rename_i x2 x1 rest stack
    cases read1 : operand (ctx.under strict) x1 with
    | none => exact admits_error _ _
    | some bn1 =>
      cases read2 : operand (ctx.under strict) x2 with
      | none => exact admits_error _ _
      | some bn2 =>
        rw [fewer.operand read1, fewer.operand read2]
        exact Admits.refl _
  · exact Admits.refl _

theorem admits_runWithin
    : Admits (runWithin (ctx.under lax) state) (runWithin (ctx.under strict) state) := by
  rw [runWithin, runWithin]
  split
  · rename_i x3 x2 x1 rest stack
    cases read1 : operand (ctx.under strict) x1 with
    | none => exact admits_error _ _
    | some bn1 =>
      cases read2 : operand (ctx.under strict) x2 with
      | none => exact admits_error _ _
      | some bn2 =>
        cases read3 : operand (ctx.under strict) x3 with
        | none => exact admits_error _ _
        | some bn3 =>
          rw [fewer.operand read1, fewer.operand read2, fewer.operand read3]
          exact Admits.refl _
  · exact Admits.refl _

omit fewer in
theorem eq_of_runLockTime {flag satisfied after}
    (ran : runLockTime ctx flag satisfied state = .ok after)
    : after = state := by
  rw [runLockTime] at ran
  split at ran
  · split at ran
    · cases ran
    · exact (Except.ok.inj ran).symm
  split at ran
  · cases ran
  split at ran
  · cases ran
  split at ran
  · cases ran
  split at ran
  · cases ran
  · exact (Except.ok.inj ran).symm

theorem admits_runLockTime {flag} (satisfied : Int → Bool)
    (upgrade : hasFlag lax SCRIPT_VERIFY_DISCOURAGE_UPGRADABLE_NOPS = true →
      hasFlag lax flag = true)
    : Admits (runLockTime (ctx.under lax) flag satisfied state)
        (runLockTime (ctx.under strict) flag satisfied state) := by
  by_cases set : hasFlag lax flag = true
  · rw [runLockTime, runLockTime, if_neg (by simpa [EvalContext.under] using set),
      if_neg (by simpa [EvalContext.under] using fewer.hasFlag set)]
    cases state.stack with
    | nil => exact Admits.refl _
    | cons top rest =>
      dsimp only
      cases read : scriptNum top (ctx.under strict).fRequireMinimal 5 with
      | none => exact admits_error _ _
      | some bn =>
        rw [fewer.scriptNum read]
        exact Admits.refl _
  · -- with its flag or without, an operation that succeeds leaves the state alone
    intro after ran
    have unknown : ¬ hasFlag (ctx.under lax).flags SCRIPT_VERIFY_DISCOURAGE_UPGRADABLE_NOPS
        = true := mt upgrade set
    rw [eq_of_runLockTime ran, runLockTime, if_pos (by simpa [EvalContext.under] using set),
      if_neg unknown]

theorem admits_runIf (negated fExec)
    : Admits (runIf (ctx.under lax) negated fExec state)
        (runIf (ctx.under strict) negated fExec state) := by
  rw [runIf, runIf]
  split
  · split
    · exact Admits.refl _
    refine guard ?_ (Admits.refl _)
    exact fun fails => ⟨fails.1, fewer.hasFlag fails.2.1, fails.2.2⟩
  · exact Admits.refl _

-- Signature checks

theorem FewerFlags.nullFail {fSuccess nonempty}
    (fails : (!fSuccess && Script.hasFlag lax SCRIPT_VERIFY_NULLFAIL && nonempty) = true)
    : (!fSuccess && Script.hasFlag strict SCRIPT_VERIFY_NULLFAIL && nonempty) = true := by
  rw [Bool.and_assoc, and_eq_true] at fails ⊢
  exact ⟨fails.1, fewer.test fails.2⟩

theorem admits_runCheckSig (verifies)
    : Admits (runCheckSig (ctx.under lax) verifies state)
        (runCheckSig (ctx.under strict) verifies state) := by
  rw [runCheckSig, runCheckSig]
  split
  · exact guard fewer.nullFail (Admits.refl _)
  · exact Admits.refl _

/-- The checks of the loop come in the same order and are numbered alike, by induction on the
keys.
-/
theorem admits_multisigLoop (scriptCode keys sigs) (sigChecks)
    : Admits (multisigLoop (ctx.under lax) scriptCode keys sigs sigChecks)
        (multisigLoop (ctx.under strict) scriptCode keys sigs sigChecks) := by
  induction keys generalizing sigs sigChecks with
  | nil => cases sigs <;> exact Admits.refl _
  | cons vchPubKey keys ih =>
    cases sigs with
    | nil => exact Admits.refl _
    | cons vchSig sigs =>
      rw [multisigLoop, multisigLoop]
      cases encoded : checkPubKeyEncoding (ctx.under strict) vchPubKey with
      | some error => exact admits_error _ _
      | none =>
        rw [fewer.checkPubKeyEncoding encoded]
        dsimp only [EvalContext.under]
        generalize (if ctx.checker.checkSig sigChecks vchSig vchPubKey scriptCode
          ctx.sigversion = true then sigs else vchSig :: sigs) = left
        split
        · exact Admits.refl _
        · exact ih _ _

theorem admits_runMultisig (verifies keys sigs rest)
    : Admits (runMultisig (ctx.under lax) verifies keys sigs rest state)
        (runMultisig (ctx.under strict) verifies keys sigs rest state) := by
  have loop := @admits_multisigLoop ctx lax strict fewer
    (scriptCodeFor (ctx.under strict) sigs state) keys sigs state.sigChecks
  rw [runMultisig, runMultisig]
  cases ran : multisigLoop (ctx.under strict) (scriptCodeFor (ctx.under strict) sigs state)
      keys sigs state.sigChecks with
  | error failure => exact admits_error _ _
  | ok result =>
    obtain ⟨fSuccess, sigChecks⟩ := result
    have same : multisigLoop (ctx.under lax) (scriptCodeFor (ctx.under lax) sigs state)
        keys sigs state.sigChecks = .ok (fSuccess, sigChecks) := loop _ ran
    rw [same]
    dsimp only
    refine guard fewer.nullFail ?_
    cases rest with
    | nil => exact Admits.refl _
    | cons dummy rest => exact guard fewer.test (Admits.refl _)

theorem admits_runCheckMultisig (verifies)
    : Admits (runCheckMultisig (ctx.under lax) verifies state)
        (runCheckMultisig (ctx.under strict) verifies state) := by
  rw [runCheckMultisig, runCheckMultisig]
  cases state.stack with
  | nil => exact Admits.refl _
  | cons keysCount below =>
    dsimp only
    cases keysRead : operand (ctx.under strict) keysCount with
    | none => exact admits_error _ _
    | some bn =>
      rw [fewer.operand keysRead]
      refine guard id (guard id ?_)
      split
      · exact Admits.refl _
      rename_i sigsCount lower _
      cases sigsRead : operand (ctx.under strict) sigsCount with
      | none => exact admits_error _ _
      | some bn =>
        rw [fewer.operand sigsRead]
        exact guard id (guard id (admits_runMultisig fewer _ _ _ _))

-- The interpreter

theorem admits_runOperation (operation fExec rest)
    : Admits (runOperation (ctx.under lax) operation fExec rest state)
        (runOperation (ctx.under strict) operation fExec rest state) := by
  cases operation with
  | opCheckLockTimeVerify => exact admits_runLockTime fewer _ fun set => (fewer.upgrades set).1
  | opCheckSequenceVerify => exact admits_runLockTime fewer _ fun set => (fewer.upgrades set).2
  | upgradableNop => exact guard fewer.hasFlag (Admits.refl _)
  | opIf negated => exact admits_runIf fewer negated fExec
  | stackOp op => exact admits_runStackOp fewer op
  | unaryOp op => exact admits_runUnaryOp fewer op
  | binaryOp op => exact admits_runBinaryOp fewer op
  | opWithin => exact admits_runWithin fewer
  | opCheckSig verifies => exact admits_runCheckSig fewer verifies
  | opCheckMultisig verifies => exact admits_runCheckMultisig fewer verifies
  | _ => exact Admits.refl _

theorem admits_execute (opcode vchPushValue rest)
    : Admits (execute (ctx.under lax) opcode vchPushValue rest state)
        (execute (ctx.under strict) opcode vchPushValue rest state) := by
  rw [execute, execute]
  split
  · exact guard fewer.test (Admits.refl _)
  split
  · exact admits_runOperation fewer _ _ _
  · exact Admits.refl _

theorem admits_step (opcode vchPushValue rest)
    : Admits (step (ctx.under lax) opcode vchPushValue rest state)
        (step (ctx.under strict) opcode vchPushValue rest state) := by
  refine guard id (guard id (guard id ?_))
  exact (admits_execute fewer opcode vchPushValue rest).bind fun after => Admits.refl _

/-- The runs stay together, by induction on the operations. -/
theorem admits_evalLoop (script)
    : Admits (evalLoop (ctx.under lax) script state)
        (evalLoop (ctx.under strict) script state) := by
  fun_induction evalLoop (ctx.under strict) script state with
  | case1 script state read ends =>
    rw [evalLoop, read, if_pos ends]
    exact Admits.refl _
  | case2 script state read unread => exact admits_error _ _
  | case3 script state opcode vchPushValue rest read ih =>
    rw [evalLoop, read]
    exact (admits_step fewer opcode vchPushValue rest).bind ih

theorem admits_evalScript (stack script sigChecks)
    : Admits (evalScript (ctx.under lax) stack script sigChecks)
        (evalScript (ctx.under strict) stack script sigChecks) := by
  refine guard id ?_
  have loop := @admits_evalLoop ctx lax strict (EvalState.start stack script sigChecks) fewer
    script
  cases ran : evalLoop (ctx.under strict) script (EvalState.start stack script sigChecks) with
  | error failure => exact admits_error _ _
  | ok after =>
    rw [loop after ran]
    exact Admits.refl _

end Fewer

-- The stages of VerifyScript

/-- What the assertions of `VerifyScript` ask of its flags. -/
structure FlagsTogether (flags : BitVec 32) : Prop where
  cleanStack : hasFlag flags SCRIPT_VERIFY_CLEANSTACK = true →
    hasFlag flags SCRIPT_VERIFY_P2SH = true ∧ hasFlag flags SCRIPT_VERIFY_WITNESS = true
  witness : hasFlag flags SCRIPT_VERIFY_WITNESS = true → hasFlag flags SCRIPT_VERIFY_P2SH = true

section Stages

variable {digests : Digests} {checker : SignatureChecker} {scriptSig : Script}
  {witness : List (List Byte)}

section

variable (fewer : FewerFlags lax strict)

include fewer

theorem admits_eval (sigversion stack script) (sigChecks)
    : Admits ((VerifyContext.mk digests lax checker).eval sigversion stack script sigChecks)
        ((VerifyContext.mk digests strict checker).eval sigversion stack script sigChecks) :=
  @admits_evalScript ⟨digests, lax, checker, sigversion⟩ lax strict fewer stack script sigChecks

theorem admits_evalTrue (stack script sigChecks)
    : Admits (evalTrue ⟨digests, lax, checker⟩ stack script sigChecks)
        (evalTrue ⟨digests, strict, checker⟩ stack script sigChecks) := by
  have eval := @admits_eval lax strict digests checker fewer .base stack script sigChecks
  rw [evalTrue, evalTrue]
  cases ran : (VerifyContext.mk digests strict checker).eval .base stack script sigChecks with
  | error failure => exact admits_error _ _
  | ok result =>
    rw [eval result ran]
    exact Admits.refl _

theorem admits_verifyWitnessProgram (witversion program sigChecks)
    : Admits (verifyWitnessProgram ⟨digests, lax, checker⟩ witness witversion program sigChecks)
        (verifyWitnessProgram ⟨digests, strict, checker⟩ witness witversion program sigChecks) := by
  rw [verifyWitnessProgram, verifyWitnessProgram]
  split
  · have same : witnessScript ⟨digests, lax, checker⟩ witness program
        = witnessScript ⟨digests, strict, checker⟩ witness program := rfl
    rw [same]
    cases witnessScript ⟨digests, strict, checker⟩ witness program with
    | error error => exact Admits.refl _
    | ok script =>
      obtain ⟨scriptPubKey, stack⟩ := script
      refine guard id ?_
      have eval := @admits_eval lax strict digests checker fewer .witnessV0 stack scriptPubKey
        sigChecks
      cases ran : (VerifyContext.mk digests strict checker).eval .witnessV0 stack scriptPubKey
          sigChecks with
      | error failure => exact admits_error _ _
      | ok result =>
        rw [eval result ran]
        exact Admits.refl _
  · exact guard fewer.hasFlag (Admits.refl _)

theorem admits_verifyProgramIn (set : hasFlag lax SCRIPT_VERIFY_WITNESS = true)
    (script expected malleated sigChecks)
    : Admits
        (verifyProgramIn ⟨digests, lax, checker⟩ script scriptSig expected malleated witness
          sigChecks)
        (verifyProgramIn ⟨digests, strict, checker⟩ script scriptSig expected malleated witness
          sigChecks) := by
  rw [verifyProgramIn, verifyProgramIn, VerifyContext.has, VerifyContext.has, set,
    fewer.hasFlag set]
  cases isWitnessProgram script with
  | none => exact Admits.refl _
  | some program =>
    obtain ⟨witnessversion, witnessprogram⟩ := program
    refine guard id ?_
    have verify := @admits_verifyWitnessProgram lax strict digests checker witness fewer
      witnessversion witnessprogram sigChecks
    cases ran : verifyWitnessProgram ⟨digests, strict, checker⟩ witness witnessversion
        witnessprogram sigChecks with
    | error failure => exact admits_error _ _
    | ok made =>
      rw [verify made ran]
      exact Admits.refl _

theorem admits_verifyEnd (verified)
    : Admits (verifyEnd ⟨digests, lax, checker⟩ witness verified)
        (verifyEnd ⟨digests, strict, checker⟩ witness verified) := by
  refine guard fewer.test (guard ?_ (Admits.refl _))
  intro fails
  rw [Bool.and_assoc] at fails ⊢
  exact fewer.test fails

theorem admits_verifyScriptHash (set : hasFlag lax SCRIPT_VERIFY_WITNESS = true)
    (stackCopy sigChecks)
    : Admits (verifyScriptHash ⟨digests, lax, checker⟩ scriptSig witness stackCopy sigChecks)
        (verifyScriptHash ⟨digests, strict, checker⟩ scriptSig witness stackCopy sigChecks) := by
  refine guard id ?_
  cases stackCopy with
  | nil => exact Admits.refl _
  | cons pubKey2 stack =>
    have eval := @admits_evalTrue lax strict digests checker fewer stack pubKey2 sigChecks
    dsimp only
    cases ran : evalTrue ⟨digests, strict, checker⟩ stack pubKey2 sigChecks with
    | error failure => exact admits_error _ _
    | ok result =>
      rw [eval result ran]
      exact (admits_verifyProgramIn fewer set pubKey2 (pushData pubKey2) .witnessMalleatedP2SH
        result.2).map _

theorem admits_verifyScript (together : FlagsTogether lax)
    (set : hasFlag lax SCRIPT_VERIFY_WITNESS = true) (scriptPubKey)
    : Admits (verifyScript ⟨digests, lax, checker⟩ scriptSig scriptPubKey witness)
        (verifyScript ⟨digests, strict, checker⟩ scriptSig scriptPubKey witness) := by
  have scriptHash := together.witness set
  intro made passes
  obtain ⟨pushes, first, ran, second, ranTrue, program, ranProgram, last⟩ :=
    verifyScript_eq_ok.mp passes
  refine verifyScript_eq_ok.mpr ⟨mt fewer.test pushes, first, admits_eval fewer _ _ _ _ _ ran,
    second, admits_evalTrue fewer _ _ _ _ ranTrue, program,
    admits_verifyProgramIn fewer set _ _ _ _ _ ranProgram, ?_⟩
  rw [VerifyContext.has, fewer.hasFlag scriptHash] at last
  rw [VerifyContext.has, scriptHash]
  split at last
  · rename_i hash
    rw [if_pos hash]
    exact (admits_verifyScriptHash fewer set first.1 program.2).bind (admits_verifyEnd fewer) _ last
  · rename_i bare
    rw [if_neg bare]
    exact admits_verifyEnd fewer _ _ last

end

-- Without witnesses the lax flags leave out the stages that are last.

theorem isWitnessProgram_of_isPayToScriptHash {script} (hash : isPayToScriptHash script = true)
    : isWitnessProgram script = none := by
  simp only [isPayToScriptHash, and_eq_true, beq_iff_eq] at hash
  obtain ⟨⟨⟨_, first⟩, _⟩, _⟩ := hash
  cases script with
  | nil => cases first
  | cons version rest =>
    cases first
    cases rest with
    | nil => rfl
    | cons size program =>
      rw [isWitnessProgram]
      split
      · rfl
      · rw [if_pos (by decide)]

section Unset

variable (unset : ¬ hasFlag lax SCRIPT_VERIFY_WITNESS = true)

include unset

theorem verifyProgramIn_of_unset (script expected malleated sigChecks)
    : verifyProgramIn ⟨digests, lax, checker⟩ script scriptSig expected malleated witness sigChecks
      = .ok (false, sigChecks) := by
  rw [verifyProgramIn, if_pos (by simpa [VerifyContext.has] using unset)]

theorem verifyEnd_of_unset (together : FlagsTogether lax) (verified)
    : verifyEnd ⟨digests, lax, checker⟩ witness verified = .ok verified.sigChecks := by
  have unclean : ¬ hasFlag lax SCRIPT_VERIFY_CLEANSTACK = true :=
    fun set => unset (together.cleanStack set).2
  rw [not_eq_true] at unset unclean
  simp [verifyEnd, VerifyContext.has, unset, unclean]

theorem exists_verifyScriptHash (fewer : FewerFlags lax strict) {stackCopy sigChecks verified}
    (passes : verifyScriptHash ⟨digests, strict, checker⟩ scriptSig witness stackCopy sigChecks
      = .ok verified)
    : ∃ verified', verifyScriptHash ⟨digests, lax, checker⟩ scriptSig witness stackCopy sigChecks
      = .ok verified' := by
  unfold verifyScriptHash at passes ⊢
  split at passes
  · cases passes
  rename_i pushes
  rw [if_neg pushes]
  cases stackCopy with
  | nil => cases passes
  | cons pubKey2 stack =>
    dsimp only at passes ⊢
    cases ran : evalTrue ⟨digests, strict, checker⟩ stack pubKey2 sigChecks with
    | error failure =>
      rw [ran] at passes
      cases passes
    | ok result =>
      rw [admits_evalTrue fewer _ _ _ _ ran]
      dsimp only
      rw [verifyProgramIn_of_unset unset]
      exact ⟨_, rfl⟩

theorem exists_verifyScript (fewer : FewerFlags lax strict) (together : FlagsTogether lax)
    {scriptPubKey made}
    (passes : verifyScript ⟨digests, strict, checker⟩ scriptSig scriptPubKey witness = .ok made)
    : ∃ made', verifyScript ⟨digests, lax, checker⟩ scriptSig scriptPubKey witness
      = .ok made' := by
  obtain ⟨pushes, first, ran, second, ranTrue, program, ranProgram, last⟩ :=
    verifyScript_eq_ok.mp passes
  refine Exists.imp (fun made' ends => verifyScript_eq_ok.mpr ⟨mt fewer.test pushes, first,
    admits_eval fewer _ _ _ _ _ ran, second, admits_evalTrue fewer _ _ _ _ ranTrue, _,
    verifyProgramIn_of_unset unset _ _ _ _, ends⟩) ?_
  split
  · -- a script hash is verified with the checks made so far, since it is no witness program
    rename_i hash
    have bare : program = (false, second.2) := by
      rw [verifyProgramIn, isWitnessProgram_of_isPayToScriptHash (and_eq_true_iff.mp hash).2,
        ite_self] at ranProgram
      exact (Except.ok.inj ranProgram).symm
    rw [VerifyContext.has, if_pos (fewer.test hash), bare] at last
    cases ranHash : verifyScriptHash ⟨digests, strict, checker⟩ scriptSig witness first.1
        second.2 with
    | error failure =>
      rw [ranHash] at last
      cases last
    | ok verified =>
      obtain ⟨verified', ranLax⟩ := exists_verifyScriptHash unset fewer ranHash
      rw [ranLax]
      exact ⟨_, verifyEnd_of_unset unset together verified'⟩
  · exact ⟨_, verifyEnd_of_unset unset together _⟩

end Unset

end Stages

theorem isOk_verifyScript (fewer : FewerFlags lax strict) (together : FlagsTogether lax)
    {digests checker scriptSig scriptPubKey witness}
    (passes : (verifyScript ⟨digests, strict, checker⟩ scriptSig scriptPubKey witness).isOk = true)
    : (verifyScript ⟨digests, lax, checker⟩ scriptSig scriptPubKey witness).isOk = true := by
  cases ran : verifyScript ⟨digests, strict, checker⟩ scriptSig scriptPubKey witness with
  | error failure =>
    rw [ran] at passes
    cases passes
  | ok made =>
    by_cases set : hasFlag lax SCRIPT_VERIFY_WITNESS = true
    · rw [admits_verifyScript fewer together set scriptPubKey made ran]
      rfl
    obtain ⟨made', ranLax⟩ := exists_verifyScript set fewer together ran
    rw [ranLax]
    rfl

end Pqcoin.Script
