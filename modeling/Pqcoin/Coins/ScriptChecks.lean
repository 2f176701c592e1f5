import Pqcoin.Coins.ConnectBlock
import Pqcoin.Script.FlagOrder
import Pqcoin.Script.Multisig

/-! The script checks of `CheckInputs` as runs of `VerifyScript`: what passes the standard flags
passes the mandatory ones.
-/

namespace Pqcoin

open Script

def MANDATORY_SCRIPT_VERIFY_FLAGS : BitVec 32 := SCRIPT_VERIFY_P2SH

/-- What the script checks of a node depend on: the signature checker of each input with the amount
it spends, and the texts of the errors.
-/
structure ScriptChecks where
  digests : Digests
  checker : Transaction → Nat → Amount → SignatureChecker
  scriptErrorString : ScriptError → String

namespace ScriptChecks

/-- `CScriptCheck::operator()`: the error of `VerifyScript`; `vin[nIn]` exists in every call. -/
def scriptCheck (checks : ScriptChecks) (tx : Transaction) (nIn : Nat) (txout : TxOut)
    (flags : BitVec 32)
    : Option String :=
  match tx.vin[nIn]? with
  | none => none
  | some txin =>
    match verifyScript ⟨checks.digests, flags, checks.checker tx nIn txout.nValue⟩ txin.scriptSig
      txout.scriptPubKey txin.scriptWitness with
    | .ok _ => none
    | .error failure => some (checks.scriptErrorString failure.error)

def within (checks : ScriptChecks) (ctx : ConnectContext) : ConnectContext :=
  { ctx with scriptCheck := checks.scriptCheck }

end ScriptChecks

theorem fewerFlags_mandatory
    : FewerFlags MANDATORY_SCRIPT_VERIFY_FLAGS STANDARD_SCRIPT_VERIFY_FLAGS where
  included := by decide
  upgrades := by decide

theorem flagsTogether_mandatory : FlagsTogether MANDATORY_SCRIPT_VERIFY_FLAGS where
  cleanStack := by decide
  witness := by decide

theorem ScriptChecks.scriptCheck_eq_none {checks : ScriptChecks} {lax strict}
    (fewer : FewerFlags lax strict) (together : FlagsTogether lax) {tx} {nIn}
    {txout} (passes : checks.scriptCheck tx nIn txout strict = none)
    : checks.scriptCheck tx nIn txout lax = none := by
  rw [scriptCheck] at passes ⊢
  cases found : tx.vin[nIn]? with
  | none => rfl
  | some txin =>
    rw [found] at passes
    dsimp only at passes ⊢
    have restricts := @isOk_verifyScript lax strict fewer together checks.digests
      (checks.checker tx nIn txout.nValue) txin.scriptSig txout.scriptPubKey txin.scriptWitness
    split at passes
    · rename_i made ran
      rw [ran] at restricts
      split
      · rfl
      rename_i failure fails
      rw [fails] at restricts
      cases restricts rfl
    · cases passes

namespace ConnectContext

variable {ctx : ConnectContext} {table : CoinsTable} {tx : Transaction} {lax strict : BitVec 32}

section

variable (restricts : ∀ nIn txout, ctx.scriptCheck tx nIn txout strict = none
    → ctx.scriptCheck tx nIn txout lax = none)

include restricts

/-- The loop over the inputs, by induction on them. -/
theorem checkScripts_eq_ok (nIn inputs)
    (passes : ctx.checkScripts strict table tx nIn inputs = .ok ())
    : ctx.checkScripts lax table tx nIn inputs = .ok () := by
  induction inputs generalizing nIn with
  | nil => rfl
  | cons txin rest ih =>
    rw [checkScripts] at passes ⊢
    cases checked : ctx.scriptCheck tx nIn (getOutputFor table txin.prevout) strict with
    | none =>
      rw [checked] at passes
      rw [restricts nIn _ checked]
      exact ih (nIn + 1) passes
    | some error =>
      rw [checked] at passes
      dsimp only at passes
      split at passes <;> cases passes

theorem scriptVerdict_eq_ok (fScriptChecks)
    (passes : ctx.scriptVerdict fScriptChecks strict table tx = .ok true)
    : ctx.scriptVerdict fScriptChecks lax table tx = .ok true := by
  rw [scriptVerdict] at passes ⊢
  split
  · rfl
  rename_i made
  rw [if_neg made] at passes
  split
  · rename_i sequential
    rw [if_pos sequential] at passes
    cases loop : ctx.checkScripts strict table tx 0 tx.vin with
    | error failure =>
      rw [loop] at passes
      cases passes
    | ok passed =>
      rw [checkScripts_eq_ok restricts 0 tx.vin loop]
      rfl
  · rename_i threads
    rw [if_neg threads, Except.ok.injEq, scriptsPass, List.all_eq_true] at passes
    rw [Except.ok.injEq, scriptsPass, List.all_eq_true]
    intro input mem
    have passed := passes input mem
    rw [Option.isNone_iff_eq_none] at passed ⊢
    exact restricts _ _ passed

theorem checkInputs_eq_ok {fScriptChecks} {nSpendHeight} {sums}
    (passes : ctx.checkInputs fScriptChecks strict table nSpendHeight tx = .ok (sums, true))
    : ctx.checkInputs fScriptChecks lax table nSpendHeight tx = .ok (sums, true) := by
  rw [checkInputs] at passes ⊢
  cases checked : ctx.checkTxInputs table nSpendHeight tx with
  | error failure =>
    rw [checked] at passes
    cases passes
  | ok found =>
    rw [checked] at passes
    cases verdict : ctx.scriptVerdict fScriptChecks strict table tx with
    | error failure =>
      rw [verdict] at passes
      cases passes
    | ok pass =>
      rw [verdict] at passes
      cases passes
      rw [scriptVerdict_eq_ok restricts fScriptChecks verdict]
      rfl

end

end ConnectContext

/-- The flags of `VerifyScript` only restrict what it accepts, so no transaction passes the script
checks of its inputs with the standard flags and fails them with the mandatory ones.
-/
theorem flags_only_restrict {lax strict : BitVec 32} (fewer : FewerFlags lax strict)
    (together : FlagsTogether lax)
    : (∀ (digests : Digests) (checker : SignatureChecker) (scriptSig scriptPubKey : Script)
        (witness : List (List Byte)),
        (verifyScript ⟨digests, strict, checker⟩ scriptSig scriptPubKey witness).isOk = true →
          (verifyScript ⟨digests, lax, checker⟩ scriptSig scriptPubKey witness).isOk = true)
      ∧ ∀ (checks : ScriptChecks) (ctx : ConnectContext) (table : CoinsTable)
          (nSpendHeight : Int) (tx : Transaction) (sums : List (Tally 64)),
          (checks.within ctx).checkInputs true STANDARD_SCRIPT_VERIFY_FLAGS table nSpendHeight tx
              = .ok (sums, true) →
            (checks.within ctx).checkInputs true MANDATORY_SCRIPT_VERIFY_FLAGS table nSpendHeight
              tx = .ok (sums, true) := by
  refine ⟨fun _ _ _ _ _ passes => isOk_verifyScript fewer together passes, ?_⟩
  intro checks ctx table nSpendHeight tx sums
  exact ConnectContext.checkInputs_eq_ok fun _ _ =>
    ScriptChecks.scriptCheck_eq_none fewerFlags_mandatory flagsTogether_mandatory

/-- A script hash whose script is a number, under `MINIMALDATA`, `P2SH` and `CLEANSTACK`. -/
theorem flags_only_restrict_scripthash
    : (verifyScript ⟨zeroDigests, MANDATORY_SCRIPT_VERIFY_FLAGS, baseChecker⟩ [1, OP_1]
        ([OP_HASH160, 20] ++ List.replicate 20 0 ++ [OP_EQUAL]) []).isOk = true :=
  (flags_only_restrict fewerFlags_mandatory flagsTogether_mandatory).1 _ _ _ _ _
    (show (verifyScript ⟨zeroDigests, STANDARD_SCRIPT_VERIFY_FLAGS, baseChecker⟩ [1, OP_1]
      ([OP_HASH160, 20] ++ List.replicate 20 0 ++ [OP_EQUAL]) []).isOk = true by decide +kernel)

end Pqcoin
