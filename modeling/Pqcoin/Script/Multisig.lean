import Pqcoin.Lib.OrderedMatching
import Pqcoin.Script.Interpreter

/-! `OP_CHECKMULTISIG`: the loop over its keys finds a matching of the signatures with the keys if
there is one, and where it agrees with `OP_CHECKSIG`.
-/

namespace Pqcoin.Script

open List OrderedMatching

variable {ctx : EvalContext} {scriptCode : Script} {keys sigs rest : List (List Byte)}
  {sigChecks : Nat}

-- The loop

def checksMade {α : Type} (checks : α → Nat) : Except EvalFailure α → Nat
  | .error failure => failure.sigChecks
  | .ok result => checks result

theorem checksMade_multisigLoop
    : sigChecks ≤ checksMade Prod.snd (multisigLoop ctx scriptCode keys sigs sigChecks)
      ∧ checksMade Prod.snd (multisigLoop ctx scriptCode keys sigs sigChecks)
        ≤ sigChecks + keys.length := by
  induction keys generalizing sigs sigChecks with
  | nil => cases sigs <;> exact ⟨le_rfl, le_rfl⟩
  | cons vchPubKey keys ih =>
    cases sigs with
    | nil => exact ⟨le_rfl, Nat.le_add_right ..⟩
    | cons vchSig sigs =>
      rw [multisigLoop, length_cons]
      cases checkPubKeyEncoding ctx vchPubKey with
      | some error => exact ⟨le_rfl, Nat.le_add_right ..⟩
      | none =>
        dsimp only
        generalize (if ctx.checker.checkSig sigChecks vchSig vchPubKey scriptCode
          ctx.sigversion = true then sigs else vchSig :: sigs) = left
        split
        · exact ⟨Nat.le_succ _, by simp only [checksMade]; omega⟩
        have later := @ih left (sigChecks + 1)
        omega

/-- The answer of a checker that does not depend on the checks made before. -/
def Verdict (ctx : EvalContext) (scriptCode vchSig vchPubKey : List Byte) : Prop :=
  ctx.checker.checkSig 0 vchSig vchPubKey scriptCode ctx.sigversion = true

/-- The loop decides whether the signatures can be matched: a key that checks with the next
signature may be used for it, and a signature that no later key is left for ends the loop.
-/
theorem multisigLoop_eq (encoded : ∀ key ∈ keys, checkPubKeyEncoding ctx key = none)
    (steady : ∀ n, ctx.checker.checkSig n = ctx.checker.checkSig 0)
    : ∃ fSuccess made, multisigLoop ctx scriptCode keys sigs sigChecks = .ok (fSuccess, made)
      ∧ (fSuccess = true ↔ Matches (Verdict ctx scriptCode) sigs keys) := by
  induction keys generalizing sigs sigChecks with
  | nil =>
    cases sigs with
    | nil => exact ⟨true, sigChecks, rfl, by simp [matches_nil]⟩
    | cons vchSig sigs =>
      refine ⟨false, sigChecks, rfl, ?_⟩
      simp only [Bool.false_eq_true, false_iff]
      exact fun matched => absurd matched.length_le (by simp)
  | cons vchPubKey keys ih =>
    cases sigs with
    | nil => exact ⟨true, sigChecks, rfl, by simp [matches_nil]⟩
    | cons vchSig sigs =>
      rw [forall_mem_cons] at encoded
      rw [multisigLoop, encoded.1, steady]
      dsimp only
      have left : Matches (Verdict ctx scriptCode) (vchSig :: sigs) (vchPubKey :: keys)
          ↔ Matches (Verdict ctx scriptCode)
            (if ctx.checker.checkSig 0 vchSig vchPubKey scriptCode ctx.sigversion then
              sigs else vchSig :: sigs) keys := by
        split
        · rename_i checks
          exact matches_cons_of_fits checks
        · rename_i fails
          exact matches_cons_of_not_fits fails
      rw [left]
      generalize (if ctx.checker.checkSig 0 vchSig vchPubKey scriptCode
        ctx.sigversion = true then sigs else vchSig :: sigs) = left
      split
      · rename_i tooMany
        refine ⟨false, sigChecks + 1, rfl, ?_⟩
        simp only [Bool.false_eq_true, false_iff]
        exact fun matched => absurd matched.length_le (by omega)
      · exact ih encoded.2

-- The operation

def checksSince (state : EvalState) (result : Except EvalFailure EvalState) : Nat :=
  checksMade EvalState.sigChecks result - state.sigChecks

theorem checksSince_runMultisig {state} {verifies}
    : checksSince state (runMultisig ctx verifies keys sigs rest state) ≤ keys.length := by
  have loop := @checksMade_multisigLoop ctx (scriptCodeFor ctx sigs state) keys sigs
    state.sigChecks
  rw [checksSince, runMultisig]
  cases ran : multisigLoop ctx (scriptCodeFor ctx sigs state) keys sigs state.sigChecks with
  | error failure =>
    rw [ran] at loop
    simp only [checksMade] at loop ⊢
    omega
  | ok result =>
    obtain ⟨fSuccess, made⟩ := result
    rw [ran] at loop
    -- every ending of the operation keeps the number of checks of the loop
    have ends (result)
        (kept : checksMade EvalState.sigChecks result = made)
        : checksMade EvalState.sigChecks result - state.sigChecks ≤ keys.length := by
      simp only [checksMade] at loop
      omega
    apply ends
    dsimp only
    split
    · rfl
    cases rest with
    | nil => rfl
    | cons dummy rest =>
      dsimp only
      split
      · rfl
      split
      · split <;> rfl
      · rfl

section Operation

variable {state : EvalState} {keysCount sigsCount dummy : List Byte}
  (keysRead : operand ctx keysCount = some (keys.length : Int))
  (sigsRead : operand ctx sigsCount = some (sigs.length : Int)) (enough : sigs.length ≤ keys.length)
  (limit : state.nOpCount + keys.length ≤ MAX_OPS_PER_SCRIPT)

include keysRead sigsRead enough limit

theorem runCheckMultisig_eq {verifies}
    (stack : state.stack = keysCount :: (keys ++ sigsCount :: (sigs ++ dummy :: rest)))
    : runCheckMultisig ctx verifies state
      = runMultisig ctx verifies keys sigs (dummy :: rest)
          { state with nOpCount := state.nOpCount + keys.length } := by
  rw [MAX_OPS_PER_SCRIPT] at limit
  have keysInt : getInt (keys.length : Int) = keys.length := by
    rw [getInt]
    omega
  have sigsInt : getInt (sigs.length : Int) = sigs.length := by
    rw [getInt]
    omega
  have inRange : ¬ ((keys.length : Int) < 0 ∨ (keys.length : Int) > MAX_PUBKEYS_PER_MULTISIG) := by
    rw [MAX_PUBKEYS_PER_MULTISIG]
    omega
  have below : (keys ++ sigsCount :: (sigs ++ dummy :: rest)).drop keys.length
      = sigsCount :: (sigs ++ dummy :: rest) := drop_left
  have long : ¬ (sigs ++ dummy :: rest).length < sigs.length + 1 := by
    simp
  rw [runCheckMultisig, stack]
  dsimp only
  rw [keysRead]
  dsimp only
  rw [keysInt, if_neg inRange, Int.toNat_natCast, if_neg (by rw [MAX_OPS_PER_SCRIPT]; omega), below]
  dsimp only
  rw [sigsRead]
  dsimp only
  rw [sigsInt, if_neg (by omega), Int.toNat_natCast, if_neg long, take_left, take_left, drop_left]

/-- `OP_CHECKMULTISIG` leaves true if and only if the signatures can be matched with the keys in
their order, and it makes at most one check for each key. Signatures and keys are in the order in
which they have been pushed.
-/
theorem checkMultisig_decides_matching
    (stack : state.stack
      = keysCount :: (keys.reverse ++ sigsCount :: (sigs.reverse ++ dummy :: rest)))
    (unencoded : hasFlag ctx.flags SCRIPT_VERIFY_STRICTENC = false
      ∧ hasFlag ctx.flags SCRIPT_VERIFY_WITNESS_PUBKEYTYPE = false)
    (nullDummy : hasFlag ctx.flags SCRIPT_VERIFY_NULLDUMMY = true → dummy = [])
    (steady : ∀ n, ctx.checker.checkSig n = ctx.checker.checkSig 0)
    : ((∃ after, runCheckMultisig ctx false state = .ok after
          ∧ after.stack = vchTrue :: rest)
        ↔ ∃ place : Fin sigs.length → Fin keys.length, StrictMono place
          ∧ ∀ i, ctx.checker.checkSig 0 (sigs.get i) (keys.get (place i))
            (scriptCodeFor ctx sigs.reverse state) ctx.sigversion = true)
      ∧ checksSince state (runCheckMultisig ctx false state) ≤ keys.length := by
  have encoded : ∀ key ∈ keys.reverse, checkPubKeyEncoding ctx key = none := by
    intro key _
    simp [checkPubKeyEncoding, unencoded]
  rw [runCheckMultisig_eq (by simpa using keysRead) (by simpa using sigsRead)
    (by simpa using enough) (by simpa using limit) stack]
  constructor
  · obtain ⟨fSuccess, made, looped, decides⟩ := @multisigLoop_eq ctx
      (scriptCodeFor ctx sigs.reverse state) keys.reverse sigs.reverse state.sigChecks encoded
      steady
    rw [matches_reverse, matches_iff_strictMono] at decides
    refine Iff.trans ?_ decides
    have code : scriptCodeFor ctx sigs.reverse
        { state with nOpCount := state.nOpCount + keys.reverse.length }
        = scriptCodeFor ctx sigs.reverse state := rfl
    have allowed : (hasFlag ctx.flags SCRIPT_VERIFY_NULLDUMMY && dummy != []) = false := by
      cases flagged : hasFlag ctx.flags SCRIPT_VERIFY_NULLDUMMY with
      | false => rfl
      | true => simp [nullDummy flagged]
    rw [runMultisig, code, looped]
    dsimp only
    rw [allowed]
    cases fSuccess with
    | true => simp [EvalState.put, boolVch]
    | false =>
      simp only [Bool.not_false, Bool.true_and, Bool.false_eq_true, if_false, iff_false]
      rintro ⟨after, ran, top⟩
      split at ran
      · cases ran
      cases ran
      cases top
  · have most := @checksSince_runMultisig ctx keys.reverse sigs.reverse (dummy :: rest)
      { state with nOpCount := state.nOpCount + keys.reverse.length } false
    rw [length_reverse] at most ⊢
    exact most

end Operation

/-- A run without flags, where a signature checks with the key that it is equal to. -/
def equalityContext (flags : BitVec 32) : EvalContext where
  digests := ⟨⟨fun _ => 0, fun _ => 0⟩, fun _ => 0, fun _ => 0, fun _ => 0⟩
  flags := flags
  checker := ⟨fun _ vchSig vchPubKey _ _ => vchSig == vchPubKey, fun _ => true, fun _ => true⟩
  sigversion := .base

def twoOfThree : EvalState :=
  EvalState.start [[3], [8], [7], [6], [2], [8], [6], []] [OP_CHECKMULTISIG] 0

/-- The first and the third key have signed. -/
theorem checkMultisig_two_of_three
    : (∃ after, runCheckMultisig (equalityContext 0) false twoOfThree = .ok after
        ∧ after.stack = [vchTrue])
      ∧ checksSince twoOfThree (runCheckMultisig (equalityContext 0) false twoOfThree) ≤ 3 := by
  have decides := @checkMultisig_decides_matching (equalityContext 0) [[6], [7], [8]] [[6], [8]] []
    twoOfThree [3] [2] [] (by decide) (by decide) (by decide) (by decide) rfl (by decide)
    (fun _ => rfl) (fun _ => rfl)
  have bound (i : Fin [[6], [8]].length) : 2 * i.val < 3 := by
    have small : i.val < 2 := i.isLt
    omega
  refine ⟨decides.1.mpr ⟨fun i => ⟨2 * i.val, bound i⟩, fun i j less => ?_, fun i => ?_⟩, decides.2⟩
  · exact Nat.mul_lt_mul_of_pos_left less (by decide)
  · obtain ⟨_ | _ | i, small⟩ := i
    · rfl
    · rfl
    · exact absurd small (by simp)

-- One signature and one key

/-- Two ways of running a script both fail, or leave the same stack. -/
def Agree : Except EvalFailure EvalState → Except EvalFailure EvalState → Prop
  | .error _, .error _ => True
  | .ok first, .ok second => first.stack = second.stack
  | _, _ => False

def verdictContext (digests : Digests) (flags : BitVec 32) (sigversion : SigVersion)
    (verdict : List Byte → List Byte → Bool) (checkLockTime checkSequence : Int → Bool)
    : EvalContext where
  digests := digests
  flags := flags
  checker := ⟨fun _ vchSig vchPubKey _ _ => verdict vchSig vchPubKey, checkLockTime, checkSequence⟩
  sigversion := sigversion

section OneOfOne

variable {digests : Digests} {flags : BitVec 32} {sigversion : SigVersion}
  {verdict : List Byte → List Byte → Bool} {checkLockTime checkSequence : Int → Bool}
  {vchSig vchPubKey : List Byte} {state : EvalState}
  (made : ctx = verdictContext digests flags sigversion verdict checkLockTime checkSequence)

/-- A signature that does not check and has to be empty. -/
def NullFails (flags : BitVec 32) (verdict : List Byte → List Byte → Bool)
    (vchSig vchPubKey : List Byte)
    : Prop :=
  verdict vchSig vchPubKey = false ∧ hasFlag flags SCRIPT_VERIFY_NULLFAIL = true ∧ vchSig ≠ []

include made

theorem runCheckSig_verdict
    : runCheckSig ctx false
        { state with stack := vchPubKey :: vchSig :: rest }
      = if !verdict vchSig vchPubKey && hasFlag flags SCRIPT_VERIFY_NULLFAIL && vchSig != [] then
          .error ⟨.sigNullFail, state.sigChecks + 1⟩
        else .ok { state with
          stack := boolVch (verdict vchSig vchPubKey) :: rest
          sigChecks := state.sigChecks + 1 } := by
  rw [made]
  rfl

/-- One pass of the loop, after the check of the encoding that `OP_CHECKSIG` does without. -/
theorem runCheckMultisig_verdict (limit : state.nOpCount + 1 ≤ MAX_OPS_PER_SCRIPT)
    : runCheckMultisig ctx false
        { state with stack := [1] :: vchPubKey :: [1] :: vchSig :: [] :: rest }
      = match checkPubKeyEncoding ctx vchPubKey with
        | some error => .error ⟨error, state.sigChecks⟩
        | none =>
          if !verdict vchSig vchPubKey && hasFlag flags SCRIPT_VERIFY_NULLFAIL && vchSig != [] then
            .error ⟨.sigNullFail, state.sigChecks + 1⟩
          else .ok { state with
            stack := boolVch (verdict vchSig vchPubKey) :: rest
            nOpCount := state.nOpCount + 1
            sigChecks := state.sigChecks + 1 } := by
  have one : operand ctx [1] = some 1 := by
    rw [operand, scriptNum, if_neg (by decide)]
    have minimal : isMinimalNum [1] = true := by decide
    rw [minimal, Bool.not_true, Bool.and_false]
    rfl
  rw [@runCheckMultisig_eq _ [vchPubKey] [vchSig] rest
    { state with stack := [1] :: vchPubKey :: [1] :: vchSig :: [] :: rest } [1] [1] [] one one
    le_rfl limit false rfl, runMultisig, multisigLoop]
  cases checkPubKeyEncoding ctx vchPubKey with
  | some error => rfl
  | none =>
    rw [made]
    dsimp only [verdictContext]
    cases verdict vchSig vchPubKey <;> simp [multisigLoop, EvalState.fail, EvalState.put]

theorem disagree_of_encoding {error} (limit : state.nOpCount + 1 ≤ MAX_OPS_PER_SCRIPT)
    (encoding : checkPubKeyEncoding ctx vchPubKey = some error)
    (passes : ¬ NullFails flags verdict vchSig vchPubKey)
    : ¬ Agree
        (runCheckSig ctx false { state with stack := vchPubKey :: vchSig :: rest })
        (runCheckMultisig ctx false
          { state with stack := [1] :: vchPubKey :: [1] :: vchSig :: [] :: rest }) := by
  have unfailed : ¬ (!verdict vchSig vchPubKey && hasFlag flags SCRIPT_VERIFY_NULLFAIL
      && vchSig != []) = true := by
    simpa [NullFails, and_assoc] using passes
  rw [runCheckSig_verdict made, runCheckMultisig_verdict made limit, encoding, if_neg unfailed]
  exact id

omit made in
/-- The two operations agree if and only if the key passes the check of its encoding, or both fail
because of the signature.
-/
theorem checkSig_agrees_iff (digests : Digests) (flags : BitVec 32) (sigversion : SigVersion)
    (verdict : List Byte → List Byte → Bool) (checkLockTime checkSequence : Int → Bool)
    (vchSig vchPubKey : List Byte) (rest : List (List Byte)) (state : EvalState)
    (limit : state.nOpCount + 1 ≤ MAX_OPS_PER_SCRIPT)
    : Agree
        (runCheckSig (verdictContext digests flags sigversion verdict checkLockTime checkSequence)
          false { state with stack := vchPubKey :: vchSig :: rest })
        (runCheckMultisig
          (verdictContext digests flags sigversion verdict checkLockTime checkSequence) false
          { state with stack := [1] :: vchPubKey :: [1] :: vchSig :: [] :: rest })
      ↔ checkPubKeyEncoding
          (verdictContext digests flags sigversion verdict checkLockTime checkSequence) vchPubKey
          = none
        ∨ NullFails flags verdict vchSig vchPubKey := by
  constructor
  · intro agree
    by_contra neither
    rw [not_or] at neither
    obtain ⟨error, encoding⟩ := Option.ne_none_iff_exists'.mp neither.1
    exact disagree_of_encoding rfl limit encoding neither.2 agree
  · rw [runCheckSig_verdict rfl, runCheckMultisig_verdict rfl limit]
    rintro (encoded | ⟨fails, flagged, nonempty⟩)
    · rw [encoded]
      dsimp only
      split
      · trivial
      · rfl
    · have nullFails : (!verdict vchSig vchPubKey && hasFlag flags SCRIPT_VERIFY_NULLFAIL
          && vchSig != []) = true := by simp [fails, flagged, nonempty]
      simp only [if_pos nullFails]
      split <;> trivial

end OneOfOne

/-- Any key, where the flags ask for no encoding. -/
theorem checkSig_agrees_unflagged
    : Agree
        (runCheckSig (verdictContext (equalityContext 0).digests 0 .base (fun _ _ => true)
          (fun _ => true) (fun _ => true)) false (EvalState.start [[2], [1]] [] 0))
        (runCheckMultisig (verdictContext (equalityContext 0).digests 0 .base (fun _ _ => true)
          (fun _ => true) (fun _ => true)) false
          (EvalState.start [[1], [2], [1], [1], []] [] 0)) :=
  (checkSig_agrees_iff (equalityContext 0).digests 0 .base (fun _ _ => true) (fun _ => true)
    (fun _ => true) [1] [2] [] (EvalState.start [] [] 0) (by decide)).mpr (.inl rfl)

def walletKey : List Byte := List.replicate 1953 2

/-- Under strict encoding such a key checks with `OP_CHECKSIG`, and fails the script with
`OP_CHECKMULTISIG`.
-/
theorem wallet_key_disagrees
    : ¬ Agree
        (runCheckSig (verdictContext (equalityContext 0).digests SCRIPT_VERIFY_STRICTENC .base
          (fun _ _ => true) (fun _ => true) (fun _ => true)) false
          (EvalState.start [walletKey, [1]] [] 0))
        (runCheckMultisig (verdictContext (equalityContext 0).digests SCRIPT_VERIFY_STRICTENC .base
          (fun _ _ => true) (fun _ => true) (fun _ => true)) false
          (EvalState.start [[1], walletKey, [1], [1], []] [] 0)) := by
  have encoding : checkPubKeyEncoding (verdictContext (equalityContext 0).digests
      SCRIPT_VERIFY_STRICTENC .base (fun _ _ => true) (fun _ => true) (fun _ => true)) walletKey
      = some .pubkeyType := by
    decide +kernel
  exact @disagree_of_encoding _ [] _ _ _ _ _ _ [1] walletKey (EvalState.start [] [] 0) rfl _
    (by decide) encoding (fun fails => Bool.noConfusion fails.1)

end Pqcoin.Script
