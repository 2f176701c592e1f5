import Pqcoin.Script.Multisig

/-! The signature checks that a run of a script makes are no more than the accurate count of its
signature operations, which looks at the operation in front of `OP_CHECKMULTISIG` only.
-/

namespace Pqcoin.Script

open EvalState (sigChecks)

variable {ctx : EvalContext} {state after : EvalState} {rest : Script}

-- Operations without signature checks

/-- The number of signature checks is as before. -/
def Quiet (state : EvalState) (result : Except EvalFailure EvalState) : Prop :=
  checksMade EvalState.sigChecks result = state.sigChecks

theorem quiet_pickOrRoll (rolls top stack)
    : Quiet state (pickOrRoll ctx rolls top stack state) := by
  rw [pickOrRoll]
  split
  · rfl
  dsimp only
  split
  · rfl
  · split <;> rfl

theorem quiet_runStackOp (op) : Quiet state (runStackOp ctx op state) := by
  unfold runStackOp
  split
  case h_2 => split <;> rfl
  case h_15 => exact quiet_pickOrRoll ..
  case h_16 => exact quiet_pickOrRoll ..
  all_goals rfl

theorem quiet_runLockTime (flag) (satisfied : Int → Bool)
    : Quiet state (runLockTime ctx flag satisfied state) := by
  rw [runLockTime]
  split
  · split <;> rfl
  split
  · rfl
  split
  · rfl
  split
  · rfl
  · split <;> rfl

theorem quiet_runIf (negated fExec) : Quiet state (runIf ctx negated fExec state) := by
  rw [runIf]
  split
  · split
    · rfl
    · split <;> rfl
  · rfl

theorem quiet_runBinaryOp (op) : Quiet state (runBinaryOp ctx op state) := by
  rw [runBinaryOp]
  split
  · split
    · dsimp only
      split
      · split <;> rfl
      · rfl
    · rfl
  · rfl

theorem quiet_runOperation {operation} (fExec)
    (plain : ∀ verifies, operation ≠ .opCheckSig verifies ∧ operation ≠ .opCheckMultisig verifies)
    : Quiet state (runOperation ctx operation fExec rest state) := by
  cases operation with
  | pushNumber n | opNop | opReturn | opCodeSeparator | badOpcode => rfl
  | opCheckLockTimeVerify | opCheckSequenceVerify => exact quiet_runLockTime ..
  | upgradableNop =>
    rw [runOperation]
    split <;> rfl
  | opIf negated => exact quiet_runIf ..
  | opElse =>
    rw [runOperation, runElse]
    split <;> rfl
  | opEndIf =>
    rw [runOperation, runEndIf]
    split <;> rfl
  | opVerify =>
    rw [runOperation, runVerify]
    split
    · rfl
    · split <;> rfl
  | stackOp op => exact quiet_runStackOp op
  | opEqual verifies =>
    rw [runOperation, runEqual]
    split
    · split
      · split <;> rfl
      · rfl
    · rfl
  | unaryOp op =>
    rw [runOperation, runUnaryOp]
    split
    · split <;> rfl
    · rfl
  | binaryOp op => exact quiet_runBinaryOp op
  | opWithin =>
    rw [runOperation, runWithin]
    split
    · split <;> rfl
    · rfl
  | hashOp op =>
    rw [runOperation, runHashOp]
    split <;> rfl
  | opCheckSig verifies => exact absurd rfl (plain verifies).1
  | opCheckMultisig verifies => exact absurd rfl (plain verifies).2

-- One operation

theorem checksMade_runCheckSig (verifies)
    : checksMade sigChecks (runCheckSig ctx verifies state)
      ≤ state.sigChecks + 1 := by
  rw [runCheckSig]
  split
  · dsimp only
    split
    · exact le_rfl
    split
    · split <;> exact le_rfl
    · exact le_rfl
  · exact Nat.le_succ _

theorem operand_eq {vch bn} (read : operand ctx vch = some bn) : bn = setVch vch := by
  rw [operand, scriptNum] at read
  split at read
  · cases read
  split at read
  · cases read
  · exact (Option.some.inj read).symm

theorem checksMade_runMultisig {keys sigs below verifies}
    : checksMade sigChecks (runMultisig ctx verifies keys sigs below state)
      ≤ state.sigChecks + keys.length := by
  have most := @checksSince_runMultisig ctx keys sigs below state verifies
  rw [checksSince] at most
  omega

theorem checksMade_runCheckMultisig {limit : Nat} (verifies)
    (counted : ∀ top ∈ state.stack.head?, getInt (setVch top) ≤ MAX_PUBKEYS_PER_MULTISIG →
      getInt (setVch top) ≤ limit)
    : checksMade sigChecks (runCheckMultisig ctx verifies state)
      ≤ state.sigChecks + limit := by
  have ends (error : ScriptError) : checksMade sigChecks (state.fail error)
      ≤ state.sigChecks + limit := Nat.le_add_right ..
  rw [runCheckMultisig]
  split
  · exact ends _
  rename_i keysCount below stack
  rw [stack] at counted
  split
  · exact ends _
  rename_i bn read
  rw [operand_eq read]
  have most := counted keysCount rfl
  dsimp only
  split
  · exact ends _
  rename_i inRange
  split
  · exact ends _
  split
  · exact ends _
  split
  · exact ends _
  split
  · exact ends _
  split
  · exact ends _
  refine Nat.le_trans checksMade_runMultisig (Nat.add_le_add_left ?_ _)
  rw [List.length_take]
  omega

/-- The top of the stack is the number that the last operation stands for, if it was executed. -/
def TopIs (lastOpcode : Byte) (state : EvalState) : Prop :=
  OP_1 ≤ lastOpcode → lastOpcode ≤ OP_16 → state.vfExec.all id = true →
    state.stack.head? = some (serializeNum (decodeOpN lastOpcode))

theorem decodeOpN_le : ∀ opcode : Byte, opcode ≤ OP_16 → decodeOpN opcode ≤ 16 := by
  decide

theorem opcode_of_checkSig : ∀ opcode verifies, decode opcode = .opCheckSig verifies →
    opcode = OP_CHECKSIG ∨ opcode = OP_CHECKSIGVERIFY := by
  decide

theorem opcode_of_checkMultisig : ∀ opcode verifies, decode opcode = .opCheckMultisig verifies →
    opcode = OP_CHECKMULTISIG ∨ opcode = OP_CHECKMULTISIGVERIFY := by
  decide

theorem checksMade_runOperation {lastOpcode : Byte} (opcode fExec)
    (executed : state.vfExec.all id = true) (top : TopIs lastOpcode state)
    : checksMade sigChecks (runOperation ctx (decode opcode) fExec rest state)
      ≤ state.sigChecks + sigOpWeight true lastOpcode opcode := by
  cases decoded : decode opcode with
  | opCheckSig verifies =>
    rw [sigOpWeight, if_pos (opcode_of_checkSig opcode verifies decoded)]
    exact checksMade_runCheckSig verifies
  | opCheckMultisig verifies =>
    have multisig := opcode_of_checkMultisig opcode verifies decoded
    have single : ¬ (opcode = OP_CHECKSIG ∨ opcode = OP_CHECKSIGVERIFY) := by
      rcases multisig with rfl | rfl <;> decide
    rw [sigOpWeight, if_neg single, if_pos multisig]
    apply checksMade_runCheckMultisig verifies
    intro keysCount head inRange
    split
    · -- the number of keys is the operation in front
      rename_i number
      have small := decodeOpN_le lastOpcode number.2.2
      rw [top number.2.1 number.2.2 executed, Option.mem_def, Option.some.injEq] at head
      rw [← head, setVch_serializeNum, getInt]
      omega
    · exact inRange
  | _ =>
    rw [← decoded]
    refine Nat.le_trans (Nat.le_of_eq (quiet_runOperation fExec ?_)) (Nat.le_add_right ..)
    simp [decoded]

-- One pass and the whole script

theorem plain_of_conditional : ∀ opcode : Byte, OP_IF ≤ opcode → opcode ≤ OP_ENDIF →
    ∀ verifies, decode opcode ≠ .opCheckSig verifies
      ∧ decode opcode ≠ .opCheckMultisig verifies := by
  decide

theorem checksMade_execute {lastOpcode opcode vchPushValue} (top : TopIs lastOpcode state)
    : checksMade sigChecks (execute ctx opcode vchPushValue rest state)
      ≤ state.sigChecks + sigOpWeight true lastOpcode opcode := by
  rw [execute]
  split
  · split <;> exact Nat.le_add_right ..
  split
  · rename_i runs
    by_cases executed : state.vfExec.all id = true
    · exact checksMade_runOperation opcode _ executed top
    have conditional := runs.resolve_left executed
    exact Nat.le_trans
      (Nat.le_of_eq (quiet_runOperation _
        (plain_of_conditional opcode conditional.1 conditional.2)))
      (Nat.le_add_right ..)
  · exact Nat.le_add_right ..

theorem checksMade_checkStackSize (result)
    : checksMade sigChecks (result >>= checkStackSize)
      = checksMade sigChecks result := by
  cases result with
  | error failure => rfl
  | ok state =>
    change checksMade sigChecks (checkStackSize state) = state.sigChecks
    rw [checkStackSize]
    split <;> rfl

/-- The number of operations is the only part that a pass changes before it executes. -/
theorem exists_counted (opcode) (state : EvalState)
    : ∃ nOpCount, (if opcode > OP_16 then { state with nOpCount := state.nOpCount + 1 } else state)
      = { state with nOpCount := nOpCount } := by
  split
  · exact ⟨_, rfl⟩
  · exact ⟨state.nOpCount, rfl⟩

theorem checksMade_step {lastOpcode opcode vchPushValue} (top : TopIs lastOpcode state)
    : checksMade sigChecks (step ctx opcode vchPushValue rest state)
      ≤ state.sigChecks + sigOpWeight true lastOpcode opcode := by
  obtain ⟨nOpCount, counted⟩ := exists_counted opcode state
  rw [step]
  split
  · exact Nat.le_add_right ..
  rw [counted]
  dsimp only
  split
  · exact Nat.le_add_right ..
  split
  · exact Nat.le_add_right ..
  rw [checksMade_checkStackSize]
  exact @checksMade_execute ctx { state with nOpCount := nOpCount } rest lastOpcode opcode
    vchPushValue top

theorem execute_of_step {opcode vchPushValue}
    (stepped : step ctx opcode vchPushValue rest state = .ok after)
    : ∃ nOpCount, execute ctx opcode vchPushValue rest { state with nOpCount := nOpCount }
      = .ok after := by
  obtain ⟨nOpCount, counted⟩ := exists_counted opcode state
  refine ⟨nOpCount, ?_⟩
  rw [step] at stepped
  split at stepped
  · cases stepped
  rw [counted] at stepped
  dsimp only at stepped
  split at stepped
  · cases stepped
  split at stepped
  · cases stepped
  cases executed : execute ctx opcode vchPushValue rest { state with nOpCount := nOpCount } with
  | error failure =>
    rw [executed] at stepped
    cases stepped
  | ok next =>
    rw [executed] at stepped
    change checkStackSize next = .ok after at stepped
    rw [checkStackSize] at stepped
    split at stepped
    · cases stepped
    · exact stepped

/-- After a pass for one of `OP_1` to `OP_16`, its number is on top, or it was skipped. -/
theorem topIs_of_step {opcode vchPushValue}
    (stepped : step ctx opcode vchPushValue rest state = .ok after) : TopIs opcode after := by
  intro above below executed
  have push : ¬ opcode ≤ OP_PUSHDATA4 :=
    fun under => absurd (BitVec.le_trans above under) (by decide)
  have unconditional : ¬ (OP_IF ≤ opcode ∧ opcode ≤ OP_ENDIF) :=
    fun between => absurd (BitVec.le_trans between.1 below) (by decide)
  obtain ⟨nOpCount, ran⟩ := execute_of_step stepped
  rw [execute, if_neg (fun both => push both.2),
    show decode opcode = .pushNumber (decodeOpN opcode) from if_pos ⟨above, below⟩] at ran
  split at ran
  · cases ran
    rfl
  rename_i skipped
  cases ran
  exact absurd (.inl executed) skipped

/-- The checks from any state on are bounded by the weights that are left, by induction on the
operations.
-/
theorem checksMade_evalLoop {lastOpcode} (script) (top : TopIs lastOpcode state)
    : checksMade sigChecks (evalLoop ctx script state)
      ≤ state.sigChecks + sigOpSum true script lastOpcode := by
  fun_induction evalLoop ctx script state generalizing lastOpcode with
  | case1 script state read ends | case2 script state read unread => exact Nat.le_add_right ..
  | case3 script state opcode vchPushValue rest read ih =>
    have one := @checksMade_step ctx state rest lastOpcode opcode vchPushValue top
    rw [sigOpSum_of_some read]
    cases stepped : step ctx opcode vchPushValue rest state with
    | error failure =>
      rw [stepped] at one
      exact Nat.le_trans one (by omega)
    | ok next =>
      rw [stepped] at one
      have left := ih next (topIs_of_step stepped)
      change checksMade sigChecks (evalLoop ctx rest next) ≤ _
      simp only [checksMade] at one
      omega

/-- A run of a script makes at most as many signature checks as its accurate count of signature
operations, whether it succeeds or not; `sigChecks` were made before the run.
-/
theorem evalScript_checks_le_sigOps (ctx : EvalContext) (stack : List (List Byte))
    (script : Script) (sigChecks : Nat)
    : checksMade Prod.snd (evalScript ctx stack script sigChecks)
      ≤ sigChecks + sigOps true script := by
  have start : TopIs OP_INVALIDOPCODE (EvalState.start stack script sigChecks) :=
    fun _ below => absurd below (by decide)
  have loop := @checksMade_evalLoop ctx _ _ script start
  rw [evalScript]
  split
  · exact Nat.le_add_right ..
  split
  · rename_i failure ran
    rw [ran] at loop
    exact loop
  · rename_i last ran
    rw [ran] at loop
    split <;> exact loop

end Pqcoin.Script
