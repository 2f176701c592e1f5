import Pqcoin.Coins.View
import Pqcoin.Consensus.Subsidy
import Pqcoin.Script.Sign
import Pqcoin.Validation.LockPoints

/-! `ConnectBlock` and `DisconnectBlock` of `validation.cpp`, with the checks that are made on
the inputs of a transaction.
-/

namespace Pqcoin

open Checks Script

/-- What block connection reads besides the block, its place in the chain and the view. The
script checks are kept as their verdicts: the text of the error, or `none`.
-/
structure ConnectContext where
  H : Hashing
  chainparams : ChainParams
  /-- `BIP34Height` and `BIP34Hash` of the parameters of height `0`. -/
  BIP34Height : Int
  BIP34Hash : Uint256
  /-- `nCoinbaseMaturity` of the parameters of a height. -/
  nCoinbaseMaturity : Int → Int
  /-- What the reward depends on, of the parameters of a height. -/
  subsidyParams : Int → SubsidyParams
  generateMTRandom : Nat → Int → Int
  /-- The states of the deployments after a block. -/
  csvActive : BlockIndex → Bool
  isWitnessEnabled : BlockIndex → Bool
  /-- Whether a block is not below the assumed valid one. -/
  fScriptChecks : BlockIndex → Bool
  nScriptCheckThreads : Nat
  scriptCheck : Transaction → Nat → TxOut → BitVec 32 → Option String
  formatMoney : Amount → String
  /-- How writing the undo data or the transaction index fails, if it does. -/
  writeFailure : Option ConnectFailure

/-- `STANDARD_NOT_MANDATORY_VERIFY_FLAGS`; only `SCRIPT_VERIFY_P2SH` is mandatory. -/
def STANDARD_NOT_MANDATORY_VERIFY_FLAGS : BitVec 32 :=
  STANDARD_SCRIPT_VERIFY_FLAGS &&& ~~~SCRIPT_VERIFY_P2SH

def rejectBlock (strRejectReason : String) : ConnectFailure :=
  .failed (invalid 100 strRejectReason)

def notAccepted (chRejectCode : BitVec 32) (strRejectReason strDebugMessage : String)
    : ConnectFailure :=
  .failed (.rejected ⟨0, chRejectCode, strRejectReason, false, strDebugMessage⟩)

namespace ConnectContext

variable (ctx : ConnectContext)

-- CheckInputs

def sumInputs (ctx : ConnectContext) (table : CoinsTable) (nSpendHeight : Int) (nValueIn : Tally 64)
    : List TxIn → Except ConnectFailure (Tally 64)
  | [] => .ok nValueIn
  | txin :: rest => do
      let coins := coinsAt table txin.prevout.hash
      let depth := nSpendHeight - coins.nHeight
      require (¬ (coins.fCoinBase ∧ depth < ctx.nCoinbaseMaturity coins.nHeight))
        (notAccepted REJECT_INVALID "bad-txns-premature-spend-of-coinbase"
          ("tried to spend coinbase at depth " ++ toString depth))
      let nValue := (getOutputFor table txin.prevout).nValue
      let nValueIn := nValueIn.add (Tally.of nValue)
      require (MoneyRange nValue ∧ MoneyRange nValueIn.amount)
        (rejectBlock "bad-txns-inputvalues-outofrange")
      sumInputs ctx table nSpendHeight nValueIn rest

/-- `CheckTxInputs`: the sums it has computed when it passes. -/
def checkTxInputs (table : CoinsTable) (nSpendHeight : Int) (tx : Transaction)
    : Except ConnectFailure (List (Tally 64)) := do
  require (haveInputs table tx) (notAccepted 0 "" "Inputs unavailable")
  let nValueIn ← ctx.sumInputs table nSpendHeight (Tally.of 0) tx.vin
  let nValueOut ← tx.getValueOut
  require (¬ nValueIn.amount.toInt < nValueOut.amount.toInt)
    (.failed (invalidBlock "bad-txns-in-belowout" false
      ("value in (" ++ ctx.formatMoney nValueIn.amount ++ ") < value out ("
        ++ ctx.formatMoney nValueOut.amount ++ ")")))
  let nTxFee := nValueIn.sub nValueOut
  require (¬ nTxFee.amount.toInt < 0) (rejectBlock "bad-txns-fee-negative")
  let nFees := (Tally.of 0).add nTxFee
  require (MoneyRange nFees.amount) (rejectBlock "bad-txns-fee-outofrange")
  return [nValueIn, nValueOut, nTxFee, nFees]

def checkScripts (ctx : ConnectContext) (flags : BitVec 32) (table : CoinsTable) (tx : Transaction)
    : Nat → List TxIn → Except ConnectFailure Unit
  | _, [] => .ok ()
  | nIn, txin :: rest =>
    let txout := getOutputFor table txin.prevout
    match ctx.scriptCheck tx nIn txout flags with
    | none => checkScripts ctx flags table tx (nIn + 1) rest
    | some error =>
      -- a failure of a flag that is not mandatory is reported in its own way
      if hasFlag flags STANDARD_NOT_MANDATORY_VERIFY_FLAGS
          && (ctx.scriptCheck tx nIn txout
            (flags &&& ~~~STANDARD_NOT_MANDATORY_VERIFY_FLAGS)).isNone then
        .error (notAccepted REJECT_NONSTANDARD
          ("non-mandatory-script-verify-flag (" ++ error ++ ")") "")
      else
        .error (rejectBlock ("mandatory-script-verify-flag-failed (" ++ error ++ ")"))

def scriptsPass (flags : BitVec 32) (table : CoinsTable) (tx : Transaction)
    : Bool :=
  tx.vin.zipIdx.all fun (txin, nIn) =>
    (ctx.scriptCheck tx nIn (getOutputFor table txin.prevout) flags).isNone

/-- The script checks of a transaction: made at once, or left to the threads, in which case
their verdict is returned.
-/
def scriptVerdict (fScriptChecks : Bool) (flags : BitVec 32) (table : CoinsTable) (tx : Transaction)
    : Except ConnectFailure Bool :=
  if !fScriptChecks then .ok true
  else if ctx.nScriptCheckThreads = 0 then
    (ctx.checkScripts flags table tx 0 tx.vin).map fun _ => true
  else .ok (ctx.scriptsPass flags table tx)

/-- `CheckInputs`, on a transaction that is no coinbase: the sums that were computed, and
whether the checks that are left to the threads pass.
-/
def checkInputs (fScriptChecks : Bool) (flags : BitVec 32) (table : CoinsTable)
    (nSpendHeight : Int) (tx : Transaction)
    : Except ConnectFailure (List (Tally 64) × Bool) := do
  let sums ← ctx.checkTxInputs table nSpendHeight tx
  let pass ← ctx.scriptVerdict fScriptChecks flags table tx
  return (sums, pass)

-- ConnectBlock

/-- The duplicate-txid rule is enforced: `pprev` does not descend from the block at
`BIP34Height` that is known.
-/
def enforcesBIP30 (pprev : BlockIndex) : Bool :=
  match if ctx.BIP34Height < 0 then none
    else pprev.getAncestor ctx.BIP34Height.toNat with
  | none => true
  | some pindexBIP34height => pindexBIP34height.hash != ctx.BIP34Hash

def scriptFlags (pindex pprev : BlockIndex) : BitVec 32 :=
  let consensus := ctx.chainparams.getConsensus 0
  SCRIPT_VERIFY_P2SH
    ||| (if consensus.BIP66Height ≤ pindex.nHeight then SCRIPT_VERIFY_DERSIG else 0)
    ||| (if consensus.BIP65Height ≤ pindex.nHeight then SCRIPT_VERIFY_CHECKLOCKTIMEVERIFY else 0)
    ||| (if ctx.csvActive pprev then SCRIPT_VERIFY_CHECKSEQUENCEVERIFY else 0)
    ||| (if ctx.isWitnessEnabled pprev then SCRIPT_VERIFY_WITNESS ||| SCRIPT_VERIFY_NULLDUMMY
      else 0)

/-- The variables of the loop of `ConnectBlock`, and every sum of amounts computed so far. -/
structure Connecting where
  table : CoinsTable
  nFees : Tally 64 := Tally.of 0
  nSigOpsCost : BitVec 64 := 0
  queuedPass : Bool := true
  sums : List (Tally 64) := []

/-- The inputs of a transaction are there, and its relative lock times have passed. -/
def checkFinal (pindex pprev : BlockIndex) (table : CoinsTable) (tx : Transaction)
    : Except ConnectFailure Unit :=
  let nLockTimeFlags := if ctx.csvActive pprev then LOCKTIME_VERIFY_SEQUENCE else 0
  let prevheights := tx.vin.map (fun txin => (coinsAt table txin.prevout.hash).nHeight)
  if tx.isCoinBase then .ok ()
  else if !haveInputs table tx then .error (rejectBlock "bad-txns-inputs-missingorspent")
  else
    match sequenceLocks tx nLockTimeFlags prevheights pindex with
    | none => .error .nullPointer
    | some false => .error (rejectBlock "bad-txns-nonfinal")
    | some true => .ok ()

/-- What a transaction that is no coinbase adds to the fees, and its `CheckInputs`. The view
still is the state after `pprev`, which fixes the spending height.
-/
def checkSpending (pindex pprev : BlockIndex) (tx : Transaction) (state : Connecting)
    : Except ConnectFailure Connecting :=
  if tx.isCoinBase then .ok state
  else do
    let nValueIn := getValueIn state.table tx
    let nValueOut ← tx.getValueOut
    let nTxFee := nValueIn.sub nValueOut
    let nFees := state.nFees.add nTxFee
    let (sums, pass) ← ctx.checkInputs (ctx.fScriptChecks pindex)
      (ctx.scriptFlags pindex pprev) state.table (pprev.nHeight + 1) tx
    return {
      state with
      nFees
      queuedPass := state.queuedPass && pass
      sums := state.sums ++ [nValueIn, nValueOut, nTxFee, nFees] ++ sums
    }

/-- A round of the loop of `ConnectBlock`: the undo data of the transaction, and the variables
afterwards.
-/
def connectTx (pindex pprev : BlockIndex) (tx : Transaction) (state : Connecting)
    : Except ConnectFailure (TxUndo × Connecting) := do
  ctx.checkFinal pindex pprev state.table tx
  let nSigOpsCost := state.nSigOpsCost + tx.getTransactionSigOpCost
    ⟨true, ctx.isWitnessEnabled pprev, fun _ => rfl⟩ (getOutputFor state.table)
  require (¬ nSigOpsCost.toInt > MAX_BLOCK_SIGOPS_COST) (rejectBlock "bad-blk-sigops")
  let state ← ctx.checkSpending pindex pprev tx { state with nSigOpsCost }
  let (txundo, table) ← updateCoins ctx.H tx pindex.nHeight state.table
  return (txundo, { state with table })

def connectLoop (ctx : ConnectContext) (pindex pprev : BlockIndex)
    : List Transaction → Connecting → Except ConnectFailure (BlockUndo × Connecting)
  | [], state => .ok ([], state)
  | tx :: rest, state => do
      let (txundo, state) ← ctx.connectTx pindex pprev tx state
      let (vtxundo, state) ← connectLoop ctx pindex pprev rest state
      return (txundo :: vtxundo, state)

/-- What `ConnectBlock` leaves when it succeeds: the view, the undo data that it has written,
and every sum of amounts that it has computed.
-/
structure Connected where
  view : ViewCache
  undo : Option BlockUndo
  sums : List (Tally 64)

def checkReward (pindex pprev : BlockIndex) (vtx : List Transaction) (state : Connecting)
    : Except ConnectFailure (List (Tally 64)) :=
  match getPqcoinBlockSubsidy ctx.generateMTRandom pindex.nHeight
    (ctx.subsidyParams pindex.nHeight) pprev.hash with
  | none => .error .undefinedSubsidy
  | some subsidy =>
    match vtx with
    | [] => .error .nullPointer
    | coinbase :: _ => do
        let blockReward := state.nFees.add (Tally.of (BitVec.ofInt 64 subsidy))
        let nValueOut ← coinbase.getValueOut
        require (¬ nValueOut.amount.toInt > blockReward.amount.toInt) (rejectBlock "bad-cb-amount")
        return [blockReward, nValueOut]

def finish (fJustCheck : Bool) (pindex : BlockIndex) (view : ViewCache)
    (vtxundo : BlockUndo) (table : CoinsTable) (sums : List (Tally 64))
    : Except ConnectFailure Connected :=
  if fJustCheck then .ok ⟨{ view with table }, none, sums⟩
  else
    match ctx.writeFailure with
    | some failure => .error failure
    | none => .ok ⟨⟨table, pindex.hash⟩, some vtxundo.tail, sums⟩

def connectTransactions (fJustCheck : Bool) (vtx : List Transaction)
    (pindex pprev : BlockIndex) (view : ViewCache)
    : Except ConnectFailure Connected := do
  require (ctx.enforcesBIP30 pprev = true
      → ∀ tx ∈ vtx, (coinsAt view.table (tx.getHash ctx.H)).isPruned = true)
    (rejectBlock "bad-txns-BIP30")
  let (vtxundo, state) ← ctx.connectLoop pindex pprev vtx { table := view.table }
  let sums ← ctx.checkReward pindex pprev vtx state
  require state.queuedPass (.failed (.rejected ⟨100, 0, "", false, ""⟩))
  ctx.finish fJustCheck pindex view vtxundo state.table (state.sums ++ sums)

def connectBlock (fJustCheck : Bool) (block : Block) (pindex : BlockIndex) (view : ViewCache)
    : Except ConnectFailure Connected :=
  match checkBlock ctx.H ctx.chainparams (!fJustCheck) (!fJustCheck) block with
  | .error .assertion => .error (.failed .assertion)
  | .error (.rejected rejection) =>
    if rejection.corruptionPossible then
      .error (.aborted "Corrupt block found indicating potential hardware failure; shutting down")
    else .error (.failed (.rejected rejection))
  | .ok _ =>
    let hashPrevBlock := (pindex.pprev.map BlockIndex.hash).getD 0
    if hashPrevBlock ≠ view.hashBlock then .error (.failed .assertion)
    else if block.getHash ctx.H
        = (ctx.chainparams.getConsensus 0).hashGenesisBlock then
      -- the coinbase of the genesis block is unspendable
      .ok ⟨if fJustCheck then view else { view with hashBlock := pindex.hash }, none, []⟩
    else
      match pindex.pprev with
      | none => .error .nullPointer
      | some pprev => ctx.connectTransactions fJustCheck block.vtx pindex pprev view

-- What a connected block has passed

section Passed

variable {ctx : ConnectContext} {fJustCheck : Bool} {pindex pprev : BlockIndex}
  {tx : Transaction} {vtx : List Transaction} {view : ViewCache}

/-- A round of the loop checks the transaction on the coins before it, and then updates them. -/
theorem connectTx_ok {state after} {txundo}
    (connected : ctx.connectTx pindex pprev tx state = .ok (txundo, after))
    : updateCoins ctx.H tx pindex.nHeight state.table = .ok (txundo, after.table)
      ∧ (tx.isCoinBase = true → after.nFees = state.nFees ∧ after.sums = state.sums)
      ∧ (tx.isCoinBase = false → ∃ nValueOut sums,
        tx.getValueOut = .ok nValueOut
        ∧ ctx.checkTxInputs state.table (pprev.nHeight + 1) tx = .ok sums
        ∧ after.nFees = state.nFees.add ((getValueIn state.table tx).sub nValueOut)
        ∧ after.sums = state.sums
            ++ [getValueIn state.table tx, nValueOut, (getValueIn state.table tx).sub nValueOut,
              after.nFees] ++ sums) := by
  simp only [connectTx, bind_ok, pure, Except.pure, Except.ok.injEq] at connected
  obtain ⟨_, -, _, -, checked, spending, ⟨txundo', table⟩, updated, ends⟩ := connected
  cases ends
  cases coinBase : tx.isCoinBase with
  | true =>
    rw [checkSpending, if_pos coinBase] at spending
    cases spending
    exact ⟨updated, fun _ => ⟨rfl, rfl⟩, by simp⟩
  | false =>
    rw [checkSpending, if_neg (by simp [coinBase])] at spending
    simp only [checkInputs, bind_ok, pure, Except.pure, Except.ok.injEq] at spending
    obtain ⟨nValueOut, valueOut, _, ⟨sums, passed, pass, -, rfl⟩, rfl⟩ := spending
    exact ⟨updated, by simp, fun _ => ⟨nValueOut, sums, valueOut, passed, rfl, rfl⟩⟩

theorem connectLoop_cons {state after} {undo}
    (connected : ctx.connectLoop pindex pprev (tx :: vtx) state = .ok (undo, after))
    : ∃ txundo vtxundo middle, undo = txundo :: vtxundo
      ∧ ctx.connectTx pindex pprev tx state = .ok (txundo, middle)
      ∧ ctx.connectLoop pindex pprev vtx middle = .ok (vtxundo, after) := by
  simp only [connectLoop, bind_ok, pure, Except.pure, Except.ok.injEq] at connected
  obtain ⟨⟨txundo, middle⟩, first, ⟨vtxundo, last⟩, rest, ends⟩ := connected
  cases ends
  exact ⟨txundo, vtxundo, middle, rfl, first, rest⟩

theorem connectTransactions_ok {connected}
    (accepted : ctx.connectTransactions fJustCheck vtx pindex pprev view = .ok connected)
    : (ctx.enforcesBIP30 pprev = true
        → ∀ tx ∈ vtx, (coinsAt view.table (tx.getHash ctx.H)).isPruned = true)
      ∧ ∃ vtxundo state sums,
        ctx.connectLoop pindex pprev vtx { table := view.table } = .ok (vtxundo, state)
        ∧ ctx.checkReward pindex pprev vtx state = .ok sums
        ∧ connected.view.table = state.table
        ∧ connected.sums = state.sums ++ sums
        ∧ (fJustCheck = false
          → connected.view.hashBlock = pindex.hash ∧ connected.undo = some vtxundo.tail) := by
  simp only [connectTransactions, require_ok, bind_ok] at accepted
  obtain ⟨_, bip30, ⟨vtxundo, state⟩, loop, sums, reward, _, -, finished⟩ := accepted
  refine ⟨bip30, vtxundo, state, sums, loop, reward, ?_⟩
  rw [finish] at finished
  split at finished
  · rename_i justCheck
    cases finished
    exact ⟨rfl, rfl, fun other => absurd (justCheck.symm.trans other) (by decide)⟩
  split at finished
  · cases finished
  cases finished
  exact ⟨rfl, rfl, fun _ => ⟨rfl, rfl⟩⟩

theorem connectBlock_ok {block} {connected}
    (accepted : ctx.connectBlock fJustCheck block pindex view = .ok connected)
    : Accepted ctx.H ctx.chainparams (!fJustCheck) (!fJustCheck) block
      ∧ (pindex.pprev.map BlockIndex.hash).getD 0 = view.hashBlock
      ∧ ((connected.view.table = view.table ∧ connected.undo = none ∧ connected.sums = [])
        ∨ ∃ pprev, pindex.pprev = some pprev
          ∧ ctx.connectTransactions fJustCheck block.vtx pindex pprev view
            = .ok connected) := by
  rw [connectBlock] at accepted
  split at accepted
  · cases accepted
  · split at accepted <;> cases accepted
  · rename_i checked passed
    dsimp only at accepted
    split at accepted
    · cases accepted
    rename_i best
    refine ⟨⟨checked, passed⟩, not_not.mp best, ?_⟩
    split at accepted
    · cases accepted
      refine .inl ⟨?_, rfl, rfl⟩
      dsimp only
      split <;> rfl
    · split at accepted
      · cases accepted
      rename_i pprev parent
      exact .inr ⟨pprev, parent, accepted⟩

end Passed

end ConnectContext

-- DisconnectBlock

end Pqcoin
