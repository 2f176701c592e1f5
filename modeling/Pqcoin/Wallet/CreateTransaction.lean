import Pqcoin.Consensus.Subsidy
import Pqcoin.Policy.FeeRate
import Pqcoin.Wallet.SignedSize

/-! `CWallet::CreateTransaction`: the passes over outputs, coins and fee, and the signatures
at the end. What the wallet selects, reserves and draws is the environment of a pass.
-/

namespace Pqcoin

open Script

-- Fees

def TxOut.isDust (txout : TxOut) (dustLimit : Amount) : Bool :=
  !isUnspendable txout.scriptPubKey && decide (txout.nValue.toInt < dustLimit.toInt)

def getPqcoinDustFee (vout : List TxOut) (dustLimit : Amount) : Amount :=
  vout.foldl (fun nFee txout => if txout.isDust dustLimit then nFee + dustLimit else nFee) 0

def maxAmount (a b : Amount) : Amount := if a.toInt < b.toInt then b else a

inductive FeeRatePreset where
  | minimum | more | wow | amaze | manyGenerous | suchExpensive
  deriving DecidableEq

/-- The settings of the wallet and the node that `CreateTransaction` reads. -/
structure FeeSettings where
  minTxFee : FeeRate
  payTxFee : FeeRate
  maxTxFee : Amount
  minRelayTxFeeRate : FeeRate
  discardThreshold : Amount
  fWalletRbf : Bool
  fSendFreeTransactions : Bool
  walletRejectLongChains : Bool

namespace FeeSettings

variable (cfg : FeeSettings)

def getPqcoinFeeRate : FeeRatePreset → FeeRate
  | .suchExpensive => ⟨(BitVec.ofInt 64 COIN).sdiv 100 * 521⟩
  | .manyGenerous => ⟨cfg.minTxFee.nSatoshisPerK * 100⟩
  | .amaze => ⟨cfg.minTxFee.nSatoshisPerK * 10⟩
  | .wow => ⟨cfg.minTxFee.nSatoshisPerK * 5⟩
  | .more => ⟨cfg.minTxFee.nSatoshisPerK * 2⟩
  | .minimum => cfg.minTxFee

def getRequiredFee (vout : List TxOut) (nTxBytes : Nat) : Amount :=
  maxAmount (cfg.minTxFee.getFee nTxBytes + getPqcoinDustFee vout cfg.discardThreshold)
    (cfg.minRelayTxFeeRate.getFee nTxBytes)

/-- The end of `GetMinimumFee` and `GetPqcoinPriorityFee`, which differ in the fee they take
where the user has set none.
-/
def limitFee (targetFee unsetFee : Amount) (vout : List TxOut) (nTxBytes : Nat) : Amount :=
  let nFeeNeeded := if targetFee = 0 then unsetFee else targetFee
  let nFeeNeeded := maxAmount nFeeNeeded (cfg.getRequiredFee vout nTxBytes)
  if cfg.maxTxFee.toInt < nFeeNeeded.toInt then cfg.maxTxFee else nFeeNeeded

def getMinimumFee (vout : List TxOut) (nTxBytes : Nat) : Amount :=
  cfg.limitFee (cfg.payTxFee.getFee nTxBytes) (cfg.getRequiredFee vout nTxBytes)
    vout nTxBytes

def getPqcoinPriorityFee (vout : List TxOut) (nTxBytes : Nat) (nPriority : FeeRatePreset)
    : Amount :=
  cfg.limitFee (cfg.payTxFee.getFee nTxBytes)
    ((cfg.getPqcoinFeeRate nPriority).getFee nTxBytes) vout nTxBytes

end FeeSettings

-- Requests

structure Recipient where
  scriptPubKey : Script
  nAmount : Amount
  fSubtractFeeFromAmount : Bool

structure CoinControl where
  destChange : TxDestination
  nMinimumTotalFee : Amount
  fOverrideFeeRate : Bool
  nFeeRate : FeeRate
  nPriority : FeeRatePreset

structure CreateRequest where
  vecSend : List Recipient
  nChangePosRequest : BitVec 32
  coinControl : Option CoinControl

/-- A coin of `setCoins`: the output of a wallet transaction. -/
structure SelectedCoin where
  prevout : OutPoint
  txout : TxOut
  depth : Int
  deriving DecidableEq

/-- What the wallet answers during one pass: `SelectCoins` for a value to select, the reserved
key, the number that `GetRandInt` reduces, whether the priority is enough for a free
transaction, and the memory below the key objects of the placeholders.
-/
structure PassEnvironment where
  selectCoins : Amount → Option (List SelectedCoin × Amount)
  reservedKey : Option PubKey
  nRand : Nat
  enoughPriority : Bool
  memory : Nat → Nat → Nat → PubKey

/-- What the node and the wallet answer during a call. -/
structure CreateEnvironment where
  nLockTime : BitVec 32
  passes : Nat → PassEnvironment
  choices : Nat → SigningChoices
  memory : Nat → Nat → Nat → PubKey
  tooLongChain : Transaction → Bool

/-- How `CreateTransaction` ends without a transaction. -/
inductive CreateFailure where
  | failed (strFailReason : String)
  | aborted
  deriving DecidableEq

-- Outputs and change

/-- The loop over the recipients before the passes: `nValue` and `nSubtractFeeFromAmount`. -/
def sumRecipients (nValue : Amount) (nSubtractFeeFromAmount : Nat)
    : List Recipient → Except CreateFailure (Amount × Nat)
  | [] => .ok (nValue, nSubtractFeeFromAmount)
  | recipient :: rest =>
    if nValue.toInt < 0 ∨ recipient.nAmount.toInt < 0 then
      .error (.failed "Transaction amounts must not be negative")
    else
      sumRecipients (nValue + recipient.nAmount)
        (if recipient.fSubtractFeeFromAmount then nSubtractFeeFromAmount + 1
          else nSubtractFeeFromAmount) rest

/-- The output of a recipient before its check, which may pay a share of the fee. -/
def Recipient.toTxOut (recipient : Recipient) (nFeeRet : Amount) (nSubtractFeeFromAmount : Nat)
    (fFirst : Bool)
    : TxOut :=
  let count : Amount := BitVec.ofNat 64 nSubtractFeeFromAmount
  let share := nFeeRet.sdiv count + if fFirst then nFeeRet.srem count else 0
  ⟨if recipient.fSubtractFeeFromAmount then recipient.nAmount - share else recipient.nAmount,
    recipient.scriptPubKey⟩

def dustReason (recipient : Recipient) (txout : TxOut) (nFeeRet : Amount) : String :=
  if recipient.fSubtractFeeFromAmount ∧ 0 < nFeeRet.toInt then
    if txout.nValue.toInt < 0 then "The transaction amount is too small to pay the fee"
    else "The transaction amount is too small to send after the fee has been deducted"
  else "Transaction amount too small"

def recipientOutputs (discardThreshold nFeeRet : Amount) (nSubtractFeeFromAmount : Nat)
    (fFirst : Bool)
    : List Recipient → Except CreateFailure (List TxOut)
  | [] => .ok []
  | recipient :: rest =>
    let txout := recipient.toTxOut nFeeRet nSubtractFeeFromAmount fFirst
    if txout.isDust discardThreshold then
      .error (.failed (dustReason recipient txout nFeeRet))
    else
      (recipientOutputs discardThreshold nFeeRet nSubtractFeeFromAmount
        (fFirst && !recipient.fSubtractFeeFromAmount) rest).map (txout :: ·)

def deductFromFirst (discardThreshold changeDelta : Amount)
    : List Recipient → List TxOut → Except CreateFailure (List TxOut)
  | recipient :: rest, txout :: vout =>
    if recipient.fSubtractFeeFromAmount then
      let reduced := { txout with nValue := txout.nValue - changeDelta }
      if reduced.isDust discardThreshold then
        .error (.failed
          "The transaction amount is too small to send after the fee has been deducted")
      else .ok (reduced :: vout)
    else (deductFromFirst discardThreshold changeDelta rest vout).map (txout :: ·)
  | _, vout => .ok vout

/-- The variables of a pass that the change is written to. -/
structure ChangedOutputs where
  vout : List TxOut
  nChangePosInOut : BitVec 32
  nFeeRet : Amount

def NO_CHANGE : BitVec 32 := -1

section Pass

variable (D : Digests) (cfg : FeeSettings) (req : CreateRequest) (env : PassEnvironment)

/-- The script of the change: the destination of coin control, or a reserved key. -/
def changeScript : Except CreateFailure Script :=
  let reserved :=
    match env.reservedKey with
    | none => .error (.failed "Keypool ran out, please call keypoolrefill first")
    | some vchPubKey => .ok (getScriptForDestination (.keyID (vchPubKey.getID D)))
  match req.coinControl with
  | none => reserved
  | some coinControl =>
    if coinControl.destChange = .none then reserved
    else .ok (getScriptForDestination coinControl.destChange)

def insertChange (outputs : List TxOut) (nChange nFeeRet : Amount) (newTxOut : TxOut)
    : Except CreateFailure ChangedOutputs :=
  if newTxOut.isDust cfg.discardThreshold then
    .ok ⟨outputs, NO_CHANGE, nFeeRet + nChange⟩
  else if req.nChangePosRequest = NO_CHANGE then
    let pos := env.nRand % (outputs.length + 1)
    .ok ⟨outputs.insertIdx pos newTxOut, BitVec.ofNat 32 pos, nFeeRet⟩
  else if outputs.length < req.nChangePosRequest.toNat then
    .error (.failed "Change idx out of range")
  else
    .ok ⟨outputs.insertIdx req.nChangePosRequest.toNat newTxOut, req.nChangePosRequest,
      nFeeRet⟩

def addChange (nSubtractFeeFromAmount : Nat) (outputs : List TxOut) (nChange nFeeRet : Amount)
    : Except CreateFailure ChangedOutputs :=
  if 0 < nChange.toInt then
    match changeScript D req env with
    | .error failure => .error failure
    | .ok scriptChange =>
      let newTxOut : TxOut := ⟨nChange, scriptChange⟩
      if 0 < nSubtractFeeFromAmount ∧ newTxOut.isDust cfg.discardThreshold then
        let changeDelta := cfg.discardThreshold - newTxOut.nValue
        match deductFromFirst cfg.discardThreshold changeDelta req.vecSend outputs with
        | .error failure => .error failure
        | .ok vout =>
          insertChange cfg req env vout nChange nFeeRet
            { newTxOut with nValue := newTxOut.nValue + changeDelta }
      else insertChange cfg req env outputs nChange nFeeRet newTxOut
  else .ok ⟨outputs, NO_CHANGE, nFeeRet⟩

end Pass

-- The fee of a pass

def MAX_FREE_TRANSACTION_CREATE_SIZE : Nat := 0

def MAX_STANDARD_TX_WEIGHT : Nat := 400000000

/-- The variables that a finished pass leaves. -/
structure Built where
  txNew : Transaction
  setCoins : List SelectedCoin
  nFeeRet : Amount
  nChangePosInOut : BitVec 32
  deriving DecidableEq

/-- How a pass ends: `break`, or `continue` with a higher fee. -/
inductive PassResult where
  | finished (built : Built)
  | again (nFeeRet : Amount)

def CoinControl.adjustFee (coinControl : CoinControl) (nBytes : Nat) (nFeeNeeded : Amount)
    : Amount :=
  if coinControl.fOverrideFeeRate then coinControl.nFeeRate.getFee nBytes
  else if 0 < nFeeNeeded.toInt ∧ nFeeNeeded.toInt < coinControl.nMinimumTotalFee.toInt then
    coinControl.nMinimumTotalFee
  else nFeeNeeded

def feeNeeded (cfg : FeeSettings) (coinControl : Option CoinControl) (vout : List TxOut)
    (nBytes : Nat)
    : Amount :=
  match coinControl with
  | none => cfg.getMinimumFee vout nBytes
  | some coinControl =>
    coinControl.adjustFee nBytes
      (if coinControl.nPriority = .minimum then cfg.getMinimumFee vout nBytes
        else cfg.getPqcoinPriorityFee vout nBytes coinControl.nPriority)

def Built.adjustChange (built : Built) (diff : Amount) : Built :=
  { built with
    txNew.vout := built.txNew.vout.modify built.nChangePosInOut.toNat
      (fun change => { change with nValue := change.nValue + diff })
    nFeeRet := built.nFeeRet - diff }

/-- A change output is there to be adjusted, and no recipient pays the fee. -/
def Built.hasChange (built : Built) (nSubtractFeeFromAmount : Nat) : Bool :=
  built.nChangePosInOut != NO_CHANGE && nSubtractFeeFromAmount == 0

/-- The end of a pass, for a transaction whose placeholders make it `nBytes` long. -/
def settleFee (cfg : FeeSettings) (req : CreateRequest) (env : PassEnvironment)
    (nSubtractFeeFromAmount nBytes : Nat) (built : Built)
    : Except CreateFailure PassResult :=
  if cfg.fSendFreeTransactions && decide (nBytes ≤ MAX_FREE_TRANSACTION_CREATE_SIZE)
      && env.enoughPriority then
    .ok (.finished built)
  else
    let nFeeNeeded := feeNeeded cfg req.coinControl built.txNew.vout nBytes
    if nFeeNeeded.toInt < (cfg.minRelayTxFeeRate.getFee nBytes).toInt then
      .error (.failed "Transaction too large for fee policy")
    else if nFeeNeeded.toInt ≤ built.nFeeRet.toInt then
      if nFeeNeeded.toInt < built.nFeeRet.toInt ∧ built.hasChange nSubtractFeeFromAmount then
        .ok (.finished (built.adjustChange (built.nFeeRet - nFeeNeeded)))
      else .ok (.finished built)
    else
      let additionalFeeNeeded := nFeeNeeded - built.nFeeRet
      let enough (change : TxOut) : Bool :=
        decide ((cfg.discardThreshold + additionalFeeNeeded).toInt ≤ change.nValue.toInt)
      if built.hasChange nSubtractFeeFromAmount
          ∧ (built.txNew.vout[built.nChangePosInOut.toNat]?).any enough then
        .ok (.finished (built.adjustChange (-additionalFeeNeeded)))
      else .ok (.again nFeeNeeded)

-- CreateTransaction

def CURRENT_VERSION : BitVec 32 := 1

/-- The input for a coin; a replaceable one leaves room below the highest sequence numbers. -/
def SelectedCoin.toTxIn (coin : SelectedCoin) (fWalletRbf : Bool) : TxIn :=
  ⟨coin.prevout, [], 0xffffffff - (if fWalletRbf then 2 else 1), []⟩

section Create

variable (S : SignatureScheme) (D : Digests) (C : Cipher) (store : SigningStore)
variable (cfg : FeeSettings) (req : CreateRequest)

/-- A pass up to the fee: the transaction, and its size with placeholders for signatures. -/
def preparePass (nLockTime : BitVec 32) (nValue : Amount) (nSubtractFeeFromAmount : Nat)
    (env : PassEnvironment) (nFeeRet : Amount)
    : Except CreateFailure (Nat × Built) :=
  let nValueToSelect := if nSubtractFeeFromAmount = 0 then nValue + nFeeRet else nValue
  match recipientOutputs cfg.discardThreshold nFeeRet nSubtractFeeFromAmount true
      req.vecSend with
  | .error failure => .error failure
  | .ok outputs =>
    match env.selectCoins nValueToSelect with
    | none => .error (.failed "Insufficient funds")
    | some (setCoins, nValueIn) =>
      if setCoins.any (fun coin => decide (coin.depth < 0)) then .error .aborted
      else
        match addChange D cfg req env nSubtractFeeFromAmount outputs
            (nValueIn - nValueToSelect) nFeeRet with
        | .error failure => .error failure
        | .ok changed =>
          let txNew : Transaction :=
            ⟨CURRENT_VERSION, setCoins.map (·.toTxIn cfg.fWalletRbf), changed.vout, nLockTime⟩
          match dummySignTx D store env.memory txNew (setCoins.map (·.txout)) with
          | none => .error (.failed "1Signing transaction failed")
          | some dummy =>
            .ok (dummy.getVirtualTransactionSize % 2 ^ 32,
              ⟨txNew, setCoins, changed.nFeeRet, changed.nChangePosInOut⟩)

def createPass (nLockTime : BitVec 32) (nValue : Amount) (nSubtractFeeFromAmount : Nat)
    (env : PassEnvironment) (nFeeRet : Amount)
    : Except CreateFailure PassResult :=
  match preparePass D store cfg req nLockTime nValue nSubtractFeeFromAmount env
      nFeeRet with
  | .error failure => .error failure
  | .ok (nBytes, built) => settleFee cfg req env nSubtractFeeFromAmount nBytes built

def createLoop (env : CreateEnvironment) (nValue : Amount) (nSubtractFeeFromAmount : Nat)
    : Nat → Nat → Amount → Option (Except CreateFailure Built)
  | 0, _, _ => none
  | fuel + 1, pass, nFeeRet =>
    match createPass D store cfg req env.nLockTime nValue nSubtractFeeFromAmount
        (env.passes pass) nFeeRet with
    | .error failure => some (.error failure)
    | .ok (.finished built) => some (.ok built)
    | .ok (.again nFeeRet) =>
      createLoop env nValue nSubtractFeeFromAmount fuel (pass + 1) nFeeRet

/-- `CreateTransaction` behind the loop: signatures and limits. -/
def finishTransaction (env : CreateEnvironment) (sign : Bool) (built : Built)
    : Except CreateFailure Transaction :=
  let signed :=
    if sign then
      signTx S D C store env.choices env.memory built.txNew (built.setCoins.map (·.txout))
    else some built.txNew
  match signed with
  | none => .error (.failed "Signing transaction failed")
  | some tx =>
    if MAX_STANDARD_TX_WEIGHT ≤ tx.getTransactionWeight then
      .error (.failed "Transaction too large")
    else if cfg.walletRejectLongChains && env.tooLongChain tx then
      .error (.failed "Transaction has too long of a mempool chain")
    else .ok tx

/-- What `CreateTransaction` returns: `wtxNew`, `nFeeRet` and `nChangePosInOut`. -/
structure CreatedTransaction where
  tx : Transaction
  nFeeRet : Amount
  nChangePosInOut : BitVec 32
  deriving DecidableEq

/-- `CreateTransaction`; `none` when the loop needs more passes. -/
def createTransaction (env : CreateEnvironment) (sign : Bool) (fuel : Nat)
    : Option (Except CreateFailure CreatedTransaction) :=
  match sumRecipients 0 0 req.vecSend with
  | .error failure => some (.error failure)
  | .ok (nValue, nSubtractFeeFromAmount) =>
    if req.vecSend.isEmpty then
      some (.error (.failed "Transaction must have at least one recipient"))
    else
      match createLoop D store cfg req env nValue nSubtractFeeFromAmount fuel 0 0 with
      | none => none
      | some (.error failure) => some (.error failure)
      | some (.ok built) =>
        some ((finishTransaction S D C store cfg env sign built).map
          (fun tx => ⟨tx, built.nFeeRet, built.nChangePosInOut⟩))

end Create

-- Passes that finish

/-- The values of the outputs do not count for the weight. -/
theorem getTransactionWeight_congr {first second : Transaction} (vin : first.vin = second.vin)
    (scripts : first.vout.map (·.scriptPubKey) = second.vout.map (·.scriptPubKey))
    : first.getTransactionWeight = second.getTransactionWeight := by
  have outputs : ∀ vout : List TxOut, (serializeVector TxOut.serialize vout).length
      = (writeCompactSize (vout.map (·.scriptPubKey)).length).length
        + ((vout.map (·.scriptPubKey)).map (fun script =>
          8 + (serializeBytes script).length)).sum := by
    intro vout
    simp [serializeVector, List.length_flatMap, TxOut.serialize, Function.comp_def]
  rw [Transaction.getTransactionWeight_eq, Transaction.getTransactionWeight_eq, outputs, outputs,
    scripts, vin, Transaction.hasWitness, Transaction.hasWitness, vin]

namespace Built

variable {cfg : FeeSettings} {req : CreateRequest} {env : PassEnvironment}

theorem nFeeRet_lowered (built : Built) (nFeeNeeded)
    : (built.adjustChange (built.nFeeRet - nFeeNeeded)).nFeeRet = nFeeNeeded := by
  simp only [adjustChange]
  bv_omega

theorem nFeeRet_raised (built : Built) (nFeeNeeded)
    : (built.adjustChange (-(nFeeNeeded - built.nFeeRet))).nFeeRet = nFeeNeeded := by
  simp only [adjustChange]
  bv_omega

theorem scripts_adjustChange (built : Built) (diff)
    : (built.adjustChange diff).txNew.vout.map (·.scriptPubKey)
      = built.txNew.vout.map (·.scriptPubKey) := by
  apply List.ext_getElem?
  intro pos
  simp only [adjustChange, List.getElem?_map, List.getElem?_modify]
  split <;> simp [Function.comp_def]

/-- What a pass that finishes has done: the placeholders were there, and their size is paid. -/
structure Estimated (D : Digests) (store : SigningStore) (cfg : FeeSettings)
    (built : Built) (dummy : Transaction)
    : Prop where
  aligned : (built.setCoins.map (·.txout)).length = built.txNew.vin.length
  placed : ∃ memory, dummySignTx D store memory built.txNew (built.setCoins.map (·.txout))
    = some dummy
  paid : 0 < dummy.getVirtualTransactionSize % 2 ^ 32
    → (cfg.minRelayTxFeeRate.getFee (dummy.getVirtualTransactionSize % 2 ^ 32)).toInt
      ≤ built.nFeeRet.toInt

theorem settleFee_finished {nSubtract nBytes built result}
    (ran : settleFee cfg req env nSubtract nBytes built
      = .ok (.finished result))
    : (result = built ∨ ∃ diff, result = built.adjustChange diff)
      ∧ (0 < nBytes
        → (cfg.minRelayTxFeeRate.getFee nBytes).toInt ≤ result.nFeeRet.toInt) := by
  rw [settleFee] at ran
  split at ran
  · rename_i free
    cases ran
    simp only [Bool.and_eq_true, decide_eq_true_eq] at free
    exact ⟨.inl rfl, fun pos => absurd free.1.2 (Nat.not_le_of_lt pos)⟩
  · simp only at ran
    split at ran
    · cases ran
    rename_i relayed
    split at ran
    · split at ran
      · cases ran
        refine ⟨.inr ⟨_, rfl⟩, fun _ => ?_⟩
        rw [nFeeRet_lowered]
        omega
      · cases ran
        exact ⟨.inl rfl, fun _ => by omega⟩
    · split at ran
      · cases ran
        refine ⟨.inr ⟨_, rfl⟩, fun _ => ?_⟩
        rw [nFeeRet_raised]
        omega
      · cases ran

/-- The placeholders and their size do not depend on the value of the change. -/
theorem Estimated.adjustChange {D : Digests} {store} {built : Built} {dummy} {diff}
    (aligned : (built.setCoins.map (·.txout)).length = built.txNew.vin.length) {memory}
    (placed : dummySignTx D store memory built.txNew (built.setCoins.map (·.txout))
      = some dummy)
    (paid : 0 < dummy.getVirtualTransactionSize % 2 ^ 32
      → (cfg.minRelayTxFeeRate.getFee (dummy.getVirtualTransactionSize % 2 ^ 32)).toInt
        ≤ (built.adjustChange diff).nFeeRet.toInt)
    : ∃ adjusted, (built.adjustChange diff).Estimated D store cfg adjusted := by
  obtain ⟨vin, filled, rfl⟩ := Option.map_eq_some_iff.mp placed
  refine ⟨{ (built.adjustChange diff).txNew with vin := vin }, aligned, ⟨memory, ?_⟩, ?_⟩
  · rw [dummySignTx]
    exact Option.map_eq_some_iff.mpr ⟨vin, filled, rfl⟩
  · have weight : ({ (built.adjustChange diff).txNew with vin := vin }
        : Transaction).getTransactionWeight
        = ({ built.txNew with vin := vin } : Transaction).getTransactionWeight :=
      getTransactionWeight_congr rfl (scripts_adjustChange built diff)
    rw [Transaction.getVirtualTransactionSize] at paid ⊢
    rw [weight]
    exact paid

end Built

section Create

variable {S : SignatureScheme} {D : Digests} {C : Cipher} {store : SigningStore}
variable {cfg : FeeSettings} {req : CreateRequest}

/-- The steps of a pass up to the fee. -/
theorem preparePass_cases {nLockTime nValue nFeeRet env} {nSubtract nBytes : Nat} {built : Built}
    (ran : preparePass D store cfg req nLockTime nValue nSubtract env nFeeRet
      = .ok (nBytes, built))
    : ∃ outputs setCoins nValueIn changed dummy,
        recipientOutputs cfg.discardThreshold nFeeRet nSubtract true
          req.vecSend = .ok outputs
        ∧ env.selectCoins (if nSubtract = 0 then nValue + nFeeRet else nValue)
          = some (setCoins, nValueIn)
        ∧ addChange D cfg req env nSubtract outputs
            (nValueIn - if nSubtract = 0 then nValue + nFeeRet else nValue) nFeeRet
          = .ok changed
        ∧ dummySignTx D store env.memory built.txNew (setCoins.map (·.txout)) = some dummy
        ∧ nBytes = dummy.getVirtualTransactionSize % 2 ^ 32
        ∧ built = ⟨⟨CURRENT_VERSION, setCoins.map (·.toTxIn cfg.fWalletRbf), changed.vout,
            nLockTime⟩, setCoins, changed.nFeeRet, changed.nChangePosInOut⟩ := by
  rw [preparePass] at ran
  dsimp only at ran
  split at ran
  · cases ran
  rename_i outputs paid
  split at ran
  · cases ran
  rename_i setCoins nValueIn selected
  split at ran
  · cases ran
  split at ran
  · cases ran
  rename_i changed added
  split at ran
  · cases ran
  rename_i dummy placed
  cases ran
  exact ⟨outputs, setCoins, nValueIn, changed, dummy, paid, selected, added, placed, rfl, rfl⟩

/-- A pass that does not fail settles the fee of what it has prepared. -/
theorem createPass_cases {nLockTime nValue nFeeRet env} {nSubtract : Nat} {result : PassResult}
    (ran : createPass D store cfg req nLockTime nValue nSubtract env nFeeRet
      = .ok result)
    : ∃ nBytes built, preparePass D store cfg req nLockTime nValue nSubtract
          env nFeeRet = .ok (nBytes, built)
        ∧ settleFee cfg req env nSubtract nBytes built = .ok result := by
  rw [createPass] at ran
  split at ran
  · cases ran
  rename_i nBytes built prepared
  exact ⟨nBytes, built, prepared, ran⟩

theorem estimated_of_createPass {nLockTime} {nValue nFeeRet} {nSubtract : Nat} {env} {built}
    (ran : createPass D store cfg req nLockTime nValue nSubtract env nFeeRet
      = .ok (.finished built))
    : ∃ dummy, built.Estimated D store cfg dummy := by
  obtain ⟨nBytes, prepared, found, settled⟩ := createPass_cases ran
  obtain ⟨_, _, _, _, dummy, -, -, -, placed, rfl, rfl⟩ := preparePass_cases found
  obtain ⟨same | ⟨diff, same⟩, paid⟩ := Built.settleFee_finished settled
  · subst same
    exact ⟨dummy, by simp, ⟨env.memory, placed⟩, paid⟩
  · subst same
    exact Built.Estimated.adjustChange (by simp) placed paid

/-- What the loop builds is what its last pass finished. -/
theorem exists_createPass {env nValue nFeeRet nSubtract fuel pass built}
    (ran : createLoop D store cfg req env nValue nSubtract fuel pass nFeeRet
      = some (.ok built))
    : ∃ pass nFeeRet, createPass D store cfg req env.nLockTime nValue
        nSubtract (env.passes pass) nFeeRet = .ok (.finished built) := by
  induction fuel generalizing pass nFeeRet with
  | zero => cases ran
  | succ fuel ih =>
    rw [createLoop] at ran
    split at ran
    · cases ran
    · rename_i finished
      cases ran
      exact ⟨pass, nFeeRet, finished⟩
    · exact ih ran

theorem estimated_of_createTransaction {env fuel created}
    (ran : createTransaction S D C store cfg req env true fuel = some (.ok created))
    : ∃ (built : Built) (dummy : Transaction), built.Estimated D store cfg dummy
      ∧ signTx S D C store env.choices env.memory built.txNew (built.setCoins.map (·.txout))
        = some created.tx
      ∧ created.tx.getTransactionWeight < MAX_STANDARD_TX_WEIGHT
      ∧ created.nFeeRet = built.nFeeRet := by
  rw [createTransaction] at ran
  split at ran
  · cases ran
  split at ran
  · cases ran
  split at ran
  · cases ran
  · cases ran
  · rename_i built looped
    obtain ⟨_, _, finished⟩ := exists_createPass looped
    obtain ⟨dummy, estimated⟩ := estimated_of_createPass finished
    rw [Option.some.injEq, finishTransaction] at ran
    simp only [if_true] at ran
    split at ran
    · cases ran
    rename_i tx signed
    split at ran
    · cases ran
    rename_i light
    split at ran
    · cases ran
    cases ran
    exact ⟨built, dummy, estimated, signed, Nat.lt_of_not_le light, rfl⟩

end Create

end Pqcoin
