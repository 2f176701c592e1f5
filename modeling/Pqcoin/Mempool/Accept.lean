import Pqcoin.Mempool.Operations
import Pqcoin.Policy.FeeRate

/-! `AcceptToMemoryPoolWorker`: the checks of a transaction against the memory pool, the replacement
of the entries that it conflicts with, and its addition. What other parts of the node decide about
the transaction are arguments of the call.
-/

namespace Pqcoin

open Checks Search

-- The call

def REJECT_INSUFFICIENTFEE : BitVec 32 := 0x42
def REJECT_ALREADY_KNOWN : BitVec 32 := 0x101
def REJECT_CONFLICT : BitVec 32 := 0x102

def MAX_STANDARD_TX_SIGOPS_COST : Int := 16000

/-- The options of the node that the call reads, and how it prints an amount. -/
structure AcceptOptions where
  fEnableReplacement : Bool
  limits : TxMemPool.ChainLimits
  incrementalRelayFee : FeeRate
  sizeLimit : TxMemPool.SizeLimit
  formatMoney : Amount → String

/-- A call with a transaction: the entry made for it, the time up to which entries expire, and
what the checks say that do not ask the pool for its entries. They are those before the pool is
asked (witness, standardness, finality), those of the inputs (coins, sequence locks, standardness),
those of the fee (minimum fee, priority, free relay, absurd fee), and `CheckInputs`. An input that
is not known leaves the state as it is.
-/
structure AcceptRequest where
  candidate : TxCandidate
  fOverrideMempoolLimit : Bool
  time : Int
  standard : Except Failure Unit
  inputs : Except Failure Unit
  relay : Except Failure Unit
  scripts : Except Failure Unit

/-- What the call leaves: the state of the validation, the pool, and the transactions that have
been replaced.
-/
structure AcceptOutcome where
  state : Except Rejection Unit
  pool : TxMemPool
  plTxnReplaced : List Uint256

def refused (chRejectCode : BitVec 32) (strRejectReason strDebugMessage : String) : Failure :=
  .rejected ⟨0, chRejectCode, strRejectReason, false, strDebugMessage⟩

def asserted {α : Type} (value : Option α) : Except Failure α :=
  value.elim (.error .assertion) .ok

/-- A number with at least `width` characters, as `%0d` prints it. -/
def padded (width : Nat) (n : Int) : String :=
  let digits := toString n.natAbs
  if n < 0 then "-" ++ "".pushn '0' (width - 1 - digits.length) ++ digits
  else "".pushn '0' (width - digits.length) ++ digits

def FeeRate.print (rate : FeeRate) : String :=
  let rate := rate.nSatoshisPerK.toInt
  toString (rate.tdiv 100000000) ++ "." ++ padded 8 (rate.tmod 100000000) ++ " PQ/kB"

namespace TxMemPool

variable (C : MempoolContext) (O : AcceptOptions) (pool : TxMemPool) (req : AcceptRequest)

-- Conflicts

def signalsReplacement (tx : Transaction) : Bool :=
  tx.vin.any (fun txin => decide (txin.nSequence.toNat < 0xffffffff - 1))

def searchConflicts (pool : TxMemPool) (fEnableReplacement : Bool)
    : List TxIn → List Uint256 → Except Failure (List Uint256)
  | [], setConflicts => .ok setConflicts
  | txin :: rest, setConflicts =>
    match pool.mapNextTx.lookup txin.prevout with
    | none => pool.searchConflicts fEnableReplacement rest setConflicts
    | some hashConflicting =>
      if hashConflicting ∈ setConflicts then
        pool.searchConflicts fEnableReplacement rest setConflicts
      else do
        let ptxConflicting ← asserted (pool.mapTx.lookup hashConflicting)
        require (fEnableReplacement ∧ signalsReplacement ptxConflicting.tx)
          (refused REJECT_CONFLICT "txn-mempool-conflict" "")
        pool.searchConflicts fEnableReplacement rest
          (insertKey hashRank hashConflicting setConflicts)

def nModifiedFees (candidate : TxCandidate) : Amount :=
  candidate.nFee + (pool.mapDeltas (candidate.tx.getHash C.hashing)).getD 0

/-- The size of the new entry as an `unsigned int`. -/
def nSize (candidate : TxCandidate) : Nat :=
  (candidate.getTxSize C).toNat % 2 ^ 32

def checkNewInputs (pool : TxMemPool) (hash : Uint256) (setConflictsParents : List Uint256)
    : Nat → List TxIn → Except Failure Unit
  | _, [] => .ok ()
  | j, txin :: rest => do
      require (txin.prevout.hash ∈ setConflictsParents ∨ txin.prevout.hash ∉ pool.mapTx)
        (let hash := getHex hash
        refused REJECT_NONSTANDARD "replacement-adds-unconfirmed"
          s!"replacement {hash} adds unconfirmed input, idx {j}")
      pool.checkNewInputs hash setConflictsParents (j + 1) rest

def checkFeeRate (hash : Uint256) (newFeeRate : FeeRate) (conflicting : TxMemPoolEntry)
    : Except Failure Unit := do
  let oldFeeRate ← asserted
    (FeeRate.ofFee conflicting.getModifiedFee (conflicting.getTxSize C).toNat)
  require (¬ newFeeRate.nSatoshisPerK.toInt ≤ oldFeeRate.nSatoshisPerK.toInt)
    (let hash := getHex hash
    let newRate := newFeeRate.print
    let oldRate := oldFeeRate.print
    refused REJECT_INSUFFICIENTFEE "insufficient fee"
      s!"rejecting replacement {hash}; new feerate {newRate} <= old feerate {oldRate}")

/-- The fees of a replacement, against those of the entries that it replaces. -/
def checkFees (hash : Uint256) (nSize : Nat) (nModifiedFees nConflictingFees : Amount)
    : Except Failure Unit := do
  let hash := getHex hash
  require (¬ nModifiedFees.toInt < nConflictingFees.toInt)
    (let fees := O.formatMoney nModifiedFees
    let conflictingFees := O.formatMoney nConflictingFees
    refused REJECT_INSUFFICIENTFEE "insufficient fee"
      s!"rejecting replacement {hash}, less fees than conflicting txs; {fees} < {conflictingFees}")
  let nDeltaFees := nModifiedFees - nConflictingFees
  require (¬ nDeltaFees.toInt < (O.incrementalRelayFee.getFee nSize).toInt)
    (let delta := O.formatMoney nDeltaFees
    let relay := O.formatMoney (O.incrementalRelayFee.getFee nSize)
    refused REJECT_INSUFFICIENTFEE "insufficient fee"
      s!"rejecting replacement {hash}, not enough additional fees to relay; {delta} < {relay}")

def checkReplacement (candidate : TxCandidate) (setConflicts : List Uint256)
    : Except Failure (List Uint256) :=
  if setConflicts = [] then .ok []
  else do
    let hash := candidate.tx.getHash C.hashing
    let nModifiedFees := pool.nModifiedFees C candidate
    let nSize := nSize C candidate
    let newFeeRate ← asserted (FeeRate.ofFee nModifiedFees nSize)
    let setIterConflicting := setConflicts.filter (fun conflict => decide (conflict ∈ pool.mapTx))
    let conflicting ← asserted (setIterConflicting.mapM (fun mi => pool.mapTx.lookup mi))
    forM conflicting (checkFeeRate C hash newFeeRate)
    let setConflictsParents :=
      conflicting.flatMap (fun mi => mi.tx.vin.map (fun txin => txin.prevout.hash))
    let nConflictingCount : Int :=
      (conflicting.map (fun mi => mi.nCountWithDescendants)).sum % 2 ^ 64
    require (nConflictingCount ≤ 100)
      (let hash := getHex hash
      refused REJECT_NONSTANDARD "too many potential replacements"
        (s!"rejecting replacement {hash}; too many potential replacements "
          ++ s!"({nConflictingCount} > 100)\n"))
    let allConflicting := pool.calculateAllDescendants setIterConflicting
    let replaced ← asserted (allConflicting.mapM (fun it => pool.mapTx.lookup it))
    let nConflictingFees := (replaced.map (fun it => it.getModifiedFee)).sum
    pool.checkNewInputs hash setConflictsParents 0 candidate.tx.vin
    checkFees O hash nSize nModifiedFees nConflictingFees
    return allConflicting

-- AcceptToMemoryPoolWorker

def checkAncestors (candidate : TxCandidate)
    : Except Failure (List Uint256) := do
  let ancestors ← asserted (pool.calculateMemPoolAncestors C candidate O.limits)
  ancestors.mapError (refused REJECT_NONSTANDARD "too-long-mempool-chain")

/-- The checks of `AcceptToMemoryPoolWorker`: the entries to replace, and the ancestors. -/
def checkAccept
    : Except Failure (List Uint256 × List Uint256) := do
  let candidate := req.candidate
  let tx := candidate.tx
  let hash := tx.getHash C.hashing
  checkTransaction true tx
  require (¬ tx.isCoinBase) (invalid 100 "coinbase")
  req.standard
  require (hash ∉ pool.mapTx) (refused REJECT_ALREADY_KNOWN "txn-already-in-mempool" "")
  let setConflicts ← pool.searchConflicts O.fEnableReplacement tx.vin []
  req.inputs
  require (candidate.sigOpCost ≤ MAX_STANDARD_TX_SIGOPS_COST)
    (refused REJECT_NONSTANDARD "bad-txns-too-many-sigops" (toString candidate.sigOpCost))
  req.relay
  let setAncestors ← pool.checkAncestors C O candidate
  forM setAncestors (fun hashAncestor =>
    require (hashAncestor ∉ setConflicts)
      (let hash := getHex hash
      let hashAncestor := getHex hashAncestor
      .rejected ⟨10, REJECT_INVALID, "bad-txns-spends-conflicting-tx", false,
        s!"{hash} spends conflicting transaction {hashAncestor}"⟩))
  let allConflicting ← pool.checkReplacement C O candidate setConflicts
  req.scripts
  return (allConflicting, setAncestors)

/-- The replacement and the addition, with what `LimitMempoolSize` then does. -/
def commitAccept (allConflicting setAncestors : List Uint256)
    : Option AcceptOutcome :=
  (pool.removeStaged C allConflicting false).bind fun pool =>
    (pool.addUnchecked C req.candidate setAncestors).bind fun pool =>
      if req.fOverrideMempoolLimit then some ⟨.ok (), pool, allConflicting⟩
      else
        (pool.limitMempoolSize C O.sizeLimit req.time).map fun pool =>
          if req.candidate.tx.getHash C.hashing ∈ pool.mapTx then
            ⟨.ok (), pool, allConflicting⟩
          else
            ⟨.error ⟨0, REJECT_INSUFFICIENTFEE, "mempool full", false, ""⟩, pool, allConflicting⟩

def acceptToMemoryPoolWorker
    : Option AcceptOutcome :=
  match pool.checkAccept C O req with
  | .error .assertion => none
  | .error (.rejected rejection) => some ⟨.error rejection, pool, []⟩
  | .ok (allConflicting, setAncestors) =>
    pool.commitAccept C O req allConflicting setAncestors

end TxMemPool

end Pqcoin
