import Mathlib.Data.List.AList
import Pqcoin.Lib.Search
import Pqcoin.Validation.CheckBlock
import Pqcoin.Validation.LockPoints
import Pqcoin.Wallet.SignedSize

/-! `CTxMemPoolEntry` and `CTxMemPool`: the transactions of the memory pool with the totals that
are cached for them, the links between them and the indexes over them, with the operations of
`txmempool.cpp`. An iterator is the txid of its entry. A failed assertion, and the use of one
whose entry is gone, is `none`.
-/

namespace Pqcoin

open Search

/-- What the pool takes from the node: the hash functions, and the option `-bytespersigop`. -/
structure MempoolContext where
  hashing : Hashing
  nBytesPerSigOp : Nat

-- Entries

/-- The arguments of the constructor of `CTxMemPoolEntry`. -/
structure TxCandidate where
  tx : Transaction
  nFee : Amount
  nTime : Int
  spendsCoinbase : Bool
  sigOpCost : Int
  lockPoints : LockPoints

/-- What an entry records of its own transaction. -/
structure EntryFacts extends TxCandidate where
  feeDelta : Amount

structure TxMemPoolEntry extends EntryFacts where
  vTxHashesIdx : Nat
  nCountWithDescendants : Int
  nSizeWithDescendants : Int
  nModFeesWithDescendants : Amount
  nCountWithAncestors : Int
  nSizeWithAncestors : Int
  nModFeesWithAncestors : Amount
  nSigOpCostWithAncestors : Int

def getVirtualTransactionSize (nBytesPerSigOp : Nat) (nWeight nSigOpCost : Int) : Int :=
  (max nWeight (nSigOpCost * nBytesPerSigOp) + 3) / 4

def TxCandidate.getTxSize (C : MempoolContext) (candidate : TxCandidate) : Int :=
  getVirtualTransactionSize C.nBytesPerSigOp candidate.tx.getTransactionWeight candidate.sigOpCost

def EntryFacts.getModifiedFee (facts : EntryFacts) : Amount := facts.nFee + facts.feeDelta

def TxCandidate.entry (C : MempoolContext) (candidate : TxCandidate) : TxMemPoolEntry where
  toTxCandidate := candidate
  feeDelta := 0
  vTxHashesIdx := 0
  nCountWithDescendants := 1
  nSizeWithDescendants := candidate.getTxSize C
  nModFeesWithDescendants := candidate.nFee
  nCountWithAncestors := 1
  nSizeWithAncestors := candidate.getTxSize C
  nModFeesWithAncestors := candidate.nFee
  nSigOpCostWithAncestors := candidate.sigOpCost

theorem TxCandidate.getTxSize_pos (C) (candidate : TxCandidate) : 0 < candidate.getTxSize C := by
  have weight := candidate.tx.getTransactionWeight_eq
  rw [TxCandidate.getTxSize, getVirtualTransactionSize]
  have least := le_max_left (candidate.tx.getTransactionWeight : Int)
    (candidate.sigOpCost * C.nBytesPerSigOp)
  omega

namespace TxMemPoolEntry

-- Updates

/-- What a value becomes as an argument of type `int`. -/
def toInt32 (n : Int) : Int := n.bmod (2 ^ 32)

def updateFeeDelta (entry : TxMemPoolEntry) (newFeeDelta : Amount) : TxMemPoolEntry :=
  { entry with
    nModFeesWithDescendants := entry.nModFeesWithDescendants + (newFeeDelta - entry.feeDelta)
    nModFeesWithAncestors := entry.nModFeesWithAncestors + (newFeeDelta - entry.feeDelta)
    feeDelta := newFeeDelta }

def updateLockPoints (entry : TxMemPoolEntry) (lp : LockPoints) : TxMemPoolEntry :=
  { entry with lockPoints := lp }

def updateDescendantState (modifySize : Int) (modifyFee : Amount) (modifyCount : Int)
    (entry : TxMemPoolEntry)
    : Option TxMemPoolEntry :=
  let nSizeWithDescendants := entry.nSizeWithDescendants + modifySize
  let nCountWithDescendants := entry.nCountWithDescendants + modifyCount
  if 0 < nSizeWithDescendants ∧ 0 < nCountWithDescendants then
    some { entry with
      nSizeWithDescendants
      nModFeesWithDescendants := entry.nModFeesWithDescendants + modifyFee
      nCountWithDescendants }
  else none

/-- `UpdateAncestorState`; the last argument is an `int`. -/
def updateAncestorState (modifySize : Int) (modifyFee : Amount) (modifyCount modifySigOps : Int)
    (entry : TxMemPoolEntry)
    : Option TxMemPoolEntry :=
  let nSizeWithAncestors := entry.nSizeWithAncestors + modifySize
  let nCountWithAncestors := entry.nCountWithAncestors + modifyCount
  let nSigOpCostWithAncestors := entry.nSigOpCostWithAncestors + toInt32 modifySigOps
  if 0 < nSizeWithAncestors ∧ 0 < nCountWithAncestors ∧ 0 ≤ toInt32 nSigOpCostWithAncestors then
    some { entry with
      nSizeWithAncestors
      nModFeesWithAncestors := entry.nModFeesWithAncestors + modifyFee
      nCountWithAncestors
      nSigOpCostWithAncestors }
  else none

end TxMemPoolEntry

-- The pool

structure TxLinks where
  parents : List Uint256 := []
  children : List Uint256 := []

/-- `CTxMemPool`. `mapNextTx` refers to a transaction by its txid; `mapDeltas` has the fee deltas;
an element of `vTxHashes` is a witness hash with an iterator.
-/
structure TxMemPool where
  mapTx : AList (fun _ : Uint256 => TxMemPoolEntry) := ∅
  mapLinks : Uint256 → TxLinks := fun _ => {}
  mapNextTx : AList (fun _ : OutPoint => Uint256) := ∅
  mapDeltas : Uint256 → Option Amount := fun _ => none
  vTxHashes : List (Uint256 × Uint256) := []

namespace TxMemPool

variable (C : MempoolContext) (pool : TxMemPool)

def modify (it : Uint256) (change : TxMemPoolEntry → Option TxMemPoolEntry)
    : Option TxMemPool :=
  (pool.mapTx.lookup it).bind fun entry =>
    (change entry).map fun changed => { pool with mapTx := pool.mapTx.insert it changed }

def modifyEach (its : List Uint256) (change : TxMemPoolEntry → Option TxMemPoolEntry)
    : Option TxMemPool :=
  its.foldlM (fun pool it => pool.modify it change) pool

-- Links

/-- `GetMemPoolParents`; an entry has its links for as long as it is in the pool. -/
def getMemPoolParents (entry : Uint256) : List Uint256 :=
  (pool.mapLinks entry).parents

def getMemPoolChildren (entry : Uint256) : List Uint256 :=
  (pool.mapLinks entry).children

def setLinks (entry : Uint256) (links : TxLinks) : TxMemPool :=
  { pool with mapLinks := fun other => if other = entry then links else pool.mapLinks other }

def updateSet (entries : List Uint256) (entry : Uint256) (add : Bool) : List Uint256 :=
  if add then insertKey hashRank entry entries else entries.filter (· ≠ entry)

def updateChild (entry child : Uint256) (add : Bool) : TxMemPool :=
  let links := pool.mapLinks entry
  pool.setLinks entry { links with children := updateSet links.children child add }

def updateParent (entry parent : Uint256) (add : Bool) : TxMemPool :=
  let links := pool.mapLinks entry
  pool.setLinks entry { links with parents := updateSet links.parents parent add }

-- Descendants and ancestors

def calculateDescendants (entryit : Uint256) (setDescendants : List Uint256)
    : List Uint256 :=
  visitAll hashRank pool.getMemPoolChildren pool.mapTx.keys.length
    (if entryit ∈ setDescendants then [] else [entryit]) setDescendants

def calculateAllDescendants (its : List Uint256) : List Uint256 :=
  its.foldl (fun setDescendants it => pool.calculateDescendants it setDescendants) []

/-- The limits of `CalculateMemPoolAncestors`. -/
structure ChainLimits where
  limitAncestorCount : Nat
  limitAncestorSize : Nat
  limitDescendantCount : Nat
  limitDescendantSize : Nat

def noLimit : ChainLimits := ⟨2 ^ 64 - 1, 2 ^ 64 - 1, 2 ^ 64 - 1, 2 ^ 64 - 1⟩

/-- A comparison of a `uint64_t` with a limit. -/
def exceeds (n : Int) (limit : Nat) : Bool := decide ((limit : Int) < n % 2 ^ 64)

def searchParents (pool : TxMemPool) (limits : ChainLimits)
    : List TxIn → List Uint256 → Except String (List Uint256)
  | [], parentHashes => .ok parentHashes
  | txin :: rest, parentHashes =>
    if txin.prevout.hash ∈ pool.mapTx then
      let parentHashes := insertKey hashRank txin.prevout.hash parentHashes
      if exceeds (parentHashes.length + 1) limits.limitAncestorCount then
        let limit := limits.limitAncestorCount
        .error s!"too many unconfirmed parents [limit: {limit}]"
      else pool.searchParents limits rest parentHashes
    else pool.searchParents limits rest parentHashes

def stageParents (limits : ChainLimits) (setAncestors : List Uint256)
    : List Uint256 → List Uint256 → Except String (List Uint256)
  | [], parentHashes => .ok parentHashes
  | phash :: rest, parentHashes =>
    let parentHashes :=
      if phash ∈ setAncestors then parentHashes else insertKey hashRank phash parentHashes
    if exceeds (parentHashes.length + setAncestors.length + 1) limits.limitAncestorCount then
      let limit := limits.limitAncestorCount
      .error s!"too many unconfirmed ancestors [limit: {limit}]"
    else stageParents limits setAncestors rest parentHashes

def checkAncestor (limits : ChainLimits) (nTxSize totalSizeWithAncestors : Int)
    (stageit : Uint256) (entry : TxMemPoolEntry)
    : Except String Unit :=
  if exceeds (entry.nSizeWithDescendants + nTxSize) limits.limitDescendantSize then
    let hash := getHex stageit
    let limit := limits.limitDescendantSize
    .error s!"exceeds descendant size limit for tx {hash} [limit: {limit}]"
  else if exceeds (entry.nCountWithDescendants + 1) limits.limitDescendantCount then
    let hash := getHex stageit
    let limit := limits.limitDescendantCount
    .error s!"too many descendants for tx {hash} [limit: {limit}]"
  else if exceeds totalSizeWithAncestors limits.limitAncestorSize then
    let limit := limits.limitAncestorSize
    .error s!"exceeds ancestor size limit [limit: {limit}]"
  else .ok ()

def ancestorLoop (C : MempoolContext) (pool : TxMemPool) (limits : ChainLimits) (nTxSize : Int)
    : Nat → List Uint256 → List Uint256 → Int → Option (Except String (List Uint256))
  | 0, _, setAncestors, _ => some (.ok setAncestors)
  | _ + 1, [], setAncestors, _ => some (.ok setAncestors)
  | fuel + 1, stageit :: parentHashes, setAncestors, totalSizeWithAncestors =>
    match pool.mapTx.lookup stageit with
    | none => none
    | some entry =>
      let setAncestors := insertKey hashRank stageit setAncestors
      let totalSizeWithAncestors := totalSizeWithAncestors + entry.getTxSize C
      match checkAncestor limits nTxSize totalSizeWithAncestors stageit entry with
      | .error errString => some (.error errString)
      | .ok () =>
        match stageParents limits setAncestors (pool.getMemPoolParents stageit) parentHashes with
        | .error errString => some (.error errString)
        | .ok parentHashes =>
          ancestorLoop C pool limits nTxSize fuel parentHashes setAncestors totalSizeWithAncestors

def calculateMemPoolAncestors (entry : TxCandidate) (limits : ChainLimits)
    : Option (Except String (List Uint256)) :=
  match pool.searchParents limits entry.tx.vin [] with
  | .error errString => some (.error errString)
  | .ok parentHashes =>
    ancestorLoop C pool limits (entry.getTxSize C) pool.mapTx.keys.length parentHashes []
      (entry.getTxSize C)

/-- `CalculateMemPoolAncestors` for an entry of the pool, without limits and with
`fSearchForParents` false.
-/
def calculateLinkedAncestors (it : Uint256)
    : Option (List Uint256) :=
  (pool.mapTx.lookup it).bind fun entry =>
    (ancestorLoop C pool noLimit (entry.getTxSize C) pool.mapTx.keys.length
      (pool.getMemPoolParents it) [] (entry.getTxSize C)).bind Except.toOption

-- Updates along the links

def updateAncestorsOf (add : Bool) (it : Uint256) (setAncestors : List Uint256)
    : Option TxMemPool :=
  (pool.mapTx.lookup it).bind fun entry =>
    let pool := (pool.getMemPoolParents it).foldl
      (fun pool piter => pool.updateChild piter it add) pool
    let updateCount : Int := if add then 1 else -1
    let updateSize := updateCount * entry.getTxSize C
    let updateFee := if add then entry.getModifiedFee else -entry.getModifiedFee
    pool.modifyEach setAncestors
      (TxMemPoolEntry.updateDescendantState updateSize updateFee updateCount)

def updateEntryForAncestors (it : Uint256) (setAncestors : List Uint256)
    : Option TxMemPool :=
  (setAncestors.mapM (fun ancestorIt => pool.mapTx.lookup ancestorIt)).bind fun ancestors =>
    pool.modify it
      (TxMemPoolEntry.updateAncestorState (ancestors.map (fun entry => entry.getTxSize C)).sum
        (ancestors.map (fun entry => entry.getModifiedFee)).sum setAncestors.length
        (ancestors.map (fun entry => entry.sigOpCost)).sum)

def updateChildrenForRemoval (it : Uint256) : TxMemPool :=
  (pool.getMemPoolChildren it).foldl (fun pool updateIt => pool.updateParent updateIt it false) pool

/-- The first loop of `UpdateForRemoveFromMempool`, for one of the entries. -/
def updateDescendantsForRemoval (removeIt : Uint256)
    : Option TxMemPool :=
  (pool.mapTx.lookup removeIt).bind fun entry =>
    let setDescendants := (pool.calculateDescendants removeIt []).filter (· ≠ removeIt)
    pool.modifyEach setDescendants
      (TxMemPoolEntry.updateAncestorState (-entry.getTxSize C) (-entry.getModifiedFee) (-1)
        (-entry.sigOpCost))

def updateAncestorsForRemoval (removeIt : Uint256)
    : Option TxMemPool :=
  (pool.calculateLinkedAncestors C removeIt).bind fun setAncestors =>
    pool.updateAncestorsOf C false removeIt setAncestors

def updateForRemoveFromMempool (entriesToRemove : List Uint256) (updateDescendants : Bool)
    : Option TxMemPool :=
  Option.bind
    (if updateDescendants then entriesToRemove.foldlM (updateDescendantsForRemoval C) pool
    else some pool)
    fun pool =>
      (entriesToRemove.foldlM (updateAncestorsForRemoval C) pool).map
        (entriesToRemove.foldl updateChildrenForRemoval)

-- Additions and removals

def insertEntry (hash : Uint256) (candidate : TxCandidate)
    : TxMemPool :=
  if hash ∈ pool.mapTx then pool
  else { (pool.setLinks hash {}) with mapTx := pool.mapTx.insert hash (candidate.entry C) }

def applyFeeDelta (hash : Uint256) : Option TxMemPool :=
  match pool.mapDeltas hash with
  | none => some pool
  | some delta =>
    if delta ≠ 0 then pool.modify hash (fun entry => some (entry.updateFeeDelta delta))
    else some pool

def insertNext (mapNextTx : AList (fun _ : OutPoint => Uint256)) (out : OutPoint) (hash : Uint256)
    : AList (fun _ : OutPoint => Uint256) :=
  if out ∈ mapNextTx then mapNextTx else mapNextTx.insert out hash

/-- The inputs of the new entry in `mapNextTx`, and its parents in the pool. -/
def linkInputs (hash : Uint256) (tx : Transaction) : TxMemPool :=
  let mapNextTx := tx.vin.foldl
    (fun mapNextTx txin => insertNext mapNextTx txin.prevout hash) pool.mapNextTx
  let setParentTransactions := keySet hashRank (tx.vin.map (fun txin => txin.prevout.hash))
  setParentTransactions.foldl
    (fun pool phash => if phash ∈ pool.mapTx then pool.updateParent hash phash true else pool)
    { pool with mapNextTx }

def appendHash (hash witnessHash : Uint256) : Option TxMemPool :=
  let vTxHashes := pool.vTxHashes ++ [(witnessHash, hash)]
  { pool with vTxHashes }.modify hash
    (fun entry => some { entry with vTxHashesIdx := vTxHashes.length - 1 })

def addUnchecked (candidate : TxCandidate) (setAncestors : List Uint256)
    : Option TxMemPool := do
  let tx := candidate.tx
  let hash := tx.getHash C.hashing
  let pool ← (pool.insertEntry C hash candidate).applyFeeDelta hash
  let pool ← (pool.linkInputs hash tx).updateAncestorsOf C true hash setAncestors
  let pool ← pool.updateEntryForAncestors C hash setAncestors
  pool.appendHash hash (tx.getWitnessHash C.hashing)

/-- What `removeUnchecked` does with `vTxHashes`: the last element takes the place of the one at
the index.
-/
def dropHash (vTxHashesIdx : Nat) : Option TxMemPool :=
  if 1 < pool.vTxHashes.length then
    pool.vTxHashes.getLast?.bind fun back =>
      { pool with vTxHashes := (pool.vTxHashes.set vTxHashesIdx back).dropLast }.modify back.2
        (fun entry => some { entry with vTxHashesIdx })
  else some { pool with vTxHashes := [] }

def eraseEntry (it : Uint256) : TxMemPool :=
  { (pool.setLinks it {}) with mapTx := pool.mapTx.erase it }

def removeUnchecked (it : Uint256) : Option TxMemPool :=
  (pool.mapTx.lookup it).bind fun entry =>
    let mapNextTx := entry.tx.vin.foldl (fun mapNextTx txin => mapNextTx.erase txin.prevout)
      pool.mapNextTx
    ({ pool with mapNextTx }.dropHash entry.vTxHashesIdx).map (eraseEntry · it)

def removeStaged (stage : List Uint256) (updateDescendants : Bool)
    : Option TxMemPool :=
  (pool.updateForRemoveFromMempool C stage updateDescendants).bind fun pool =>
    stage.foldlM removeUnchecked pool

end TxMemPool

end Pqcoin
