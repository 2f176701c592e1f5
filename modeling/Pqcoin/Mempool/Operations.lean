import Pqcoin.Mempool.Pool

/-! The operations that the node performs on the memory pool: removals for blocks, conflicts and
limits, prioritisation, and the transactions of a disconnected block.
-/

namespace Pqcoin

open Search

namespace TxMemPool

variable (C : MempoolContext) (pool : TxMemPool)

-- Removals

def spendersOf (hash : Uint256) (origTx : Transaction) : List Uint256 :=
  keySet hashRank
    ((List.range origTx.vout.length).filterMap
      (fun i => pool.mapNextTx.lookup ⟨hash, BitVec.ofNat 32 i⟩))

def removeRecursive (origTx : Transaction)
    : Option TxMemPool :=
  let hash := origTx.getHash C.hashing
  let txToRemove := if hash ∈ pool.mapTx then [hash] else pool.spendersOf hash origTx
  if txToRemove.all (fun it => decide (it ∈ pool.mapTx)) then
    pool.removeStaged C (pool.calculateAllDescendants txToRemove) false
  else none

def clearPrioritisation (hash : Uint256) : TxMemPool :=
  { pool with mapDeltas := fun other => if other = hash then none else pool.mapDeltas other }

def removeConflict (tx : Transaction) (pool : TxMemPool) (txin : TxIn)
    : Option TxMemPool :=
  match pool.mapNextTx.lookup txin.prevout with
  | none => some pool
  | some hashConflict =>
    (pool.mapTx.lookup hashConflict).bind fun entry =>
      if hashConflict ≠ tx.getHash C.hashing then
        (pool.clearPrioritisation hashConflict).removeRecursive C entry.tx
      else some pool

def removeConflicts (tx : Transaction)
    : Option TxMemPool :=
  tx.vin.foldlM (removeConflict C tx) pool

def removeConfirmed (tx : Transaction)
    : Option TxMemPool :=
  let hash := tx.getHash C.hashing
  Option.bind (if hash ∈ pool.mapTx then pool.removeStaged C [hash] true else some pool)
    fun pool => (pool.removeConflicts C tx).map (clearPrioritisation · hash)

def removeForBlock (vtx : List Transaction)
    : Option TxMemPool :=
  vtx.foldlM (removeConfirmed C) pool

/-- The entries that `Expire` starts from. -/
def expired (time : Int) : List Uint256 :=
  keySet hashRank
    ((pool.mapTx.entries.filter (fun item => decide (item.2.nTime < time))).map Sigma.fst)

def expire (time : Int) : Option TxMemPool :=
  pool.removeStaged C (pool.calculateAllDescendants (pool.expired time)) false

/-- What `TrimToSize` asks of the pool: its memory usage, and the first entry in the order of
descendant scores, which compares quotients in floating point.
-/
structure SizeLimit where
  dynamicMemoryUsage : TxMemPool → Nat
  descendantScoreFirst : TxMemPool → Uint256
  sizelimit : Nat
  first_mem : ∀ pool, pool.mapTx.keys ≠ [] → descendantScoreFirst pool ∈ pool.mapTx

def trimLoop (C : MempoolContext) (limit : SizeLimit) : Nat → TxMemPool → Option TxMemPool
  | 0, pool => some pool
  | fuel + 1, pool =>
    if pool.mapTx.keys ≠ [] ∧ limit.sizelimit < limit.dynamicMemoryUsage pool then
      (pool.removeStaged C (pool.calculateDescendants (limit.descendantScoreFirst pool) [])
        false).bind (trimLoop C limit fuel)
    else some pool

def trimToSize (limit : SizeLimit) : Option TxMemPool :=
  trimLoop C limit pool.mapTx.keys.length pool

def limitMempoolSize (limit : SizeLimit) (time : Int)
    : Option TxMemPool :=
  (pool.expire C time).bind (trimToSize C · limit)

def clear : TxMemPool :=
  { pool with mapLinks := fun _ => {}, mapTx := ∅, mapNextTx := ∅ }

-- PrioritiseTransaction

def prioritiseTransaction (hash : Uint256) (nFeeDelta : Amount)
    : Option TxMemPool :=
  let delta := (pool.mapDeltas hash).getD 0 + nFeeDelta
  let pool : TxMemPool :=
    { pool with
      mapDeltas := fun other => if other = hash then some delta else pool.mapDeltas other }
  if hash ∈ pool.mapTx then do
    let pool ← pool.modify hash (fun entry => some (entry.updateFeeDelta delta))
    let setAncestors ← pool.calculateLinkedAncestors C hash
    let pool ← pool.modifyEach setAncestors (TxMemPoolEntry.updateDescendantState 0 nFeeDelta 0)
    let setDescendants := (pool.calculateDescendants hash []).filter (· ≠ hash)
    pool.modifyEach setDescendants (TxMemPoolEntry.updateAncestorState 0 nFeeDelta 0 0)
  else some pool

-- Disconnected blocks

abbrev CacheMap := Uint256 → Option (List Uint256)

def cacheDescendants (cachedDescendants : CacheMap) (updateIt : Uint256) (its : List Uint256)
    : CacheMap :=
  if its = [] then cachedDescendants
  else fun it =>
    if it = updateIt then
      some (its.foldl (fun cached cit => insertKey hashRank cit cached)
        ((cachedDescendants updateIt).getD []))
    else cachedDescendants it

def updateForDescendants (updateIt : Uint256) (cachedDescendants : CacheMap)
    (setExclude : List Uint256)
    : Option (TxMemPool × CacheMap) := do
  let updated ← pool.mapTx.lookup updateIt
  let setAllDescendants :=
    visitKnown hashRank pool.getMemPoolChildren cachedDescendants pool.mapTx.keys.length
      (pool.getMemPoolChildren updateIt) []
  let its := setAllDescendants.filter (· ∉ setExclude)
  let entries ← its.mapM (fun cit => pool.mapTx.lookup cit)
  let pool ← pool.modifyEach its
    (TxMemPoolEntry.updateAncestorState (updated.getTxSize C) updated.getModifiedFee 1
      updated.sigOpCost)
  let pool ← pool.modify updateIt
    (TxMemPoolEntry.updateDescendantState (entries.map (fun entry => entry.getTxSize C)).sum
      (entries.map (fun entry => entry.getModifiedFee)).sum entries.length)
  some (pool, cacheDescendants cachedDescendants updateIt its)

/-- The entries that spend an output of a transaction, from `mapNextTx`, each of them once. -/
def childHashes (hash : Uint256) : List Uint256 :=
  ((pool.mapNextTx.entries.filter (fun item => decide (item.1.hash = hash))).map Sigma.snd).dedup

def linkChildren (hash : Uint256) (setAlreadyIncluded : List Uint256)
    : Option TxMemPool :=
  if (pool.childHashes hash).all (fun child => decide (child ∈ pool.mapTx)) then
    some (((pool.childHashes hash).filter (· ∉ setAlreadyIncluded)).foldl
      (fun pool child => (pool.updateChild hash child true).updateParent child hash true) pool)
  else none

def updateFromBlock (setAlreadyIncluded : List Uint256) (state : TxMemPool × CacheMap)
    (hash : Uint256)
    : Option (TxMemPool × CacheMap) :=
  if hash ∈ state.1.mapTx then
    (state.1.linkChildren hash setAlreadyIncluded).bind fun pool =>
      pool.updateForDescendants C hash state.2 setAlreadyIncluded
  else some state

def updateTransactionsFromBlock (vHashesToUpdate : List Uint256)
    : Option TxMemPool :=
  (vHashesToUpdate.reverse.foldlM (updateFromBlock C vHashesToUpdate) (pool, fun _ => none)).map
    Prod.fst

end TxMemPool

end Pqcoin
