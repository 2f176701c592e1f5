import Pqcoin.Chain.BlockIndex
import Pqcoin.Coins.Coins
import Pqcoin.Lib.Folds
import Pqcoin.Script.Verify

/-! The relative lock times of `validation.cpp`, and the lock points that `CheckSequenceLocks`
leaves with an entry of the memory pool: a check that reuses them passes only if the check from
the current chain and coins passes too. A null pointer that is followed, or an assertion that
fails, is written as `none`.
-/

namespace Pqcoin

open BlockIndex Folds List Option TransactionSignatureChecker

def LOCKTIME_VERIFY_SEQUENCE : BitVec 32 := 1

def SEQUENCE_LOCKTIME_GRANULARITY : Nat := 9

def TxIn.locktimeDisabled (txin : TxIn) : Bool :=
  txin.nSequence.toNat &&& Script.SEQUENCE_LOCKTIME_DISABLE_FLAG != 0

/-- A round of the loop of `CalculateSequenceLocks`, on the least height and time so far. -/
def sequenceLockStep (block : BlockIndex) (locks : Int × Int) (txin : TxIn) (nCoinHeight : Int)
    : Option (Int × Int) :=
  let (nMinHeight, nMinTime) := locks
  let value := txin.nSequence.toNat &&& SEQUENCE_LOCKTIME_MASK
  if txin.locktimeDisabled then some locks
  else if txin.nSequence.toNat &&& SEQUENCE_LOCKTIME_TYPE_FLAG ≠ 0 then
    match block.getAncestor (max (nCoinHeight - 1) 0).toNat with
    | none => none
    | some ancestor =>
      let nCoinTime := ancestor.getMedianTimePast
      some (nMinHeight,
        max nMinTime (nCoinTime + ((value <<< SEQUENCE_LOCKTIME_GRANULARITY : Nat) : Int) - 1))
  else some (max nMinHeight (nCoinHeight + (value : Int) - 1), nMinTime)

def sequenceLockLoop (block : BlockIndex) (locks : Int × Int)
    : List (TxIn × Int) → Option (Int × Int)
  | [] => some locks
  | (txin, nCoinHeight) :: rest =>
    match sequenceLockStep block locks txin nCoinHeight with
    | none => none
    | some locks => sequenceLockLoop block locks rest

/-- `CalculateSequenceLocks`: the lock pair, and what `prevHeights` holds afterwards. -/
def calculateSequenceLocks (tx : Transaction) (flags : BitVec 32) (prevHeights : List Int)
    (block : BlockIndex)
    : Option ((Int × Int) × List Int) :=
  if prevHeights.length ≠ tx.vin.length then none
  else if ¬ (2 ≤ tx.nVersion.toNat ∧ flags &&& LOCKTIME_VERIFY_SEQUENCE ≠ 0) then
    some ((-1, -1), prevHeights)
  else
    let inputs := tx.vin.zip prevHeights
    (sequenceLockLoop block (-1, -1) inputs).map fun locks =>
      (locks, inputs.map fun (txin, nCoinHeight) =>
        if txin.locktimeDisabled then 0 else nCoinHeight)

def evaluateSequenceLocks (block : BlockIndex) (lockPair : Int × Int) : Option Bool :=
  match block.pprev with
  | none => none
  | some pprev =>
    some (!(decide (lockPair.1 ≥ block.nHeight)
      || decide (lockPair.2 ≥ pprev.getMedianTimePast)))

def sequenceLocks (tx : Transaction) (flags : BitVec 32) (prevHeights : List Int)
    (block : BlockIndex)
    : Option Bool :=
  match calculateSequenceLocks tx flags prevHeights block with
  | none => none
  | some (lockPair, _) => evaluateSequenceLocks block lockPair

-- The check

/-- `LockPoints`; the defaults are those of the constructor. -/
structure LockPoints where
  height : Int := 0
  time : Int := 0
  maxInputBlock : Option BlockIndex := none
  deriving DecidableEq

/-- What the check reads: the tip of the chain, its coins, and the transactions of the pool. -/
structure LockView where
  tip : BlockIndex
  pcoinsTip : CoinsTable
  get : Uint256 → Option Transaction

def MEMPOOL_HEIGHT : Int := 0x7FFFFFFF

def BlockIndex.contains (tip pindex : BlockIndex) : Bool :=
  tip.getAncestor pindex.nHeight == some pindex

def BlockIndex.next (tip : BlockIndex) : BlockIndex := .child tip 0 ⟨0, 0, 0, 0, 0, 0⟩

namespace LockView

variable (view : LockView)

def getCoins (txid : Uint256) : Option Coins :=
  match view.get txid with
  | some ptx => some (Coins.fromTx ptx MEMPOOL_HEIGHT)
  | none => (view.pcoinsTip txid).filter (fun coins => !coins.isPruned)

def prevHeight (txin : TxIn) : Option Int :=
  (view.getCoins txin.prevout.hash).map fun coins =>
    if coins.nHeight = MEMPOOL_HEIGHT then (view.tip.nHeight : Int) + 1 else coins.nHeight

def maxInputHeight (prevheights : List Int) : Int :=
  prevheights.foldl (fun maxInputHeight height =>
    if height ≠ (view.tip.nHeight : Int) + 1 then max maxInputHeight height else maxInputHeight) 0

/-- `CheckSequenceLocks`, with the lock points before and after; `none` is a failed assertion. -/
def checkSequenceLocks (tx : Transaction) (flags : BitVec 32) (lp : LockPoints)
    (useExistingLockPoints : Bool)
    : Option (Bool × LockPoints) :=
  let idx := view.tip.next
  if useExistingLockPoints then
    (evaluateSequenceLocks idx (lp.height, lp.time)).map (·, lp)
  else
    match tx.vin.mapM view.prevHeight with
    | none => some (false, lp)
    | some prevheights =>
      match calculateSequenceLocks tx flags prevheights idx with
      | none => none
      | some (lockPair, prevheights) =>
        (evaluateSequenceLocks idx lockPair).map (·,
          ⟨lockPair.1, lockPair.2, view.tip.getAncestor (view.maxInputHeight prevheights).toNat⟩)

def testLockPointValidity (lp : LockPoints) : Bool :=
  match lp.maxInputBlock with
  | none => true
  | some maxInputBlock => view.tip.contains maxInputBlock

end LockView

-- Locks as bounds

def TxIn.LockedWithin (txin : TxIn) (block : BlockIndex) (limits : Int × Int) (nCoinHeight : Int)
    : Prop :=
  let value := txin.nSequence.toNat &&& SEQUENCE_LOCKTIME_MASK
  txin.locktimeDisabled = false →
    if txin.nSequence.toNat &&& SEQUENCE_LOCKTIME_TYPE_FLAG ≠ 0 then
      ∃ ancestor, block.getAncestor (max (nCoinHeight - 1) 0).toNat = some ancestor
        ∧ ancestor.getMedianTimePast
          + ((value <<< SEQUENCE_LOCKTIME_GRANULARITY : Nat) : Int) - 1 ≤ limits.2
    else nCoinHeight + (value : Int) - 1 ≤ limits.1

variable {block tip : BlockIndex} {locks limits result : Int × Int} {txin : TxIn}
  {nCoinHeight : Int} {inputs : List (TxIn × Int)}

theorem TxIn.LockedWithin.mono (within : txin.LockedWithin block limits nCoinHeight)
    (height : limits.1 ≤ locks.1) (time : limits.2 ≤ locks.2)
    : txin.LockedWithin block locks nCoinHeight := by
  intro locked
  have bound := within locked
  split at bound <;> rename_i kind
  · rw [if_pos kind]
    obtain ⟨ancestor, found, before⟩ := bound
    exact ⟨ancestor, found, before.trans time⟩
  · rw [if_neg kind]
    exact bound.trans height

/-- A round raises the locks to that of the input, and not further. -/
theorem sequenceLockStep_spec
    : (∀ after, sequenceLockStep block locks txin nCoinHeight = some after →
        locks.1 ≤ after.1 ∧ locks.2 ≤ after.2 ∧ txin.LockedWithin block after nCoinHeight)
      ∧ (locks.1 ≤ limits.1 → locks.2 ≤ limits.2 → txin.LockedWithin block limits nCoinHeight →
        ∃ after, sequenceLockStep block locks txin nCoinHeight = some after
          ∧ after.1 ≤ limits.1 ∧ after.2 ≤ limits.2) := by
  rw [sequenceLockStep, TxIn.LockedWithin]
  dsimp only
  cases disabled : txin.locktimeDisabled with
  | true =>
    rw [if_pos rfl]
    refine ⟨fun after same => ?_, fun height time _ => ⟨locks, rfl, height, time⟩⟩
    cases same
    exact ⟨le_rfl, le_rfl, fun enabled => absurd disabled (by simp [enabled])⟩
  | false =>
    rw [if_neg (by simp)]
    by_cases kind : txin.nSequence.toNat &&& SEQUENCE_LOCKTIME_TYPE_FLAG ≠ 0
    · rw [if_pos kind]
      cases found : block.getAncestor (max (nCoinHeight - 1) 0).toNat with
      | none =>
        refine ⟨fun after same => absurd same (by simp), fun _ _ within => ?_⟩
        have bound := within rfl
        rw [if_pos kind] at bound
        obtain ⟨_, missing, -⟩ := bound
        cases missing
      | some ancestor =>
        refine ⟨fun after same => ?_, fun height time within => ⟨_, rfl, height, ?_⟩⟩
        · cases same
          refine ⟨le_rfl, le_max_left .., fun enabled => ?_⟩
          dsimp only
          rw [if_pos kind]
          exact ⟨ancestor, found, le_max_right ..⟩
        · have bound := within rfl
          rw [if_pos kind] at bound
          obtain ⟨_, same, before⟩ := bound
          cases same
          exact max_le time before
    · rw [if_neg kind]
      refine ⟨fun after same => ?_, fun height time within => ⟨_, rfl, ?_, time⟩⟩
      · cases same
        refine ⟨le_max_left .., le_rfl, fun enabled => ?_⟩
        dsimp only
        rw [if_neg kind]
        exact le_max_right ..
      · have bound := within rfl
        rw [if_neg kind] at bound
        exact max_le height bound

theorem within_of_sequenceLockLoop (ran : sequenceLockLoop block locks inputs = some result)
    : locks.1 ≤ result.1 ∧ locks.2 ≤ result.2
      ∧ ∀ input ∈ inputs, input.1.LockedWithin block result input.2 := by
  induction inputs generalizing locks with
  | nil =>
    cases ran
    exact ⟨le_rfl, le_rfl, by simp⟩
  | cons input rest ih =>
    obtain ⟨txin, nCoinHeight⟩ := input
    rw [sequenceLockLoop] at ran
    split at ran
    · cases ran
    rename_i after step
    obtain ⟨height, time, within⟩ :=
      (@sequenceLockStep_spec block locks locks txin nCoinHeight).1 after step
    obtain ⟨laterHeight, laterTime, others⟩ := ih ran
    refine ⟨height.trans laterHeight, time.trans laterTime, ?_⟩
    exact forall_mem_cons.mpr ⟨within.mono laterHeight laterTime, others⟩

theorem sequenceLockLoop_within (height : locks.1 ≤ limits.1) (time : locks.2 ≤ limits.2)
    (within : ∀ input ∈ inputs, input.1.LockedWithin block limits input.2)
    : ∃ result, sequenceLockLoop block locks inputs = some result
      ∧ result.1 ≤ limits.1 ∧ result.2 ≤ limits.2 := by
  induction inputs generalizing locks with
  | nil => exact ⟨locks, rfl, height, time⟩
  | cons input rest ih =>
    obtain ⟨txin, nCoinHeight⟩ := input
    rw [forall_mem_cons] at within
    obtain ⟨after, step, stepHeight, stepTime⟩ := sequenceLockStep_spec.2 height time within.1
    rw [sequenceLockLoop, step]
    exact ih stepHeight stepTime within.2

-- Chains and coins that agree

theorem BlockIndex.contains_iff {pindex} : tip.contains pindex = true ↔ pindex ∈ tip.path := by
  rw [BlockIndex.contains, beq_iff_eq, getAncestor_eq, mem_path_iff]

theorem BlockIndex.getAncestor_next {height} (below : height ≤ tip.nHeight)
    : tip.next.getAncestor height = ancestor height tip := by
  rw [getAncestor_eq, BlockIndex.next, ancestor, if_neg (by omega)]

/-- A view of a chain whose blocks have these transactions: unspent coins are of transactions in
the block at their height, and the transactions of the pool are in none of its blocks.
-/
structure LocatedView (txids : BlockIndex → List Uint256) extends LockView where
  located : ∀ txid coins, pcoinsTip txid = some coins → coins.isPruned = false →
    ∃ block ∈ tip.path, (block.nHeight : Int) = coins.nHeight ∧ txid ∈ txids block
  apart : ∀ txid ptx, get txid = some ptx → ∀ block ∈ tip.path, txid ∉ txids block
  inRange : (tip.nHeight : Int) < MEMPOOL_HEIGHT

/-- A view of a chain that no transaction is in twice. -/
structure ConfirmedView (txids : BlockIndex → List Uint256) extends LocatedView txids where
  once : ∀ txid, ∀ first ∈ tip.path, ∀ second ∈ tip.path,
    txid ∈ txids first → txid ∈ txids second → first = second

/-- Median times never fall along the chain. -/
def BlockIndex.MedianMonotone (tip : BlockIndex) : Prop :=
  ∀ low ∈ tip.path, ∀ high ∈ tip.path, low.nHeight ≤ high.nHeight →
    low.getMedianTimePast ≤ high.getMedianTimePast

namespace ConfirmedView

variable {txids : BlockIndex → List Uint256} (view : ConfirmedView txids)

theorem nHeight_fromTx (tx nHeight) : (Coins.fromTx tx nHeight).nHeight = nHeight := rfl

/-- An input is taken to be in the next block, or in the block of the chain that it is in. -/
theorem prevHeight_cases {txin height} (found : view.toLockView.prevHeight txin = some height)
    : ((∃ ptx, view.get txin.prevout.hash = some ptx) ∧ height = view.tip.nHeight + 1)
      ∨ (∃ block ∈ view.tip.path, (block.nHeight : Int) = height
        ∧ txin.prevout.hash ∈ txids block) := by
  obtain ⟨coins, seen, same⟩ := map_eq_some_iff.mp found
  rw [LockView.getCoins] at seen
  split at seen
  · rename_i ptx pooled
    cases seen
    rw [nHeight_fromTx, if_pos rfl] at same
    exact .inl ⟨⟨ptx, pooled⟩, same.symm⟩
  · obtain ⟨entry, unpruned⟩ := filter_eq_some_iff.mp seen
    obtain ⟨block, onChain, height, mem⟩ := view.located _ coins entry (by simpa using unpruned)
    have below := nHeight_le_of_mem_path onChain
    have range := view.inRange
    rw [if_neg (by omega)] at same
    exact .inr ⟨block, onChain, by omega, mem⟩

end ConfirmedView

-- Steps of the check

namespace LockView

variable {view : LockView} {tx : Transaction} {flags : BitVec 32} {lp after : LockPoints}

theorem evaluateSequenceLocks_next {lockPair}
    : evaluateSequenceLocks tip.next lockPair = some true
      ↔ lockPair.1 < tip.nHeight + 1 ∧ lockPair.2 < tip.getMedianTimePast := by
  rw [evaluateSequenceLocks, BlockIndex.next]
  simp [pprev, nHeight]

/-- The loop over the heights finds the greatest of the confirmed ones, or where it starts. -/
theorem foldl_maxInputHeight (prevheights : List Int) (start limit)
    : prevheights.foldl (fun maxInputHeight height =>
        if height ≠ (view.tip.nHeight : Int) + 1 then max maxInputHeight height
        else maxInputHeight) start ≤ limit
      ↔ start ≤ limit
        ∧ ∀ height ∈ prevheights, height ≠ (view.tip.nHeight : Int) + 1 → height ≤ limit := by
  induction prevheights generalizing start with
  | nil => simp
  | cons first rest ih =>
    rw [foldl_cons, ih, forall_mem_cons]
    by_cases confirmed : first ≠ (view.tip.nHeight : Int) + 1
    · rw [if_pos confirmed, max_le_iff]
      tauto
    · rw [if_neg confirmed]
      tauto

theorem maxInputHeight_le_iff {prevheights limit}
    : view.maxInputHeight prevheights ≤ limit
      ↔ 0 ≤ limit
        ∧ ∀ height ∈ prevheights, height ≠ (view.tip.nHeight : Int) + 1 → height ≤ limit :=
  foldl_maxInputHeight prevheights 0 limit

theorem calculateSequenceLocks_enforced {prevheights block}
    (enforced : 2 ≤ tx.nVersion.toNat ∧ flags &&& LOCKTIME_VERIFY_SEQUENCE ≠ 0)
    (heights : tx.vin.mapM view.prevHeight = some prevheights)
    : calculateSequenceLocks tx flags prevheights block
      = (sequenceLockLoop block (-1, -1) (tx.vin.zip prevheights)).map fun locks =>
        (locks, (tx.vin.zip prevheights).map fun (txin, nCoinHeight) =>
          if txin.locktimeDisabled then 0 else nCoinHeight) := by
  have aligned := (mapM_eq_some_iff.mp heights).length_eq
  rw [calculateSequenceLocks, if_neg (by omega), if_neg (by simpa using enforced)]

section

variable (unenforced : ¬ (2 ≤ tx.nVersion.toNat ∧ flags &&& LOCKTIME_VERIFY_SEQUENCE ≠ 0))

include unenforced

theorem calculateSequenceLocks_unenforced {prevheights block}
    (heights : tx.vin.mapM view.prevHeight = some prevheights)
    : calculateSequenceLocks tx flags prevheights block = some ((-1, -1), prevheights) := by
  have aligned := (mapM_eq_some_iff.mp heights).length_eq
  rw [calculateSequenceLocks, if_neg (by omega), if_pos unenforced]

/-- Without enforcement, the locks are those that every block is past. -/
theorem locks_of_unenforced
    (passed : view.checkSequenceLocks tx flags lp false = some (true, after))
    : (after.height, after.time) = (-1, -1) := by
  rw [checkSequenceLocks, if_neg (by simp)] at passed
  split at passed
  · cases passed
  rename_i prevheights heights
  rw [calculateSequenceLocks_unenforced unenforced heights] at passed
  obtain ⟨verdict, -, same⟩ := map_eq_some_iff.mp passed
  cases same
  rfl

end

end LockView

namespace ConfirmedView

variable {txids : BlockIndex → List Uint256} {view : ConfirmedView txids} {tx : Transaction}
  {flags : BitVec 32} {lp lp₀ : LockPoints}

/-- What a check that computes the locks and passes has found: locks that hold for every input, and
a block on the chain that none of its confirmed inputs with a lock is above.
-/
structure Accepted (view : ConfirmedView txids) (tx : Transaction) (prevheights : List Int)
    (lp : LockPoints)
    : Prop where
  heights : tx.vin.mapM view.toLockView.prevHeight = some prevheights
  below : lp.height < view.tip.nHeight + 1
  before : lp.time < view.tip.getMedianTimePast
  unset : -1 ≤ lp.time
  within : ∀ input ∈ tx.vin.zip prevheights,
    input.1.LockedWithin view.tip.next (lp.height, lp.time) input.2
  shared : ∃ block, lp.maxInputBlock = some block ∧ block ∈ view.tip.path
    ∧ ∀ input ∈ tx.vin.zip prevheights, input.1.locktimeDisabled = false →
      input.2 ≠ view.tip.nHeight + 1 → input.2 ≤ block.nHeight

/-- The height of a confirmed input is on the chain. -/
theorem prevHeight_le {txin height} (found : view.toLockView.prevHeight txin = some height)
    : 0 ≤ height ∧ height ≤ view.tip.nHeight + 1 := by
  rcases view.prevHeight_cases found with ⟨-, rfl⟩ | ⟨block, onChain, rfl, -⟩
  · omega
  have below := nHeight_le_of_mem_path onChain
  omega

theorem shared_maxInputHeight {inputs : List (TxIn × Int)}
    (known : ∀ input ∈ inputs, view.toLockView.prevHeight input.1 = some input.2)
    : ∃ block, view.tip.getAncestor (view.maxInputHeight (inputs.map fun (txin, nCoinHeight) =>
          if txin.locktimeDisabled then 0 else nCoinHeight)).toNat = some block
      ∧ block ∈ view.tip.path
      ∧ ∀ input ∈ inputs, input.1.locktimeDisabled = false →
        input.2 ≠ view.tip.nHeight + 1 → input.2 ≤ block.nHeight := by
  generalize heights : (inputs.map fun (txin, nCoinHeight) =>
    if txin.locktimeDisabled then 0 else nCoinHeight) = prevheights
  have onChain : view.maxInputHeight prevheights ≤ view.tip.nHeight := by
    rw [LockView.maxInputHeight_le_iff]
    refine ⟨Int.natCast_nonneg _, fun height mem confirmed => ?_⟩
    rw [← heights] at mem
    obtain ⟨⟨txin, nCoinHeight⟩, listed, rfl⟩ := mem_map.mp mem
    have range := prevHeight_le (known _ listed)
    dsimp only at range confirmed ⊢
    by_cases disabled : txin.locktimeDisabled = true
    · rw [if_pos disabled]
      omega
    · rw [if_neg disabled] at confirmed ⊢
      omega
  obtain ⟨nonneg, bound⟩ := LockView.maxInputHeight_le_iff.mp
    (le_refl (view.maxInputHeight prevheights))
  obtain ⟨block, found, level⟩ := @ancestor_eq_some (view.maxInputHeight prevheights).toNat
    view.tip (by omega)
  refine ⟨block, (getAncestor_eq _ _).trans found, ?_, ?_⟩
  · rw [mem_path_iff, level]
    exact found
  · intro input listed locked confirmed
    have part := bound input.2 (by
      rw [← heights]
      exact mem_map.mpr ⟨input, listed, if_neg (by simp [locked])⟩) confirmed
    omega

theorem accepted_of_check
    (enforced : 2 ≤ tx.nVersion.toNat ∧ flags &&& LOCKTIME_VERIFY_SEQUENCE ≠ 0)
    (passed : view.checkSequenceLocks tx flags lp₀ false = some (true, lp))
    : ∃ prevheights, view.Accepted tx prevheights lp := by
  rw [LockView.checkSequenceLocks, if_neg (by simp)] at passed
  split at passed
  · cases passed
  rename_i prevheights heights
  rw [LockView.calculateSequenceLocks_enforced enforced heights] at passed
  cases looped : sequenceLockLoop view.tip.next (-1, -1) (tx.vin.zip prevheights) with
  | none =>
    rw [looped] at passed
    cases passed
  | some locks =>
    rw [looped] at passed
    obtain ⟨verdict, evaluated, same⟩ := map_eq_some_iff.mp passed
    cases same
    obtain ⟨below, before⟩ := LockView.evaluateSequenceLocks_next.mp evaluated
    have known : ∀ input ∈ tx.vin.zip prevheights,
        view.toLockView.prevHeight input.1 = some input.2 :=
      fun input mem => forall₂_zip (mapM_eq_some_iff.mp heights) mem
    obtain ⟨-, unset, within⟩ := within_of_sequenceLockLoop looped
    exact ⟨prevheights, heights, below, before, unset, within, shared_maxInputHeight known⟩

/-- An input that was in the pool when the locks were computed has none that lasts. -/
theorem value_of_pooled {txin : TxIn} (below : lp.height < view.tip.nHeight + 1)
    (before : lp.time < view.tip.getMedianTimePast)
    (within : txin.LockedWithin view.tip.next (lp.height, lp.time) (view.tip.nHeight + 1))
    (locked : txin.locktimeDisabled = false)
    : txin.nSequence.toNat &&& SEQUENCE_LOCKTIME_MASK = 0 := by
  have bound := within locked
  split at bound
  · obtain ⟨ancestor, found, late⟩ := bound
    rw [show (max ((view.tip.nHeight : Int) + 1 - 1) 0).toNat = view.tip.nHeight by omega,
      getAncestor_next (Nat.le_refl _), ancestor_self, Option.some.injEq] at found
    subst found
    rw [Nat.shiftLeft_eq] at late
    have pos : 0 < 2 ^ SEQUENCE_LOCKTIME_GRANULARITY := by decide
    have none : (txin.nSequence.toNat &&& SEQUENCE_LOCKTIME_MASK)
        * 2 ^ SEQUENCE_LOCKTIME_GRANULARITY = 0 := by omega
    exact (Nat.mul_eq_zero.mp none).resolve_right (Nat.ne_of_gt pos)
  · omega

/-- A lock of no duration holds on every chain whose median times do not fall. -/
theorem within_of_value {txin : TxIn} {height : Int} (monotone : view.tip.MedianMonotone)
    (range : 0 ≤ height ∧ height ≤ view.tip.nHeight + 1)
    (none : txin.nSequence.toNat &&& SEQUENCE_LOCKTIME_MASK = 0)
    : txin.LockedWithin view.tip.next
        (view.tip.nHeight, view.tip.getMedianTimePast - 1) height := by
  intro _
  rw [none]
  split
  · have inside : (max (height - 1) 0).toNat ≤ view.tip.nHeight := by omega
    obtain ⟨block, found, level⟩ := ancestor_eq_some inside
    refine ⟨block, (getAncestor_next inside).trans found, ?_⟩
    have onChain : block ∈ view.tip.path := by
      rw [mem_path_iff, level]
      exact found
    have order := monotone block onChain view.tip (mem_path_self _) (nHeight_le_of_mem_path onChain)
    rw [Nat.zero_shiftLeft]
    dsimp only
    omega
  · dsimp only
    omega

theorem Accepted.within_later {before after : ConfirmedView txids} {prevheights : List Int}
    {block} {txin} {was is} (accepted : before.Accepted tx prevheights lp)
    (named : lp.maxInputBlock = some block) (onChain : block ∈ after.tip.path)
    (monotone : after.tip.MedianMonotone) (below : lp.height < after.tip.nHeight + 1)
    (inTime : lp.time < after.tip.getMedianTimePast) (input : (txin, was) ∈ tx.vin.zip prevheights)
    (earlier : before.toLockView.prevHeight txin = some was)
    (now : after.toLockView.prevHeight txin = some is)
    : txin.LockedWithin after.tip.next (after.tip.nHeight, after.tip.getMedianTimePast - 1) is := by
  intro locked
  have within := accepted.within _ input
  rcases before.prevHeight_cases earlier with ⟨-, rfl⟩ | ⟨confirmed, onEarlier, rfl, mem⟩
  · have none := value_of_pooled accepted.below accepted.before within locked
    exact within_of_value monotone (prevHeight_le now) none locked
  obtain ⟨shared, same, onBefore, bound⟩ := accepted.shared
  obtain rfl : shared = block := Option.some.inj (same.symm.trans named)
  have height := nHeight_le_of_mem_path onEarlier
  have covered : confirmed.nHeight ≤ shared.nHeight := by
    have part := bound _ input locked (by dsimp only; omega)
    omega
  have still : confirmed ∈ after.tip.path :=
    mem_path_trans (mem_path_of_le onEarlier onBefore covered) onChain
  -- the input has the height it had
  obtain rfl : is = confirmed.nHeight := by
    rcases after.prevHeight_cases now with ⟨⟨ptx, pooled⟩, -⟩ | ⟨other, onLater, rfl, found⟩
    · exact absurd mem (after.apart _ ptx pooled confirmed still)
    · rw [after.once _ other onLater confirmed still found mem]
  have bounded := within locked
  split at bounded <;> rename_i kind
  · rw [if_pos kind]
    obtain ⟨ancestor, found, late⟩ := bounded
    have low : (max ((confirmed.nHeight : Int) - 1) 0).toNat ≤ shared.nHeight := by omega
    have lowBefore := low.trans (nHeight_le_of_mem_path onBefore)
    have lowAfter := low.trans (nHeight_le_of_mem_path onChain)
    rw [getAncestor_next lowBefore, ← ancestor_ancestor low (mem_path_iff.mp onBefore),
      ancestor_ancestor low (mem_path_iff.mp onChain)] at found
    refine ⟨ancestor, (getAncestor_next lowAfter).trans found, ?_⟩
    dsimp only at late ⊢
    omega
  · rw [if_neg kind]
    dsimp only at bounded ⊢
    omega

/-- Cached lock points are safe to reuse: if the check with them passes on a later chain, and the
block they were computed on is in it, the check from the chain and its coins passes too.
-/
theorem lockPoints_reusable {before after : ConfirmedView txids}
    (accepted : before.checkSequenceLocks tx flags lp₀ false = some (true, lp))
    (monotone : after.tip.MedianMonotone)
    (exist : ∀ txin ∈ tx.vin, (after.getCoins txin.prevout.hash).isSome)
    (valid : after.testLockPointValidity lp = true)
    (cached : after.checkSequenceLocks tx flags lp true = some (true, lp))
    : ∃ recomputed, after.checkSequenceLocks tx flags lp false = some (true, recomputed) := by
  obtain ⟨heights, found⟩ : ∃ heights, tx.vin.mapM after.toLockView.prevHeight = some heights := by
    refine exists_mapM_eq_some fun txin mem => ?_
    rw [LockView.prevHeight, isSome_map]
    exact exist txin mem
  have evaluated : evaluateSequenceLocks after.tip.next (lp.height, lp.time) = some true := by
    rw [LockView.checkSequenceLocks, if_pos rfl] at cached
    obtain ⟨verdict, evaluated, same⟩ := map_eq_some_iff.mp cached
    cases same
    exact evaluated
  obtain ⟨below, inTime⟩ := LockView.evaluateSequenceLocks_next.mp evaluated
  rw [LockView.checkSequenceLocks, if_neg (by simp), found]
  dsimp only
  by_cases enforced : 2 ≤ tx.nVersion.toNat ∧ flags &&& LOCKTIME_VERIFY_SEQUENCE ≠ 0
  · obtain ⟨prevheights, accepted⟩ := accepted_of_check enforced accepted
    obtain ⟨block, named, -⟩ := accepted.shared
    have onChain : block ∈ after.tip.path := by
      rw [LockView.testLockPointValidity, named] at valid
      exact contains_iff.mp valid
    have within : ∀ input ∈ tx.vin.zip heights, input.1.LockedWithin after.tip.next
        (after.tip.nHeight, after.tip.getMedianTimePast - 1) input.2 := by
      rintro ⟨txin, is⟩ mem
      have now := forall₂_zip (mapM_eq_some_iff.mp found) mem
      have earlier := mapM_eq_some_iff.mp accepted.heights
      obtain ⟨⟨_, was⟩, input, rfl⟩ := List.mem_map.mp (show txin ∈ (tx.vin.zip prevheights).map
        Prod.fst by
          rw [map_fst_zip earlier.length_eq.le]
          exact (of_mem_zip mem).1)
      exact accepted.within_later named onChain monotone below inTime input
        (forall₂_zip earlier input) now
    have unset := accepted.unset
    obtain ⟨locks, looped, height, time⟩ := @sequenceLockLoop_within after.tip.next (-1, -1)
      (after.tip.nHeight, after.tip.getMedianTimePast - 1) (tx.vin.zip heights)
      (by dsimp only; omega) (by dsimp only; omega) within
    rw [LockView.calculateSequenceLocks_enforced enforced found, looped]
    dsimp only [map_some]
    rw [LockView.evaluateSequenceLocks_next.mpr ⟨by dsimp only at height ⊢; omega,
      by dsimp only at time ⊢; omega⟩]
    exact ⟨_, rfl⟩
  · rw [LockView.calculateSequenceLocks_unenforced enforced found]
    have unlocked := LockView.locks_of_unenforced enforced accepted
    rw [unlocked] at evaluated
    dsimp only
    rw [evaluated]
    exact ⟨_, rfl⟩

-- A lock of one block

def genesis : BlockIndex := .root 0 ⟨1, 0, 0, 1000, 0, 0⟩

def second : BlockIndex := .child genesis 1 ⟨1, 0, 0, 1100, 0, 0⟩

def third : BlockIndex := .child second 2 ⟨1, 0, 0, 1200, 0, 0⟩

def fourth : BlockIndex := .child third 3 ⟨1, 0, 0, 1300, 0, 0⟩

/-- Blocks with a transaction of hash `1`. -/
def txidsIn (blocks : List BlockIndex) (block : BlockIndex) : List Uint256 :=
  if block ∈ blocks then [1] else []

/-- The coins of that transaction are unspent as they were created in one of the blocks. -/
def unspentView {blocks : List BlockIndex} (block tip : BlockIndex) (listed : block ∈ blocks)
    (onChain : block ∈ tip.path) (inRange : (tip.nHeight : Int) < MEMPOOL_HEIGHT)
    : LocatedView (txidsIn blocks) where
  tip := tip
  pcoinsTip txid := if txid = 1 then some ⟨false, [⟨5, []⟩], block.nHeight, 1⟩ else none
  get _ := none
  located := by
    intro txid coins found _
    split at found
    · rename_i same
      cases found
      exact ⟨block, onChain, rfl, by simp [txidsIn, listed, same]⟩
    · cases found
  apart := by
    intro txid ptx pooled
    cases pooled
  inRange := inRange

def confirmedView (tip : BlockIndex) (onChain : second ∈ tip.path)
    (inRange : (tip.nHeight : Int) < MEMPOOL_HEIGHT)
    : ConfirmedView (txidsIn [second]) where
  toLocatedView := unspentView second tip (mem_singleton_self _) onChain inRange
  once := by
    intro txid first _ other _ inFirst inOther
    have only : ∀ block, txid ∈ txidsIn [second] block → block = second := by
      intro block mem
      rw [txidsIn] at mem
      split at mem
      · exact mem_singleton.mp ‹_›
      · cases mem
    rw [only first inFirst, only other inOther]

/-- It waits for two blocks on its input. -/
def waitingTx : Transaction := ⟨2, [⟨⟨1, 0⟩, [], 2, []⟩], [⟨4, []⟩], 0⟩

def waitingPoints : LockPoints := ⟨2, -1, some second⟩

theorem medianMonotone_fourth : fourth.MedianMonotone := by
  rw [MedianMonotone]
  decide

/-- The lock points still hold one block later. -/
theorem lockPoints_reusable_next
    : ∃ recomputed, (confirmedView fourth (by decide) (by decide)).checkSequenceLocks waitingTx 1
        waitingPoints false = some (true, recomputed) := by
  have accepted : (confirmedView third (by decide) (by decide)).checkSequenceLocks waitingTx 1 {}
      false = some (true, waitingPoints) := by
    simp only [LockView.checkSequenceLocks, getAncestor_eq]
    decide
  have valid : (confirmedView fourth (by decide) (by decide)).testLockPointValidity waitingPoints
      = true := contains_iff.mpr (show second ∈ fourth.path by decide)
  exact lockPoints_reusable accepted medianMonotone_fourth (by decide) valid (by decide)

/-- A transaction of the same hash is in a later block: the cached lock points are those of the
first one and pass, and the lock of the coins that are there now has not run out.
-/
theorem duplicate_txid_locks_again
    : ∃ before after : LocatedView (txidsIn [second, fourth]), before.tip = third
      ∧ before.checkSequenceLocks waitingTx 1 {} false = some (true, waitingPoints)
      ∧ after.tip = fourth ∧ fourth.MedianMonotone
      ∧ (∀ txin ∈ waitingTx.vin, (after.getCoins txin.prevout.hash).isSome)
      ∧ after.testLockPointValidity waitingPoints = true
      ∧ after.checkSequenceLocks waitingTx 1 waitingPoints true = some (true, waitingPoints)
      ∧ ∃ recomputed,
        after.checkSequenceLocks waitingTx 1 waitingPoints false = some (false, recomputed) := by
  refine ⟨unspentView second third (by decide) (by decide) (by decide),
    unspentView fourth fourth (by decide) (by decide) (by decide), rfl, ?_, rfl,
    medianMonotone_fourth, by decide, contains_iff.mpr (show second ∈ fourth.path by decide),
    by decide, ⟨4, -1, some fourth⟩, ?_⟩
  all_goals
    simp only [LockView.checkSequenceLocks, getAncestor_eq]
    decide

end ConfirmedView

end Pqcoin
