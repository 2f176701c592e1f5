import Pqcoin.Mempool.Returned

/-! `removeForReorg`: the entries that a reorganisation leaves non-final, locked or immature go
with their descendants, and when the scan for them ends. A null pointer that is followed is `none`.
-/

namespace Pqcoin

open BlockIndex List LockView Option Reach Relation Search TransactionSignatureChecker TxMemPool

-- The scan

def LOCKTIME_MEDIAN_TIME_PAST : BitVec 32 := 2

def isFinalTx (tx : Transaction) (nBlockHeight nBlockTime : Int) : Bool :=
  tx.nLockTime == 0
  || decide ((tx.nLockTime.toNat : Int)
      < if tx.nLockTime.toNat < LOCKTIME_THRESHOLD then nBlockHeight else nBlockTime)
  || tx.vin.all (fun txin => txin.nSequence == SEQUENCE_FINAL)

/-- What the scan reads: the tip and its coins, the adjusted time, and the arguments of the call
with the maturity that coinbases of a height need.
-/
structure ReorgView where
  tip : BlockIndex
  pcoinsTip : CoinsTable
  adjustedTime : Int
  pcoins : CoinsTable
  nMemPoolHeight : BitVec 32
  flags : BitVec 32
  nCoinbaseMaturity : Int → Int

namespace ReorgView

def checkFinalTx (view : ReorgView) (tx : Transaction) : Bool :=
  let flags := if view.flags.toInt < 0 then 0 else view.flags
  isFinalTx tx (view.tip.nHeight + 1)
    (if flags &&& LOCKTIME_MEDIAN_TIME_PAST ≠ 0 then view.tip.getMedianTimePast
    else view.adjustedTime)

/-- What `CheckSequenceLocks` reads. -/
def lockView (view : ReorgView) (pool : TxMemPool) : LockView where
  tip := view.tip
  pcoinsTip := view.pcoinsTip
  get txid := (pool.facts txid).map (fun facts => facts.tx)

def Immature (view : ReorgView) (coins : Coins) : Prop :=
  coins.fCoinBase = true
  ∧ (view.nMemPoolHeight.toNat : Int) - coins.nHeight < view.nCoinbaseMaturity coins.nHeight

instance (view : ReorgView) (coins : Coins) : Decidable (view.Immature coins) :=
  inferInstanceAs (Decidable (_ ∧ _))

/-- The loop over the inputs of an entry that spends a coinbase: whether the entry is to go. The
height of the coins is read before the pointer to them is tested.
-/
def checkMaturity (view : ReorgView) (pool : TxMemPool) : List TxIn → Option Bool
  | [] => some false
  | txin :: rest =>
    if txin.prevout.hash ∈ pool.mapTx then view.checkMaturity pool rest
    else
      match view.pcoins txin.prevout.hash with
      | none => none
      | some coins => if view.Immature coins then some true else view.checkMaturity pool rest

/-- The round for an entry: whether it is to go, and its lock points afterwards. -/
def scanEntry (view : ReorgView) (pool : TxMemPool) (facts : EntryFacts)
    : Option (Bool × LockPoints) :=
  let lockView := view.lockView pool
  let validLP := lockView.testLockPointValidity facts.lockPoints
  if view.checkFinalTx facts.tx then
    match lockView.checkSequenceLocks facts.tx view.flags facts.lockPoints validLP with
    | none => none
    | some (false, lp) => some (true, lp)
    | some (true, lp) =>
      if facts.spendsCoinbase then (view.checkMaturity pool facts.tx.vin).map (·, lp)
      else some (false, lp)
  else some (true, facts.lockPoints)

def scanRound (view : ReorgView) (state : TxMemPool × List Uint256) (it : Uint256)
    : Option (TxMemPool × List Uint256) :=
  (state.1.mapTx.lookup it).bind fun entry =>
    (view.scanEntry state.1 entry.toEntryFacts).bind fun (removes, lp) =>
      let txToRemove := if removes then insertKey hashRank it state.2 else state.2
      if (view.lockView state.1).testLockPointValidity entry.lockPoints then
        some (state.1, txToRemove)
      else (state.1.modify it (fun entry => some (entry.updateLockPoints lp))).map (·, txToRemove)

end ReorgView

def TxMemPool.removeForReorg (C : MempoolContext) (pool : TxMemPool) (view : ReorgView)
    : Option TxMemPool :=
  (pool.mapTx.keys.foldlM view.scanRound (pool, [])).bind fun (pool, txToRemove) =>
    pool.removeStaged C (pool.calculateAllDescendants txToRemove) false

-- When the checks of an entry end

/-- The input has a relative lock time that is measured in seconds. -/
def TxIn.TimeLocked (txin : TxIn) : Prop :=
  txin.locktimeDisabled = false ∧ txin.nSequence.toNat &&& SEQUENCE_LOCKTIME_TYPE_FLAG ≠ 0

/-- The blocks whose times the lock times refer to are on the chain: once all inputs are known,
those with a lock in seconds are at most one block above the next one.
-/
def LockView.InReach (view : LockView) (tx : Transaction) (flags : BitVec 32) : Prop :=
  2 ≤ tx.nVersion.toNat → flags &&& LOCKTIME_VERIFY_SEQUENCE ≠ 0 →
    (∀ txin ∈ tx.vin, (view.prevHeight txin).isSome) →
      ∀ txin ∈ tx.vin, ∀ height, view.prevHeight txin = some height →
        txin.TimeLocked → height ≤ view.tip.nHeight + 2

theorem BlockIndex.getAncestor_next_isSome {tip : BlockIndex} {height}
    : (tip.next.getAncestor height).isSome ↔ height ≤ tip.nHeight + 1 := by
  rw [getAncestor_eq]
  constructor
  · intro found
    by_contra above
    rw [ancestor_eq_none (by rw [BlockIndex.next, nHeight]; omega)] at found
    cases found
  · intro within
    obtain ⟨block, found, -⟩ :=
      @ancestor_eq_some height tip.next (by rw [BlockIndex.next, nHeight]; omega)
    rw [found]
    rfl

theorem sequenceLockStep_isSome {tip : BlockIndex} {locks txin nCoinHeight}
    : (sequenceLockStep tip.next locks txin nCoinHeight).isSome
      ↔ (txin.TimeLocked → nCoinHeight ≤ tip.nHeight + 2) := by
  have reached := @getAncestor_next_isSome tip (max (nCoinHeight - 1) 0).toNat
  rw [sequenceLockStep, TxIn.TimeLocked]
  dsimp only
  cases txin.locktimeDisabled with
  | true => simp
  | false =>
    rw [if_neg (by simp)]
    by_cases kind : txin.nSequence.toNat &&& SEQUENCE_LOCKTIME_TYPE_FLAG ≠ 0
    · rw [if_pos kind]
      cases found : tip.next.getAncestor (max (nCoinHeight - 1) 0).toNat with
      | none =>
        rw [found] at reached
        simp only [isSome_none, Bool.false_eq_true, false_iff, not_le] at reached
        simp only [isSome_none, Bool.false_eq_true, false_iff]
        intro within
        have bound := within ⟨trivial, kind⟩
        omega
      | some block =>
        rw [found] at reached
        simp only [isSome_some, true_iff] at reached
        simp only [isSome_some, true_iff]
        intro _
        omega
    · rw [if_neg kind]
      simp only [isSome_some, true_iff]
      exact fun locked => absurd locked.2 kind

theorem sequenceLockLoop_isSome {tip : BlockIndex} {inputs locks}
    : (sequenceLockLoop tip.next locks inputs).isSome
      ↔ ∀ input ∈ inputs, input.1.TimeLocked → input.2 ≤ tip.nHeight + 2 := by
  induction inputs generalizing locks with
  | nil => simp [sequenceLockLoop]
  | cons input rest ih =>
    obtain ⟨txin, nCoinHeight⟩ := input
    have first := @sequenceLockStep_isSome tip locks txin nCoinHeight
    rw [sequenceLockLoop, forall_mem_cons, ← first]
    cases sequenceLockStep tip.next locks txin nCoinHeight with
    | none => simp
    | some after => simpa using ih

theorem LockView.checkSequenceLocks_isSome {view : LockView} {tx flags lp useExistingLockPoints}
    : (view.checkSequenceLocks tx flags lp useExistingLockPoints).isSome
      ↔ (useExistingLockPoints = false → view.InReach tx flags) := by
  have evaluated (lockPair)
      : (evaluateSequenceLocks view.tip.next lockPair).isSome = true := rfl
  rw [checkSequenceLocks]
  cases useExistingLockPoints with
  | true => simp [evaluated]
  | false =>
    rw [if_neg (by simp), forall_prop_of_true rfl, InReach]
    cases heights : tx.vin.mapM view.prevHeight with
    | none =>
      simp only [isSome_some, true_iff]
      intro _ _ known
      obtain ⟨prevheights, found⟩ := Folds.exists_mapM_eq_some known
      rw [heights] at found
      cases found
    | some prevheights =>
      dsimp only
      by_cases enforced : 2 ≤ tx.nVersion.toNat ∧ flags &&& LOCKTIME_VERIFY_SEQUENCE ≠ 0
      · have looped := (@sequenceLockLoop_isSome view.tip (tx.vin.zip prevheights) (-1, -1)).trans
          (Folds.forall_zip_mapM
            (P := fun txin (height : Int) =>
              txin.TimeLocked → height ≤ view.tip.nHeight + 2) heights)
        rw [calculateSequenceLocks_enforced enforced heights]
        cases ran : sequenceLockLoop view.tip.next (-1, -1) (tx.vin.zip prevheights) with
        | none =>
          rw [ran] at looped
          simp only [map_none, isSome_none, Bool.false_eq_true, false_iff]
            at looped ⊢
          exact fun inReach =>
            looped (inReach enforced.1 enforced.2 (Folds.isSome_of_mapM heights))
        | some locks =>
          rw [ran] at looped
          simp only [isSome_some, true_iff] at looped
          simp only [map_some, isSome_map, evaluated, true_iff]
          exact fun _ _ _ => looped
      · rw [calculateSequenceLocks_unenforced enforced heights]
        simp only [isSome_map, evaluated, true_iff]
        exact fun version flag => absurd ⟨version, flag⟩ enforced

namespace ReorgView

variable {view : ReorgView} {C : MempoolContext} {pool after : TxMemPool} {facts : EntryFacts}

/-- The loop stops at the input, with the entry to go. -/
def Stops (view : ReorgView) (pool : TxMemPool) (txin : TxIn) : Prop :=
  txin.prevout.hash ∉ pool.mapTx
  ∧ ∃ coins, view.pcoins txin.prevout.hash = some coins ∧ view.Immature coins

/-- The loop finds no coins for the input. -/
def Missing (view : ReorgView) (pool : TxMemPool) (txin : TxIn) : Prop :=
  txin.prevout.hash ∉ pool.mapTx ∧ view.pcoins txin.prevout.hash = none

/-- Each input without coins comes after one at which the loop stops. -/
def Shielded (view : ReorgView) (pool : TxMemPool) (vin : List TxIn) : Prop :=
  ∀ before txin rest, vin = before ++ txin :: rest → view.Missing pool txin →
    ∃ earlier ∈ before, view.Stops pool earlier

theorem shielded_cons {txin} {rest}
    : view.Shielded pool (txin :: rest)
      ↔ ¬ view.Missing pool txin ∧ (view.Stops pool txin ∨ view.Shielded pool rest) := by
  constructor
  · intro shielded
    refine ⟨fun missing => ?_, ?_⟩
    · obtain ⟨earlier, listed, -⟩ := shielded [] txin rest rfl missing
      cases listed
    · by_cases stops : view.Stops pool txin
      · exact .inl stops
      refine .inr fun before other after same missing => ?_
      obtain ⟨earlier, listed, stopping⟩ :=
        shielded (txin :: before) other after (by rw [same]; rfl) missing
      rcases mem_cons.mp listed with rfl | listed
      · exact absurd stopping stops
      · exact ⟨earlier, listed, stopping⟩
  · rintro ⟨there, later⟩ before other after same missing
    cases before with
    | nil =>
      cases same
      exact absurd missing there
    | cons first before =>
      cases same
      rcases later with stops | shielded
      · exact ⟨txin, .head _, stops⟩
      obtain ⟨earlier, listed, stopping⟩ := shielded before other after rfl missing
      exact ⟨earlier, .tail _ listed, stopping⟩

/-- The loop over the inputs ends if they are shielded, and lets an entry stay if all its inputs
from outside of the pool have coins that are mature.
-/
theorem checkMaturity_spec (vin)
    : ((view.checkMaturity pool vin).isSome ↔ view.Shielded pool vin)
      ∧ (view.checkMaturity pool vin = some false
        ↔ ∀ txin ∈ vin, ¬ view.Missing pool txin ∧ ¬ view.Stops pool txin) := by
  induction vin with
  | nil => simp [checkMaturity, Shielded]
  | cons txin rest ih =>
    rw [checkMaturity, shielded_cons, forall_mem_cons, Missing, Stops]
    by_cases pooled : txin.prevout.hash ∈ pool.mapTx
    · simpa [pooled] using ih
    rw [if_neg pooled]
    cases view.pcoins txin.prevout.hash with
    | none => simp [pooled]
    | some coins =>
      by_cases immature : view.Immature coins
      · simp [pooled, immature]
      · simpa [pooled, immature] using ih

/-- The round for an entry ends: once the entry is final its lock times are in reach unless it has
valid lock points, and once they let it pass, the inputs of an entry that spends a coinbase are
shielded.
-/
structure Covers (view : ReorgView) (pool : TxMemPool) (facts : EntryFacts) : Prop where
  inReach : view.checkFinalTx facts.tx = true
    → (view.lockView pool).testLockPointValidity facts.lockPoints = false
    → (view.lockView pool).InReach facts.tx view.flags
  shielded : view.checkFinalTx facts.tx = true
    → (∃ lp, (view.lockView pool).checkSequenceLocks facts.tx view.flags facts.lockPoints
        ((view.lockView pool).testLockPointValidity facts.lockPoints) = some (true, lp))
    → facts.spendsCoinbase = true → view.Shielded pool facts.tx.vin

theorem scanEntry_isSome : (view.scanEntry pool facts).isSome ↔ view.Covers pool facts := by
  have locks := @checkSequenceLocks_isSome (view.lockView pool) facts.tx view.flags
    facts.lockPoints ((view.lockView pool).testLockPointValidity facts.lockPoints)
  have maturity := (@checkMaturity_spec view pool facts.tx.vin).1
  rw [scanEntry]
  by_cases final : view.checkFinalTx facts.tx = true
  · rw [if_pos final]
    cases checked : (view.lockView pool).checkSequenceLocks facts.tx view.flags facts.lockPoints
        ((view.lockView pool).testLockPointValidity facts.lockPoints) with
    | none =>
      rw [checked] at locks
      simp only [isSome_none, Bool.false_eq_true, false_iff] at locks ⊢
      exact fun covers => locks (covers.inReach final)
    | some result =>
      rw [checked] at locks
      have inReach := locks.mp rfl
      obtain ⟨_ | _, lp⟩ := result
      · simp only [isSome_some, true_iff]
        exact ⟨fun _ => inReach, fun _ passes => by simp [checked] at passes⟩
      dsimp only
      by_cases spends : facts.spendsCoinbase = true
      · rw [if_pos spends, isSome_map, maturity]
        exact ⟨fun shielded => ⟨fun _ => inReach, fun _ _ _ => shielded⟩,
          fun covers => covers.shielded final ⟨lp, checked⟩ spends⟩
      · rw [if_neg spends]
        simp only [isSome_some, true_iff]
        exact ⟨fun _ => inReach, fun _ _ flagged => absurd flagged spends⟩
  · rw [if_neg final]
    simp only [isSome_some, true_iff]
    exact ⟨fun passes => absurd passes final, fun passes => absurd passes final⟩

theorem stays_of_scanEntry {lp} (ran : view.scanEntry pool facts = some (false, lp))
    : view.checkFinalTx facts.tx = true
      ∧ (view.lockView pool).checkSequenceLocks facts.tx view.flags facts.lockPoints
          ((view.lockView pool).testLockPointValidity facts.lockPoints) = some (true, lp)
      ∧ (facts.spendsCoinbase = true
        → ∀ txin ∈ facts.tx.vin, ¬ view.Missing pool txin ∧ ¬ view.Stops pool txin) := by
  rw [scanEntry] at ran
  split at ran
  · rename_i final
    split at ran
    · cases ran
    · cases ran
    · rename_i checked
      split at ran
      · obtain ⟨removes, looped, same⟩ := map_eq_some_iff.mp ran
        cases same
        exact ⟨final, checked, fun _ => (checkMaturity_spec _).2.mp looped⟩
      · rename_i unflagged
        cases ran
        exact ⟨final, checked, fun flagged => absurd flagged unflagged⟩
  · cases ran

end ReorgView

theorem LockView.checkSequenceLocks_existing {view : LockView} {tx flags lp after passes}
    (ran : view.checkSequenceLocks tx flags lp true = some (passes, after))
    : after = lp := by
  rw [checkSequenceLocks, if_pos rfl] at ran
  obtain ⟨verdict, -, same⟩ := map_eq_some_iff.mp ran
  cases same
  rfl

theorem LockView.checkSequenceLocks_again {view : LockView} {tx flags lp lp₀}
    (passed : view.checkSequenceLocks tx flags lp₀ (view.testLockPointValidity lp₀)
      = some (true, lp))
    : view.testLockPointValidity lp = true
      ∧ view.checkSequenceLocks tx flags lp true = some (true, lp) := by
  cases valid : view.testLockPointValidity lp₀ with
  | true =>
    rw [valid] at passed
    cases checkSequenceLocks_existing passed
    exact ⟨valid, passed⟩
  | false =>
    rw [valid, checkSequenceLocks, if_neg (by simp)] at passed
    split at passed
    · cases passed
    split at passed
    · cases passed
    obtain ⟨verdict, evaluated, same⟩ := map_eq_some_iff.mp passed
    cases same
    refine ⟨?_, ?_⟩
    · rw [testLockPointValidity]
      dsimp only
      split
      · rfl
      rename_i block found
      rw [contains_iff, mem_path_iff]
      rw [getAncestor_eq] at found
      rw [← nHeight_of_ancestor found] at found
      exact found
    · rw [checkSequenceLocks, if_pos rfl, evaluated]
      rfl

-- The loop over the entries

namespace TxMemPool

variable {C : MempoolContext} {pool : TxMemPool} {edge : Uint256 → Uint256 → Prop}
  {mapTx : AList (fun _ : Uint256 => TxMemPoolEntry)}
  {change : Uint256 → TxMemPoolEntry → LockPoints}

def relocked (facts : EntryFacts) (lp : LockPoints) : EntryFacts := { facts with lockPoints := lp }

theorem Booked.relock (booked : Booked C pool edge)
    (lookups : ∀ it, mapTx.lookup it
      = (pool.mapTx.lookup it).map (fun entry => entry.updateLockPoints (change it entry)))
    : Booked C { pool with mapTx } edge := by
  have facts (it) : ∃ lp, { pool with mapTx }.facts it
      = (pool.facts it).map (relocked · lp) := by
    rw [TxMemPool.facts, TxMemPool.facts, lookups]
    cases found : pool.mapTx.lookup it with
    | none => exact ⟨{}, rfl⟩
    | some entry => exact ⟨change it entry, rfl⟩
  have known (it) {later : EntryFacts} (found : { pool with mapTx }.facts it = some later)
      : ∃ before, pool.facts it = some before ∧ before.tx = later.tx := by
    obtain ⟨lp, same⟩ := facts it
    rw [same] at found
    obtain ⟨before, recorded, rfl⟩ := map_eq_some_iff.mp found
    exact ⟨before, recorded, rfl⟩
  have mem (it) : it ∈ mapTx ↔ it ∈ pool.mapTx := by
    rw [← AList.lookup_isSome, ← AList.lookup_isSome, lookups, isSome_map]
  have ownCost : { pool with mapTx }.ownCost C = pool.ownCost C := by
    funext it
    obtain ⟨lp, same⟩ := facts it
    rw [ownCost, ownCost, same]
    cases pool.facts it <;> rfl
  have own : { pool with mapTx }.own C = pool.own C := funext fun it =>
    (Prod.ext_iff.mp ((ownCost_eq C _ it).symm.trans
      ((congrFun ownCost it).trans (ownCost_eq C pool it)))).1
  have totals (it) : { pool with mapTx }.below it = pool.below it
      ∧ { pool with mapTx }.above it = pool.above it
      ∧ { pool with mapTx }.hashIdx it = pool.hashIdx it := by
    simp only [TxMemPool.below, TxMemPool.above, hashIdx, lookups]
    cases pool.mapTx.lookup it <;> exact ⟨rfl, rfl, rfl⟩
  have spendsOut (it) (out)
      : SpendsOut { pool with mapTx } it out ↔ pool.SpendsOut it out := by
    obtain ⟨lp, same⟩ := facts it
    rw [SpendsOut, SpendsOut, same]
    cases pool.facts it with
    | none => simp
    | some before => simp [relocked]
  refine ⟨booked.children, booked.parents, ?_, booked.acyclic, ⟨?_, ?_, ?_, ?_⟩, ?_, ?_⟩
  · intro parent child step
    exact ⟨(mem parent).mpr (booked.within _ _ step).1,
      (mem child).mpr (booked.within _ _ step).2⟩
  · intro it member
    rw [(totals it).1, own]
    exact booked.counted.below it ((mem it).mp member)
  · intro it member
    rw [(totals it).2.1, ownCost]
    exact booked.counted.above it ((mem it).mp member)
  · exact fun it member => booked.counted.descendsSelf it ((mem it).mp member)
  · exact fun it member => booked.counted.ascendsSelf it ((mem it).mp member)
  · intro out it
    rw [spendsOut]
    exact booked.next out it
  · exact booked.indexed.congr (funext fun it => (totals it).2.2) rfl
      (fun it later found => known it found)

end TxMemPool

namespace ReorgView

variable {view : ReorgView} {C : MempoolContext} {pool after : TxMemPool} {facts : EntryFacts}
  {it : Uint256} {done : List Uint256} {state : TxMemPool × List Uint256}

theorem scanEntry_congr
    (same : ∀ it, (after.facts it).map (fun facts => facts.tx)
      = (pool.facts it).map (fun facts => facts.tx))
    : view.lockView after = view.lockView pool ∧ view.scanEntry after = view.scanEntry pool := by
  have lockView : view.lockView after = view.lockView pool := by
    rw [lockView, lockView, funext same]
  have mem (it) : it ∈ after.mapTx ↔ it ∈ pool.mapTx := by
    have known := congrArg isSome (same it)
    rw [isSome_map, isSome_map] at known
    rw [mem_iff_facts, mem_iff_facts, ← isSome_iff_exists, ← isSome_iff_exists, known]
  have maturity (vin) : view.checkMaturity after vin = view.checkMaturity pool vin := by
    induction vin with
    | nil => rfl
    | cons txin rest ih => simp only [checkMaturity, mem, ih]
  refine ⟨lockView, funext fun facts => ?_⟩
  simp only [scanEntry, lockView, maturity]

def scanned (view : ReorgView) (pool : TxMemPool) (facts : EntryFacts) : Bool × LockPoints :=
  (view.scanEntry pool facts).getD (true, facts.lockPoints)

/-- The pool and the entries to remove, after the rounds for some entries. -/
structure Scanned (view : ReorgView) (pool : TxMemPool) (done : List Uint256)
    (state : TxMemPool × List Uint256)
    : Prop where
  lookups : ∀ it, state.1.mapTx.lookup it = (pool.mapTx.lookup it).map (fun entry =>
    entry.updateLockPoints
      (if it ∈ done then (view.scanned pool entry.toEntryFacts).2 else entry.lockPoints))
  others : state.1 = { pool with mapTx := state.1.mapTx }
  listed : ∀ it, it ∈ state.2
    ↔ it ∈ done ∧ ∃ facts, pool.facts it = some facts ∧ (view.scanned pool facts).1 = true

theorem Scanned.start (view : ReorgView) (pool) : view.Scanned pool [] (pool, []) where
  lookups it := by cases found : pool.mapTx.lookup it <;> simp [TxMemPoolEntry.updateLockPoints]
  others := rfl
  listed it := by simp

theorem Scanned.sameTxs (scanned : view.Scanned pool done state) (it)
    : (state.1.facts it).map (fun facts => facts.tx)
      = (pool.facts it).map (fun facts => facts.tx) := by
  rw [TxMemPool.facts, TxMemPool.facts, scanned.lookups]
  cases pool.mapTx.lookup it <;> rfl

theorem locks_of_scanEntry {result : Bool × LockPoints}
    (valid : (view.lockView pool).testLockPointValidity facts.lockPoints = true)
    (ran : view.scanEntry pool facts = some result)
    : result.2 = facts.lockPoints := by
  rw [scanEntry, valid] at ran
  split at ran
  · split at ran
    · cases ran
    · rename_i checked
      cases ran
      exact checkSequenceLocks_existing checked
    · rename_i checked
      split at ran
      · obtain ⟨removes, -, rfl⟩ := map_eq_some_iff.mp ran
        exact checkSequenceLocks_existing checked
      · cases ran
        exact checkSequenceLocks_existing checked
  · cases ran
    rfl

theorem Scanned.round (scanned : view.Scanned pool done state) (fresh : it ∉ done)
    (known : pool.facts it = some facts)
    : (∀ next, view.scanRound state it = some next →
        (view.scanEntry pool facts).isSome ∧ view.Scanned pool (it :: done) next)
      ∧ ((view.scanEntry pool facts).isSome → ∃ next, view.scanRound state it = some next) := by
  obtain ⟨entry, found, rfl⟩ := map_eq_some_iff.mp known
  have here : state.1.mapTx.lookup it = some entry := by
    rw [scanned.lookups, found, map_some, if_neg fresh]
    rfl
  obtain ⟨lockView, scanEntry⟩ := @scanEntry_congr view pool state.1 scanned.sameTxs
  rw [scanRound, here, bind_some, lockView, scanEntry]
  cases decided : view.scanEntry pool entry.toEntryFacts with
  | none => simp
  | some result =>
    obtain ⟨removes, lp⟩ := result
    have outcome : view.scanned pool entry.toEntryFacts = (removes, lp) := by
      rw [ReorgView.scanned, decided]
      rfl
    -- both branches leave the entry with the lock points of the round
    have finish (mapTx : AList (fun _ : Uint256 => TxMemPoolEntry))
        (lookups : ∀ other, mapTx.lookup other
          = if other = it then some (entry.updateLockPoints lp) else state.1.mapTx.lookup other)
        : view.Scanned pool (it :: done) ({ state.1 with mapTx },
            if removes then insertKey hashRank it state.2 else state.2) := by
      refine ⟨fun other => ?_, ?_, fun other => ?_⟩
      · rw [lookups]
        by_cases same : other = it
        · subst same
          rw [if_pos rfl, found, map_some, if_pos (.head _), outcome]
        · rw [if_neg same, scanned.lookups]
          simp [mem_cons, same]
      · dsimp only
        rw [scanned.others]
      · have before := scanned.listed other
        by_cases same : other = it
        · subst same
          have out : other ∉ state.2 := fun listed => fresh (before.mp listed).1
          cases removes <;> simp [out, known, outcome]
        · cases removes <;> simp [same, before]
    rw [bind_some]
    dsimp only
    cases valid : (view.lockView pool).testLockPointValidity entry.lockPoints with
    | true =>
      rw [if_pos rfl]
      refine ⟨fun next same => ?_, fun _ => ⟨_, rfl⟩⟩
      cases same
      refine ⟨rfl, finish state.1.mapTx fun other => ?_⟩
      have kept := locks_of_scanEntry valid decided
      by_cases same : other = it
      · rw [if_pos same, same, here]
        exact congrArg some (congrArg entry.updateLockPoints kept).symm
      · rw [if_neg same]
    | false =>
      have changed : state.1.modify it (fun entry => some (entry.updateLockPoints lp))
          = some { state.1 with
            mapTx := state.1.mapTx.insert it (entry.updateLockPoints lp) } :=
        modify_eq here rfl
      rw [if_neg (by simp), changed]
      refine ⟨fun next same => ?_, fun _ => ⟨_, rfl⟩⟩
      cases same
      exact ⟨rfl, finish _ fun other => lookup_insert _ it other _⟩

/-- The loop ends when the rounds do, by induction on the entries left. -/
theorem Scanned.loop {rest} (scanned : view.Scanned pool done state) (unique : (rest ++ done).Nodup)
    (inside : ∀ it ∈ rest, it ∈ pool.mapTx)
    : (∀ last, rest.foldlM view.scanRound state = some last →
        (∀ it ∈ rest, ∀ facts, pool.facts it = some facts → (view.scanEntry pool facts).isSome)
        ∧ view.Scanned pool (rest ++ done) last)
      ∧ ((∀ it ∈ rest, ∀ facts, pool.facts it = some facts → (view.scanEntry pool facts).isSome)
        → ∃ last, rest.foldlM view.scanRound state = some last) := by
  induction rest generalizing done state with
  | nil =>
    refine ⟨fun last same => ?_, fun _ => ⟨state, rfl⟩⟩
    cases same
    exact ⟨by simp, scanned⟩
  | cons it rest ih =>
    obtain ⟨fresh, unique⟩ := nodup_cons.mp unique
    rw [forall_mem_cons] at inside
    obtain ⟨facts, known⟩ := mem_iff_facts.mp inside.1
    have round := scanned.round (fun listed => fresh (mem_append_right _ listed)) known
    have own : (∀ other, pool.facts it = some other → (view.scanEntry pool other).isSome)
        ↔ (view.scanEntry pool facts).isSome := by simp [known]
    rw [foldlM_cons, forall_mem_cons, own]
    cases ran : view.scanRound state it with
    | none =>
      refine ⟨fun last same => (by cases same), fun ends => ?_⟩
      obtain ⟨next, same⟩ := round.2 ends.1
      rw [ran] at same
      cases same
    | some next =>
      obtain ⟨ends, later⟩ := round.1 next ran
      have moved : (rest ++ it :: done).Nodup := nodup_middle.mpr (nodup_cons.mpr ⟨fresh, unique⟩)
      have others := ih later moved inside.2
      refine ⟨fun last looped => ?_, fun all => others.2 all.2⟩
      obtain ⟨all, finished⟩ := others.1 last looped
      refine ⟨⟨ends, all⟩, ⟨fun other => ?_, finished.others, fun other => ?_⟩⟩
      · simpa [or_left_comm] using finished.lookups other
      · simpa [or_left_comm] using finished.listed other

end ReorgView

-- The pool afterwards

/-- A pool after the call: what remains is final for the next block and passes its sequence locks,
what remains and spends a coinbase has coins that are mature for all its inputs from outside of
the pool, and the parents in the pool of what remains have remained.
-/
structure ReorgSound (view : ReorgView) (pool after : TxMemPool) : Prop where
  final : ∀ it facts, after.facts it = some facts → view.checkFinalTx facts.tx = true
  locks : ∀ it facts, after.facts it = some facts →
    (view.lockView after).checkSequenceLocks facts.tx view.flags facts.lockPoints
      ((view.lockView after).testLockPointValidity facts.lockPoints) = some (true, facts.lockPoints)
  mature : ∀ it facts, after.facts it = some facts → facts.spendsCoinbase = true →
    ∀ txin ∈ facts.tx.vin, txin.prevout.hash ∈ after.mapTx
      ∨ ∃ coins, view.pcoins txin.prevout.hash = some coins ∧ ¬ view.Immature coins
  closed : ∀ it facts, after.facts it = some facts →
    ∀ parent, pool.IsParent facts.tx parent → parent ∈ after.mapTx

namespace ReorgView

variable {view : ReorgView} {C : MempoolContext} {pool after : TxMemPool}
  {state : TxMemPool × List Uint256} {done : List Uint256}

theorem Scanned.facts (scanned : view.Scanned pool done state) {it later} (mem : it ∈ done)
    (known : state.1.facts it = some later)
    : ∃ facts, pool.facts it = some facts
      ∧ later = TxMemPool.relocked facts (view.scanned pool facts).2 := by
  rw [TxMemPool.facts, scanned.lookups, Option.map_map] at known
  simp only [if_pos mem] at known
  obtain ⟨entry, found, rfl⟩ := map_eq_some_iff.mp known
  exact ⟨entry.toEntryFacts, by rw [TxMemPool.facts, found]; rfl, rfl⟩

/-- What is left once the entries that the scan has listed are gone with their descendants. -/
theorem Scanned.sound {stage : List Uint256} (scanned : view.Scanned pool pool.mapTx.keys state)
    (ended : ∀ it facts, pool.facts it = some facts → (view.scanEntry pool facts).isSome)
    (staged : ∀ other, other ∈ stage ↔ ∃ it ∈ state.2, ReflTransGen pool.Spends it other)
    (left : ∀ it, after.facts it = if it ∈ stage then none else state.1.facts it)
    : ReorgSound view pool after := by
  have remains {it} {later} (known : after.facts it = some later)
      : it ∉ stage ∧ ∃ facts lp, pool.facts it = some facts
        ∧ later = TxMemPool.relocked facts lp ∧ view.scanEntry pool facts = some (false, lp) := by
    rw [left] at known
    split at known
    · cases known
    rename_i out
    have mem : it ∈ pool.mapTx.keys := by
      have listed : it ∈ pool.mapTx := by
        rw [mem_iff_facts, ← isSome_iff_exists]
        simpa [known] using (congrArg isSome (scanned.sameTxs it)).symm
      exact AList.mem_keys.mpr listed
    obtain ⟨facts, before, rfl⟩ := scanned.facts mem known
    obtain ⟨⟨removes, lp⟩, decided⟩ := isSome_iff_exists.mp (ended it facts before)
    have outcome : view.scanned pool facts = (removes, lp) := by
      rw [ReorgView.scanned, decided]
      rfl
    refine ⟨out, facts, lp, before, by rw [outcome], ?_⟩
    cases removes with
    | false => exact decided
    | true =>
      have listed := (scanned.listed it).mpr ⟨mem, facts, before, by rw [outcome]⟩
      exact absurd ((staged it).mpr ⟨it, listed, .refl⟩) out
  -- a parent that had left would have taken the entry with it
  have closed {it} {later} (known : after.facts it = some later)
      {parent} (isParent : pool.IsParent later.tx parent)
      : parent ∈ after.mapTx := by
    obtain ⟨out, facts, lp, before, rfl, -⟩ := remains known
    have kept : parent ∉ stage := by
      intro gone
      obtain ⟨root, listed, path⟩ := (staged parent).mp gone
      exact out ((staged it).mpr ⟨root, listed, path.tail ⟨facts, before, isParent⟩⟩)
    have there := scanned.sameTxs parent
    obtain ⟨parentFacts, present⟩ := mem_iff_facts.mp isParent.1
    rw [present] at there
    obtain ⟨parentLater, present, -⟩ := map_eq_some_iff.mp there
    exact mem_iff_facts.mpr ⟨parentLater, by rw [left, if_neg kept, present]⟩
  refine ⟨?_, ?_, ?_, fun it later known parent isParent => closed known isParent⟩
  · intro it later known
    obtain ⟨-, facts, lp, before, rfl, decided⟩ := remains known
    exact (stays_of_scanEntry decided).1
  · intro it later known
    obtain ⟨-, facts, lp, before, rfl, decided⟩ := remains known
    obtain ⟨valid, passes⟩ := checkSequenceLocks_again (stays_of_scanEntry decided).2.1
    -- valid lock points are checked against the tip only
    have usable : (view.lockView after).testLockPointValidity lp = true := valid
    dsimp only [TxMemPool.relocked]
    rw [usable]
    exact passes
  · intro it later known flagged txin listed
    obtain ⟨-, facts, lp, before, rfl, decided⟩ := remains known
    obtain ⟨there, mature⟩ := (stays_of_scanEntry decided).2.2 flagged txin listed
    by_cases pooled : txin.prevout.hash ∈ pool.mapTx
    · exact .inl (closed known ⟨pooled, txin, listed, rfl⟩)
    obtain ⟨coins, found⟩ := ne_none_iff_exists'.mp fun missing => there ⟨pooled, missing⟩
    exact .inr ⟨coins, found, fun immature => mature ⟨pooled, coins, found, immature⟩⟩

end ReorgView

/-- The call completes and leaves a sound pool if and only if the rounds for its entries end. -/
theorem removeForReorg_sound_iff {C : MempoolContext} {pool : TxMemPool} (view : ReorgView)
    (booked : TxMemPool.Booked C pool pool.Spends)
    : (∃ after, pool.removeForReorg C view = some after ∧ ReorgSound view pool after)
      ↔ ∀ it facts, pool.facts it = some facts → view.Covers pool facts := by
  have unique : (pool.mapTx.keys ++ []).Nodup := by
    rw [append_nil]
    exact pool.mapTx.nodupKeys
  have inside : ∀ it ∈ pool.mapTx.keys, it ∈ pool.mapTx := fun it => AList.mem_keys.mp
  have loop := (ReorgView.Scanned.start view pool).loop unique inside
  have rounds : (∀ it ∈ pool.mapTx.keys, ∀ facts, pool.facts it = some facts →
        (view.scanEntry pool facts).isSome)
      ↔ ∀ it facts, pool.facts it = some facts → view.Covers pool facts := by
    simp only [ReorgView.scanEntry_isSome]
    exact ⟨fun all it facts known =>
      all it (AList.mem_keys.mpr (mem_iff_facts.mpr ⟨facts, known⟩)) facts known,
      fun all it _ => all it⟩
  rw [← rounds]
  constructor
  · rintro ⟨after, ran, -⟩
    obtain ⟨state, looped, -⟩ := bind_eq_some_iff.mp ran
    exact (loop.1 state looped).1
  · intro ended
    obtain ⟨state, looped⟩ := loop.2 ended
    have scanned := (loop.1 state looped).2
    rw [append_nil] at scanned
    have relocked : TxMemPool.Booked C state.1 pool.Spends := by
      rw [scanned.others]
      exact booked.relock scanned.lookups
    have listed : ∀ it ∈ state.2, it ∈ state.1.mapTx := by
      intro it mem
      obtain ⟨-, facts, known, -⟩ := (scanned.listed it).mp mem
      rw [mem_iff_facts, ← isSome_iff_exists]
      simpa [known] using congrArg isSome (scanned.sameTxs it)
    obtain ⟨once, staged⟩ := calculateAllDescendants_spec relocked.children relocked.within listed
    obtain ⟨after, removed, -, left, -⟩ := @TxMemPool.Booked.removeStaged C state.1 pool.Spends
      (state.1.calculateAllDescendants state.2) false relocked once
      (fun it mem => by
        obtain ⟨root, start, path⟩ := (staged it).mp mem
        exact relocked.within.mem_of_reach (listed root start) path)
      nofun (.inl fun parent child mem step => by
        obtain ⟨root, start, path⟩ := (staged parent).mp mem
        exact (staged child).mpr ⟨root, start, path.tail step⟩)
    refine ⟨after, ?_, scanned.sound (fun it facts known => ?_) staged left⟩
    · rw [TxMemPool.removeForReorg, looped]
      exact removed
    · exact ended it (AList.mem_keys.mpr (mem_iff_facts.mpr ⟨facts, known⟩)) facts known

namespace UnknownInput

open TxMemPool TxMemPool.DroppedReplacement

def flagged : TxCandidate := ⟨⟨1, [⟨⟨7, 0⟩, [], 0, []⟩], [⟨1, []⟩], 0⟩, 1000, 0, true, 0, {}⟩

def single : TxMemPool := (addUnchecked ctx {} flagged []).getD {}

def genesisView (pcoins : CoinsTable) : ReorgView :=
  ⟨.root 0 ⟨0, 0, 0, 1, 0, 0⟩, pcoins, 0, pcoins, 1, 3, fun _ => 30⟩

def immatureCoins : CoinsTable := fun txid =>
  if txid = 7 then some { vout := [⟨1, []⟩], fCoinBase := true } else none

def child : TxCandidate :=
  ⟨⟨1, [⟨⟨flagged.tx.getHash ctx.hashing, 0⟩, [], 0, []⟩], [⟨1, []⟩], 0⟩, 1000, 0, false, 0, {}⟩

def family : TxMemPool := (addUnchecked ctx single child [flagged.tx.getHash ctx.hashing]).getD {}

theorem coherent_single
    : Coherent ctx single single.Spends
      ∧ ∀ it facts, single.facts it = some facts → facts = ⟨flagged, 0⟩ := by
  have apart : ∀ txin ∈ flagged.tx.vin, txin.prevout.hash ≠ flagged.tx.getHash ctx.hashing := by
    decide +kernel
  obtain ⟨after, added, coherent, recorded⟩ :=
    Coherent.alone ctx flagged apart le_rfl (by decide)
  have same : single = after := by rw [single, added, getD_some]
  rw [same]
  refine ⟨coherent, fun it facts found => ?_⟩
  rw [recorded] at found
  split at found
  · cases found
    rfl
  · cases found

theorem coherent_family
    : Coherent ctx family family.Spends
      ∧ ∀ it facts, family.facts it = some facts → facts = ⟨flagged, 0⟩ ∨ facts = ⟨child, 0⟩ := by
  obtain ⟨coherent, only⟩ := coherent_single
  have unlinked (parent it) : ¬ single.Spends parent it := by
    rintro ⟨facts, known, there, spends⟩
    cases only it facts known
    obtain rfl : 7 = parent := by simpa [flagged] using spends
    exact absurd there (by decide +kernel)
  have addable : Addable ctx single child := by
    refine ⟨by decide +kernel, by decide +kernel, by decide +kernel, le_rfl, ?_⟩
    have zero : ∑ it, single.cost it = 0 := Finset.sum_eq_zero fun it _ => by
      rw [cost]
      cases known : single.facts it with
      | none => rfl
      | some facts =>
        cases only it facts known
        rfl
    rw [zero]
    decide
  obtain ⟨after, added, joined, recorded, -⟩ := coherent.addUnchecked addable
    (nodup_singleton (flagged.tx.getHash ctx.hashing)) fun other => by
      have root : flagged.tx.getHash ctx.hashing ∈ single.mapTx := by decide +kernel
      simp only [IsParent, reflTransGen_iff_eq (unlinked other), mem_singleton]
      constructor
      · rintro rfl
        exact ⟨_, ⟨root, _, .head _, rfl⟩, rfl⟩
      · rintro ⟨_, ⟨-, spends⟩, rfl⟩
        simpa [child, eq_comm] using spends
  have same : family = after := by rw [family, added, getD_some]
  rw [same]
  refine ⟨joined.congr fun parent it => spends_enter addable.fresh recorded addable.apart ?_,
    fun it facts found => ?_⟩
  · intro it old known
    cases only it old known
    decide +kernel
  · rw [recorded] at found
    split at found
    · cases found
      have delta : (single.mapDeltas (child.tx.getHash ctx.hashing)).getD 0 = 0 := by decide +kernel
      exact .inr (by rw [entering, delta])
    · exact .inl (only it facts found)

/-- A transaction that spends an immature coinbase leaves the pool, and its child with it. -/
theorem removeForReorg_immature_parent
    : ∃ after, family.removeForReorg ctx (genesisView immatureCoins) = some after
      ∧ ReorgSound (genesisView immatureCoins) family after ∧ after.mapTx.keys = [] := by
  obtain ⟨coherent, only⟩ := coherent_family
  obtain ⟨after, ran, sound⟩ := (removeForReorg_sound_iff (genesisView immatureCoins)
    coherent.toBooked).mpr fun it facts found => by
      rcases only it facts found with rfl | rfl
      all_goals
        refine ⟨fun _ invalid => (by cases invalid), fun _ _ _ => ?_⟩
        refine ((ReorgView.checkMaturity_spec _).1).mp ?_
        decide +kernel
  have gone : (family.removeForReorg ctx (genesisView immatureCoins)).map (·.mapTx.keys)
      = some [] := by decide +kernel
  rw [ran] at gone
  exact ⟨after, ran, sound, Option.some.inj gone⟩

/-- Nothing is known of the transaction that the entry spends from: the call follows a null
pointer.
-/
theorem removeForReorg_follows_null
    : Coherent ctx single single.Spends
      ∧ ¬ ∃ after, single.removeForReorg ctx (genesisView fun _ => none) = some after
        ∧ ReorgSound (genesisView fun _ => none) single after := by
  refine ⟨coherent_single.1, ?_⟩
  have stuck : single.removeForReorg ctx (genesisView fun _ => none) = none := by
    have missing : (single.removeForReorg ctx (genesisView fun _ => none)).isNone = true := by
      decide +kernel
    exact isNone_iff_eq_none.mp missing
  rintro ⟨after, ran, -⟩
  rw [stuck] at ran
  cases ran

end UnknownInput

end Pqcoin
