import Pqcoin.Mempool.Accept
import Pqcoin.Mempool.Addition

/-! Replacement in the memory pool: which entries an accepted transaction replaces. -/

namespace Pqcoin

open Checks Option Reach Relation Search

namespace TxMemPool

variable {C : MempoolContext} {O : AcceptOptions} {pool : TxMemPool} {req : AcceptRequest}
  {outcome : AcceptOutcome} {candidate : TxCandidate} {it : Uint256}
  {setConflicts setAncestors allConflicting : List Uint256}

-- The checks

@[simp] theorem asserted_ok {α : Type} {value : Option α} {result : α}
    : asserted value = .ok result ↔ value = some result := by
  cases value <;> simp [asserted]

/-- An entry that spends what a transaction spends. -/
def IsConflict (pool : TxMemPool) (tx : Transaction) (it : Uint256) : Prop :=
  ∃ txin ∈ tx.vin, pool.mapNextTx.lookup txin.prevout = some it

/-- The loop over the inputs collects the conflicts, which are entries; by list induction. -/
theorem searchConflicts_spec {fEnableReplacement} {vin} {start set}
    (ran : pool.searchConflicts fEnableReplacement vin start = .ok set)
    : (∀ it, it ∈ set ↔ it ∈ start ∨ ∃ txin ∈ vin, pool.mapNextTx.lookup txin.prevout = some it)
      ∧ (∀ it ∈ set, it ∈ start ∨ it ∈ pool.mapTx) ∧ (start.Nodup → set.Nodup) := by
  induction vin generalizing start with
  | nil =>
    cases ran
    exact ⟨by simp, fun it mem => .inl mem, fun once => once⟩
  | cons txin rest ih =>
    rw [searchConflicts] at ran
    simp only [List.exists_mem_cons_iff]
    cases spent : pool.mapNextTx.lookup txin.prevout with
    | none =>
      rw [spent] at ran
      simpa using ih ran
    | some conflict =>
      rw [spent] at ran
      dsimp only at ran
      split at ran
      · rename_i listed
        obtain ⟨members, inside⟩ := ih ran
        refine ⟨fun it => ?_, inside⟩
        rw [members]
        have there : some conflict = some it → it ∈ start := fun same => by
          cases same
          exact listed
        tauto
      · obtain ⟨entry, found, ran⟩ := bind_ok.mp ran
        rw [asserted_ok] at found
        rw [then_ok] at ran
        replace ran := ran.2
        obtain ⟨members, inside, unique⟩ := ih ran
        refine ⟨fun it => ?_, fun it mem => ?_, fun once => unique (nodup_insertKey once)⟩
        · rw [members, mem_insertKey, Option.some.injEq, eq_comm]
          tauto
        · rcases inside it mem with listed | there
          · rcases mem_insertKey.mp listed with rfl | before
            · exact .inr (AList.lookup_isSome.mp (by rw [found]; rfl))
            · exact .inl before
          · exact .inr there

structure Passes (C : MempoolContext) (O : AcceptOptions) (pool : TxMemPool)
    (req : AcceptRequest) (setConflicts allConflicting setAncestors : List Uint256)
    : Prop where
  plain : req.candidate.tx.isCoinBase = false
  fresh : req.candidate.tx.getHash C.hashing ∉ pool.mapTx
  conflicts : ∀ it, it ∈ setConflicts ↔ pool.IsConflict req.candidate.tx it
  inside : ∀ it ∈ setConflicts, it ∈ pool.mapTx
  unique : setConflicts.Nodup
  sigOps : req.candidate.sigOpCost ≤ MAX_STANDARD_TX_SIGOPS_COST
  ancestors : pool.calculateMemPoolAncestors C req.candidate O.limits = some (.ok setAncestors)
  apart : ∀ it ∈ setAncestors, it ∉ setConflicts
  replacement : pool.checkReplacement C O req.candidate setConflicts = .ok allConflicting

theorem passes_of_checkAccept
    (passed : pool.checkAccept C O req = .ok (allConflicting, setAncestors))
    : ∃ setConflicts, Passes C O pool req setConflicts allConflicting setAncestors := by
  rw [checkAccept] at passed
  dsimp only at passed
  rw [then_ok, then_ok, then_ok, then_ok] at passed
  obtain ⟨-, plain, -, fresh, passed⟩ := passed
  obtain ⟨setConflicts, searched, passed⟩ := bind_ok.mp passed
  rw [then_ok, then_ok, then_ok] at passed
  obtain ⟨-, sigOps, -, passed⟩ := passed
  obtain ⟨ancestors, calculated, passed⟩ := bind_ok.mp passed
  rw [then_ok] at passed
  obtain ⟨apart, passed⟩ := passed
  obtain ⟨replaced, checked, passed⟩ := bind_ok.mp passed
  rw [then_ok] at passed
  obtain ⟨-, same⟩ := passed
  cases same
  obtain ⟨result, found, mapped⟩ := bind_ok.mp calculated
  obtain ⟨conflicts, inside, unique⟩ := searchConflicts_spec searched
  refine ⟨setConflicts, ?_⟩
  refine {
    plain := by simpa using plain
    fresh := by simpa using fresh
    conflicts := fun it => by simpa [IsConflict] using conflicts it
    inside := fun it mem => by simpa using inside it mem
    unique := unique .nil
    sigOps := by simpa using sigOps
    ancestors := ?_
    apart := by simpa using apart
    replacement := checked
  }
  rw [asserted_ok] at found
  rw [found]
  cases result with
  | error errString => cases mapped
  | ok set =>
    cases mapped
    rfl

structure Replaces (C : MempoolContext) (O : AcceptOptions) (pool : TxMemPool)
    (candidate : TxCandidate) (setConflicts allConflicting : List Uint256) (newFeeRate : FeeRate)
    (conflicting replaced : List TxMemPoolEntry)
    : Prop where
  rate : FeeRate.ofFee (pool.nModifiedFees C candidate) (nSize C candidate) = some newFeeRate
  foundConflicting : setConflicts.mapM (fun mi => pool.mapTx.lookup mi) = some conflicting
  rates : ∀ mi ∈ conflicting, checkFeeRate C (candidate.tx.getHash C.hashing) newFeeRate mi = .ok ()
  count : (conflicting.map (fun mi => mi.nCountWithDescendants)).sum % 2 ^ 64 ≤ 100
  all : allConflicting = pool.calculateAllDescendants setConflicts
  foundReplaced : allConflicting.mapM (fun it => pool.mapTx.lookup it) = some replaced
  inputs : pool.checkNewInputs (candidate.tx.getHash C.hashing)
    (conflicting.flatMap (fun mi => mi.tx.vin.map (fun txin => txin.prevout.hash))) 0
    candidate.tx.vin = .ok ()
  fees : checkFees O (candidate.tx.getHash C.hashing) (nSize C candidate)
    (pool.nModifiedFees C candidate) (replaced.map (fun it => it.getModifiedFee)).sum = .ok ()

theorem replaces_of_checkReplacement (inside : ∀ it ∈ setConflicts, it ∈ pool.mapTx)
    (nonempty : setConflicts ≠ [])
    (passed : pool.checkReplacement C O candidate setConflicts = .ok allConflicting)
    : ∃ newFeeRate conflicting replaced,
        Replaces C O pool candidate setConflicts allConflicting
          newFeeRate conflicting replaced := by
  have kept : setConflicts.filter (fun conflict => decide (conflict ∈ pool.mapTx)) = setConflicts :=
    List.filter_eq_self.mpr fun it mem => by simpa using inside it mem
  rw [checkReplacement, if_neg nonempty] at passed
  dsimp only at passed
  rw [kept] at passed
  obtain ⟨newFeeRate, rate, passed⟩ := bind_ok.mp passed
  obtain ⟨conflicting, found, passed⟩ := bind_ok.mp passed
  rw [then_ok, then_ok] at passed
  obtain ⟨rates, count, passed⟩ := passed
  obtain ⟨replaced, foundAll, passed⟩ := bind_ok.mp passed
  rw [then_ok, then_ok] at passed
  obtain ⟨inputs, fees, same⟩ := passed
  cases same
  exact ⟨newFeeRate, conflicting, replaced, asserted_ok.mp rate, asserted_ok.mp found,
    forM_ok.mp rates, require_ok.mp count, rfl, asserted_ok.mp foundAll, inputs, fees⟩

/-- What there is to replace, if anything. -/
theorem Passes.allConflicting_eq
    (passes : Passes C O pool req setConflicts allConflicting setAncestors)
    : allConflicting = pool.calculateAllDescendants setConflicts := by
  have checked := passes.replacement
  by_cases empty : setConflicts = []
  · rw [checkReplacement, if_pos empty] at checked
    cases checked
    rw [empty]
    rfl
  · obtain ⟨_, _, _, replaces⟩ := replaces_of_checkReplacement passes.inside empty checked
    exact replaces.all

-- Rejections

theorem acceptToMemoryPoolWorker_cases
    : pool.acceptToMemoryPoolWorker C O req = some outcome
      ↔ (∃ rejection, pool.checkAccept C O req = .error (.rejected rejection)
          ∧ outcome = ⟨.error rejection, pool, []⟩)
        ∨ ∃ allConflicting setAncestors,
          pool.checkAccept C O req = .ok (allConflicting, setAncestors)
          ∧ pool.commitAccept C O req allConflicting setAncestors = some outcome := by
  rw [acceptToMemoryPoolWorker]
  cases pool.checkAccept C O req with
  | error failure =>
    cases failure with
    | assertion => simp
    | rejected rejection => simp [eq_comm]
  | ok sets =>
    obtain ⟨allConflicting, setAncestors⟩ := sets
    simp

theorem commitAccept_cases
    (committed : pool.commitAccept C O req allConflicting setAncestors = some outcome)
    : outcome.plTxnReplaced = allConflicting
      ∧ ∃ replaced added, pool.removeStaged C allConflicting false = some replaced
        ∧ replaced.addUnchecked C req.candidate setAncestors = some added
        ∧ (outcome.pool = added
          ∨ added.limitMempoolSize C O.sizeLimit req.time = some outcome.pool) := by
  rw [commitAccept] at committed
  obtain ⟨replaced, removed, committed⟩ := bind_eq_some_iff.mp committed
  obtain ⟨added, entered, committed⟩ := bind_eq_some_iff.mp committed
  refine ⟨?_, replaced, added, removed, entered, ?_⟩
  all_goals
    split at committed
    · cases committed
      simp
    obtain ⟨limited, ran, same⟩ := map_eq_some_iff.mp committed
    subst outcome
    split <;> simp [ran]

namespace DroppedReplacement

/-- A hash function that tells the transactions of the example apart by their versions. -/
def hashing : Hashing := ⟨fun bytes => BitVec.ofNat 256 (Radix.value bytes), fun _ => 0⟩

def ctx : MempoolContext := ⟨hashing, 20⟩

def spender (version : BitVec 32) (nFee : Amount) : TxCandidate :=
  ⟨⟨version, [⟨⟨7, 0⟩, [], 0, []⟩], [⟨1, []⟩], 0⟩, nFee, 0, false, 0, {}⟩

def noRoom : SizeLimit where
  dynamicMemoryUsage pool := pool.mapTx.keys.length
  descendantScoreFirst pool := pool.mapTx.keys.headD 0
  sizelimit := 0
  first_mem pool nonempty := by
    rw [AList.mem_keys]
    cases keys : pool.mapTx.keys with
    | nil => exact absurd keys nonempty
    | cons key rest => exact .head _

def options : AcceptOptions := ⟨true, noLimit, ⟨0⟩, noRoom, fun _ => ""⟩

def replacing : AcceptRequest := ⟨spender 2 100000, false, 0, .ok (), .ok (), .ok (), .ok ()⟩

end DroppedReplacement

end TxMemPool

end Pqcoin
