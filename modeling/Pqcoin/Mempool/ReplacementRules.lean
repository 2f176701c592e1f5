import Pqcoin.Mempool.Returned

/-! The rules for replacements: what an accepted transaction evicts, and what it pays for that.
-/

namespace Pqcoin

open Checks Folds List Option Reach Relation SignedWord

namespace TxMemPool

variable {C : MempoolContext} {O : AcceptOptions} {pool : TxMemPool} {req : AcceptRequest}
  {outcome : AcceptOutcome} {candidate : TxCandidate} {it : Uint256}
  {setConflicts setAncestors allConflicting : List Uint256} {newFeeRate : FeeRate}
  {conflicting replaced : List TxMemPoolEntry}

-- The rules

def fee (pool : TxMemPool) (it : Uint256) : ℤ :=
  (pool.facts it).elim 0 (fun facts => facts.getModifiedFee.toInt)

/-- An entry that conflicts with a transaction, or descends from one that does. -/
def Evicted (pool : TxMemPool) (tx : Transaction) (it : Uint256) : Prop :=
  ∃ conflict, pool.IsConflict tx conflict ∧ ReflTransGen pool.Spends conflict it

theorem Passes.evicted (booked : Booked C pool pool.Spends)
    (passes : Passes C O pool req setConflicts allConflicting setAncestors)
    : allConflicting.Nodup
      ∧ ∀ it, it ∈ allConflicting ↔ pool.Evicted req.candidate.tx it := by
  rw [passes.allConflicting_eq]
  obtain ⟨unique, members⟩ :=
    calculateAllDescendants_spec booked.children booked.within passes.inside
  refine ⟨unique, fun it => ?_⟩
  rw [members, Evicted]
  simp only [passes.conflicts]

theorem Passes.apart_evicted (booked : Booked C pool pool.Spends)
    (passes : Passes C O pool req setConflicts allConflicting setAncestors)
    (evicted : pool.Evicted req.candidate.tx it)
    : ¬ ∃ parent, pool.IsParent req.candidate.tx parent
        ∧ ReflTransGen pool.Spends it parent := by
  rintro ⟨parent, isParent, path⟩
  obtain ⟨conflict, conflicts, down⟩ := evicted
  obtain ⟨result, calculated, members⟩ := calculateMemPoolAncestors_spec (C := C) req.candidate
    O.limits booked.parents booked.within
  rw [passes.ancestors] at calculated
  cases calculated
  have ancestor := ((members setAncestors rfl).2 conflict).mpr ⟨parent, isParent, down.trans path⟩
  exact passes.apart conflict ancestor ((passes.conflicts conflict).mpr conflicts)

section

variable (replaces : Replaces C O pool candidate setConflicts allConflicting newFeeRate
  conflicting replaced)

include replaces

end

theorem known_of_checkNewInputs {hash} {setConflictsParents} {j}
    {vin} (passed : pool.checkNewInputs hash setConflictsParents j vin = .ok ())
    : ∀ txin ∈ vin, txin.prevout.hash ∈ pool.mapTx → txin.prevout.hash ∈ setConflictsParents := by
  induction vin generalizing j with
  | nil => simp
  | cons txin rest ih =>
    rw [checkNewInputs, then_ok, require_ok] at passed
    refine forall_mem_cons.mpr ⟨fun pooled => ?_, ih passed.2⟩
    exact passed.1.resolve_right (not_not.mpr pooled)

theorem Replaces.parent
    (replaces : Replaces C O pool candidate setConflicts allConflicting newFeeRate conflicting
      replaced)
    {parent} (isParent : pool.IsParent candidate.tx parent)
    : ∃ conflict ∈ setConflicts, pool.Spends parent conflict := by
  obtain ⟨pooled, txin, listed, rfl⟩ := isParent
  have known := known_of_checkNewInputs replaces.inputs txin listed pooled
  obtain ⟨entry, mem, spends⟩ := mem_flatMap.mp known
  obtain ⟨other, input, same⟩ := mem_map.mp spends
  obtain ⟨conflict, among, found⟩ := (mem_mapM_iff replaces.foundConflicting).mp mem
  refine ⟨conflict, among, entry.toEntryFacts, ?_, pooled, other, input, same⟩
  rw [TxMemPool.facts, found]
  rfl

namespace PaidReplacement

open DroppedReplacement

def paying (nFee : Amount) : TxMemPool := (addUnchecked ctx {} (spender 1 nFee) []).getD {}

end PaidReplacement

end TxMemPool

end Pqcoin
