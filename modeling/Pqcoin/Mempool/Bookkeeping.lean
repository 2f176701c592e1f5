import Pqcoin.Mempool.Calls
import Pqcoin.Mempool.ReplacementRules

/-! The bookkeeping of the memory pool along runs of acceptances and removals. -/

namespace Pqcoin

open List Option Reach Relation

namespace TxMemPool

variable {C : MempoolContext} {pool after : TxMemPool}

/-- `TrimToSize` ends within its limit. -/
def Call.Limits : Call → TxMemPool → Prop
  | .trimToSize limit, pool =>
    pool.mapTx.keys = [] ∨ limit.dynamicMemoryUsage pool ≤ limit.sizelimit
  | _, _ => True

def Kept (C : MempoolContext) (pool : TxMemPool) (call : Call) : Prop :=
  ∃ after, pool.step C call = some after ∧ Coherent C after after.Spends ∧ call.Limits after

theorem spends_off {stage : List Uint256}
    (left : ∀ it, after.facts it = if it ∈ stage then none else pool.facts it)
    : after.Spends = off pool.Spends (· ∈ stage) := by
  ext parent child
  simp only [Spends, off, IsParent, mem_iff_facts, left]
  grind

/-- Nothing in the pool spends from the transaction, nor does it itself, and the costs fit. -/
structure Enters (C : MempoolContext) (pool : TxMemPool) (candidate : TxCandidate) : Prop where
  apart : ∀ txin ∈ candidate.tx.vin, txin.prevout.hash ≠ candidate.tx.getHash C.hashing
  unspent : ∀ it facts, pool.facts it = some facts →
    ∀ txin ∈ facts.tx.vin, txin.prevout.hash ≠ candidate.tx.getHash C.hashing
  nonneg : 0 ≤ candidate.sigOpCost
  bounded : ∑ it, pool.cost it + candidate.sigOpCost < 2 ^ 31

section

variable (coherent : Coherent C pool pool.Spends)

include coherent

-- Removals

theorem Coherent.removeDescendants (its) (inside : ∀ it ∈ its, it ∈ pool.mapTx) {stage}
    (all : pool.calculateAllDescendants its = stage)
    : ∃ after, pool.removeStaged C stage false = some after ∧ Coherent C after after.Spends
      ∧ (∀ it, after.facts it = if it ∈ stage then none else pool.facts it)
      ∧ ∀ parent child, parent ∈ stage → pool.Spends parent child → child ∈ stage := by
  obtain ⟨once, staged⟩ := calculateAllDescendants_spec coherent.children coherent.within inside
  rw [all] at once staged
  have closed (parent child) (mem : parent ∈ stage) (step : pool.Spends parent child)
      : child ∈ stage := by
    obtain ⟨root, start, path⟩ := (staged parent).mp mem
    exact (staged child).mpr ⟨root, start, path.tail step⟩
  obtain ⟨after, removed, kept, left, -⟩ := @Booked.removeStaged C pool pool.Spends stage false
    coherent.toBooked once (fun it mem => by
      obtain ⟨root, start, path⟩ := (staged it).mp mem
      exact coherent.within.mem_of_reach (inside root start) path) nofun (.inl closed)
  exact ⟨after, removed, ⟨(spends_off left).symm ▸ kept, coherent.costs.off left⟩, left, closed⟩

theorem Coherent.removeRecursive (tx) : Kept C pool (.removeRecursive tx) := by
  rw [Kept, step, TxMemPool.removeRecursive]
  generalize listed : (if tx.getHash C.hashing ∈ pool.mapTx then _ else _) = txToRemove
  have inside : ∀ it ∈ txToRemove, it ∈ pool.mapTx := by
    rw [← listed]
    split
    · simpa
    intro it mem
    simp only [spendersOf, Search.mem_keySet, mem_filterMap, coherent.next] at mem
    obtain ⟨_, -, facts, known, -⟩ := mem
    exact mem_iff_facts.mpr ⟨facts, known⟩
  obtain ⟨after, removed, kept, -⟩ := coherent.removeDescendants _ inside rfl
  exact ⟨after, (if_pos (by simpa using inside)).trans removed, kept, trivial⟩

theorem Coherent.expire (time) : Kept C pool (.expire time) := by
  obtain ⟨after, removed, kept, -⟩ := coherent.removeDescendants (pool.expired time) (fun it => by
    simp only [expired, Search.mem_keySet, AList.mem_keys, AList.keys, List.keys]
    grind) rfl
  exact ⟨after, removed, kept, trivial⟩

/-- By induction on the rounds: each one removes the first entry at least. -/
theorem Coherent.trimToSize (limit) : Kept C pool (.trimToSize limit) := by
  rw [Kept, step, TxMemPool.trimToSize]
  generalize enough : pool.mapTx.keys.length = rounds
  replace enough := enough.le
  induction rounds generalizing pool with
  | zero => exact ⟨pool, rfl, coherent, .inl (length_eq_zero_iff.mp (Nat.le_zero.mp enough))⟩
  | succ rounds ih =>
    rw [trimLoop]
    split
    · rename_i full
      have first := limit.first_mem pool full.1
      have listed : ∀ it ∈ [limit.descendantScoreFirst pool], it ∈ pool.mapTx := by simpa
      obtain ⟨next, removed, kept, left, -⟩ := coherent.removeDescendants _ listed rfl
      have gone : limit.descendantScoreFirst pool ∉ next.mapTx.keys := by
        rw [← AList.mem_keys, mem_iff_facts, left,
          if_pos (mem_calculateAllDescendants listed (mem_singleton_self _))]
        simp
      have inside : next.mapTx.keys ⊆ pool.mapTx.keys := by
        intro it
        rw [← AList.mem_keys, ← AList.mem_keys, mem_iff_facts, mem_iff_facts, left]
        split <;> simp
      have fewer := (subperm_of_subset (nodup_cons.mpr ⟨gone, next.mapTx.nodupKeys⟩)
        (cons_subset.mpr ⟨first, inside⟩)).length_le
      rw [length_cons] at fewer
      obtain ⟨after, ran, last⟩ := ih kept (by omega)
      exact ⟨after, (congrArg (Option.bind · _) removed).trans ran, last⟩
    · rename_i small
      exact ⟨pool, rfl, coherent, (not_and_or.mp small).imp not_not.mp not_lt.mp⟩

-- Acceptance

/-- Once the checks pass, no assertion fails any more. Nothing that is replaced is above a parent,
so the ancestors that were found stay.
-/
theorem Coherent.commitAccept {O req allConflicting setAncestors}
    (enters : Enters C pool req.candidate)
    (passed : pool.checkAccept C O req = .ok (allConflicting, setAncestors))
    : ∃ outcome, pool.commitAccept C O req allConflicting setAncestors = some outcome
      ∧ Coherent C outcome.pool outcome.pool.Spends := by
  obtain ⟨setConflicts, passes⟩ := passes_of_checkAccept passed
  obtain ⟨-, evicted⟩ := passes.evicted coherent.toBooked
  obtain ⟨replaced, removed, kept, left, closed⟩ :=
    coherent.removeDescendants _ passes.inside passes.allConflicting_eq.symm
  have known {it facts}
      : replaced.facts it = some facts ↔ it ∉ allConflicting ∧ pool.facts it = some facts := by
    rw [left]
    split <;> simp_all
  have addable : Addable C replaced req.candidate := by
    refine ⟨fun there => ?_, fun txin listed => ?_, enters.apart, enters.nonneg, ?_⟩
    · simp only [mem_iff_facts, known, exists_and_left] at there
      exact passes.fresh (mem_iff_facts.mpr there.2)
    · by_contra spent
      obtain ⟨it, spent⟩ := ne_none_iff_exists'.mp spent
      obtain ⟨facts, found, spends⟩ := (kept.next ..).mp spent
      obtain ⟨stays, before⟩ := known.mp found
      exact stays ((evicted it).mpr
        ⟨it, ⟨txin, listed, (coherent.next ..).mpr ⟨facts, before, spends⟩⟩, .refl⟩)
    · refine lt_of_le_of_lt (add_le_add_left (Finset.sum_le_sum fun it _ => ?_) _) enters.bounded
      rw [cost, left]
      split
      · exact coherent.costs.nonneg it
      · exact le_rfl
  obtain ⟨result, calculated, members⟩ := calculateMemPoolAncestors_spec (C := C) req.candidate
    O.limits coherent.parents coherent.within
  cases passes.ancestors.symm.trans calculated
  obtain ⟨unique, ancestors⟩ := members setAncestors rfl
  obtain ⟨added, entered, last, recorded, -⟩ := kept.addUnchecked addable unique fun other => by
    rw [ancestors, spends_off left]
    refine exists_congr fun parent => ?_
    simp only [IsParent, mem_iff_facts, known]
    constructor
    · rintro ⟨⟨⟨facts, found⟩, spends⟩, path⟩
      have stays {it} (above : ReflTransGen pool.Spends it parent) : it ∉ allConflicting :=
        fun gone => passes.apart_evicted coherent.toBooked ((evicted it).mp gone)
          ⟨parent, ⟨mem_iff_facts.mpr ⟨facts, found⟩, spends⟩, above⟩
      exact ⟨⟨⟨facts, stays .refl, found⟩, spends⟩,
        (reach_off_right (.inl closed) (stays .refl)).mpr ⟨path, stays path⟩⟩
    · rintro ⟨⟨⟨facts, out, found⟩, spends⟩, path⟩
      exact ⟨⟨⟨facts, found⟩, spends⟩, ((reach_off_right (.inl closed) out).mp path).1⟩
  have final : Coherent C added added.Spends := last.congr fun parent child =>
    spends_enter addable.fresh recorded enters.apart
      fun it facts found => enters.unspent it facts (known.mp found).2
  rw [TxMemPool.commitAccept, removed, bind_some, entered, bind_some]
  split
  · exact ⟨_, rfl, final⟩
  obtain ⟨expired, first, final, -⟩ := final.expire req.time
  obtain ⟨limited, second, final, -⟩ := final.trimToSize O.sizeLimit
  have ran : added.limitMempoolSize C O.sizeLimit req.time = some limited :=
    bind_eq_some_iff.mpr ⟨expired, first, second⟩
  rw [ran, map_some]
  split <;> exact ⟨_, rfl, final⟩

-- Runs

def Call.Proper (C : MempoolContext) (pool : TxMemPool) : Call → Prop
  | .acceptToMemoryPool _ req => Enters C pool req.candidate
  | .removeRecursive _ | .expire _ | .trimToSize _ => True
  | _ => False

/-- An acceptance whose checks fail an assertion. -/
def Fails (C : MempoolContext) (pool : TxMemPool) (call : Call) : Prop :=
  ∃ O req, call = .acceptToMemoryPool O req
    ∧ pool.checkAccept C O req = .error .assertion

theorem Coherent.step {call} (proper : call.Proper C pool)
    : Fails C pool call ∨ Kept C pool call := by
  cases call with
  | acceptToMemoryPool O req =>
    rw [Kept, TxMemPool.step, acceptToMemoryPoolWorker]
    rcases checked : pool.checkAccept C O req with (rejection | _) | ⟨_, _⟩
    · exact .inr ⟨pool, rfl, coherent, trivial⟩
    · exact .inl ⟨O, req, rfl, checked⟩
    · obtain ⟨outcome, ran, kept⟩ := coherent.commitAccept proper checked
      exact .inr ⟨_, congrArg _ ran, kept, trivial⟩
  | removeRecursive origTx => exact .inr (coherent.removeRecursive origTx)
  | expire time => exact .inr (coherent.expire time)
  | trimToSize limit => exact .inr (coherent.trimToSize limit)
  | _ => cases proper

end

/-- The bookkeeping is exact in every state of a run of proper calls, and the limits are kept. -/
def AlwaysCoherent (C : MempoolContext) (pool : TxMemPool) : List Call → Prop
  | [] => Coherent C pool pool.Spends
  | call :: rest =>
    Coherent C pool pool.Spends ∧ (call.Proper C pool →
      Fails C pool call
      ∨ ∃ after, pool.step C call = some after ∧ call.Limits after ∧ AlwaysCoherent C after rest)

/-- In runs of acceptances and removals on an empty pool the bookkeeping is always exact. -/
theorem bookkeeping_exact_throughout (C : MempoolContext) (calls : List Call)
    : AlwaysCoherent C {} calls := by
  have run (pool) (coherent : Coherent C pool pool.Spends) : AlwaysCoherent C pool calls := by
    induction calls generalizing pool with
    | nil => exact coherent
    | cons call rest ih =>
      refine ⟨coherent, fun proper => (coherent.step proper).imp_right ?_⟩
      rintro ⟨after, ran, kept, limits⟩
      exact ⟨after, ran, limits, ih after kept⟩
  exact run {} (.empty C)

namespace DroppedReplacement

def accepting : Call :=
  .acceptToMemoryPool options { replacing with fOverrideMempoolLimit := true }

/-- An acceptance that is proper and keeps its transaction. -/
theorem bookkeeping_exact_accepted
    : accepting.Proper ctx {} ∧ ∃ pool, step ctx {} accepting = some pool
      ∧ pool.mapTx.keys.length = 1 ∧ Coherent ctx pool pool.Spends := by
  have proper : accepting.Proper ctx {} := by
    have costs (it) : cost {} it = 0 := rfl
    refine ⟨by decide +kernel, nofun, by decide, ?_⟩
    simp only [costs, Finset.sum_const_zero]
    decide
  have kept : (step ctx {} accepting).map (·.mapTx.keys.length) = some 1 := by decide +kernel
  obtain ⟨pool, ran, one⟩ := map_eq_some_iff.mp kept
  rcases (bookkeeping_exact_throughout ctx [accepting]).2 proper with
    ⟨O, req, same, failed⟩ | ⟨after, again, -, coherent⟩
  · cases same
    simp [accepting, step, acceptToMemoryPoolWorker, failed] at ran
  · cases ran.symm.trans again
    exact ⟨proper, pool, ran, one, coherent⟩

end DroppedReplacement

end TxMemPool

end Pqcoin
