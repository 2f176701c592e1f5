import Pqcoin.Mempool.Replacement

/-! What the operations of the memory pool keep whenever they return, whatever the pool was before:
which entries there are, and their places in `vTxHashes`.
-/

namespace Pqcoin

open Folds Option Search

namespace TxMemPool

variable {C : MempoolContext} {O : AcceptOptions} {pool after : TxMemPool} {it : Uint256}
  {its stage setAncestors : List Uint256} {candidate : TxCandidate}
  {change : TxMemPoolEntry → Option TxMemPoolEntry}

-- Totals and links

theorem Adjusted.refl (pool) : Adjusted pool pool := ⟨rfl, rfl, rfl, rfl, rfl⟩

/-- A modification that leaves the facts and the index of an entry alone. -/
def KeepsFacts (change : TxMemPoolEntry → Option TxMemPoolEntry) : Prop :=
  ∀ entry changed, change entry = some changed
    → changed.toEntryFacts = entry.toEntryFacts ∧ changed.vTxHashesIdx = entry.vTxHashesIdx

theorem keepsFacts_updateDescendantState (size fee count)
    : KeepsFacts (TxMemPoolEntry.updateDescendantState size fee count) := by
  intro entry changed passed
  rw [TxMemPoolEntry.updateDescendantState] at passed
  split at passed
  · cases passed
    exact ⟨rfl, rfl⟩
  · cases passed

theorem keepsFacts_updateAncestorState (size fee count sigOps)
    : KeepsFacts (TxMemPoolEntry.updateAncestorState size fee count sigOps) := by
  intro entry changed passed
  rw [TxMemPoolEntry.updateAncestorState] at passed
  split at passed
  · cases passed
    exact ⟨rfl, rfl⟩
  · cases passed

theorem Adjusted.modify (keeps : KeepsFacts change) (ran : pool.modify it change = some after)
    : Adjusted pool after := by
  obtain ⟨entry, changed, found, passed, rfl⟩ := modify_cases ran
  obtain ⟨facts, index⟩ := keeps entry changed passed
  refine ⟨funext fun other => ?_, funext fun other => ?_, rfl, rfl, rfl⟩
  · rw [TxMemPool.facts, TxMemPool.facts, lookup_insert]
    split
    · rename_i same
      rw [same, found, map_some, map_some, facts]
    · rfl
  · rw [hashIdx, hashIdx, lookup_insert]
    split
    · rename_i same
      rw [same, found, map_some, map_some, index]
    · rfl

theorem Adjusted.modifyEach (keeps : KeepsFacts change)
    (ran : pool.modifyEach its change = some after)
    : Adjusted pool after :=
  foldlM_rel Adjusted.refl (fun _ _ _ => Adjusted.trans)
    (fun _ _ _ ran => Adjusted.modify keeps ran) ran

theorem Adjusted.foldl_setLinks {α : Type} {round} (links : ∀ pool a, Relinked pool (round pool a))
    (rounds : List α) (pool)
    : Adjusted pool (rounds.foldl round pool) := by
  induction rounds generalizing pool with
  | nil => exact .refl pool
  | cons a rest ih => exact (links pool a).adjusted.trans (ih _)

theorem Adjusted.updateAncestorsOf {add}
    (ran : pool.updateAncestorsOf C add it setAncestors = some after)
    : Adjusted pool after := by
  obtain ⟨entry, -, ran⟩ := bind_eq_some_iff.mp ran
  have links (pool) (parent) : Relinked pool (pool.updateChild parent it add) := rfl
  exact (Adjusted.foldl_setLinks links _ pool).trans
    (Adjusted.modifyEach (keepsFacts_updateDescendantState _ _ _) ran)

theorem Adjusted.updateEntryForAncestors
    (ran : pool.updateEntryForAncestors C it setAncestors = some after)
    : Adjusted pool after := by
  obtain ⟨entries, -, ran⟩ := bind_eq_some_iff.mp ran
  exact .modify (keepsFacts_updateAncestorState _ _ _ _) ran

theorem Adjusted.updateForRemove {updateDescendants}
    (ran : pool.updateForRemoveFromMempool C stage updateDescendants = some after)
    : Adjusted pool after := by
  obtain ⟨first, descendants, ran⟩ := bind_eq_some_iff.mp ran
  obtain ⟨second, ancestors, rfl⟩ := map_eq_some_iff.mp ran
  have one : Adjusted pool first := by
    split at descendants
    · refine foldlM_rel Adjusted.refl (fun _ _ _ => Adjusted.trans) ?_ descendants
      intro pool it after ran
      obtain ⟨entry, -, ran⟩ := bind_eq_some_iff.mp ran
      exact .modifyEach (keepsFacts_updateAncestorState _ _ _ _) ran
    · cases descendants
      exact .refl pool
  have two : Adjusted first second := by
    refine foldlM_rel Adjusted.refl (fun _ _ _ => Adjusted.trans) ?_ ancestors
    intro pool it after ran
    obtain ⟨set, -, ran⟩ := bind_eq_some_iff.mp ran
    exact .updateAncestorsOf ran
  refine (one.trans two).trans (Adjusted.foldl_setLinks (fun pool it => ?_) stage second)
  have links (pool) (its : List Uint256)
      : Relinked pool (its.foldl (fun pool updateIt => pool.updateParent updateIt it false)
        pool) := by
    induction its generalizing pool with
    | nil => rfl
    | cons first rest ih =>
      have here : Relinked pool (pool.updateParent first it false) := rfl
      exact here.trans (ih _)
  exact links pool _

-- Removals

/-- Entries have left the pool, none has changed, and `vTxHashes` is right if it was. -/
def Shrinks (C : MempoolContext) (pool after : TxMemPool) : Prop :=
  Indexed C pool → Indexed C after
    ∧ ∀ it facts, after.facts it = some facts → pool.facts it = some facts

theorem Shrinks.refl (C pool) : Shrinks C pool pool :=
  fun indexed => ⟨indexed, fun _ _ => id⟩

theorem Shrinks.trans {last} (first : Shrinks C pool after) (second : Shrinks C after last)
    : Shrinks C pool last := by
  intro indexed
  obtain ⟨indexed, before⟩ := first indexed
  obtain ⟨indexed, later⟩ := second indexed
  exact ⟨indexed, fun it facts known => before it facts (later it facts known)⟩

theorem Adjusted.shrinks (same : Adjusted pool after) : Shrinks C pool after :=
  fun indexed => ⟨same.indexed indexed, fun it facts known => by rwa [same.facts] at known⟩

theorem shrinks_removeUnchecked (ran : pool.removeUnchecked it = some after)
    : Shrinks C pool after ∧ (Indexed C pool → after.facts it = none) := by
  obtain ⟨entry, found, -⟩ := bind_eq_some_iff.mp ran
  have known : pool.facts it = some entry.toEntryFacts := by
    rw [TxMemPool.facts, found]
    rfl
  have removed (indexed : Indexed C pool) : Indexed C after ∧ Removed pool after it entry.tx := by
    obtain ⟨same, again, indexed, removed⟩ := indexed.removeUnchecked known
    cases Option.some.inj (ran.symm.trans again)
    exact ⟨indexed, removed⟩
  refine ⟨fun indexed => ⟨(removed indexed).1, fun other facts known => ?_⟩, fun indexed => ?_⟩
  · rw [(removed indexed).2.facts] at known
    split at known
    · cases known
    · exact known
  · rw [(removed indexed).2.facts, if_pos rfl]

theorem shrinks_removeStaged {updateDescendants}
    (ran : pool.removeStaged C stage updateDescendants = some after)
    : Shrinks C pool after ∧ (Indexed C pool → ∀ it ∈ stage, after.facts it = none) := by
  obtain ⟨middle, updated, ran⟩ := bind_eq_some_iff.mp ran
  have same := Adjusted.updateForRemove updated
  have loop (stage : List Uint256) (middle)
      (ran : stage.foldlM removeUnchecked middle = some after)
      : Shrinks C middle after ∧ (Indexed C middle → ∀ it ∈ stage, after.facts it = none) := by
    induction stage generalizing middle with
    | nil =>
      cases ran
      exact ⟨.refl C _, by simp⟩
    | cons first rest ih =>
      rw [List.foldlM_cons] at ran
      obtain ⟨next, here, ran⟩ := bind_eq_some_iff.mp ran
      obtain ⟨shrinks, gone⟩ := shrinks_removeUnchecked (C := C) here
      obtain ⟨later, others⟩ := ih next ran
      refine ⟨shrinks.trans later, fun indexed it mem => ?_⟩
      rcases List.mem_cons.mp mem with rfl | listed
      · by_contra there
        obtain ⟨facts, known⟩ := ne_none_iff_exists'.mp there
        have before := (later (shrinks indexed).1).2 it facts known
        rw [gone indexed] at before
        cases before
      · exact others (shrinks indexed).1 it listed
  obtain ⟨shrinks, gone⟩ := loop stage middle ran
  exact ⟨same.shrinks.trans shrinks, fun indexed => gone (same.indexed indexed)⟩

theorem shrinks_removeRecursive {tx} (ran : pool.removeRecursive C tx = some after)
    : Shrinks C pool after := by
  rw [removeRecursive] at ran
  generalize (if tx.getHash C.hashing ∈ pool.mapTx then [tx.getHash C.hashing]
    else pool.spendersOf (tx.getHash C.hashing) tx) = txToRemove at ran
  split at ran
  · exact (shrinks_removeStaged ran).1
  · cases ran

/-- A change of fee deltas leaves the entries alone. -/
theorem shrinks_of_deltas (pool) (mapDeltas : Uint256 → Option Amount)
    : Shrinks C pool { pool with mapDeltas } :=
  fun indexed => ⟨⟨indexed.slots, indexed.hashes⟩, fun _ _ => id⟩

theorem shrinks_removeForBlock {vtx} (ran : pool.removeForBlock C vtx = some after)
    : Shrinks C pool after := by
  refine foldlM_rel (Shrinks.refl C) (fun _ _ _ => Shrinks.trans) ?_ ran
  intro pool tx after ran
  obtain ⟨first, confirmed, ran⟩ := bind_eq_some_iff.mp ran
  obtain ⟨second, conflicts, rfl⟩ := map_eq_some_iff.mp ran
  have one : Shrinks C pool first := by
    split at confirmed
    · exact (shrinks_removeStaged confirmed).1
    cases confirmed
    exact .refl C pool
  have two : Shrinks C first second := by
    refine foldlM_rel (Shrinks.refl C) (fun _ _ _ => Shrinks.trans) ?_ conflicts
    intro pool txin after ran
    rw [removeConflict] at ran
    split at ran
    · cases ran
      exact .refl C pool
    obtain ⟨entry, -, ran⟩ := bind_eq_some_iff.mp ran
    split at ran
    · exact (shrinks_of_deltas pool _).trans (shrinks_removeRecursive ran)
    cases ran
    exact .refl C pool
  exact (one.trans two).trans (shrinks_of_deltas second _)

theorem shrinks_expire {time} (ran : pool.expire C time = some after)
    : Shrinks C pool after := (shrinks_removeStaged ran).1

theorem shrinks_trimToSize {limit} (ran : pool.trimToSize C limit = some after)
    : Shrinks C pool after := by
  have loop (fuel) (pool) (ran : trimLoop C limit fuel pool = some after)
      : Shrinks C pool after := by
    induction fuel generalizing pool with
    | zero =>
      cases ran
      exact .refl C _
    | succ fuel ih =>
      rw [trimLoop] at ran
      split at ran
      · obtain ⟨next, removed, ran⟩ := bind_eq_some_iff.mp ran
        exact (shrinks_removeStaged removed).1.trans (ih next ran)
      · cases ran
        exact .refl C _
  exact loop _ pool ran

theorem shrinks_limitMempoolSize {limit time}
    (ran : pool.limitMempoolSize C limit time = some after)
    : Shrinks C pool after := by
  obtain ⟨expired, first, second⟩ := bind_eq_some_iff.mp ran
  exact (shrinks_expire first).trans (shrinks_trimToSize second)

-- Additions

theorem Adjusted.linkInputs (pool : TxMemPool) (hash tx)
    : ∃ mapNextTx, Adjusted { pool with mapNextTx } (pool.linkInputs hash tx) := by
  have links (pool) (phash)
      : Relinked pool (if phash ∈ pool.mapTx then pool.updateParent hash phash true else pool) := by
    split <;> rfl
  exact ⟨_, Adjusted.foldl_setLinks links _ _⟩

section

variable (indexed : Indexed C pool)

include indexed

theorem Indexed.addUnchecked (fresh : candidate.tx.getHash C.hashing ∉ pool.mapTx)
    (ran : pool.addUnchecked C candidate setAncestors = some after)
    : Indexed C after ∧ ∀ it, after.facts it = if it = candidate.tx.getHash C.hashing
        then some (pool.entering (candidate.tx.getHash C.hashing) candidate)
        else pool.facts it := by
  rw [TxMemPool.addUnchecked] at ran
  obtain ⟨first, inserted, later⟩ := bind_eq_some_iff.mp ran
  obtain ⟨second, counting, last⟩ := bind_eq_some_iff.mp later
  obtain ⟨third, counted, finished⟩ := bind_eq_some_iff.mp last
  clear ran later last
  obtain ⟨entry, entered, recorded, -⟩ := enter_eq C candidate fresh
  cases Option.some.inj (inserted.symm.trans entered)
  have new := entered_insert pool (candidate.tx.getHash C.hashing) entry
  rw [recorded] at new
  obtain ⟨mapNextTx, linked⟩ := Adjusted.linkInputs
    { (pool.setLinks (candidate.tx.getHash C.hashing) {}) with
      mapTx := pool.mapTx.insert (candidate.tx.getHash C.hashing) entry }
    (candidate.tx.getHash C.hashing) candidate.tx
  have same := (linked.trans (.updateAncestorsOf counting)).trans (.updateEntryForAncestors counted)
  obtain ⟨last, appended, reindexed, indexed⟩ := indexed.appendHash fresh
    (fun other => by rw [same.facts]; exact new.facts other)
    (fun other apart => by rw [same.index]; exact new.index other apart) same.hashes
  obtain rfl := Option.some.inj (finished.symm.trans appended)
  refine ⟨indexed, fun it => ?_⟩
  rw [reindexed.facts, same.facts]
  exact new.facts it

theorem Indexed.accept {req outcome} (ran : pool.acceptToMemoryPoolWorker C O req = some outcome)
    : Indexed C outcome.pool
      ∧ (∀ it, it ∈ outcome.pool.mapTx → it = req.candidate.tx.getHash C.hashing
          ∨ (it ∈ pool.mapTx ∧ it ∉ outcome.plTxnReplaced)) := by
  rcases acceptToMemoryPoolWorker_cases.mp ran with
    ⟨rejection, -, rfl⟩ | ⟨allConflicting, setAncestors, passed, committed⟩
  · exact ⟨indexed, fun it mem => .inr ⟨mem, by simp⟩⟩
  obtain ⟨setConflicts, passes⟩ := passes_of_checkAccept passed
  obtain ⟨same, replaced, added, removed, entered, limits⟩ := commitAccept_cases committed
  obtain ⟨shrinks, gone⟩ := shrinks_removeStaged removed
  obtain ⟨shrunk, kept⟩ := shrinks indexed
  have inside (it) (mem : it ∈ replaced.mapTx) : it ∈ pool.mapTx := by
    obtain ⟨facts, known⟩ := mem_iff_facts.mp mem
    exact mem_iff_facts.mpr ⟨facts, kept it facts known⟩
  obtain ⟨grown, facts⟩ := shrunk.addUnchecked
    (fun mem => passes.fresh (inside _ mem)) entered
  have final : Shrinks C added outcome.pool := by
    rcases limits with whole | limited
    · rw [whole]
      exact .refl C added
    · exact shrinks_limitMempoolSize limited
  obtain ⟨last, stays⟩ := final grown
  refine ⟨last, fun it mem => ?_⟩
  obtain ⟨recorded, known⟩ := mem_iff_facts.mp mem
  have before := stays it recorded known
  rw [facts] at before
  split at before
  · rename_i new
    exact .inl new
  refine .inr ⟨inside it (mem_iff_facts.mpr ⟨recorded, before⟩), fun listed => ?_⟩
  rw [same] at listed
  rw [gone indexed it listed] at before
  cases before

-- Other changes

/-- Entries keep their transactions and places. -/
theorem Indexed.congr (index : after.hashIdx = pool.hashIdx)
    (hashes : after.vTxHashes = pool.vTxHashes)
    (same : ∀ it facts, after.facts it = some facts
      → ∃ before, pool.facts it = some before ∧ before.tx = facts.tx)
    : Indexed C after := by
  refine ⟨by rw [hashes, index]; exact indexed.slots, fun item mem facts known => ?_⟩
  obtain ⟨before, found, tx⟩ := same item.2 facts known
  rw [hashes] at mem
  rw [indexed.hashes item mem before found, tx]

/-- A modification of something else than the transaction and the place. -/
theorem Indexed.modify
    (keeps : ∀ entry changed, change entry = some changed
      → changed.tx = entry.tx ∧ changed.vTxHashesIdx = entry.vTxHashesIdx)
    (ran : pool.modify it change = some after)
    : Indexed C after := by
  obtain ⟨entry, changed, found, passed, rfl⟩ := modify_cases ran
  obtain ⟨tx, index⟩ := keeps entry changed passed
  refine indexed.congr (funext fun other => ?_) rfl fun other facts known => ?_
  · rw [hashIdx, hashIdx, lookup_insert]
    split
    · rename_i same
      rw [same, found, map_some, map_some, index]
    · rfl
  · rw [TxMemPool.facts, lookup_insert] at known
    split at known
    · rename_i same
      cases known
      exact ⟨entry.toEntryFacts, by rw [TxMemPool.facts, same, found]; rfl, tx.symm⟩
    · exact ⟨facts, known, rfl⟩

theorem Indexed.prioritise {nFeeDelta}
    (ran : pool.prioritiseTransaction C it nFeeDelta = some after)
    : Indexed C after := by
  rw [prioritiseTransaction] at ran
  dsimp only at ran
  generalize (fun other => if other = it then some ((pool.mapDeltas it).getD 0 + nFeeDelta)
    else pool.mapDeltas other) = mapDeltas at ran
  have start : Indexed C { pool with mapDeltas } := ⟨indexed.slots, indexed.hashes⟩
  split at ran
  · obtain ⟨first, changed, ran⟩ := bind_eq_some_iff.mp ran
    obtain ⟨set, -, ran⟩ := bind_eq_some_iff.mp ran
    obtain ⟨second, below, above⟩ := bind_eq_some_iff.mp ran
    have moved : Indexed C first := start.modify (fun entry changed same => by
      cases same
      exact ⟨rfl, rfl⟩) changed
    have same : Adjusted first after :=
      (Adjusted.modifyEach (keepsFacts_updateDescendantState _ _ _) below).trans
        (.modifyEach (keepsFacts_updateAncestorState _ _ _ _) above)
    exact same.indexed moved
  · cases ran
    exact start

end

theorem Adjusted.updateTransactionsFromBlock {vHashesToUpdate}
    (ran : pool.updateTransactionsFromBlock C vHashesToUpdate = some after)
    : Adjusted pool after := by
  obtain ⟨state, looped, rfl⟩ := map_eq_some_iff.mp ran
  have loop := @foldlM_rel _ _ (updateFromBlock C vHashesToUpdate)
    (fun first last : TxMemPool × CacheMap => Adjusted first.1 last.1)
    (fun state => .refl state.1) (fun _ _ _ => Adjusted.trans) (by
      intro state hash next ran
      rw [updateFromBlock] at ran
      split at ran
      · obtain ⟨linked, links, ran⟩ := bind_eq_some_iff.mp ran
        have first : Adjusted state.1 linked := by
          rw [linkChildren] at links
          split at links
          · have relinks (pool) (child)
                : Relinked pool ((pool.updateChild hash child true).updateParent child hash
                  true) := rfl
            cases links
            exact .foldl_setLinks relinks _ _
          · cases links
        obtain ⟨updated, -, ran⟩ := bind_eq_some_iff.mp ran
        obtain ⟨entries, -, ran⟩ := bind_eq_some_iff.mp ran
        obtain ⟨second, above, ran⟩ := bind_eq_some_iff.mp ran
        obtain ⟨third, below, same⟩ := bind_eq_some_iff.mp ran
        cases same
        exact (first.trans (.modifyEach (keepsFacts_updateAncestorState _ _ _ _) above)).trans
          (.modify (keepsFacts_updateDescendantState _ _ _) below)
      · cases ran
        exact .refl _) _ _ _ looped
  exact loop

end TxMemPool

end Pqcoin
