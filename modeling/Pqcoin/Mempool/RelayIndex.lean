import Pqcoin.Lib.SlotIndex
import Pqcoin.Mempool.Tallies

/-! `vTxHashes` as an index over the entries of the memory pool, and what the removal of an entry
leaves of the pool.
-/

namespace Pqcoin

open AList List Option SlotIndex

namespace TxMemPool

variable {C : MempoolContext} {pool after : TxMemPool} {it other : Uint256} {its : List Uint256}
  {entry changed : TxMemPoolEntry}

-- Observations of single modifications

theorem lookup_insert (mapTx : AList (fun _ : Uint256 => TxMemPoolEntry)) (it other) (entry)
    : (mapTx.insert it entry).lookup other
      = if other = it then some entry else mapTx.lookup other := by
  split
  · rename_i same
    rw [same, AList.lookup_insert]
  · rename_i apart
    exact lookup_insert_ne apart

theorem lookup_erase (mapTx : AList (fun _ : Uint256 => TxMemPoolEntry)) (it other)
    : (mapTx.erase it).lookup other = if other = it then none else mapTx.lookup other := by
  split
  · rename_i same
    rw [same, AList.lookup_erase]
  · rename_i apart
    exact lookup_erase_ne apart

theorem modify_cases {change} (ran : pool.modify it change = some after)
    : ∃ entry changed, pool.mapTx.lookup it = some entry ∧ change entry = some changed
      ∧ after = { pool with mapTx := pool.mapTx.insert it changed } := by
  obtain ⟨entry, found, ran⟩ := bind_eq_some_iff.mp ran
  obtain ⟨changed, passed, same⟩ := map_eq_some_iff.mp ran
  exact ⟨entry, changed, found, passed, same.symm⟩

theorem hashIdx_isSome : (pool.hashIdx it).isSome ↔ it ∈ pool.mapTx := by
  rw [hashIdx, isSome_map, lookup_isSome]

-- The index

/-- `vTxHashes` has each entry once, with its witness hash and at its index. -/
structure Indexed (C : MempoolContext) (pool : TxMemPool) : Prop where
  slots : Indexes pool.vTxHashes Prod.snd pool.hashIdx
  hashes
    : ∀ item ∈ pool.vTxHashes, ∀ facts, pool.facts item.2 = some facts
      → item.1 = facts.tx.getWitnessHash C.hashing

theorem Indexed.empty (C) : Indexed C {} := by
  refine ⟨⟨by simp, fun k i known => ?_⟩, by simp⟩
  cases known

theorem Adjusted.indexed (same : Adjusted pool after) (indexed : Indexed C pool)
    : Indexed C after := by
  constructor
  · rw [same.hashes, same.index]
    exact indexed.slots
  · rw [same.hashes, same.facts]
    exact indexed.hashes

/-- What `removeUnchecked` leaves: everything but the entry, its links and its inputs. -/
structure Removed (pool after : TxMemPool) (it : Uint256) (tx : Transaction) : Prop where
  facts : ∀ other, after.facts other = if other = it then none else pool.facts other
  below : ∀ other, other ≠ it → after.below other = pool.below other
  above : ∀ other, other ≠ it → after.above other = pool.above other
  links : ∀ other, after.mapLinks other = if other = it then {} else pool.mapLinks other
  next : ∀ out, after.mapNextTx.lookup out
    = if ∃ txin ∈ tx.vin, txin.prevout = out then none else pool.mapNextTx.lookup out
  deltas : after.mapDeltas = pool.mapDeltas

theorem lookup_foldl_erase (vin : List TxIn) (mapNextTx : AList (fun _ : OutPoint => Uint256)) (out)
    : (vin.foldl (fun mapNextTx txin => mapNextTx.erase txin.prevout) mapNextTx).lookup out
      = if ∃ txin ∈ vin, txin.prevout = out then none else mapNextTx.lookup out := by
  induction vin generalizing mapNextTx with
  | nil => simp
  | cons txin rest ih =>
    rw [foldl_cons, ih]
    by_cases later : ∃ other ∈ rest, other.prevout = out
    · rw [if_pos later, if_pos ((exists_mem_cons_iff ..).mpr (.inr later))]
    rw [if_neg later]
    by_cases here : txin.prevout = out
    · rw [if_pos ⟨txin, .head _, here⟩, here, AList.lookup_erase]
    have apart : out ≠ txin.prevout := fun same => here same.symm
    rw [lookup_erase_ne apart, if_neg]
    rw [exists_mem_cons_iff]
    exact not_or.mpr ⟨here, later⟩

/-- What `removeUnchecked` does with `vTxHashes` keeps the entries, but for an index. -/
structure Reindexed (pool after : TxMemPool) : Prop where
  facts : after.facts = pool.facts
  below : after.below = pool.below
  above : after.above = pool.above
  links : after.mapLinks = pool.mapLinks
  next : after.mapNextTx = pool.mapNextTx
  deltas : after.mapDeltas = pool.mapDeltas

theorem reindexed_of_modify {vTxHashes} {index}
    (ran : { pool with vTxHashes }.modify it
      (fun entry => some { entry with vTxHashesIdx := index })
      = some after)
    : Reindexed pool after
      ∧ after.vTxHashes = vTxHashes
      ∧ ∀ other, after.hashIdx other = if other = it then some index else pool.hashIdx other := by
  obtain ⟨entry, changed, found, same, rfl⟩ := modify_cases ran
  cases same
  change pool.mapTx.lookup it = some entry at found
  refine ⟨⟨funext fun other => ?_, funext fun other => ?_, funext fun other => ?_, rfl, rfl,
    rfl⟩, rfl,
    fun other => ?_⟩
  · rw [TxMemPool.facts, TxMemPool.facts, lookup_insert]
    split
    · rename_i same
      rw [same, found]
      rfl
    · rfl
  · rw [TxMemPool.below, TxMemPool.below, lookup_insert]
    split
    · rename_i same
      rw [same, found]
      rfl
    · rfl
  · rw [TxMemPool.above, TxMemPool.above, lookup_insert]
    split
    · rename_i same
      rw [same, found]
      rfl
    · rfl
  · rw [hashIdx, lookup_insert]
    split <;> rfl

theorem Indexed.dropHash {index} (indexed : Indexed C pool) (known : pool.hashIdx it = some index)
    : ∃ after, pool.dropHash index = some after ∧ Reindexed pool after
      ∧ after.vTxHashes ⊆ pool.vTxHashes
      ∧ Indexes after.vTxHashes Prod.snd
        (fun other => if other = it then none else after.hashIdx other) := by
  obtain ⟨item, there, same⟩ := indexed.slots.there it index known
  have bound : index < pool.vTxHashes.length := (List.getElem?_eq_some_iff.mp there).1
  obtain ⟨back, last⟩ : ∃ back, pool.vTxHashes.getLast? = some back :=
    isSome_iff_exists.mp (by simpa using ne_nil_of_length_pos (by omega))
  have removed := indexed.slots.swapRemove known last
  have inside : SlotIndex.swapRemove pool.vTxHashes index back ⊆ pool.vTxHashes := by
    intro item mem
    rcases mem_or_eq_of_mem_set ((dropLast_sublist _).mem mem) with before | rfl
    · exact before
    · exact List.mem_of_getLast? last
  rw [TxMemPool.dropHash]
  split
  · rename_i several
    have final := indexed.slots.index_last last
    obtain ⟨entry, found, -⟩ := lookup_of_mem (hashIdx_isSome.mp (by rw [final]; rfl))
    rw [last, bind_some]
    obtain ⟨after, ran⟩ : ∃ after,
        { pool with vTxHashes := SlotIndex.swapRemove pool.vTxHashes index back }.modify back.2
          (fun entry => some { entry with vTxHashesIdx := index }) = some after := by
      rw [modify]
      dsimp only
      rw [found]
      exact ⟨_, rfl⟩
    obtain ⟨reindexed, hashes, indices⟩ := reindexed_of_modify ran
    refine ⟨after, ran, reindexed, hashes ▸ inside, ?_⟩
    rw [hashes]
    simp only [indices]
    exact removed
  · rename_i single
    -- the only element is the one of the entry
    have only : pool.vTxHashes.length = 1 := by omega
    have nothing : SlotIndex.swapRemove pool.vTxHashes index back = [] := by
      rw [SlotIndex.swapRemove, ← length_eq_zero_iff]
      simp [only]
    refine ⟨_, rfl, ⟨rfl, rfl, rfl, rfl, rfl, rfl⟩, nil_subset _, ?_⟩
    rw [nothing] at removed
    refine ⟨by simp, fun k i found => ?_⟩
    split at found
    · cases found
    rename_i apart
    have entire := removed.there k
    have backIt : back.2 = it := by
      have zero : pool.vTxHashes.length - 1 = index := by omega
      rw [List.getLast?_eq_getElem?, zero, there] at last
      rw [← Option.some.inj last, same]
    rw [backIt] at entire
    simp only [if_neg apart] at entire
    exact entire i found

section EraseEntry

variable (pool : TxMemPool) (it other : Uint256)

theorem facts_eraseEntry
    : (pool.eraseEntry it).facts other = if other = it then none else pool.facts other := by
  rw [TxMemPool.facts, eraseEntry, lookup_erase, TxMemPool.facts]
  split <;> rfl

theorem totals_eraseEntry (apart : other ≠ it)
    : (pool.eraseEntry it).below other = pool.below other
      ∧ (pool.eraseEntry it).above other = pool.above other := by
  rw [TxMemPool.below, TxMemPool.above, eraseEntry, lookup_erase, if_neg apart]
  exact ⟨rfl, rfl⟩

end EraseEntry

theorem Indexed.removeUnchecked {facts} (indexed : Indexed C pool)
    (known : pool.facts it = some facts)
    : ∃ after, pool.removeUnchecked it = some after ∧ Indexed C after
      ∧ Removed pool after it facts.tx := by
  obtain ⟨entry, found, same, -, -⟩ := lookup_of_mem (mem_iff_facts.mpr ⟨facts, known⟩)
  obtain rfl : entry.toEntryFacts = facts := Option.some.inj (same.symm.trans known)
  let mapNextTx := entry.tx.vin.foldl (fun mapNextTx txin => mapNextTx.erase txin.prevout)
    pool.mapNextTx
  have unlinked : Indexed C { pool with mapNextTx } := ⟨indexed.slots, indexed.hashes⟩
  have index : { pool with mapNextTx }.hashIdx it = some entry.vTxHashesIdx := by
    rw [hashIdx, found]
    rfl
  obtain ⟨dropped, ran, kept, inside, slots⟩ := unlinked.dropHash index
  refine ⟨dropped.eraseEntry it, ?_, ⟨?_, ?_⟩, ?_⟩
  · rw [TxMemPool.removeUnchecked, found, bind_some]
    exact map_eq_some_iff.mpr ⟨dropped, ran, rfl⟩
  · have erased : (dropped.eraseEntry it).hashIdx
        = fun other => if other = it then none else dropped.hashIdx other := by
      funext other
      rw [hashIdx, eraseEntry, lookup_erase, hashIdx]
      split <;> rfl
    rw [erased]
    exact slots
  · intro item mem facts known
    rw [facts_eraseEntry] at known
    split at known
    · cases known
    rw [kept.facts] at known
    exact indexed.hashes item (inside mem) facts known
  · refine {
      facts := fun other => ?_
      below := fun other apart => ?_
      above := fun other apart => ?_
      links := fun other => ?_
      next := fun out => ?_
      deltas := kept.deltas
    }
    · rw [facts_eraseEntry, kept.facts]
      rfl
    · rw [(totals_eraseEntry dropped it other apart).1, kept.below]
      rfl
    · rw [(totals_eraseEntry dropped it other apart).2, kept.above]
      rfl
    · rw [eraseEntry, setLinks, kept.links]
    · rw [← lookup_foldl_erase entry.tx.vin pool.mapNextTx out, eraseEntry, setLinks, kept.next]

end TxMemPool

end Pqcoin
