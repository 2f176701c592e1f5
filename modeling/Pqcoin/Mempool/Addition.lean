import Pqcoin.Mempool.Removal

/-! `addUnchecked`: the bookkeeping of the memory pool stays right when a transaction that nothing
in the pool spends from enters it, with the ancestors that `CalculateMemPoolAncestors` has found.
-/

namespace Pqcoin

open AList List Reach Relation Search SlotIndex
open TxMemPoolEntry (ancestorTotals descendantTotals)

namespace TxMemPool

variable {C : MempoolContext} {pool after : TxMemPool} {it other hash : Uint256}
  {edge descends ascends : Uint256 → Uint256 → Prop} {candidate : TxCandidate}
  {setAncestors : List Uint256}

-- The new entry

def entering (pool : TxMemPool) (hash : Uint256) (candidate : TxCandidate) : EntryFacts where
  toTxCandidate := candidate
  feeDelta := (pool.mapDeltas hash).getD 0

/-- The new entry is an entry of its own: its totals are what it adds to others. -/
theorem enter_eq (C candidate) (fresh : hash ∉ pool.mapTx)
    : ∃ entry : TxMemPoolEntry, (pool.insertEntry C hash candidate).applyFeeDelta hash
        = some { (pool.setLinks hash {}) with mapTx := pool.mapTx.insert hash entry }
      ∧ entry.toEntryFacts = pool.entering hash candidate
      ∧ entry.descendantTotals = (pool.entering hash candidate).own C
      ∧ entry.ancestorTotals = (pool.entering hash candidate).ownCost C := by
  rw [insertEntry, if_neg fresh, applyFeeDelta]
  simp only [setLinks, entering, descendantTotals, ancestorTotals, EntryFacts.ownCost,
    EntryFacts.own, EntryFacts.getModifiedFee]
  cases pool.mapDeltas hash with
  | none => exact ⟨candidate.entry C, rfl, by simp [TxCandidate.entry]⟩
  | some delta =>
    dsimp only
    split
    · refine ⟨(candidate.entry C).updateFeeDelta delta, ?_, ?_⟩
      · rw [modify]
        dsimp only
        rw [AList.lookup_insert, Option.bind_some, Option.map_some, insert_insert]
      · simp [TxCandidate.entry, TxMemPoolEntry.updateFeeDelta]
    · rename_i zero
      obtain rfl : delta = 0 := not_not.mp zero
      exact ⟨candidate.entry C, rfl, by simp [TxCandidate.entry]⟩

structure Entered (pool after : TxMemPool) (hash : Uint256) (facts : EntryFacts) : Prop where
  facts : ∀ other, after.facts other = if other = hash then some facts else pool.facts other
  index : ∀ other, other ≠ hash → after.hashIdx other = pool.hashIdx other
  next : after.mapNextTx = pool.mapNextTx
  deltas : after.mapDeltas = pool.mapDeltas
  hashes : after.vTxHashes = pool.vTxHashes

namespace Entered

variable {facts : EntryFacts}

section

variable (entered : Entered pool after hash facts)

include entered

theorem mem : it ∈ after.mapTx ↔ it = hash ∨ it ∈ pool.mapTx := by
  rw [mem_iff_facts, mem_iff_facts, entered.facts]
  split <;> simp_all

theorem own (apart : it ≠ hash)
    : after.own C it = pool.own C it ∧ after.ownCost C it = pool.ownCost C it := by
  rw [TxMemPool.own, ownCost, entered.facts, if_neg apart]
  exact ⟨rfl, rfl⟩

theorem known : after.facts hash = some facts := by
  rw [entered.facts, if_pos rfl]

theorem costsFit (fresh : hash ∉ pool.mapTx) (fit : CostsFit pool)
    (nonneg : 0 ≤ facts.sigOpCost) (bounded : ∑ it, pool.cost it + facts.sigOpCost < 2 ^ 31)
    : CostsFit after := by
  have elsewhere (it) (apart : it ≠ hash) : after.cost it = pool.cost it := by
    rw [cost, cost, entered.facts, if_neg apart]
  have here : after.cost hash = pool.cost hash + facts.sigOpCost := by
    rw [mem_iff_facts, not_exists] at fresh
    rw [cost, cost, entered.known, Option.eq_none_iff_forall_ne_some.mpr fresh]
    simp
  constructor
  · intro it
    by_cases same : it = hash
    · rw [same, here]
      exact add_nonneg (fit.nonneg hash) nonneg
    · rw [elsewhere it same]
      exact fit.nonneg it
  · rw [sum_add_at here elsewhere]
    exact bounded

end

end Entered

theorem entered_insert (pool hash entry)
    : Entered pool { (pool.setLinks hash {}) with mapTx := pool.mapTx.insert hash entry } hash
        entry.toEntryFacts := by
  refine ⟨fun other => ?_, fun other apart => ?_, rfl, rfl, rfl⟩
  · rw [TxMemPool.facts, TxMemPool.facts, lookup_insert]
    split <;> rfl
  · rw [hashIdx, hashIdx, lookup_insert, if_neg apart]

/-- No link leads from an entry that is not in the pool, or to it. -/
theorem Within.reach_iff (within : pool.Within edge) (fresh : hash ∉ pool.mapTx)
    : (ReflTransGen edge hash other ↔ other = hash)
      ∧ (ReflTransGen edge other hash ↔ other = hash) := by
  refine ⟨⟨fun path => ?_, fun same => same ▸ .refl⟩, ⟨fun path => ?_, fun same => same ▸ .refl⟩⟩
  · rcases ReflTransGen.cases_head path with same | ⟨next, step, -⟩
    · exact same.symm
    · exact absurd (within hash next step).1 fresh
  · rcases ReflTransGen.cases_tail path with same | ⟨next, -, step⟩
    · exact same.symm
    · exact absurd (within next hash step).2 fresh

theorem Coherent.enter (coherent : Coherent C pool edge) (candidate) (fresh : hash ∉ pool.mapTx)
    : ∃ after, (pool.insertEntry C hash candidate).applyFeeDelta hash = some after
      ∧ Entered pool after hash (pool.entering hash candidate)
      ∧ after.ChildrenAre edge ∧ after.ParentsAre edge
      ∧ Counted C after (ReflTransGen edge) (fun it other => ReflTransGen edge other it) := by
  obtain ⟨entry, ran, recorded, below, above⟩ := enter_eq C candidate fresh
  have within := coherent.within
  have entered := entered_insert pool hash entry
  rw [recorded] at entered
  have unlinked (other) : ¬ edge hash other ∧ ¬ edge other hash :=
    ⟨fun step => fresh (within hash other step).1, fun step => fresh (within other hash step).2⟩
  refine ⟨_, ran, entered, fun parent => ?_, fun child => ?_, ?_⟩
  · by_cases same : parent = hash
    · simp [getMemPoolChildren, setLinks, same, unlinked]
    · simpa [getMemPoolChildren, setLinks, same] using coherent.children parent
  · by_cases same : child = hash
    · simp [getMemPoolParents, setLinks, same, unlinked]
    · simpa [getMemPoolParents, setLinks, same] using coherent.parents child
  · refine {
      below := fun it mem => ?_
      above := fun it mem => ?_
      descendsSelf := fun _ _ => .refl
      ascendsSelf := fun _ _ => .refl
    }
    · rw [TxMemPool.below, lookup_insert]
      split
      · rename_i same
        subst it
        rw [tally_congr (fun _ _ => rfl) fun other => (within.reach_iff fresh).1, tally_eq,
          own_of_facts entered.known]
        exact below
      · rename_i apart
        have before := (entered.mem.mp mem).resolve_left apart
        refine (coherent.counted.below it before).trans
          (tally_congr (fun other path => ?_) fun _ => Iff.rfl)
        have elsewhere : other ≠ hash := fun same => fresh (same ▸ within.mem_of_reach before path)
        exact (entered.own elsewhere).1.symm
    · rw [TxMemPool.above, lookup_insert]
      split
      · rename_i same
        subst it
        rw [tally_congr (fun _ _ => rfl) fun other => (within.reach_iff fresh).2, tally_eq,
          ownCost_of_facts entered.known]
        exact above
      · rename_i apart
        have before := (entered.mem.mp mem).resolve_left apart
        refine (coherent.counted.above it before).trans
          (tally_congr (fun other path => ?_) fun _ => Iff.rfl)
        have elsewhere : other ≠ hash := by
          rintro rfl
          exact apart ((within.reach_iff fresh).1.mp path)
        exact (entered.own elsewhere).2.symm

-- The inputs

def IsParent (pool : TxMemPool) (tx : Transaction) (parent : Uint256) : Prop :=
  parent ∈ pool.mapTx ∧ ∃ txin ∈ tx.vin, txin.prevout.hash = parent

def Spends (pool : TxMemPool) (parent child : Uint256) : Prop :=
  ∃ facts, pool.facts child = some facts ∧ pool.IsParent facts.tx parent

theorem lookup_foldl_insertNext (vin : List TxIn) (mapNextTx : AList (fun _ : OutPoint => Uint256))
    (free : ∀ txin ∈ vin, ∀ spender, mapNextTx.lookup txin.prevout = some spender → spender = hash)
    (out)
    : (vin.foldl (fun mapNextTx txin => insertNext mapNextTx txin.prevout hash)
      mapNextTx).lookup out
      = if ∃ txin ∈ vin, txin.prevout = out then some hash else mapNextTx.lookup out := by
  induction vin generalizing mapNextTx with
  | nil => simp
  | cons txin rest ih =>
    rw [forall_mem_cons] at free
    have inserted (out) : (insertNext mapNextTx txin.prevout hash).lookup out
        = if txin.prevout = out then some hash else mapNextTx.lookup out := by
      rw [insertNext]
      split
      · rename_i present
        obtain ⟨spender, found⟩ := Option.isSome_iff_exists.mp (lookup_isSome.mpr present)
        split
        · rename_i same
          rw [← same, found, free.1 spender found]
        · rfl
      · split
        · rename_i same
          rw [same, AList.lookup_insert]
        · rename_i apart
          exact lookup_insert_ne fun same => apart same.symm
    rw [foldl_cons, ih, inserted]
    · simp only [exists_mem_cons_iff]
      by_cases later : ∃ other ∈ rest, other.prevout = out <;>
        by_cases here : txin.prevout = out <;> simp [later, here]
    · intro other mem spender found
      rw [inserted] at found
      split at found
      · exact (Option.some.inj found).symm
      · exact free.2 other mem spender found

/-- The loop over the parents passes those that are not in the pool. -/
theorem foldl_updateParent_if (parents : List Uint256) (pool : TxMemPool) (hash)
    : parents.foldl
        (fun pool phash => if phash ∈ pool.mapTx then pool.updateParent hash phash true
          else pool) pool
      = ((parents.filter (· ∈ pool.mapTx)).map (·, hash)).foldl
          (fun pool pair => pool.updateParent pair.2 pair.1 true) pool := by
  induction parents generalizing pool with
  | nil => rfl
  | cons parent rest ih =>
    rw [foldl_cons]
    split
    · rename_i present
      rw [ih, filter_cons_of_pos (by simpa using present), map_cons, foldl_cons]
      rfl
    · rename_i absent
      rw [ih, filter_cons_of_neg (by simpa using absent)]

theorem linkInputs_spec (hash : Uint256) (tx : Transaction) (children : pool.ChildrenAre edge)
    (parents : pool.ParentsAre edge) (counted : Counted C pool descends ascends)
    (free : ∀ txin ∈ tx.vin, ∀ spender,
      pool.mapNextTx.lookup txin.prevout = some spender → spender = hash)
    : let after := pool.linkInputs hash tx
      after.ChildrenAre edge ∧ after.ParentsAre (join edge (pool.IsParent tx) hash)
      ∧ Counted C after descends ascends
      ∧ after.mapTx = pool.mapTx ∧ after.mapDeltas = pool.mapDeltas
      ∧ after.vTxHashes = pool.vTxHashes
      ∧ ∀ out, after.mapNextTx.lookup out
          = if ∃ txin ∈ tx.vin, txin.prevout = out then some hash
            else pool.mapNextTx.lookup out := by
  intro after
  obtain ⟨mapNextTx, listed, ran⟩ : ∃ mapNextTx,
      mapNextTx = tx.vin.foldl (fun mapNextTx txin => insertNext mapNextTx txin.prevout hash)
        pool.mapNextTx
      ∧ after = (((keySet hashRank (tx.vin.map (fun txin => txin.prevout.hash))).filter
          (· ∈ pool.mapTx)).map (·, hash)).foldl
          (fun pool pair => pool.updateParent pair.2 pair.1 true) { pool with mapNextTx } :=
    ⟨_, rfl, foldl_updateParent_if _ _ _⟩
  have spent := lookup_foldl_insertNext tx.vin pool.mapNextTx free
  rw [← listed] at spent
  have before : { pool with mapNextTx }.ParentsAre edge := parents
  obtain ⟨relinked, same, linked⟩ := foldl_updateParent
    (((keySet hashRank (tx.vin.map (fun txin => txin.prevout.hash))).filter
      (· ∈ pool.mapTx)).map (·, hash)) true before
  rw [← ran] at relinked same linked
  have counts : Counted C { pool with mapNextTx } descends ascends :=
    ⟨counted.below, counted.above, counted.descendsSelf, counted.ascendsSelf⟩
  refine ⟨?_, linked.congr ?_, relinked.counted counts, ?_⟩
  · rw [ChildrenAre, same]
    exact children
  · intro child parent
    have pair : (parent, child)
        ∈ ((keySet hashRank (tx.vin.map (fun txin => txin.prevout.hash))).filter
        (· ∈ pool.mapTx)).map (·, hash) ↔ pool.IsParent tx parent ∧ child = hash := by
      rw [IsParent]
      simp [eq_comm, and_comm, and_assoc]
    rw [join]
    dsimp only
    split
    · rename_i there
      simp [pair.mp there]
    rename_i absent
    rw [pair] at absent
    simp [absent]
  · rw [Relinked] at relinked
    rw [relinked]
    exact ⟨rfl, rfl, rfl, spent⟩

-- The totals

theorem updateAncestorsOf_spec {links facts} (children : pool.ChildrenAre edge)
    (parents : pool.ParentsAre links) (counted : Counted C pool descends ascends)
    (known : pool.facts it = some facts) (unique : setAncestors.Nodup)
    (inside : ∀ other ∈ setAncestors, other ∈ pool.mapTx)
    (fresh : ∀ other ∈ setAncestors, ¬ descends other it)
    : ∃ after, pool.updateAncestorsOf C true it setAncestors = some after ∧ Adjusted pool after
      ∧ after.ParentsAre links
      ∧ after.ChildrenAre (fun parent child => edge parent child ∨ (links parent it ∧ child = it))
      ∧ Counted C after
          (fun other below => descends other below
            ∨ (other ∈ setAncestors ∧ below = it)) ascends := by
  obtain ⟨entry, found, same, -⟩ := lookup_of_mem (mem_iff_facts.mpr ⟨facts, known⟩)
  obtain rfl : entry.toEntryFacts = facts := Option.some.inj (same.symm.trans known)
  obtain ⟨relinked, parents', children'⟩ := foldl_updateChild
    ((pool.getMemPoolParents it).map (·, it)) true children
  rw [foldl_map] at relinked parents' children'
  obtain ⟨after, ran, retallied, gained⟩ := (relinked.counted counted).gainBelow
    (relinked.adjusted.facts ▸ known) unique
    (fun other listed => relinked.adjusted.mem.mpr (inside other listed)) fresh
  refine ⟨after, ?_, relinked.adjusted.trans retallied.toAdjusted, retallied.parents ?_,
    retallied.children (children'.congr ?_), gained⟩
  · rw [updateAncestorsOf, found, Option.bind_some]
    dsimp only
    rw [if_pos rfl, if_pos rfl, one_mul]
    exact ran
  · rw [ParentsAre, parents']
    exact parents
  · intro parent child
    have listed : (parent, child) ∈ (pool.getMemPoolParents it).map (·, it)
        ↔ links parent it ∧ child = it := by
      rw [← parents.mem]
      simp [eq_comm]
    split
    · rename_i there
      simp [listed.mp there]
    rename_i absent
    rw [listed] at absent
    simp [absent]

/-- The sums that `UpdateEntryForAncestors` computes, by induction over the ancestors. -/
theorem sum_ownCost {ancestors}
    (found : Forall₂ (fun it entry => pool.mapTx.lookup it = some entry) setAncestors ancestors)
    : (setAncestors.map (pool.ownCost C)).sum
      = (((setAncestors.length : ℤ), (ancestors.map (fun entry => entry.getTxSize C)).sum,
          (ancestors.map (fun entry => entry.getModifiedFee)).sum),
        (ancestors.map (fun entry => entry.sigOpCost)).sum) := by
  induction found with
  | nil => rfl
  | @cons it entry its entries here _ ih =>
    have known : pool.facts it = some entry.toEntryFacts := by
      rw [TxMemPool.facts, here]
      rfl
    simp only [map_cons, sum_cons, ih, ownCost_of_facts known, EntryFacts.own,
      length_cons, Nat.cast_add, Nat.cast_one, Prod.mk_add_mk, add_comm (1 : ℤ)]

theorem updateEntryForAncestors_spec (counted : Counted C pool descends ascends)
    (fit : CostsFit pool) (mem : it ∈ pool.mapTx) (unique : setAncestors.Nodup)
    (inside : ∀ other ∈ setAncestors, other ∈ pool.mapTx)
    (fresh : ∀ other ∈ setAncestors, ¬ ascends it other)
    : ∃ after, pool.updateEntryForAncestors C it setAncestors = some after ∧ Retallied pool after
      ∧ Counted C after descends
          (fun below other => ascends below other ∨ (below = it ∧ other ∈ setAncestors)) := by
  have there : ∀ other ∈ setAncestors, (pool.mapTx.lookup other).isSome :=
    fun other listed => lookup_isSome.mpr (inside other listed)
  obtain ⟨ancestors, found⟩ := Folds.exists_mapM_eq_some there
  have counts : ∀ below ∈ [it], tally (pool.ownCost C)
        (fun other => ascends below other ∨ (below = it ∧ other ∈ setAncestors))
      = tally (pool.ownCost C) (ascends below)
        + (((setAncestors.length : ℤ), (ancestors.map (fun entry => entry.getTxSize C)).sum,
          (ancestors.map (fun entry => entry.getModifiedFee)).sum),
          (ancestors.map (fun entry => entry.sigOpCost)).sum) := by
    intro below listed
    rw [mem_singleton] at listed
    subst below
    rw [← sum_ownCost (Folds.mapM_eq_some_iff.mp found), ← tally_mem unique,
      ← tally_or fun other before listed => fresh other listed before]
    exact tally_congr (fun _ _ => rfl) fun other => by simp
  obtain ⟨after, ran, retallied, gained⟩ : ∃ after, pool.modifyEach [it] _ = some after
      ∧ Retallied pool after
      ∧ Counted C after descends
          (fun below other => ascends below other ∨ (below = it ∧ other ∈ setAncestors)) :=
    counted.updateAbove fit (nodup_singleton it) (by simpa using mem) counts
      (fun below _ unlisted other => by simp [mem_singleton.not.mp unlisted])
      (fun below listed => .inl (counted.ascendsSelf below (mem_singleton.mp listed ▸ mem)))
  refine ⟨after, ?_, retallied, gained⟩
  rw [updateEntryForAncestors, found, Option.bind_some]
  simpa [modifyEach] using ran

-- CalculateMemPoolAncestors

variable {limits : ChainLimits}

/-- The search for the parents finds the entries that the inputs name, by list induction. -/
theorem searchParents_spec {vin start set} (ran : pool.searchParents limits vin start = .ok set)
    : (∀ key, key ∈ set
        ↔ key ∈ start ∨ (key ∈ pool.mapTx ∧ ∃ txin ∈ vin, txin.prevout.hash = key))
      ∧ (start.Nodup → set.Nodup) := by
  induction vin generalizing start with
  | nil =>
    cases ran
    simp
  | cons txin rest ih =>
    rw [searchParents] at ran
    dsimp only at ran
    split at ran
    · rename_i present
      split at ran
      · cases ran
      obtain ⟨members, unique⟩ := ih ran
      refine ⟨fun key => ?_, fun startUnique => unique (nodup_insertKey startUnique)⟩
      rw [members, mem_insertKey, exists_mem_cons_iff]
      have named : key = txin.prevout.hash → key ∈ pool.mapTx := fun same => same ▸ present
      grind
    · rename_i absent
      obtain ⟨members, unique⟩ := ih ran
      refine ⟨fun key => ?_, unique⟩
      rw [members, exists_mem_cons_iff]
      have named : txin.prevout.hash = key → key ∉ pool.mapTx := fun same => same ▸ absent
      tauto

theorem calculateMemPoolAncestors_spec (candidate limits)
    (parents : pool.ParentsAre edge) (within : pool.Within edge)
    : ∃ result, pool.calculateMemPoolAncestors C candidate limits = some result
      ∧ ∀ set, result = .ok set → set.Nodup
        ∧ ∀ other, other ∈ set
          ↔ ∃ parent, pool.IsParent candidate.tx parent ∧ ReflTransGen edge other parent := by
  have linked (key parent) (here : parent ∈ pool.getMemPoolParents key)
      : parent ∈ pool.mapTx := (within parent key (parents.mem.mp here)).1
  rw [calculateMemPoolAncestors]
  cases searched : pool.searchParents limits candidate.tx.vin [] with
  | error errString => exact ⟨_, rfl, fun set same => by cases same⟩
  | ok parentHashes =>
    obtain ⟨members, unique⟩ := searchParents_spec searched
    have isParent (key) : key ∈ parentHashes ↔ pool.IsParent candidate.tx key := by
      rw [members, IsParent]
      simp
    have inside : ∀ key ∈ parentHashes, key ∈ pool.mapTx :=
      fun key mem => ((isParent key).mp mem).1
    obtain ⟨result, ran, -⟩ := exists_ancestorLoop inside linked
    refine ⟨result, ran, ?_⟩
    rintro set rfl
    rw [visitAll_of_ancestorLoop ran]
    refine ⟨nodup_visitAll nodup_nil, fun other => ?_⟩
    rw [mem_visitAll_parents parents within (unique nodup_nil) inside]
    simp only [isParent]

-- addUnchecked

/-- What a candidate must be for `addUnchecked`: new, without conflicts in the pool, and with
signature operations that the totals can take.
-/
structure Addable (C : MempoolContext) (pool : TxMemPool) (candidate : TxCandidate) : Prop where
  fresh : candidate.tx.getHash C.hashing ∉ pool.mapTx
  free : ∀ txin ∈ candidate.tx.vin, pool.mapNextTx.lookup txin.prevout = none
  apart : ∀ txin ∈ candidate.tx.vin, txin.prevout.hash ≠ candidate.tx.getHash C.hashing
  nonneg : 0 ≤ candidate.sigOpCost
  bounded : ∑ it, pool.cost it + candidate.sigOpCost < 2 ^ 31

/-- What the pool is when the new entry is linked, up to its place in `vTxHashes`. -/
structure Joined (C : MempoolContext) (pool after : TxMemPool) (hash : Uint256)
    (candidate : TxCandidate) (edge : Uint256 → Uint256 → Prop)
    : Prop where
  facts : ∀ other, after.facts other
    = if other = hash then some (pool.entering hash candidate) else pool.facts other
  index : ∀ other, other ≠ hash → after.hashIdx other = pool.hashIdx other
  deltas : after.mapDeltas = pool.mapDeltas
  hashes : after.vTxHashes = pool.vTxHashes
  next : ∀ out, after.mapNextTx.lookup out
    = if ∃ txin ∈ candidate.tx.vin, txin.prevout = out then some hash else pool.mapNextTx.lookup out
  costs : CostsFit after
  children : after.ChildrenAre edge
  parents : after.ParentsAre edge
  counted : Counted C after (ReflTransGen edge) (fun it other => ReflTransGen edge other it)

theorem Joined.mem (joined : Joined C pool after hash candidate edge)
    : it ∈ after.mapTx ↔ it = hash ∨ it ∈ pool.mapTx := by
  rw [mem_iff_facts, mem_iff_facts, joined.facts]
  split <;> simp_all

/-- `mapNextTx` has the inputs of the new entry beside those of the others. -/
theorem Joined.next_iff {out} (joined : Joined C pool after hash candidate edge)
    (next : ∀ out it, pool.mapNextTx.lookup out = some it ↔ pool.SpendsOut it out)
    (fresh : hash ∉ pool.mapTx)
    (free : ∀ txin ∈ candidate.tx.vin, pool.mapNextTx.lookup txin.prevout = none)
    : after.mapNextTx.lookup out = some it ↔ after.SpendsOut it out := by
  rw [joined.next, SpendsOut, joined.facts]
  by_cases spends : ∃ txin ∈ candidate.tx.vin, txin.prevout = out
  · rw [if_pos spends]
    split
    · rename_i same
      simpa [same, entering] using spends
    rename_i apart
    obtain ⟨txin, mem, rfl⟩ := spends
    rw [← SpendsOut, ← next, free txin mem]
    simpa [eq_comm] using apart
  · rw [if_neg spends, next]
    split
    · rename_i same
      have gone : ¬ pool.SpendsOut it out := by
        rintro ⟨facts, known, -⟩
        exact fresh (same ▸ mem_iff_facts.mpr ⟨facts, known⟩)
      simpa [gone, entering] using spends
    · rfl

theorem Indexed.appendHash {facts} (indexed : Indexed C pool) (fresh : hash ∉ pool.mapTx)
    (recorded : ∀ other, after.facts other = if other = hash then some facts else pool.facts other)
    (kept : ∀ other, other ≠ hash → after.hashIdx other = pool.hashIdx other)
    (same : after.vTxHashes = pool.vTxHashes)
    : ∃ last, after.appendHash hash (facts.tx.getWitnessHash C.hashing) = some last
      ∧ Reindexed after last ∧ Indexed C last := by
  obtain ⟨entry, found, -⟩ := lookup_of_mem (mem_iff_facts.mpr
    ⟨facts, by rw [recorded, if_pos rfl]⟩)
  obtain ⟨last, appended⟩ : ∃ last,
      after.appendHash hash (facts.tx.getWitnessHash C.hashing) = some last := by
    rw [TxMemPool.appendHash, modify]
    dsimp only
    rw [found]
    exact ⟨_, rfl⟩
  obtain ⟨reindexed, hashes, index⟩ := reindexed_of_modify appended
  have absent : pool.hashIdx hash = none := by
    rw [← Option.not_isSome_iff_eq_none, hashIdx_isSome]
    exact fresh
  refine ⟨last, appended, reindexed, ?_, ?_⟩
  · have slots := @Indexes.append _ _ _ _ _ _ (facts.tx.getWitnessHash C.hashing, hash)
      indexed.slots absent
    rw [hashes, same]
    convert slots using 2 with other
    rw [index, same]
    split
    · simp
    rename_i apart
    exact kept other apart
  · rw [hashes, same, reindexed.facts]
    intro item mem recordedFacts known
    rw [recorded] at known
    rcases mem_append.mp mem with before | here
    · split at known
      · rename_i place
        -- the elements that were there are those of other entries
        obtain ⟨i, there⟩ := getElem?_of_mem before
        have index := indexed.slots.exact i item there
        rw [place, absent] at index
        cases index
      · exact indexed.hashes item before recordedFacts known
    · obtain rfl := mem_singleton.mp here
      rw [if_pos rfl] at known
      cases known
      rfl

/-- A place in `vTxHashes` changes nothing of the totals. -/
theorem Reindexed.counted (same : Reindexed pool after) (counted : Counted C pool descends ascends)
    : Counted C after descends ascends := by
  have mem (it) : it ∈ after.mapTx ↔ it ∈ pool.mapTx := by
    rw [mem_iff_facts, mem_iff_facts, same.facts]
  have own : after.own C = pool.own C := funext fun it => by
    rw [TxMemPool.own, TxMemPool.own, same.facts]
  have ownCost : after.ownCost C = pool.ownCost C := funext fun it => by
    rw [ownCost, ownCost, same.facts]
  refine {
    below := fun it member => ?_
    above := fun it member => ?_
    descendsSelf := fun it member => counted.descendsSelf it ((mem it).mp member)
    ascendsSelf := fun it member => counted.ascendsSelf it ((mem it).mp member)
  }
  · rw [same.below, own, counted.below it ((mem it).mp member)]
  · rw [same.above, ownCost, counted.above it ((mem it).mp member)]

section

variable (coherent : Coherent C pool edge) (addable : Addable C pool candidate)
  (unique : setAncestors.Nodup)
  (ancestors : ∀ other, other ∈ setAncestors
    ↔ ∃ parent, pool.IsParent candidate.tx parent ∧ ReflTransGen edge other parent)

include coherent addable unique ancestors

/-- The loops of `addUnchecked` link the new entry, and move the totals to those with it. -/
theorem Coherent.linkEntry (named : candidate.tx.getHash C.hashing = hash)
    : ∃ entered linked after,
        (pool.insertEntry C hash candidate).applyFeeDelta hash = some entered
      ∧ (entered.linkInputs hash candidate.tx).updateAncestorsOf C true hash setAncestors
        = some linked
      ∧ linked.updateEntryForAncestors C hash setAncestors = some after
      ∧ Joined C pool after hash candidate (join edge (pool.IsParent candidate.tx) hash) := by
  obtain ⟨fresh, free, apart, nonneg, bounded⟩ := addable
  rw [named] at fresh apart
  have within := coherent.within
  have isolated {other} := @Within.reach_iff pool other hash edge within fresh
  obtain ⟨first, inserted, entered, children, parents, counted⟩ := coherent.enter candidate fresh
  have isParent (parent)
      : first.IsParent candidate.tx parent ↔ pool.IsParent candidate.tx parent := by
    rw [IsParent, IsParent, entered.mem]
    refine and_congr_left fun ⟨txin, mem, named⟩ => or_iff_right fun same => ?_
    exact apart txin mem (named.trans same)
  have known : ∀ other ∈ setAncestors, other ∈ pool.mapTx := by
    intro other listed
    obtain ⟨parent, ⟨there, -⟩, path⟩ := (ancestors other).mp listed
    rcases ReflTransGen.cases_head path with rfl | ⟨next, step, -⟩
    · exact there
    · exact (within other next step).1
  have elsewhere {other} (listed : other ∈ setAncestors) : other ≠ hash :=
    fun same => fresh (same ▸ known other listed)
  obtain ⟨children, parents, counted, sameTx, deltas, hashes, spent⟩ := linkInputs_spec hash
    candidate.tx children parents counted (by
      intro txin mem spender found
      rw [entered.next, free txin mem] at found
      cases found)
  generalize linked : first.linkInputs hash candidate.tx = second at *
  have sameFacts : second.facts = first.facts := by
    funext other
    rw [TxMemPool.facts, TxMemPool.facts, sameTx]
  have there (other) (mem : other = hash ∨ other ∈ pool.mapTx) : other ∈ second.mapTx := by
    rw [sameTx, entered.mem]
    exact mem
  obtain ⟨third, counting, adjusted, parents, children, counted⟩ := updateAncestorsOf_spec
    children parents counted ((congrFun sameFacts hash).trans entered.known) unique
    (fun other listed => there other (.inr (known other listed)))
    (fun other listed path => elsewhere listed (isolated.2.mp path))
  have fit : CostsFit third := by
    have before := entered.costsFit fresh coherent.costs nonneg bounded
    have costs : second.cost = first.cost := funext fun it => by rw [cost, cost, sameFacts]
    exact adjusted.costsFit ⟨costs ▸ before.nonneg, costs ▸ before.bounded⟩
  obtain ⟨after, counted', retallied, counts⟩ := updateEntryForAncestors_spec counted fit
    (adjusted.mem.mpr (there hash (.inl rfl))) unique
    (fun other listed => adjusted.mem.mpr (there other (.inr (known other listed))))
    (fun other listed path => elsewhere listed (isolated.2.mp path))
  have parentLinks (parent child)
      : join edge (pool.IsParent candidate.tx) hash parent child
        ↔ join edge (first.IsParent candidate.tx) hash parent child := by
    rw [join, join, isParent]
  have reached {start last} := @reach_join Uint256 edge (pool.IsParent candidate.tx) start
    last hash (fun other step => fresh (within hash other step).1) (fun parent => fresh parent.1)
  refine ⟨first, third, after, inserted, linked ▸ counting, counted', ?_⟩
  refine {
    facts := fun other => ?_
    index := fun other apart => ?_
    deltas := ?_
    hashes := ?_
    next := fun out => ?_
    costs := retallied.costsFit fit
    children := retallied.children (children.congr fun parent child => ?_)
    parents := retallied.parents (parents.congr fun child parent => parentLinks parent child)
    counted := counts.congr (fun it _ other => ?_) (fun it _ other => ?_)
  }
  · rw [retallied.facts, adjusted.facts, sameFacts, entered.facts]
  · rw [retallied.index, adjusted.index, ← entered.index other apart, hashIdx, hashIdx, sameTx]
  · rw [retallied.deltas, adjusted.deltas, deltas, entered.deltas]
  · rw [retallied.hashes, adjusted.hashes, hashes, entered.hashes]
  · rw [retallied.next, adjusted.next, spent, entered.next]
  · have none : ¬ edge parent hash := fun step => fresh (within parent hash step).2
    rw [join, join, isParent]
    simp [none]
  · rw [reached, ancestors, and_comm]
  · rw [reached, ancestors]

/-- A candidate enters the pool below the entries that it spends from: the bookkeeping is right for
the links with those of the new entry.
-/
theorem Coherent.addUnchecked
    : ∃ after, pool.addUnchecked C candidate setAncestors = some after
      ∧ Coherent C after (join edge (pool.IsParent candidate.tx) (candidate.tx.getHash C.hashing))
      ∧ (∀ it, after.facts it = if it = candidate.tx.getHash C.hashing
          then some (pool.entering (candidate.tx.getHash C.hashing) candidate) else pool.facts it)
      ∧ after.mapDeltas = pool.mapDeltas := by
  obtain ⟨first, second, third, entered, counting, counted, joined⟩ :=
    coherent.linkEntry addable unique ancestors rfl
  obtain ⟨fresh, free, -⟩ := addable
  obtain ⟨after, appended, reindexed, indexed⟩ :=
    coherent.indexed.appendHash fresh joined.facts joined.index joined.hashes
  refine ⟨after, ?_, ?_, fun it => ?_, reindexed.deltas.trans joined.deltas⟩
  · rw [TxMemPool.addUnchecked]
    simp only [Option.bind_eq_bind, entered, counting, counted, Option.bind_some]
    exact appended
  · have mem (it) : it ∈ after.mapTx ↔ it = candidate.tx.getHash C.hashing ∨ it ∈ pool.mapTx := by
      rw [mem_iff_facts, reindexed.facts, ← mem_iff_facts, joined.mem]
    refine {
      children := fun parent => ?_
      parents := fun child => ?_
      within := fun parent child step => ?_
      acyclic := acyclic_join (fun other step => fresh (coherent.within _ other step).1)
        (fun parent => fresh parent.1) coherent.acyclic
      counted := reindexed.counted joined.counted
      next := fun out it => ?_
      indexed := indexed
      costs := ?_
    }
    · rw [getMemPoolChildren, reindexed.links]
      exact joined.children parent
    · rw [getMemPoolParents, reindexed.links]
      exact joined.parents child
    · rw [mem, mem]
      rcases step with old | ⟨parent, rfl⟩
      · exact (coherent.within parent child old).imp .inr .inr
      · exact ⟨.inr parent.1, .inl rfl⟩
    · rw [reindexed.next, SpendsOut, reindexed.facts]
      exact joined.next_iff coherent.next fresh free
    · have costs : after.cost = third.cost := funext fun it => by rw [cost, cost, reindexed.facts]
      exact ⟨costs ▸ joined.costs.nonneg, costs ▸ joined.costs.bounded⟩
  · rw [reindexed.facts, joined.facts]

end

theorem spends_enter {facts parent child} (fresh : hash ∉ pool.mapTx)
    (recorded : ∀ it, after.facts it = if it = hash then some facts else pool.facts it)
    (apart : ∀ txin ∈ facts.tx.vin, txin.prevout.hash ≠ hash)
    (unspent : ∀ it old, pool.facts it = some old → ∀ txin ∈ old.tx.vin, txin.prevout.hash ≠ hash)
    : after.Spends parent child ↔ join pool.Spends (pool.IsParent facts.tx) hash parent child := by
  have mem : parent ∈ after.mapTx ↔ parent = hash ∨ parent ∈ pool.mapTx := by
    rw [mem_iff_facts, recorded, mem_iff_facts]
    split <;> simp [*]
  have none : pool.facts hash = none := by
    by_contra known
    obtain ⟨old, known⟩ := Option.ne_none_iff_exists'.mp known
    exact fresh (mem_iff_facts.mpr ⟨old, known⟩)
  rw [Spends, join, Spends, recorded]
  simp only [IsParent, mem]
  constructor
  · rintro ⟨found, known, ⟨isNew | old, txin, listed, spends⟩⟩
    · split at known
      · cases known
        exact absurd (spends.trans isNew) (apart txin listed)
      · exact absurd (spends.trans isNew) (unspent child found known txin listed)
    · split at known
      · rename_i same
        cases known
        exact .inr ⟨⟨old, txin, listed, spends⟩, same⟩
      · exact .inl ⟨found, known, old, txin, listed, spends⟩
  · rintro (⟨found, known, old, spends⟩ | ⟨⟨old, spends⟩, rfl⟩)
    · have kept : child ≠ hash := by
        rintro rfl
        rw [none] at known
        cases known
      exact ⟨found, by rw [if_neg kept, known], .inr old, spends⟩
    · exact ⟨facts, if_pos rfl, .inr old, spends⟩

theorem Coherent.congr {links} (coherent : Coherent C pool edge)
    (same : ∀ parent child, links parent child ↔ edge parent child)
    : Coherent C pool links := by
  have equal : links = edge := funext fun parent => funext fun child => propext (same parent child)
  rw [equal]
  exact coherent

theorem Coherent.empty (C) : Coherent C {} (Spends {}) := by
  have none (it) : it ∉ (mapTx {}) := notMem_empty it
  have unlinked (parent child) : ¬ Spends {} parent child := fun spends =>
    none parent spends.choose_spec.2.1
  refine {
    children := fun it => ⟨.nil, fun other => ?_⟩
    parents := fun it => ⟨.nil, fun other => ?_⟩
    within := fun parent child step => absurd step (unlinked parent child)
    acyclic := fun it cycle => ?_
    counted := ⟨fun it mem => absurd mem (none it), fun it mem => absurd mem (none it),
      fun it mem => absurd mem (none it), fun it mem => absurd mem (none it)⟩
    next := fun out it => ?_
    indexed := Indexed.empty C
    costs := ⟨fun it => le_rfl, ?_⟩
  }
  · simpa [getMemPoolChildren] using unlinked it other
  · simpa [getMemPoolParents] using unlinked other it
  · obtain ⟨next, step, -⟩ := TransGen.head'_iff.mp cycle
    exact unlinked it next step
  · simp [SpendsOut, TxMemPool.facts]
  · have zero : ∑ it, cost {} it = 0 := Finset.sum_eq_zero fun it _ => rfl
    rw [zero]
    norm_num

theorem Coherent.alone (C candidate)
    (apart : ∀ txin ∈ candidate.tx.vin, txin.prevout.hash ≠ candidate.tx.getHash C.hashing)
    (nonneg : 0 ≤ candidate.sigOpCost) (bounded : candidate.sigOpCost < 2 ^ 31)
    : ∃ after, TxMemPool.addUnchecked C {} candidate [] = some after ∧ Coherent C after after.Spends
      ∧ ∀ it, after.facts it
        = if it = candidate.tx.getHash C.hashing then some ⟨candidate, 0⟩ else none := by
  have fresh : candidate.tx.getHash C.hashing ∉ mapTx {} := notMem_empty _
  have addable : Addable C {} candidate := by
    refine ⟨fresh, fun txin _ => lookup_empty _, apart, nonneg, ?_⟩
    have zero : ∑ it, cost {} it = 0 := Finset.sum_eq_zero fun it _ => rfl
    rw [zero, zero_add]
    exact bounded
  obtain ⟨after, added, coherent, recorded, -⟩ :=
    (Coherent.empty C).addUnchecked addable nodup_nil fun other => by
      simp [IsParent, notMem_empty]
  refine ⟨after, added, coherent.congr fun parent child => ?_, recorded⟩
  exact spends_enter fresh recorded apart fun it old known => by cases known

end TxMemPool

end Pqcoin
