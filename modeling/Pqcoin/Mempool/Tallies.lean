import Pqcoin.Lib.Reach
import Pqcoin.Mempool.Operations

/-! What the memory pool shows of its entries: the facts about their transactions, and the totals
that they cache. The totals are sums over relations, and each loop of updates adds entries to such
a relation or takes them from it.
-/

namespace Pqcoin

open Option Reach
open TxMemPoolEntry (toInt32 updateAncestorState updateDescendantState)

-- Observations

/-- What an entry adds to the totals of its ancestors: a count, a size and a fee. -/
def EntryFacts.own (C : MempoolContext) (facts : EntryFacts) : ℤ × ℤ × Amount :=
  (1, facts.getTxSize C, facts.getModifiedFee)

/-- What an entry adds to the totals of its descendants, with its signature operations. -/
def EntryFacts.ownCost (C : MempoolContext) (facts : EntryFacts) : (ℤ × ℤ × Amount) × ℤ :=
  (facts.own C, facts.sigOpCost)

def TxMemPoolEntry.descendantTotals (entry : TxMemPoolEntry) : ℤ × ℤ × Amount :=
  (entry.nCountWithDescendants, entry.nSizeWithDescendants, entry.nModFeesWithDescendants)

def TxMemPoolEntry.ancestorTotals (entry : TxMemPoolEntry) : (ℤ × ℤ × Amount) × ℤ :=
  ((entry.nCountWithAncestors, entry.nSizeWithAncestors, entry.nModFeesWithAncestors),
    entry.nSigOpCostWithAncestors)

namespace TxMemPool

def facts (pool : TxMemPool) (it : Uint256) : Option EntryFacts :=
  (pool.mapTx.lookup it).map TxMemPoolEntry.toEntryFacts

def hashIdx (pool : TxMemPool) (it : Uint256) : Option Nat :=
  (pool.mapTx.lookup it).map TxMemPoolEntry.vTxHashesIdx

def own (C : MempoolContext) (pool : TxMemPool) (it : Uint256) : ℤ × ℤ × Amount :=
  (pool.facts it).elim 0 (EntryFacts.own C)

def ownCost (C : MempoolContext) (pool : TxMemPool) (it : Uint256) : (ℤ × ℤ × Amount) × ℤ :=
  (pool.facts it).elim 0 (EntryFacts.ownCost C)

def below (pool : TxMemPool) (it : Uint256) : ℤ × ℤ × Amount :=
  (pool.mapTx.lookup it).elim 0 TxMemPoolEntry.descendantTotals

def above (pool : TxMemPool) (it : Uint256) : (ℤ × ℤ × Amount) × ℤ :=
  (pool.mapTx.lookup it).elim 0 TxMemPoolEntry.ancestorTotals

variable {C : MempoolContext} {pool after : TxMemPool} {it other : Uint256} {its : List Uint256}
  {facts : EntryFacts}

theorem mem_iff_facts : it ∈ pool.mapTx ↔ ∃ facts, pool.facts it = some facts := by
  rw [← AList.lookup_isSome, isSome_iff_exists, TxMemPool.facts]
  simp

theorem lookup_of_mem (mem : it ∈ pool.mapTx)
    : ∃ entry, pool.mapTx.lookup it = some entry
        ∧ pool.facts it = some entry.toEntryFacts
        ∧ pool.below it = entry.descendantTotals ∧ pool.above it = entry.ancestorTotals := by
  obtain ⟨entry, found⟩ := isSome_iff_exists.mp (AList.lookup_isSome.mpr mem)
  refine ⟨entry, found, ?_⟩
  simp [TxMemPool.facts, below, above, found]

/-- Only totals of entries and links between them are different. -/
structure Adjusted (pool after : TxMemPool) : Prop where
  facts : after.facts = pool.facts
  index : after.hashIdx = pool.hashIdx
  next : after.mapNextTx = pool.mapNextTx
  deltas : after.mapDeltas = pool.mapDeltas
  hashes : after.vTxHashes = pool.vTxHashes

namespace Adjusted

theorem trans {last} (first : Adjusted pool after) (second : Adjusted after last)
    : Adjusted pool last where
  facts := second.facts.trans first.facts
  index := second.index.trans first.index
  next := second.next.trans first.next
  deltas := second.deltas.trans first.deltas
  hashes := second.hashes.trans first.hashes

theorem mem (same : Adjusted pool after) : it ∈ after.mapTx ↔ it ∈ pool.mapTx := by
  rw [mem_iff_facts, mem_iff_facts, same.facts]

theorem own (same : Adjusted pool after) : after.own C = pool.own C := by
  funext it
  rw [TxMemPool.own, TxMemPool.own, same.facts]

theorem ownCost (same : Adjusted pool after) : after.ownCost C = pool.ownCost C := by
  funext it
  rw [TxMemPool.ownCost, TxMemPool.ownCost, same.facts]

end Adjusted

/-- Only totals of entries are different. -/
structure Retallied (pool after : TxMemPool) : Prop extends Adjusted pool after where
  links : after.mapLinks = pool.mapLinks

-- Loops of modifications

theorem modify_eq {change entry changed} (found : pool.mapTx.lookup it = some entry)
    (passes : change entry = some changed)
    : pool.modify it change = some { pool with mapTx := pool.mapTx.insert it changed } := by
  rw [modify, found, bind_some, passes, map_some]

/-- A loop of modifications that all pass modifies the entries of its list, by list induction. -/
theorem modifyEach_eq (change : TxMemPoolEntry → Option TxMemPoolEntry)
    (changed : TxMemPoolEntry → TxMemPoolEntry) (unique : its.Nodup)
    (passes : ∀ it ∈ its, ∃ entry, pool.mapTx.lookup it = some entry
      ∧ change entry = some (changed entry))
    : ∃ mapTx, pool.modifyEach its change = some { pool with mapTx }
      ∧ ∀ it, mapTx.lookup it
        = if it ∈ its then (pool.mapTx.lookup it).map changed else pool.mapTx.lookup it := by
  induction its generalizing pool with
  | nil => exact ⟨pool.mapTx, rfl, by simp⟩
  | cons first rest ih =>
    obtain ⟨absent, unique⟩ := List.nodup_cons.mp unique
    obtain ⟨entry, found, passed⟩ := passes first (.head _)
    have elsewhere {it : Uint256} (apart : it ≠ first)
        : (pool.mapTx.insert first (changed entry)).lookup it = pool.mapTx.lookup it :=
      AList.lookup_insert_ne apart
    obtain ⟨mapTx, ran, lookups⟩ :=
      @ih { pool with mapTx := pool.mapTx.insert first (changed entry) } unique (by
        intro it mem
        rw [elsewhere fun same => absent (same ▸ mem)]
        exact passes it (.tail _ mem))
    refine ⟨mapTx, ?_, fun it => ?_⟩
    · rw [modifyEach, List.foldlM_cons, modify_eq found passed]
      exact ran
    · rw [lookups]
      by_cases same : it = first
      · subst it
        rw [if_neg absent, if_pos (.head _), AList.lookup_insert, found, map_some]
      · simp only [List.mem_cons, same, false_or, elsewhere same]

/-- Entries whose facts are kept by a loop that modifies them. -/
theorem retallied_of_lookup {mapTx changed} (lookups : ∀ it, mapTx.lookup it
      = if it ∈ its then (pool.mapTx.lookup it).map changed else pool.mapTx.lookup it)
    (kept : ∀ entry, (changed entry).toEntryFacts = entry.toEntryFacts
      ∧ (changed entry).vTxHashesIdx = entry.vTxHashesIdx)
    : Retallied pool { pool with mapTx } := by
  refine ⟨⟨funext fun it => ?_, funext fun it => ?_, rfl, rfl, rfl⟩, rfl⟩
  · rw [TxMemPool.facts, TxMemPool.facts, lookups]
    split
    · rw [map_map]
      exact congrArg (fun f => Option.map f _) (funext fun entry => (kept entry).1)
    · rfl
  · rw [hashIdx, hashIdx, lookups]
    split
    · rw [map_map]
      exact congrArg (fun f => Option.map f _) (funext fun entry => (kept entry).2)
    · rfl

theorem totals_of_lookup {M : Type} [AddZeroClass M] {totals : TxMemPoolEntry → M} {step : M}
    {mapTx : AList (fun _ : Uint256 => TxMemPoolEntry)} {changed : TxMemPoolEntry → TxMemPoolEntry}
    (lookups : ∀ it, mapTx.lookup it
      = if it ∈ its then (pool.mapTx.lookup it).map changed else pool.mapTx.lookup it)
    (inside : ∀ it ∈ its, it ∈ pool.mapTx)
    (moved : ∀ entry, totals (changed entry) = totals entry + step) (it)
    : (mapTx.lookup it).elim 0 totals
      = (pool.mapTx.lookup it).elim 0 totals + if it ∈ its then step else 0 := by
  rw [lookups]
  split
  · rename_i mem
    obtain ⟨entry, found, -⟩ := lookup_of_mem (inside it mem)
    rw [found]
    exact moved entry
  · rw [add_zero]

/-- A loop of `update_descendant_state` adds to the totals of the entries of its list. -/
theorem modifyEach_below (count size fee) (unique : its.Nodup)
    (inside : ∀ it ∈ its, it ∈ pool.mapTx)
    (pos : ∀ it ∈ its, 0 < (pool.below it).1 + count ∧ 0 < (pool.below it).2.1 + size)
    : ∃ after, pool.modifyEach its (updateDescendantState size fee count) = some after
      ∧ Retallied pool after
      ∧ (∀ it, after.below it = pool.below it + if it ∈ its then (count, size, fee) else 0)
      ∧ after.above = pool.above := by
  let changed (entry : TxMemPoolEntry) : TxMemPoolEntry :=
    { entry with
      nSizeWithDescendants := entry.nSizeWithDescendants + size
      nModFeesWithDescendants := entry.nModFeesWithDescendants + fee
      nCountWithDescendants := entry.nCountWithDescendants + count }
  obtain ⟨mapTx, ran, lookups⟩ := modifyEach_eq
    (updateDescendantState size fee count) changed unique (by
      intro it mem
      obtain ⟨entry, found, -, below, -⟩ := lookup_of_mem (inside it mem)
      have asserted := pos it mem
      rw [below] at asserted
      exact ⟨entry, found, if_pos ⟨asserted.2, asserted.1⟩⟩)
  refine ⟨_, ran, retallied_of_lookup lookups fun _ => ⟨rfl, rfl⟩,
    totals_of_lookup lookups inside fun _ => rfl, funext fun it => ?_⟩
  rw [above, above, totals_of_lookup lookups inside fun _ => (add_zero _).symm, ite_self, add_zero]

/-- A loop of `update_ancestor_state` adds to the totals of the entries of its list, if the
signature operations fit into an `int`.
-/
theorem modifyEach_above (count size sigOps fee) (unique : its.Nodup)
    (inside : ∀ it ∈ its, it ∈ pool.mapTx)
    (pos : ∀ it ∈ its, 0 < (pool.above it).1.1 + count ∧ 0 < (pool.above it).1.2.1 + size)
    (fits : ∀ it ∈ its, toInt32 sigOps = sigOps
      ∧ 0 ≤ toInt32 ((pool.above it).2 + sigOps))
    : ∃ after,
        pool.modifyEach its (updateAncestorState size fee count sigOps) = some after
      ∧ Retallied pool after
      ∧ (∀ it, after.above it
          = pool.above it + if it ∈ its then ((count, size, fee), sigOps) else 0)
      ∧ after.below = pool.below := by
  let changed (entry : TxMemPoolEntry) : TxMemPoolEntry :=
    { entry with
      nSizeWithAncestors := entry.nSizeWithAncestors + size
      nModFeesWithAncestors := entry.nModFeesWithAncestors + fee
      nCountWithAncestors := entry.nCountWithAncestors + count
      nSigOpCostWithAncestors := entry.nSigOpCostWithAncestors + sigOps }
  obtain ⟨mapTx, ran, lookups⟩ := modifyEach_eq
    (updateAncestorState size fee count sigOps) changed unique (by
      intro it mem
      obtain ⟨entry, found, -, -, above⟩ := lookup_of_mem (inside it mem)
      have asserted := pos it mem
      obtain ⟨same, nonneg⟩ := fits it mem
      rw [above] at asserted nonneg
      refine ⟨entry, found, ?_⟩
      rw [updateAncestorState, same]
      exact if_pos ⟨asserted.2, asserted.1, nonneg⟩)
  refine ⟨_, ran, retallied_of_lookup lookups fun _ => ⟨rfl, rfl⟩,
    totals_of_lookup lookups inside fun _ => rfl, funext fun it => ?_⟩
  rw [below, below, totals_of_lookup lookups inside fun _ => (add_zero _).symm, ite_self, add_zero]

-- Totals as sums

def cost (pool : TxMemPool) (it : Uint256) : ℤ :=
  (pool.facts it).elim 0 (fun facts => facts.sigOpCost)

/-- The signature operations of all entries together fit into an `int`. -/
structure CostsFit (pool : TxMemPool) : Prop where
  nonneg : ∀ it, 0 ≤ pool.cost it
  bounded : ∑ it, pool.cost it < 2 ^ 31

/-- The totals are sums over what each entry has counted as its descendants and ancestors. -/
structure Counted (C : MempoolContext) (pool : TxMemPool)
    (descends ascends : Uint256 → Uint256 → Prop)
    : Prop where
  below : ∀ it ∈ pool.mapTx, pool.below it = tally (pool.own C) (descends it)
  above : ∀ it ∈ pool.mapTx, pool.above it = tally (pool.ownCost C) (ascends it)
  descendsSelf : ∀ it ∈ pool.mapTx, descends it it
  ascendsSelf : ∀ it ∈ pool.mapTx, ascends it it

variable {descends ascends relation : Uint256 → Uint256 → Prop} {P : Uint256 → Prop}

theorem own_nonneg (it) : 0 ≤ (pool.own C it).1 ∧ 0 ≤ (pool.own C it).2.1 := by
  rw [TxMemPool.own]
  cases pool.facts it with
  | none => exact ⟨le_rfl, le_rfl⟩
  | some facts => exact ⟨by simp [EntryFacts.own], (facts.getTxSize_pos C).le⟩

theorem own_pos (mem : it ∈ pool.mapTx) : 0 < (pool.own C it).1 ∧ 0 < (pool.own C it).2.1 := by
  obtain ⟨facts, found⟩ := mem_iff_facts.mp mem
  rw [TxMemPool.own, found]
  exact ⟨by simp [EntryFacts.own], facts.getTxSize_pos C⟩

theorem ownCost_eq (C) (pool : TxMemPool) (it)
    : pool.ownCost C it = (pool.own C it, pool.cost it) := by
  rw [ownCost, TxMemPool.own, cost]
  cases pool.facts it <;> rfl

theorem tally_own_pos (mem : it ∈ pool.mapTx) (counts : P it)
    : 0 < (tally (pool.own C) P).1 ∧ 0 < (tally (pool.own C) P).2.1 := by
  rw [tally_prod, tally_prod (fun other => (pool.own C other).2)]
  exact ⟨tally_pos (fun other => (own_nonneg other).1) counts (own_pos mem).1,
    tally_pos (fun other => (own_nonneg other).2) counts (own_pos mem).2⟩

theorem tally_ownCost (C) (pool : TxMemPool) (P : Uint256 → Prop)
    : tally (pool.ownCost C) P = (tally (pool.own C) P, tally pool.cost P) := by
  rw [tally_prod]
  simp only [ownCost_eq]

theorem CostsFit.tally (fit : CostsFit pool) (P : Uint256 → Prop)
    : 0 ≤ tally pool.cost P ∧ tally pool.cost P < 2 ^ 31 :=
  ⟨tally_nonneg fit.nonneg P, lt_of_le_of_lt (tally_le fit.nonneg P) fit.bounded⟩

theorem Adjusted.costsFit (same : Adjusted pool after) (fit : CostsFit pool) : CostsFit after := by
  have costs : after.cost = pool.cost := funext fun it => by rw [cost, cost, same.facts]
  exact ⟨costs ▸ fit.nonneg, costs ▸ fit.bounded⟩

theorem toInt32_of_fits {n} (least : -2 ^ 31 ≤ n) (most : n < 2 ^ 31) : toInt32 n = n := by
  rw [toInt32, Int.bmod_eq_of_le] <;> omega

section

variable (counted : Counted C pool descends ascends)

include counted

/-- Relations that agree on the entries count the same. -/
theorem Counted.congr {others back}
    (down : ∀ it ∈ pool.mapTx, ∀ other, others it other ↔ descends it other)
    (up : ∀ it ∈ pool.mapTx, ∀ other, back it other ↔ ascends it other)
    : Counted C pool others back where
  below it mem := by
    rw [counted.below it mem]
    exact tally_congr (fun _ _ => rfl) fun other => (down it mem other).symm
  above it mem := by
    rw [counted.above it mem]
    exact tally_congr (fun _ _ => rfl) fun other => (up it mem other).symm
  descendsSelf it mem := (down it mem it).mpr (counted.descendsSelf it mem)
  ascendsSelf it mem := (up it mem it).mpr (counted.ascendsSelf it mem)

theorem Counted.updateBelow {count size fee} (unique : its.Nodup)
    (inside : ∀ it ∈ its, it ∈ pool.mapTx) (gained : ∀ it ∈ its, tally (pool.own C) (relation it)
      = tally (pool.own C) (descends it) + (count, size, fee))
    (others : ∀ it ∈ pool.mapTx, it ∉ its → ∀ other, relation it other ↔ descends it other)
    (self : ∀ it ∈ its, relation it it)
    : ∃ after, pool.modifyEach its (updateDescendantState size fee count) = some after
      ∧ Retallied pool after ∧ Counted C after relation ascends := by
  obtain ⟨after, ran, same, belows, aboves⟩ := modifyEach_below count size fee unique
    inside (by
      intro it mem
      have pos := tally_own_pos (C := C) (inside it mem) (self it mem)
      rw [gained it mem, ← counted.below it (inside it mem)] at pos
      exact pos)
  refine ⟨after, ran, same, ?_⟩
  refine {
    below := fun it mem => ?_
    above := fun it mem => ?_
    descendsSelf := fun it mem => ?_
    ascendsSelf := fun it mem => counted.ascendsSelf it (same.mem.mp mem)
  }
  · rw [belows, same.own, counted.below it (same.mem.mp mem)]
    split
    · rename_i listed
      rw [gained it listed]
    rename_i unlisted
    rw [add_zero]
    exact tally_congr (fun _ _ => rfl) fun other =>
      (others it (same.mem.mp mem) unlisted other).symm
  · rw [aboves, same.ownCost, counted.above it (same.mem.mp mem)]
  · by_cases listed : it ∈ its
    · exact self it listed
    exact (others it (same.mem.mp mem) listed it).mpr
      (counted.descendsSelf it (same.mem.mp mem))

theorem Counted.updateAbove {count size sigOps fee} (fit : CostsFit pool) (unique : its.Nodup)
    (inside : ∀ it ∈ its, it ∈ pool.mapTx)
    (gained : ∀ it ∈ its, tally (pool.ownCost C) (relation it)
      = tally (pool.ownCost C) (ascends it) + ((count, size, fee), sigOps))
    (others : ∀ it ∈ pool.mapTx, it ∉ its → ∀ other, relation it other ↔ ascends it other)
    (self : ∀ it ∈ its, relation it it)
    : ∃ after,
        pool.modifyEach its (updateAncestorState size fee count sigOps) = some after
      ∧ Retallied pool after ∧ Counted C after descends relation := by
  obtain ⟨after, ran, same, aboves, belows⟩ := modifyEach_above count size sigOps fee
    unique inside (by
      intro it mem
      have pos := tally_own_pos (C := C) (inside it mem) (self it mem)
      have total := congrArg Prod.fst (gained it mem)
      rw [← counted.above it (inside it mem), tally_ownCost] at total
      dsimp only at total
      rw [total] at pos
      exact pos) (by
      intro it mem
      have total := congrArg Prod.snd (gained it mem)
      have before := fit.tally (ascends it)
      have later := fit.tally (relation it)
      rw [counted.above it (inside it mem)]
      rw [tally_ownCost, tally_ownCost] at total
      rw [tally_ownCost]
      dsimp only [Prod.snd_add] at total ⊢
      rw [← total, toInt32_of_fits (by omega) later.2]
      exact ⟨toInt32_of_fits (by omega) (by omega), later.1⟩)
  refine ⟨after, ran, same, ?_⟩
  refine {
    below := fun it mem => ?_
    above := fun it mem => ?_
    descendsSelf := fun it mem => counted.descendsSelf it (same.mem.mp mem)
    ascendsSelf := fun it mem => ?_
  }
  · rw [belows, same.own, counted.below it (same.mem.mp mem)]
  · rw [aboves, same.ownCost, counted.above it (same.mem.mp mem)]
    split
    · rename_i listed
      rw [gained it listed]
    rename_i unlisted
    rw [add_zero]
    exact tally_congr (fun _ _ => rfl) fun other =>
      (others it (same.mem.mp mem) unlisted other).symm
  · by_cases listed : it ∈ its
    · exact self it listed
    exact (others it (same.mem.mp mem) listed it).mpr
      (counted.ascendsSelf it (same.mem.mp mem))

end

-- One entry more, or less

variable {r : Uint256}

theorem own_of_facts (known : pool.facts r = some facts) : pool.own C r = facts.own C := by
  rw [TxMemPool.own, known]
  rfl

theorem ownCost_of_facts (known : pool.facts r = some facts)
    : pool.ownCost C r = (facts.own C, facts.sigOpCost) := by
  rw [ownCost, known]
  rfl

/-- The sum over a relation that has another entry, for some. -/
theorem tally_gain {M : Type} [AddCommGroup M] {weight : Uint256 → M} (listed : it ∈ its)
    (fresh : ¬ relation it r)
    : tally weight (fun other => relation it other ∨ (it ∈ its ∧ other = r))
      = tally weight (relation it) + weight r := by
  rw [← tally_insert fresh]
  exact tally_congr (fun _ _ => rfl) fun other => by simp [listed]

/-- The sum over a relation that lacks an entry, for some. -/
theorem tally_drop {M : Type} [AddCommGroup M] {weight : Uint256 → M} (listed : it ∈ its)
    (there : relation it r)
    : tally weight (fun other => relation it other ∧ ¬ (it ∈ its ∧ other = r))
      = tally weight (relation it) + -weight r := by
  rw [← tally_erase there, add_neg_cancel_right]
  exact tally_congr (fun _ _ => rfl) fun other => by simp [listed]

section

variable (counted : Counted C pool descends ascends) (known : pool.facts r = some facts)
  (unique : its.Nodup) (inside : ∀ it ∈ its, it ∈ pool.mapTx)

include counted known unique inside

theorem Counted.gainBelow (fresh : ∀ it ∈ its, ¬ descends it r)
    : ∃ after,
        pool.modifyEach its
          (updateDescendantState (facts.getTxSize C) facts.getModifiedFee 1)
          = some after
      ∧ Retallied pool after
      ∧ Counted C after (fun it other => descends it other ∨ (it ∈ its ∧ other = r)) ascends :=
  counted.updateBelow unique inside
    (fun it listed => by
      rw [tally_gain listed (fresh it listed), own_of_facts known]
      rfl)
    (fun it _ unlisted other => by simp [unlisted])
    (fun it listed => .inl (counted.descendsSelf it (inside it listed)))

theorem Counted.dropBelow (there : ∀ it ∈ its, descends it r ∧ it ≠ r)
    : ∃ after,
        pool.modifyEach its
          (updateDescendantState (-facts.getTxSize C) (-facts.getModifiedFee) (-1))
          = some after
      ∧ Retallied pool after
      ∧ Counted C after (fun it other => descends it other ∧ ¬ (it ∈ its ∧ other = r)) ascends :=
  counted.updateBelow unique inside
    (fun it listed => by
      rw [tally_drop listed (there it listed).1, own_of_facts known]
      rfl)
    (fun it _ unlisted other => by simp [unlisted])
    (fun it listed => ⟨counted.descendsSelf it (inside it listed),
      fun same => (there it listed).2 same.2⟩)

theorem Counted.dropAbove (fit : CostsFit pool) (there : ∀ it ∈ its, ascends it r ∧ it ≠ r)
    : ∃ after,
        pool.modifyEach its
          (updateAncestorState (-facts.getTxSize C) (-facts.getModifiedFee) (-1)
            (-facts.sigOpCost))
          = some after
      ∧ Retallied pool after
      ∧ Counted C after descends (fun it other => ascends it other ∧ ¬ (it ∈ its ∧ other = r)) :=
  counted.updateAbove fit unique inside
    (fun it listed => by
      rw [tally_drop listed (there it listed).1, ownCost_of_facts known]
      rfl)
    (fun it _ unlisted other => by simp [unlisted])
    (fun it listed => ⟨counted.ascendsSelf it (inside it listed),
      fun same => (there it listed).2 same.2⟩)

end

end TxMemPool

end Pqcoin
