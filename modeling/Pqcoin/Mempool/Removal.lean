import Pqcoin.Mempool.Links
import Pqcoin.Mempool.RelayIndex

/-! `RemoveStaged`: the bookkeeping of the memory pool stays right when entries leave it together
with all their descendants, or with all their ancestors and an update of their descendants.
-/

namespace Pqcoin

open List Reach Relation Search

namespace TxMemPool

variable {C : MempoolContext} {pool after : TxMemPool} {it other : Uint256} {its : List Uint256}
  {edge descends ascends : Uint256 → Uint256 → Prop} {gone : Uint256 → Prop}

-- The bookkeeping

def SpendsOut (pool : TxMemPool) (it : Uint256) (out : OutPoint) : Prop :=
  ∃ facts, pool.facts it = some facts ∧ ∃ txin ∈ facts.tx.vin, txin.prevout = out

/-- The bookkeeping of the pool is right for the links that it has, which are those of a relation
without cycles.
-/
structure Booked (C : MempoolContext) (pool : TxMemPool) (edge : Uint256 → Uint256 → Prop)
    : Prop where
  children : pool.ChildrenAre edge
  parents : pool.ParentsAre edge
  within : pool.Within edge
  acyclic : Acyclic edge
  counted : Counted C pool (ReflTransGen edge) (fun it other => ReflTransGen edge other it)
  next : ∀ out it, pool.mapNextTx.lookup out = some it ↔ pool.SpendsOut it out
  indexed : Indexed C pool

/-- The costs fit as well, which updates of totals need. -/
structure Coherent (C : MempoolContext) (pool : TxMemPool) (edge : Uint256 → Uint256 → Prop) : Prop
    extends Booked C pool edge where
  costs : CostsFit pool

theorem Within.mem_of_reach (within : pool.Within edge) (mem : it ∈ pool.mapTx)
    (path : ReflTransGen edge it other)
    : other ∈ pool.mapTx :=
  Reach.mem_of_reach (· ∈ pool.mapTx) (fun _ _ _ step => (within _ _ step).2) mem path

theorem Within.mem_of_back (within : pool.Within edge) (path : TransGen edge other it)
    : other ∈ pool.mapTx := by
  obtain ⟨next, step, -⟩ := TransGen.head'_iff.mp path
  exact (within other next step).1

theorem Adjusted.within (same : Adjusted pool after) (within : pool.Within edge)
    : after.Within edge :=
  fun parent child step => ⟨same.mem.mpr (within parent child step).1,
    same.mem.mpr (within parent child step).2⟩

theorem Relinked.adjusted (same : Relinked pool after) : Adjusted pool after := by
  rw [Relinked] at same
  rw [same]
  exact ⟨rfl, rfl, rfl, rfl, rfl⟩

theorem Relinked.counted (same : Relinked pool after) (counted : Counted C pool descends ascends)
    : Counted C after descends ascends := by
  rw [Relinked] at same
  rw [same]
  exact ⟨counted.below, counted.above, counted.descendsSelf, counted.ascendsSelf⟩

theorem Retallied.children (same : Retallied pool after) (children : pool.ChildrenAre edge)
    : after.ChildrenAre edge := by
  rw [ChildrenAre, show after.getMemPoolChildren = pool.getMemPoolChildren from
    funext fun it => by rw [getMemPoolChildren, getMemPoolChildren, same.links]]
  exact children

theorem Retallied.parents (same : Retallied pool after) (parents : pool.ParentsAre edge)
    : after.ParentsAre edge := by
  rw [ParentsAre, show after.getMemPoolParents = pool.getMemPoolParents from
    funext fun it => by rw [getMemPoolParents, getMemPoolParents, same.links]]
  exact parents

-- Totals

/-- What each entry counts when some entries are left out, except of their own totals. -/
def without (relation : Uint256 → Uint256 → Prop) (gone : Uint256 → Prop) (it other : Uint256)
    : Prop :=
  relation it other ∧ (other = it ∨ ¬ gone other)

/-- One more entry is left out where it was counted. -/
theorem without_or {r} (mem : ∀ it, it ∈ its ↔ descends it r ∧ it ≠ r)
    : without descends (fun other => gone other ∨ other = r) it other
      ↔ without descends gone it other ∧ ¬ (it ∈ its ∧ other = r) := by
  rw [without, without, mem]
  by_cases here : other = r
  · subst other
    by_cases self : it = r
    · simp [self]
    have apart : r ≠ it := fun equal => self equal.symm
    simp only [apart, self, or_true, not_true, or_false, and_false, false_or, false_iff, and_true,
      ne_eq, not_false_eq_true]
    tauto
  · simp [here]

/-- The first loop of `UpdateForRemoveFromMempool` takes the entries from the totals of their
descendants, by list induction.
-/
theorem updateDescendants_spec (children : pool.ChildrenAre edge) (within : pool.Within edge)
    (fit : CostsFit pool) (unique : its.Nodup) (inside : ∀ it ∈ its, it ∈ pool.mapTx)
    (apart : ∀ it ∈ its, ¬ gone it)
    (counted : Counted C pool descends (without (fun it other => ReflTransGen edge other it) gone))
    : ∃ after, its.foldlM (updateDescendantsForRemoval C) pool = some after ∧ Retallied pool after
      ∧ Counted C after descends
          (without (fun it other => ReflTransGen edge other it)
            (fun other => gone other ∨ other ∈ its)) := by
  induction its generalizing pool gone with
  | nil => exact ⟨pool, rfl, ⟨⟨rfl, rfl, rfl, rfl, rfl⟩, rfl⟩, by simpa using counted⟩
  | cons first rest ih =>
    obtain ⟨absent, unique⟩ := nodup_cons.mp unique
    rw [forall_mem_cons] at inside apart
    obtain ⟨entry, found, known, -⟩ := lookup_of_mem inside.1
    obtain ⟨once, members⟩ := calculateDescendants_spec children within inside.1 nodup_nil
      (by simp) (by simp)
    have mem (it) : it ∈ (pool.calculateDescendants first []).filter (· ≠ first)
        ↔ ReflTransGen edge first it ∧ it ≠ first := by
      rw [mem_filter, members]
      simp
    obtain ⟨middle, ran, same, dropped⟩ := counted.dropAbove known (once.filter _)
      (fun it listed => within.mem_of_reach inside.1 ((mem it).mp listed).1) fit
      (fun it listed => ⟨⟨((mem it).mp listed).1, .inr apart.1⟩, ((mem it).mp listed).2⟩)
    have others : ∀ it ∈ rest, ¬ (gone it ∨ it = first) := fun it member =>
      not_or.mpr ⟨apart.2 it member, fun equal => absent (equal ▸ member)⟩
    obtain ⟨after, rest, retallied, final⟩ := ih (same.children children) (same.within within)
      (same.costsFit fit) unique (fun it member => same.mem.mpr (inside.2 it member)) others
      (dropped.congr (fun _ _ _ => Iff.rfl) fun it _ other => without_or mem)
    refine ⟨after, ?_, ⟨same.toAdjusted.trans retallied.toAdjusted,
      retallied.links.trans same.links⟩, final.congr (fun _ _ _ => Iff.rfl) ?_⟩
    · rw [foldlM_cons, updateDescendantsForRemoval, found, Option.bind_some]
      exact Option.bind_eq_some_iff.mpr ⟨middle, ran, rest⟩
    · intro it _ other
      simp only [without, mem_cons, or_assoc]

section Ancestors

variable (parents : pool.ParentsAre edge)
  (children : pool.ChildrenAre (fun parent child => edge parent child ∧ ¬ gone child))
  (within : pool.Within edge) (acyclic : Acyclic edge)
  (counted : Counted C pool (without (ReflTransGen edge) gone) ascends)

include parents children within acyclic counted

theorem updateAncestorsForRemoval_spec (member : it ∈ pool.mapTx) (apart : ¬ gone it)
    : ∃ after, pool.updateAncestorsForRemoval C it = some after ∧ Adjusted pool after
      ∧ after.ParentsAre edge
      ∧ after.ChildrenAre (fun parent child => edge parent child ∧ ¬ (gone child ∨ child = it))
      ∧ Counted C after (without (ReflTransGen edge) (fun other => gone other ∨ other = it))
          ascends := by
  obtain ⟨entry, found, known, -⟩ := lookup_of_mem member
  obtain ⟨set, ancestors, unique, mem⟩ := calculateLinkedAncestors_spec
    (C := C) parents within member
  have members (other) : other ∈ set ↔ ReflTransGen edge other it ∧ other ≠ it := by
    rw [mem]
    constructor
    · intro path
      exact ⟨path.to_reflTransGen, fun same => acyclic it (same ▸ path)⟩
    · rintro ⟨path, apart⟩
      exact (reflTransGen_iff_eq_or_transGen.mp path).resolve_left fun same => apart same.symm
  obtain ⟨relinked, parents', children'⟩ := foldl_updateChild
    ((pool.getMemPoolParents it).map (·, it)) false children
  rw [foldl_map] at relinked parents' children'
  obtain ⟨after, ran, same, dropped⟩ := (relinked.counted counted).dropBelow
    (relinked.adjusted.facts ▸ known) unique
    (fun other listed => relinked.adjusted.mem.mpr (within.mem_of_back ((mem other).mp listed)))
    (fun other listed => ⟨⟨((members other).mp listed).1, .inr apart⟩,
      ((members other).mp listed).2⟩)
  refine ⟨after, ?_, relinked.adjusted.trans same.toAdjusted, same.parents ?_,
    same.children (children'.congr ?_), dropped.congr (fun _ _ _ => without_or members)
      fun _ _ _ => Iff.rfl⟩
  · rw [updateAncestorsForRemoval, ancestors, Option.bind_some, updateAncestorsOf, found,
      Option.bind_some]
    dsimp only
    rw [if_neg (by simp), if_neg (by simp), neg_one_mul]
    exact ran
  · rw [ParentsAre, parents']
    exact parents
  · intro parent child
    have listed : (parent, child) ∈ (pool.getMemPoolParents it).map (·, it)
        ↔ edge parent it ∧ child = it := by
      rw [← parents.mem]
      simp [eq_comm]
    split
    · rename_i cleared
      simp [(listed.mp cleared).2]
    rename_i kept
    refine and_congr_right fun linked => not_congr ⟨fun either => ?_, .inl⟩
    rcases either with before | rfl
    · exact before
    · exact absurd (listed.mpr ⟨linked, rfl⟩) kept

/-- The second loop takes the entries from the totals of their ancestors, by list induction. -/
theorem updateAncestors_spec (unique : its.Nodup)
    (inside : ∀ it ∈ its, it ∈ pool.mapTx) (apart : ∀ it ∈ its, ¬ gone it)
    : ∃ after, its.foldlM (updateAncestorsForRemoval C) pool = some after ∧ Adjusted pool after
      ∧ after.ParentsAre edge
      ∧ after.ChildrenAre (fun parent child => edge parent child ∧ ¬ (gone child ∨ child ∈ its))
      ∧ Counted C after (without (ReflTransGen edge) (fun other => gone other ∨ other ∈ its))
          ascends := by
  induction its generalizing pool gone with
  | nil => exact ⟨pool, rfl, ⟨rfl, rfl, rfl, rfl, rfl⟩, parents, by simpa using children,
      by simpa using counted⟩
  | cons first rest ih =>
    obtain ⟨absent, unique⟩ := nodup_cons.mp unique
    rw [forall_mem_cons] at inside apart
    obtain ⟨middle, ran, same, parents, children, counted⟩ :=
      updateAncestorsForRemoval_spec parents children within acyclic counted inside.1 apart.1
    have others : ∀ it ∈ rest, ¬ (gone it ∨ it = first) := fun it mem =>
      not_or.mpr ⟨apart.2 it mem, fun equal => absent (equal ▸ mem)⟩
    obtain ⟨after, rest, adjusted, parents, children, counted⟩ := ih parents children
      (same.within within) counted unique (fun it mem => same.mem.mpr (inside.2 it mem))
      others
    refine ⟨after, ?_, same.trans adjusted, parents, children.congr ?_,
      counted.congr ?_ (fun _ _ _ => Iff.rfl)⟩
    · rw [foldlM_cons]
      exact Option.bind_eq_some_iff.mpr ⟨middle, ran, rest⟩
    · intro parent child
      simp only [mem_cons, or_assoc]
    · intro it _ other
      simp only [without, mem_cons, or_assoc]

end Ancestors

-- Links

/-- The last loop of `UpdateForRemoveFromMempool` takes the entries from the parents of the
children that they still have.
-/
theorem updateChildren_spec {links} (its : List Uint256)
    (children : pool.ChildrenAre links) (parents : pool.ParentsAre edge)
    : let after := its.foldl updateChildrenForRemoval pool
      Relinked pool after ∧ after.ChildrenAre links
        ∧ after.ParentsAre
          (fun parent child => edge parent child ∧ ¬ (parent ∈ its ∧ links parent child)) := by
  induction its generalizing pool edge with
  | nil => exact ⟨rfl, children, by simpa using parents⟩
  | cons first rest ih =>
    obtain ⟨relinked, same, parents⟩ := foldl_updateParent
      ((pool.getMemPoolChildren first).map (first, ·)) false parents
    rw [foldl_map] at relinked same parents
    have step : (pool.updateChildrenForRemoval first).ChildrenAre links := by
      rw [ChildrenAre, show (pool.updateChildrenForRemoval first).getMemPoolChildren
        = pool.getMemPoolChildren from same]
      exact children
    obtain ⟨later, children', parents⟩ := ih step parents
    refine ⟨relinked.trans later, children', parents.congr ?_⟩
    intro child parent
    have listed : (parent, child) ∈ (pool.getMemPoolChildren first).map (first, ·)
        ↔ parent = first ∧ links parent child := by
      rw [mem_map]
      constructor
      · rintro ⟨other, mem, same⟩
        cases same
        exact ⟨rfl, children.mem.mp mem⟩
      · rintro ⟨rfl, linked⟩
        exact ⟨child, children.mem.mpr linked, rfl⟩
    dsimp only
    split
    · rename_i cleared
      have linked := listed.mp cleared
      simp [linked.1, linked.1 ▸ linked.2]
    rename_i kept
    have free : ¬ (parent = first ∧ links parent child) := fun both => kept (listed.mpr both)
    rw [mem_cons]
    tauto

-- Entries

/-- What is left of the pool when some entries have been removed. -/
structure Reduced (pool after : TxMemPool) (its : List Uint256) : Prop where
  facts : ∀ other, after.facts other = if other ∈ its then none else pool.facts other
  below : ∀ other, other ∉ its → after.below other = pool.below other
  above : ∀ other, other ∉ its → after.above other = pool.above other
  links : ∀ other, after.mapLinks other = if other ∈ its then {} else pool.mapLinks other
  next : ∀ out other, after.mapNextTx.lookup out = some other
    ↔ pool.mapNextTx.lookup out = some other ∧ ¬ ∃ it ∈ its, pool.SpendsOut it out
  deltas : after.mapDeltas = pool.mapDeltas

theorem spendsOut_iff {facts} {out} (known : pool.facts it = some facts)
    : pool.SpendsOut it out ↔ ∃ txin ∈ facts.tx.vin, txin.prevout = out := by
  rw [SpendsOut, known]
  simp

theorem removeEach_spec (indexed : Indexed C pool) (unique : its.Nodup)
    (inside : ∀ it ∈ its, it ∈ pool.mapTx)
    : ∃ after, its.foldlM removeUnchecked pool = some after ∧ Indexed C after
      ∧ Reduced pool after its := by
  induction its generalizing pool with
  | nil => exact ⟨pool, rfl, indexed, by simp, by simp, by simp, by simp, by simp, rfl⟩
  | cons first rest ih =>
    obtain ⟨absent, unique⟩ := nodup_cons.mp unique
    rw [forall_mem_cons] at inside
    obtain ⟨facts, known⟩ := mem_iff_facts.mp inside.1
    obtain ⟨middle, ran, indexed, removed⟩ := indexed.removeUnchecked known
    have elsewhere {it} (mem : it ∈ rest) : middle.facts it = pool.facts it := by
      have apart : it ≠ first := fun same => absent (same ▸ mem)
      rw [removed.facts, if_neg apart]
    obtain ⟨after, later, indexed, reduced⟩ := ih indexed unique (by
      intro it mem
      rw [mem_iff_facts, elsewhere mem, ← mem_iff_facts]
      exact inside.2 it mem)
    refine ⟨after, ?_, indexed, ?_⟩
    · rw [foldlM_cons]
      exact Option.bind_eq_some_iff.mpr ⟨middle, ran, later⟩
    · refine {
        facts := fun other => ?_
        below := fun other unlisted => ?_
        above := fun other unlisted => ?_
        links := fun other => ?_
        next := fun out other => ?_
        deltas := reduced.deltas.trans removed.deltas
      }
      · simp only [reduced.facts, removed.facts, mem_cons]
        split_ifs <;> simp_all
      · rw [mem_cons, not_or] at unlisted
        rw [reduced.below other unlisted.2, removed.below other unlisted.1]
      · rw [mem_cons, not_or] at unlisted
        rw [reduced.above other unlisted.2, removed.above other unlisted.1]
      · simp only [reduced.links, removed.links, mem_cons]
        split_ifs <;> simp_all
      · have spends : (∃ it ∈ rest, middle.SpendsOut it out)
          ↔ ∃ it ∈ rest, pool.SpendsOut it out := by
          refine exists_congr fun it => and_congr_right fun mem => ?_
          rw [SpendsOut, SpendsOut, elsewhere mem]
        rw [reduced.next, removed.next, spends, exists_mem_cons_iff, spendsOut_iff known, not_or]
        split
        · rename_i here
          simp [here]
        · rename_i here
          simp [here]

section

variable (reduced : Reduced pool after its)

include reduced

/-- An entry that has left spends nothing. -/
theorem Reduced.spendsOut {out} : after.SpendsOut it out ↔ pool.SpendsOut it out ∧ it ∉ its := by
  rw [SpendsOut, SpendsOut, reduced.facts]
  split <;> simp_all

theorem Reduced.mem : it ∈ after.mapTx ↔ it ∈ pool.mapTx ∧ it ∉ its := by
  rw [mem_iff_facts, mem_iff_facts, reduced.facts]
  split <;> simp_all

theorem Reduced.own (kept : it ∉ its)
    : after.own C it = pool.own C it ∧ after.ownCost C it = pool.ownCost C it := by
  rw [TxMemPool.own, TxMemPool.ownCost, reduced.facts, if_neg kept]
  exact ⟨rfl, rfl⟩

end

theorem CostsFit.off (fit : CostsFit pool)
    (left : ∀ it, after.facts it = if it ∈ its then none else pool.facts it)
    : CostsFit after := by
  have less (it) : 0 ≤ after.cost it ∧ after.cost it ≤ pool.cost it := by
    rw [cost, left]
    split
    · exact ⟨le_rfl, fit.nonneg it⟩
    · exact ⟨fit.nonneg it, le_rfl⟩
  exact ⟨fun it => (less it).1,
    lt_of_le_of_lt (Finset.sum_le_sum fun it _ => (less it).2) fit.bounded⟩

-- RemoveStaged

variable {stage : List Uint256} {updateDescendants : Bool}

section

variable (booked : Booked C pool edge) (unique : stage.Nodup)
  (inside : ∀ it ∈ stage, it ∈ pool.mapTx) (fit : updateDescendants = true → CostsFit pool)

include booked unique inside fit

theorem Booked.updateForRemove
    : ∃ after, pool.updateForRemoveFromMempool C stage updateDescendants = some after
      ∧ Adjusted pool after
      ∧ after.ChildrenAre (fun parent child => edge parent child ∧ child ∉ stage)
      ∧ after.ParentsAre
          (fun parent child => edge parent child
            ∧ ¬ (parent ∈ stage ∧ edge parent child ∧ child ∉ stage))
      ∧ Counted C after (without (ReflTransGen edge) (· ∈ stage))
          (without (fun it other => ReflTransGen edge other it)
            (fun other => updateDescendants = true ∧ other ∈ stage)) := by
  have nothing : Counted C pool (without (ReflTransGen edge) (fun _ => False))
      (without (fun it other => ReflTransGen edge other it) (fun _ => False)) :=
    booked.counted.congr (by simp [without]) (by simp [without])
  obtain ⟨first, ran, retallied, counted⟩ : ∃ first,
      (if updateDescendants then stage.foldlM (updateDescendantsForRemoval C) pool else some pool)
        = some first
      ∧ Retallied pool first
      ∧ Counted C first (without (ReflTransGen edge) (fun _ => False))
          (without (fun it other => ReflTransGen edge other it)
            (fun other => updateDescendants = true ∧ other ∈ stage)) := by
    cases updateDescendants with
    | true =>
      obtain ⟨first, ran, same, counted⟩ := updateDescendants_spec booked.children booked.within
        (fit rfl) unique inside (fun _ _ => id) nothing
      exact ⟨first, ran, same, counted.congr (fun _ _ _ => Iff.rfl) (by simp [without])⟩
    | false =>
      exact ⟨pool, rfl, ⟨⟨rfl, rfl, rfl, rfl, rfl⟩, rfl⟩,
        nothing.congr (fun _ _ _ => Iff.rfl) (by simp [without])⟩
  obtain ⟨second, followed, adjusted, parents, children, counted⟩ := updateAncestors_spec
    (retallied.parents booked.parents)
    ((retallied.children booked.children).congr (by simp)) (retallied.within booked.within)
    booked.acyclic counted unique (fun it mem => retallied.mem.mpr (inside it mem))
    (fun _ _ => id)
  simp only [false_or] at children counted
  obtain ⟨relinked, children, parents⟩ := updateChildren_spec stage children parents
  refine ⟨_, ?_, (retallied.toAdjusted.trans adjusted).trans relinked.adjusted, children, parents,
    relinked.counted counted⟩
  rw [updateForRemoveFromMempool, ran, Option.bind_some, followed, Option.map_some]

/-- Entries leave the pool with all their descendants, or with all their ancestors while their
descendants are updated: the bookkeeping is right for the links of the others.
-/
theorem Booked.removeStaged
    (closed : (∀ parent child, parent ∈ stage → edge parent child → child ∈ stage)
      ∨ (updateDescendants = true
        ∧ ∀ parent child, child ∈ stage → edge parent child → parent ∈ stage))
    : ∃ after, pool.removeStaged C stage updateDescendants = some after
      ∧ Booked C after (off edge (· ∈ stage))
      ∧ (∀ it, after.facts it = if it ∈ stage then none else pool.facts it)
      ∧ after.mapDeltas = pool.mapDeltas := by
  obtain ⟨middle, updated, adjusted, children, parents, counted⟩ :=
    booked.updateForRemove unique inside fit
  obtain ⟨after, removed, indexed, reduced⟩ := removeEach_spec (adjusted.indexed booked.indexed)
    unique fun it mem => adjusted.mem.mpr (inside it mem)
  have separated := closed.imp_right And.right
  refine ⟨after, ?_, ?_, ?_, reduced.deltas.trans adjusted.deltas⟩
  · rw [TxMemPool.removeStaged, updated, Option.bind_some, removed]
  · refine {
      children := fun parent => ?_
      parents := fun child => ?_
      within := ?_
      acyclic := acyclic_mono (fun _ _ step => step.1) booked.acyclic
      counted := ?_
      next := fun out it => ?_
      indexed := indexed
    }
    · rw [getMemPoolChildren, reduced.links]
      split
      · rename_i gone
        simp [off, gone]
      rename_i kept
      refine ⟨(children parent).1, fun child => (children.mem).trans ?_⟩
      simp [off, kept]
    · rw [getMemPoolParents, reduced.links]
      split
      · rename_i gone
        simp [off, gone]
      rename_i kept
      refine ⟨(parents child).1, fun parent => (parents.mem).trans ?_⟩
      simp only [off, kept, not_false_eq_true, and_true]
      tauto
    · intro parent child step
      have before := booked.within parent child step.1
      rw [reduced.mem, reduced.mem, adjusted.mem, adjusted.mem]
      exact ⟨⟨before.1, step.2.1⟩, before.2, step.2.2⟩
    · refine {
        below := fun it mem => ?_
        above := fun it mem => ?_
        descendsSelf := fun _ _ => .refl
        ascendsSelf := fun _ _ => .refl
      }
      · obtain ⟨before, kept⟩ := reduced.mem.mp mem
        rw [reduced.below it kept, counted.below it before]
        refine tally_congr (fun other counts => ?_) fun other => ?_
        · have stays : other ∉ stage := counts.2.elim (fun same => same ▸ kept) id
          exact (reduced.own stays).1.symm
        · rw [reach_off_left separated kept, without]
          refine and_congr_right fun _ => ⟨fun either => ?_, .inr⟩
          exact either.elim (fun same => same ▸ kept) id
      · obtain ⟨before, kept⟩ := reduced.mem.mp mem
        rw [reduced.above it kept, counted.above it before]
        have stays (other)
            (counts : without (fun it other => ReflTransGen edge other it)
              (fun other => updateDescendants = true ∧ other ∈ stage) it other)
            : other ∉ stage := by
          rcases closed with forward | ⟨flag, -⟩
          · exact fun gone => kept (Reach.mem_of_reach (· ∈ stage) forward gone counts.1)
          · exact counts.2.elim (fun same => same ▸ kept) fun other gone => other ⟨flag, gone⟩
        refine tally_congr (fun other counts => (reduced.own (stays other counts)).2.symm)
          fun other => ?_
        rw [reach_off_right separated kept]
        exact ⟨fun counts => ⟨counts.1, stays other counts⟩,
          fun path => ⟨path.1, .inr fun gone => path.2 gone.2⟩⟩
    · have spends (it) (out) : middle.SpendsOut it out ↔ pool.SpendsOut it out := by
        rw [SpendsOut, SpendsOut, adjusted.facts]
      simp only [reduced.next, adjusted.next, booked.next, reduced.spendsOut, spends]
      refine and_congr_right fun here => ⟨fun none gone => none ⟨it, gone, here⟩, ?_⟩
      rintro kept ⟨other, gone, there⟩
      have same := ((booked.next out it).mpr here).symm.trans
        ((booked.next out other).mpr there)
      exact kept (Option.some.inj same ▸ gone)
  · intro it
    rw [reduced.facts, adjusted.facts]

end

end TxMemPool

end Pqcoin
