import Pqcoin.Mempool.Tallies

/-! The links between the entries of the memory pool as a relation, and the walks along them: the
descendants and ancestors that the pool computes are those of the relation.
-/

namespace Pqcoin

open List Reach Relation Search

namespace TxMemPool

variable {C : MempoolContext} {pool after : TxMemPool} {it other : Uint256} {its : List Uint256}
  {edge : Uint256 → Uint256 → Prop}

-- Links

def Lists (sets : Uint256 → List Uint256) (relation : Uint256 → Uint256 → Prop) : Prop :=
  ∀ it, (sets it).Nodup ∧ ∀ other, other ∈ sets it ↔ relation it other

/-- The links of entries to their children are those of a relation. -/
def ChildrenAre (pool : TxMemPool) (edge : Uint256 → Uint256 → Prop) : Prop :=
  Lists pool.getMemPoolChildren edge

/-- The links of entries to their parents are those of a relation. -/
def ParentsAre (pool : TxMemPool) (edge : Uint256 → Uint256 → Prop) : Prop :=
  Lists pool.getMemPoolParents (fun child parent => edge parent child)

def Within (pool : TxMemPool) (edge : Uint256 → Uint256 → Prop) : Prop :=
  ∀ parent child, edge parent child → parent ∈ pool.mapTx ∧ child ∈ pool.mapTx

def Relinked (pool after : TxMemPool) : Prop := after = { pool with mapLinks := after.mapLinks }

theorem Relinked.trans {last} (first : Relinked pool after) (second : Relinked after last)
    : Relinked pool last := by
  rw [Relinked] at *
  rw [second, first]

theorem Lists.congr {sets relation same} (lists : Lists sets relation)
    (iff : ∀ it other, same it other ↔ relation it other)
    : Lists sets same :=
  fun it => ⟨(lists it).1, fun other => ((lists it).2 other).trans (iff it other).symm⟩

theorem ChildrenAre.mem {parent child} (children : pool.ChildrenAre edge)
    : child ∈ pool.getMemPoolChildren parent ↔ edge parent child := (children parent).2 child

theorem ParentsAre.mem {parent child} (parents : pool.ParentsAre edge)
    : parent ∈ pool.getMemPoolParents child ↔ edge parent child := (parents child).2 parent

/-- An insertion into a set, or an erasure, adds a pair to the relation or takes it away. -/
theorem Lists.update {sets relation} (lists : Lists sets relation) (entry mem) (add)
    : Lists (fun it => if it = entry then updateSet (sets entry) mem add else sets it)
        (fun it other => if it = entry ∧ other = mem then add = true else relation it other) := by
  intro it
  dsimp only
  by_cases same : it = entry
  · subst it
    rw [if_pos rfl, updateSet]
    cases add with
    | true =>
      rw [if_pos rfl]
      refine ⟨nodup_insertKey (lists entry).1, fun other => ?_⟩
      rw [mem_insertKey, (lists entry).2]
      split <;> simp_all
    | false =>
      rw [if_neg (by simp)]
      refine ⟨(lists entry).1.filter _, fun other => ?_⟩
      rw [mem_filter, (lists entry).2]
      split <;> simp_all
  · rw [if_neg same]
    simpa [same] using lists it

theorem getMemPoolChildren_updateChild (pool : TxMemPool) (entry child add)
    : (pool.updateChild entry child add).getMemPoolChildren
        = (fun it => if it = entry then updateSet (pool.getMemPoolChildren entry) child add
            else pool.getMemPoolChildren it)
      ∧ (pool.updateChild entry child add).getMemPoolParents = pool.getMemPoolParents := by
  constructor <;> funext it <;>
    by_cases same : it = entry <;>
      simp [getMemPoolChildren, getMemPoolParents, updateChild, setLinks, same]

theorem getMemPoolParents_updateParent (pool : TxMemPool) (entry parent add)
    : (pool.updateParent entry parent add).getMemPoolParents
        = (fun it => if it = entry then updateSet (pool.getMemPoolParents entry) parent add
            else pool.getMemPoolParents it)
      ∧ (pool.updateParent entry parent add).getMemPoolChildren = pool.getMemPoolChildren := by
  constructor <;> funext it <;>
    by_cases same : it = entry <;>
      simp [getMemPoolChildren, getMemPoolParents, updateParent, setLinks, same]

theorem foldl_updateChild (pairs : List (Uint256 × Uint256)) (add)
    (children : pool.ChildrenAre edge)
    : let after := pairs.foldl (fun pool pair => pool.updateChild pair.1 pair.2 add) pool
      Relinked pool after ∧ after.getMemPoolParents = pool.getMemPoolParents
        ∧ after.ChildrenAre
            (fun parent child =>
              if (parent, child) ∈ pairs then add = true else edge parent child) := by
  induction pairs generalizing pool edge with
  | nil => exact ⟨rfl, rfl, by simpa using children⟩
  | cons pair rest ih =>
    obtain ⟨updated, untouched⟩ := getMemPoolChildren_updateChild pool pair.1 pair.2 add
    have step := children.update pair.1 pair.2 add
    rw [← updated] at step
    obtain ⟨relinked, parents, later⟩ := ih step
    have here : Relinked pool (pool.updateChild pair.1 pair.2 add) := rfl
    refine ⟨here.trans relinked, parents.trans untouched, later.congr ?_⟩
    intro parent child
    by_cases listed : (parent, child) ∈ rest
    · simp [listed]
    · simp [listed, Prod.ext_iff]

theorem foldl_updateParent (pairs : List (Uint256 × Uint256)) (add) (parents : pool.ParentsAre edge)
    : let after := pairs.foldl (fun pool pair => pool.updateParent pair.2 pair.1 add) pool
      Relinked pool after ∧ after.getMemPoolChildren = pool.getMemPoolChildren
        ∧ after.ParentsAre
            (fun parent child =>
              if (parent, child) ∈ pairs then add = true else edge parent child) := by
  induction pairs generalizing pool edge with
  | nil => exact ⟨rfl, rfl, by simpa using parents⟩
  | cons pair rest ih =>
    obtain ⟨updated, untouched⟩ := getMemPoolParents_updateParent pool pair.2 pair.1 add
    have step : (pool.updateParent pair.2 pair.1 add).ParentsAre
        (fun parent child => if child = pair.2 ∧ parent = pair.1 then add = true
          else edge parent child) := by
      have lists := parents.update pair.2 pair.1 add
      rw [← updated] at lists
      exact lists
    obtain ⟨relinked, children, later⟩ := ih step
    have here : Relinked pool (pool.updateParent pair.2 pair.1 add) := rfl
    refine ⟨here.trans relinked, children.trans untouched, later.congr ?_⟩
    intro child parent
    by_cases listed : (parent, child) ∈ rest
    · simp [listed]
    · simp [listed, Prod.ext_iff, and_comm]

-- Descendants

theorem calculateDescendants_spec {found} (children : pool.ChildrenAre edge)
    (within : pool.Within edge) (mem : it ∈ pool.mapTx) (unique : found.Nodup)
    (inside : ∀ key ∈ found, key ∈ pool.mapTx)
    (closed : ∀ key ∈ found, ∀ child, edge key child → child ∈ found)
    : (pool.calculateDescendants it found).Nodup
      ∧ ∀ other, other ∈ pool.calculateDescendants it found
        ↔ other ∈ found ∨ ReflTransGen edge it other := by
  refine ⟨nodup_visitAll unique, fun other => ?_⟩
  have successors : (fun parent child => child ∈ pool.getMemPoolChildren parent) = edge :=
    funext fun parent => funext fun child => propext children.mem
  have stays : ∀ key ∈ pool.mapTx.keys, pool.getMemPoolChildren key ⊆ pool.mapTx.keys :=
    fun key _ child linked => AList.mem_keys.mp (within key child (children.mem.mp linked)).2
  have frontier : Frontier pool.getMemPoolChildren pool.mapTx.keys pool.mapTx.keys.length
      (if it ∈ found then [] else [it]) found := by
    refine {
      listedOnce := ?_
      visitedOnce := unique
      apart := ?_
      known := ?_
      followed := fun key there child linked =>
        .inl (closed key there child (children.mem.mp linked))
      budget := Nat.le_add_right ..
    }
    · split <;> simp
    · split <;> simp_all
    · intro key
      rintro (there | listed)
      · exact AList.mem_keys.mp (inside key there)
      · split at listed
        · simp at listed
        rw [mem_singleton.mp listed]
        exact AList.mem_keys.mp mem
  rw [calculateDescendants, mem_visitAll stays frontier, successors]
  split
  · rename_i there
    have reached (path : ReflTransGen edge it other) : other ∈ found :=
      mem_of_reach (· ∈ found) (fun key child here step => closed key here child step) there path
    simp only [not_mem_nil, false_and, exists_false, or_false]
    exact ⟨.inl, fun either => either.elim id reached⟩
  · simp

/-- The descendants of the entries of a set, by induction over the set. -/
theorem calculateAllDescendants_spec (children : pool.ChildrenAre edge) (within : pool.Within edge)
    (inside : ∀ it ∈ its, it ∈ pool.mapTx)
    : (pool.calculateAllDescendants its).Nodup
      ∧ ∀ other, other ∈ pool.calculateAllDescendants its
        ↔ ∃ it ∈ its, ReflTransGen edge it other := by
  have staysInside {key child} (path : ReflTransGen edge key child)
      (there : key ∈ pool.mapTx) : child ∈ pool.mapTx :=
    mem_of_reach (· ∈ pool.mapTx) (fun _ _ _ step => (within _ _ step).2) there path
  have loop (found) (unique : found.Nodup)
      (known : ∀ key ∈ found, key ∈ pool.mapTx)
      (closed : ∀ key ∈ found, ∀ child, edge key child → child ∈ found)
      : (its.foldl (fun found it => pool.calculateDescendants it found) found).Nodup
        ∧ ∀ other, other ∈ its.foldl (fun found it => pool.calculateDescendants it found) found
          ↔ other ∈ found ∨ ∃ it ∈ its, ReflTransGen edge it other := by
    induction its generalizing found with
    | nil => exact ⟨unique, by simp⟩
    | cons first rest ih =>
      rw [forall_mem_cons] at inside
      obtain ⟨once, members⟩ :=
        calculateDescendants_spec children within inside.1 unique known closed
      obtain ⟨unique, all⟩ := ih inside.2 (pool.calculateDescendants first found) once (by
        intro key there
        rcases (members key).mp there with before | path
        · exact known key before
        · exact staysInside path inside.1) (by
        intro key there child step
        rw [members] at there ⊢
        exact there.imp (fun before => closed key before child step) (fun path => path.tail step))
      refine ⟨unique, fun other => ?_⟩
      rw [foldl_cons, all, members, exists_mem_cons_iff, or_assoc]
  obtain ⟨unique, all⟩ := loop [] nodup_nil (by simp) (by simp)
  exact ⟨unique, fun other => (all other).trans (by simp)⟩

/-- Whatever the links are, an entry is collected with its descendants. -/
theorem mem_calculateDescendants (mem : it ∈ pool.mapTx) (found)
    : it ∈ pool.calculateDescendants it found ∧ found ⊆ pool.calculateDescendants it found := by
  refine ⟨?_, subset_visitAll⟩
  rw [calculateDescendants]
  split
  · rename_i there
    exact subset_visitAll there
  obtain ⟨fuel, length⟩ := Nat.exists_eq_add_one_of_ne_zero
    (length_pos_of_mem (AList.mem_keys.mp mem)).ne'
  rw [length, visitAll]
  exact subset_visitAll (mem_insertKey.mpr (.inl rfl))

theorem mem_calculateAllDescendants (inside : ∀ it ∈ its, it ∈ pool.mapTx) (mem : it ∈ its)
    : it ∈ pool.calculateAllDescendants its := by
  have loop (found)
      : found ⊆ its.foldl (fun found it => pool.calculateDescendants it found) found
        ∧ its ⊆ its.foldl (fun found it => pool.calculateDescendants it found) found := by
    clear mem
    induction its generalizing found with
    | nil => simp
    | cons first rest ih =>
      rw [forall_mem_cons] at inside
      obtain ⟨here, kept⟩ := mem_calculateDescendants inside.1 found
      obtain ⟨before, later⟩ := ih inside.2 (pool.calculateDescendants first found)
      rw [foldl_cons]
      exact ⟨fun other listed => before (kept listed), cons_subset.mpr ⟨before here, later⟩⟩
  exact (loop []).2 mem

-- Ancestors

variable {limits : ChainLimits} {nTxSize total : Int} {fuel : Nat} {todo done set : List Uint256}

theorem exceeds_noLimit (n) : exceeds n (2 ^ 64 - 1) = false := by
  have bound := Int.emod_lt_of_pos n (show (0 : Int) < 2 ^ 64 by decide)
  rw [exceeds, decide_eq_false_iff_not]
  omega

/-- A loop over parents that stays within the limits stages them. -/
theorem stage_of_stageParents {parents} (ran : stageParents limits done parents todo = .ok set)
    : set = stage hashRank done parents todo := by
  induction parents generalizing todo with
  | nil =>
    cases ran
    rfl
  | cons parent rest ih =>
    rw [stageParents] at ran
    dsimp only at ran
    rw [stage, foldl_cons, ← stage]
    generalize (if parent ∈ done then todo else insertKey hashRank parent todo) = staged at ran ⊢
    split at ran
    · cases ran
    · exact ih ran

theorem stageParents_noLimit (done parents todo)
    : ∃ set, stageParents noLimit done parents todo = .ok set := by
  induction parents generalizing todo with
  | nil => exact ⟨todo, rfl⟩
  | cons parent rest ih =>
    rw [stageParents, noLimit]
    dsimp only
    rw [exceeds_noLimit, if_neg (by simp)]
    exact ih _

theorem visitAll_of_ancestorLoop
    (ran : ancestorLoop C pool limits nTxSize fuel todo done total = some (.ok set))
    : set = visitAll hashRank pool.getMemPoolParents fuel todo done := by
  induction fuel generalizing todo done total with
  | zero =>
    cases ran
    rfl
  | succ fuel ih =>
    cases todo with
    | nil =>
      cases ran
      rfl
    | cons stageit todo =>
      rw [ancestorLoop] at ran
      split at ran
      · cases ran
      dsimp only at ran
      split at ran
      · cases ran
      split at ran
      · cases ran
      rename_i staged
      rw [ih ran, stage_of_stageParents staged, visitAll]

theorem exists_ancestorLoop (inside : ∀ key ∈ todo, key ∈ pool.mapTx)
    (stays : ∀ key, ∀ parent ∈ pool.getMemPoolParents key, parent ∈ pool.mapTx)
    : ∃ result, ancestorLoop C pool limits nTxSize fuel todo done total = some result
      ∧ (limits = noLimit → ∃ set, result = .ok set) := by
  induction fuel generalizing todo done total with
  | zero => exact ⟨_, rfl, fun _ => ⟨done, rfl⟩⟩
  | succ fuel ih =>
    cases todo with
    | nil => exact ⟨_, rfl, fun _ => ⟨done, rfl⟩⟩
    | cons stageit todo =>
      rw [forall_mem_cons] at inside
      obtain ⟨entry, found, -⟩ := lookup_of_mem inside.1
      rw [ancestorLoop, found]
      dsimp only
      split
      · rename_i failed
        refine ⟨_, rfl, ?_⟩
        rintro rfl
        rw [checkAncestor, noLimit] at failed
        dsimp only at failed
        rw [exceeds_noLimit, exceeds_noLimit, exceeds_noLimit] at failed
        cases failed
      split
      · rename_i failed
        refine ⟨_, rfl, ?_⟩
        rintro rfl
        obtain ⟨set, ran⟩ := stageParents_noLimit _ (pool.getMemPoolParents stageit) todo
        cases failed.symm.trans ran
      rename_i staged ran
      refine ih fun key mem => ?_
      rw [stage_of_stageParents ran, (stage_spec _ _ _ _).1] at mem
      exact mem.elim (inside.2 key) fun linked => stays stageit key linked.1

/-- What the loop visits from a set of entries are they and their ancestors. -/
theorem mem_visitAll_parents (parents : pool.ParentsAre edge) (within : pool.Within edge)
    (unique : todo.Nodup) (inside : ∀ key ∈ todo, key ∈ pool.mapTx)
    : other ∈ visitAll hashRank pool.getMemPoolParents pool.mapTx.keys.length todo []
      ↔ ∃ key ∈ todo, ReflTransGen edge other key := by
  have predecessors : (fun child parent => parent ∈ pool.getMemPoolParents child)
      = Function.swap edge :=
    funext fun child => funext fun parent => propext parents.mem
  have stays : ∀ key ∈ pool.mapTx.keys, pool.getMemPoolParents key ⊆ pool.mapTx.keys :=
    fun key _ parent linked => AList.mem_keys.mp (within parent key (parents.mem.mp linked)).1
  have frontier : Frontier pool.getMemPoolParents pool.mapTx.keys pool.mapTx.keys.length
      todo [] := {
    listedOnce := unique
    visitedOnce := nodup_nil
    apart := by simp
    known := by simpa [AList.mem_keys] using inside
    followed := by simp
    budget := Nat.le_add_right ..
  }
  rw [mem_visitAll stays frontier, predecessors]
  simp only [not_mem_nil, false_or, reflTransGen_swap]

theorem calculateLinkedAncestors_spec (parents : pool.ParentsAre edge) (within : pool.Within edge)
    (mem : it ∈ pool.mapTx)
    : ∃ set, pool.calculateLinkedAncestors C it = some set ∧ set.Nodup
      ∧ ∀ other, other ∈ set ↔ TransGen edge other it := by
  have linked (key parent) (here : parent ∈ pool.getMemPoolParents key)
      : parent ∈ pool.mapTx := (within parent key (parents.mem.mp here)).1
  obtain ⟨entry, found, -⟩ := lookup_of_mem mem
  obtain ⟨result, ran, ends⟩ := exists_ancestorLoop (linked it) linked
  obtain ⟨set, rfl⟩ := ends rfl
  have visited := visitAll_of_ancestorLoop ran
  refine ⟨set, ?_, ?_, fun other => ?_⟩
  · rw [calculateLinkedAncestors, found, Option.bind_some, ran]
    rfl
  · rw [visited]
    exact nodup_visitAll nodup_nil
  · rw [visited, mem_visitAll_parents parents within (parents it).1 (linked it), TransGen.tail'_iff]
    constructor
    · rintro ⟨parent, here, path⟩
      exact ⟨parent, path, parents.mem.mp here⟩
    · rintro ⟨parent, path, step⟩
      exact ⟨parent, parents.mem.mpr step, path⟩

end TxMemPool

end Pqcoin
