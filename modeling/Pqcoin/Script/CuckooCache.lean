import Mathlib.Data.List.OfFn
import Mathlib.Tactic.Ring

/-! The cache of `cuckoocache.h` that remembers the checked signatures: what an insertion moves,
and what is found after it.
-/

namespace Pqcoin

open Function List

/-- The slots are the numbers below `size`. -/
structure CuckooCache (Element : Type) (size : Nat) where
  table : Fin size → Element
  collectionFlags : Fin size → Bool
  epochFlags : Fin size → Bool
  epochHeuristicCounter : Nat
  epochSize : Nat
  depthLimit : Nat

namespace CuckooCache

variable {Element : Type} {size : Nat}

/-- `depthLimit` is the logarithm of the size that is asked for, rounded down; the product of
`epoch_size` is one of 32 bits.
-/
def setup (null : Element) (depthLimit : Nat) : CuckooCache Element (2 ^ depthLimit) where
  table _ := null
  collectionFlags _ := true
  epochFlags _ := false
  epochHeuristicCounter := max 1 (45 * 2 ^ depthLimit % 2 ^ 32 / 100)
  epochSize := max 1 (45 * 2 ^ depthLimit % 2 ^ 32 / 100)
  depthLimit := depthLimit

def epochCheck (cache : CuckooCache Element size) : CuckooCache Element size :=
  if cache.epochHeuristicCounter ≠ 0 then
    { cache with epochHeuristicCounter := cache.epochHeuristicCounter - 1 }
  else
    let epochUnusedCount :=
      (finRange size).countP fun i => cache.epochFlags i && !cache.collectionFlags i
    if cache.epochSize ≤ epochUnusedCount then
      { cache with
        epochFlags := fun _ => false
        collectionFlags := fun i => cache.collectionFlags i || !cache.epochFlags i
        epochHeuristicCounter := cache.epochSize }
    else
      { cache with
        epochHeuristicCounter :=
          max 1 (max (cache.epochSize / 16) (cache.epochSize - epochUnusedCount)) }

/-- `please_keep`, with the epoch of the element. -/
def keep (cache : CuckooCache Element size) (loc : Fin size) (epoch : Bool)
    : CuckooCache Element size :=
  { cache with
    collectionFlags := update cache.collectionFlags loc false
    epochFlags := update cache.epochFlags loc epoch }

/-- The location behind the last one, or the second one where the last one is none of them. -/
def nextLoc (locs : Fin 8 → Fin size) (lastLoc : Option (Fin size)) : Fin size :=
  locs (Fin.ofNat 8 (1 + ((ofFn locs).map some).idxOf lastLoc))

variable (computeHashes : Element → Fin 8 → Fin size)

def insertLoop
    : Nat → Element → Option (Fin size) → Bool → CuckooCache Element size
      → CuckooCache Element size
  | 0, _, _, _, cache => cache
  | depth + 1, e, lastLoc, lastEpoch, cache =>
    match (ofFn (computeHashes e)).find? cache.collectionFlags with
    | some loc => { cache.keep loc lastEpoch with table := update cache.table loc e }
    | none =>
      let loc := nextLoc (computeHashes e) lastLoc
      insertLoop depth (cache.table loc) (some loc) (cache.epochFlags loc)
        { cache with
          table := update cache.table loc e
          epochFlags := update cache.epochFlags loc lastEpoch }

variable [DecidableEq Element]

def locate (cache : CuckooCache Element size) (e : Element) : Option (Fin size) :=
  (ofFn (computeHashes e)).find? fun loc => cache.table loc = e

def insert (cache : CuckooCache Element size) (e : Element) : CuckooCache Element size :=
  match cache.epochCheck.locate computeHashes e with
  | some loc => cache.epochCheck.keep loc true
  | none => insertLoop computeHashes cache.depthLimit e none true cache.epochCheck

def contains (cache : CuckooCache Element size) (e : Element) (erase : Bool)
    : CuckooCache Element size × Bool :=
  match cache.locate computeHashes e with
  | some loc =>
    (if erase then { cache with collectionFlags := update cache.collectionFlags loc true }
      else cache,
      true)
  | none => (cache, false)

inductive Call (Element : Type) where
  | insert (e : Element)
  | contains (e : Element) (erase : Bool)

def perform (cache : CuckooCache Element size) : Call Element → CuckooCache Element size
  | .insert e => cache.insert computeHashes e
  | .contains e erase => (cache.contains computeHashes e erase).1

variable {computeHashes} {cache : CuckooCache Element size} {e x : Element}

/-- The element is in one of its locations, and not marked collectable there. -/
def Live (computeHashes : Element → Fin 8 → Fin size) (cache : CuckooCache Element size)
    (x : Element)
    : Prop :=
  ∃ i, cache.table (computeHashes x i) = x ∧ cache.collectionFlags (computeHashes x i) = false

theorem contains_iff {erase}
    : (cache.contains computeHashes x erase).2 = true
      ↔ ∃ i, cache.table (computeHashes x i) = x := by
  have found : (cache.locate computeHashes x).isSome
      ↔ ∃ i, cache.table (computeHashes x i) = x := by
    simp only [locate, find?_isSome, mem_ofFn, exists_exists_eq_and, decide_eq_true_eq]
  rw [← found, contains]
  cases cache.locate computeHashes x <;> simp

omit [DecidableEq Element] in
/-- What is live or in hand is found in the end, but for the element in hand after the last
round, by induction on the rounds.
-/
theorem insertLoop_spec {depth lastLoc lastEpoch}
    : ∃ dropped : Option Element, ∀ x, x = e ∨ Live computeHashes cache x → some x ≠ dropped
      → ∃ i, (insertLoop computeHashes depth e lastLoc lastEpoch cache).table (computeHashes x i)
        = x := by
  induction depth generalizing e lastLoc lastEpoch cache with
  | zero =>
    refine ⟨some e, fun x held kept => ?_⟩
    obtain ⟨i, found, -⟩ := held.resolve_left fun same => kept (same ▸ rfl)
    exact ⟨i, found⟩
  | succ depth ih =>
    rw [insertLoop]
    split
    · rename_i loc free
      obtain ⟨j, rfl⟩ := mem_ofFn.mp (mem_of_find?_eq_some free)
      refine ⟨none, fun x held _ => ?_⟩
      rcases held with rfl | ⟨i, found, unmarked⟩
      · exact ⟨j, update_self ..⟩
      · refine ⟨i, (update_of_ne (fun same => ?_) ..).trans found⟩
        have marked := find?_some free
        rw [← same, unmarked] at marked
        cases marked
    · rename_i full
      obtain ⟨dropped, spec⟩ := ih
      refine ⟨dropped, fun x held kept => spec x ?_ kept⟩
      rcases held with rfl | ⟨i, found, unmarked⟩
      · refine .inr ⟨_, update_self .., Bool.eq_false_iff.mpr ?_⟩
        exact find?_eq_none.mp full _ (mem_ofFn.mpr ⟨_, rfl⟩)
      · by_cases same : computeHashes x i = nextLoc (computeHashes e) lastLoc
        · exact .inl (found.symm.trans (congrArg cache.table same))
        · exact .inr ⟨i, (update_of_ne same ..).trans found, unmarked⟩

omit [DecidableEq Element] in
/-- The table holds what was in it or in hand. -/
theorem forall_insertLoop {P : Element → Prop} {depth lastLoc lastEpoch} (hand : P e)
    (held : ∀ i, P (cache.table i)) (i : Fin size)
    : P ((insertLoop computeHashes depth e lastLoc lastEpoch cache).table i) := by
  have put (loc) : ∀ i, P (update cache.table loc e i) :=
    (forall_update_iff _ fun _ => P).mpr ⟨hand, fun i _ => held i⟩
  induction depth generalizing e lastLoc lastEpoch cache with
  | zero => exact held i
  | succ depth ih =>
    rw [insertLoop]
    split
    · exact put _ i
    · refine ih (held _) (put _) fun loc => ?_
      exact (forall_update_iff _ fun _ => P).mpr ⟨held _, fun i _ => put _ i⟩

omit [DecidableEq Element] in
theorem table_epochCheck : cache.epochCheck.table = cache.table := by
  simp only [epochCheck]
  split
  · rfl
  · split <;> rfl

theorem table_contains {erase} : (cache.contains computeHashes e erase).1.table = cache.table := by
  rw [contains]
  split
  · split <;> rfl
  · rfl

theorem forall_insert {P : Element → Prop} (new : P e) (held : ∀ i, P (cache.table i))
    (i : Fin size)
    : P ((cache.insert computeHashes e).table i) := by
  rw [← table_epochCheck] at held
  rw [insert]
  split
  · exact held i
  · exact forall_insertLoop new held i

theorem forall_performs {P : Element → Prop} (calls : List (Call Element))
    (inserted : ∀ e, .insert e ∈ calls → P e) (held : ∀ i, P (cache.table i)) (i : Fin size)
    : P ((calls.foldl (perform computeHashes) cache).table i) := by
  induction calls generalizing cache with
  | nil => exact held i
  | cons call rest ih =>
    refine ih (fun e later => inserted e (mem_cons_of_mem _ later)) ?_
    cases call with
    | insert e => exact forall_insert (inserted e mem_cons_self) held
    | contains e erase =>
      rw [perform, table_contains]
      exact held

/-- After an insertion every live element is found but for one at most, and so is the new one; in
every run only what was inserted is found, and the element of the empty slots.
-/
theorem insert_drops_one
    : (∀ size computeHashes (cache : CuckooCache Element size) e,
        ∃ dropped : Option Element, ∀ x, x = e ∨ Live computeHashes cache.epochCheck x
          → some x ≠ dropped
          → ((cache.insert computeHashes e).contains computeHashes x false).2 = true)
      ∧ ∀ null depthLimit computeHashes (calls : List (Call Element)) x erase,
        ((calls.foldl (perform computeHashes) (setup null depthLimit)).contains computeHashes x
          erase).2 = true
        → x = null ∨ Call.insert x ∈ calls := by
  refine ⟨fun size computeHashes cache e => ?_,
    fun null depthLimit computeHashes calls x erase found => ?_⟩
  · simp only [contains_iff, insert]
    split
    · rename_i loc located
      refine ⟨none, fun x held _ => ?_⟩
      rcases held with rfl | ⟨i, found, -⟩
      · obtain ⟨i, rfl⟩ := mem_ofFn.mp (mem_of_find?_eq_some located)
        have found := find?_some located
        exact ⟨i, of_decide_eq_true found⟩
      · exact ⟨i, found⟩
    · exact insertLoop_spec
  · obtain ⟨i, found⟩ := contains_iff.mp found
    rw [← found]
    exact forall_performs (P := fun x => x = null ∨ Call.insert x ∈ calls) calls (fun _ => .inr)
      (fun _ => .inl rfl) _

end CuckooCache

end Pqcoin
