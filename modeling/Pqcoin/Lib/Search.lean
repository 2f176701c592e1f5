import Mathlib.Data.List.Sort
import Mathlib.Logic.Relation

/-! Searches with a work list: ordered sets of keys, the loop that visits the least key and lists
its successors, and what it has visited in the end.
-/

namespace Search

open List Relation

variable {V R : Type*} [DecidableEq V] [LinearOrder R] (rank : V → R)

-- Ordered sets

def insertKey (key : V) (keys : List V) : List V :=
  if key ∈ keys then keys
  else keys.orderedInsert (fun first second => rank first ≤ rank second) key

def keySet (keys : List V) : List V := keys.foldl (fun set key => insertKey rank key set) []

variable {rank} {key other : V} {keys : List V}

@[simp] theorem mem_insertKey : other ∈ insertKey rank key keys ↔ other = key ∨ other ∈ keys := by
  rw [insertKey]
  split
  · rename_i present
    exact ⟨.inr, fun mem => mem.elim (fun same => same ▸ present) id⟩
  · rw [mem_orderedInsert]

theorem nodup_insertKey (unique : keys.Nodup) : (insertKey rank key keys).Nodup := by
  rw [insertKey]
  split
  · exact unique
  rename_i absent
  exact (perm_orderedInsert _ key keys).nodup_iff.mpr (nodup_cons.mpr ⟨absent, unique⟩)

theorem length_insertKey (absent : key ∉ keys)
    : (insertKey rank key keys).length = keys.length + 1 := by
  rw [insertKey, if_neg absent, orderedInsert_length]

theorem foldl_insertKey (start)
    : (∀ other, other ∈ keys.foldl (fun set key => insertKey rank key set) start
        ↔ other ∈ keys ∨ other ∈ start)
      ∧ (start.Nodup → (keys.foldl (fun set key => insertKey rank key set) start).Nodup) := by
  induction keys generalizing start with
  | nil => simp
  | cons key rest ih =>
    obtain ⟨members, unique⟩ := ih (insertKey rank key start)
    rw [foldl_cons]
    refine ⟨fun other => ?_, fun startUnique => unique (nodup_insertKey startUnique)⟩
    rw [members, mem_insertKey, mem_cons]
    tauto

@[simp] theorem mem_keySet : other ∈ keySet rank keys ↔ other ∈ keys := by
  rw [keySet, (foldl_insertKey []).1 other]
  simp

-- Ranges of ordered lists

section Ranges

variable {α : Type*} {before : α → Bool} {items : List α}

theorem dropWhile_eq_filter (ordered : items.Pairwise fun a b => before b = true → before a = true)
    : items.dropWhile before = items.filter (fun item => !before item) := by
  induction items with
  | nil => rfl
  | cons first rest ih =>
    obtain ⟨least, tail⟩ := pairwise_cons.mp ordered
    cases here : before first with
    | true => rw [dropWhile_cons_of_pos here, ih tail, filter_cons_of_neg (by simp [here])]
    | false =>
      rw [dropWhile_cons_of_neg (by simp [here]), filter_cons_of_pos (by simp [here]),
        filter_eq_self.mpr]
      intro item mem
      cases there : before item with
      | true => exact absurd (least item mem there) (by simp [here])
      | false => rfl

theorem takeWhile_eq_filter (ordered : items.Pairwise fun a b => before b = true → before a = true)
    : items.takeWhile before = items.filter before := by
  induction items with
  | nil => rfl
  | cons first rest ih =>
    obtain ⟨least, tail⟩ := pairwise_cons.mp ordered
    cases here : before first with
    | true => rw [takeWhile_cons_of_pos here, ih tail, filter_cons_of_pos here]
    | false =>
      rw [takeWhile_cons_of_neg (by simp [here]), eq_comm, filter_eq_nil_iff]
      intro item mem there
      rcases mem_cons.mp mem with rfl | later
      · exact absurd there (by simp [here])
      · exact absurd (least item later there) (by simp [here])

end Ranges

-- The loop

variable (rank) in
def stage (done successors todo : List V) : List V :=
  successors.foldl (fun todo key => if key ∈ done then todo else insertKey rank key todo) todo

variable (rank) in
/-- Visits the least key of the list until there is none. -/
def visitAll (next : V → List V) : ℕ → List V → List V → List V
  | 0, _, done => done
  | _ + 1, [], done => done
  | fuel + 1, key :: todo, done =>
    let done := insertKey rank key done
    visitAll next fuel (stage rank done (next key) todo) done

variable (rank) in
theorem stage_spec (done successors todo)
    : (∀ key, key ∈ stage rank done successors todo
        ↔ key ∈ todo ∨ (key ∈ successors ∧ key ∉ done))
      ∧ (todo.Nodup → (stage rank done successors todo).Nodup) := by
  induction successors generalizing todo with
  | nil => simp [stage]
  | cons first rest ih =>
    rw [stage, foldl_cons, ← stage]
    split
    · rename_i visited
      refine ⟨fun key => ?_, (ih todo).2⟩
      rw [(ih todo).1, mem_cons]
      have excluded : key = first → key ∈ done := fun same => same ▸ visited
      tauto
    · rename_i fresh
      refine ⟨fun key => ?_, fun unique => (ih _).2 (nodup_insertKey unique)⟩
      rw [(ih _).1, mem_insertKey, mem_cons]
      have listed : key = first → key ∉ done := fun same => same ▸ fresh
      tauto

/-- The keys that a loop has still to visit and those that it has visited: successors of visited
keys are listed at least, and the rounds suffice for all keys that there are.
-/
structure Frontier (next : V → List V) (vertices : List V) (fuel : ℕ) (todo done : List V)
    : Prop where
  listedOnce : todo.Nodup
  visitedOnce : done.Nodup
  apart : ∀ key ∈ todo, key ∉ done
  known : ∀ key, key ∈ done ∨ key ∈ todo → key ∈ vertices
  followed : ∀ key ∈ done, ∀ successor ∈ next key, successor ∈ done ∨ successor ∈ todo
  budget : vertices.length ≤ fuel + done.length

variable {next : V → List V} {vertices todo done : List V} {fuel : ℕ}

omit [DecidableEq V] in
/-- A listed key has not been visited, so a round is left for it. -/
theorem Frontier.fuel_pos (frontier : Frontier next vertices fuel (key :: todo) done)
    : 0 < fuel := by
  have unique : (key :: done).Nodup :=
    nodup_cons.mpr ⟨frontier.apart key (.head _), frontier.visitedOnce⟩
  have inside : key :: done ⊆ vertices := by
    intro other mem
    rcases mem_cons.mp mem with rfl | visited
    · exact frontier.known other (.inr (.head _))
    · exact frontier.known other (.inl visited)
  have bound := (subperm_of_subset unique inside).length_le
  have budget := frontier.budget
  rw [length_cons] at bound
  omega

variable (rank) in
theorem Frontier.visit (closed : ∀ key ∈ vertices, next key ⊆ vertices)
    (frontier : Frontier next vertices (fuel + 1) (key :: todo) done)
    : Frontier next vertices fuel
        (stage rank (insertKey rank key done) (next key) todo) (insertKey rank key done) := by
  obtain ⟨absent, unique⟩ := nodup_cons.mp frontier.listedOnce
  obtain ⟨members, stagedOnce⟩ := stage_spec rank (insertKey rank key done) (next key) todo
  have here := frontier.known key (.inr (.head _))
  refine {
    listedOnce := stagedOnce unique
    visitedOnce := nodup_insertKey frontier.visitedOnce
    apart := ?_
    known := ?_
    followed := ?_
    budget := ?_
  }
  · intro other mem
    rcases (members other).mp mem with before | ⟨-, fresh⟩
    · rw [mem_insertKey, not_or]
      exact ⟨fun same => absent (same ▸ before), frontier.apart other (.tail _ before)⟩
    · exact fresh
  · intro other mem
    rw [mem_insertKey, members] at mem
    rcases mem with (rfl | visited) | before | ⟨successor, -⟩
    · exact here
    · exact frontier.known other (.inl visited)
    · exact frontier.known other (.inr (.tail _ before))
    · exact closed key here successor
  · intro other visited successor mem
    rw [members, mem_insertKey] at *
    by_cases same : other = key
    · subst other
      tauto
    rcases frontier.followed other (visited.resolve_left same) successor mem with inside | listed
    · exact .inl (.inr inside)
    rcases mem_cons.mp listed with rfl | later
    · exact .inl (.inl rfl)
    · exact .inr (.inl later)
  · have budget := frontier.budget
    rw [length_insertKey (frontier.apart key (.head _))]
    omega

omit [DecidableEq V] in
theorem Frontier.exits (frontier : Frontier next vertices fuel todo done) (visited : key ∈ done)
    (path : ReflTransGen (fun first second => second ∈ next first) key other)
    : other ∈ done
      ∨ ∃ listed ∈ todo, ReflTransGen (fun first second => second ∈ next first) listed other := by
  induction path with
  | refl => exact .inl visited
  | tail path step ih =>
    rcases ih with inside | ⟨listed, mem, behind⟩
    · rcases frontier.followed _ inside _ step with inside | listed
      · exact .inl inside
      · exact .inr ⟨_, listed, .refl⟩
    · exact .inr ⟨listed, mem, behind.tail step⟩

/-- The loop visits what it has been given and what can be reached from the listed keys, by
induction on the rounds.
-/
theorem mem_visitAll (closed : ∀ key ∈ vertices, next key ⊆ vertices)
    (frontier : Frontier next vertices fuel todo done)
    : other ∈ visitAll rank next fuel todo done
      ↔ other ∈ done
        ∨ ∃ listed ∈ todo, ReflTransGen (fun first second => second ∈ next first) listed other := by
  induction fuel generalizing todo done with
  | zero =>
    cases todo with
    | nil => simp [visitAll]
    | cons key todo => exact absurd frontier.fuel_pos (by decide)
  | succ fuel ih =>
    cases todo with
    | nil => simp [visitAll]
    | cons key todo =>
      have later := frontier.visit rank closed
      have members := (stage_spec rank (insertKey rank key done) (next key) todo).1
      rw [visitAll, ih later]
      constructor
      · rintro (visited | ⟨listed, mem, path⟩)
        · rcases mem_insertKey.mp visited with rfl | before
          · exact .inr ⟨other, .head _, .refl⟩
          · exact .inl before
        · rcases (members listed).mp mem with before | ⟨successor, -⟩
          · exact .inr ⟨listed, .tail _ before, path⟩
          · exact .inr ⟨key, .head _, .head successor path⟩
      · rintro (visited | ⟨listed, mem, path⟩)
        · exact .inl (mem_insertKey.mpr (.inr visited))
        · rcases mem_cons.mp mem with rfl | before
          · exact later.exits (mem_insertKey.mpr (.inl rfl)) path
          · exact .inr ⟨listed, (members listed).mpr (.inl before), path⟩

theorem subset_visitAll : done ⊆ visitAll rank next fuel todo done := by
  induction fuel generalizing todo done with
  | zero => exact fun _ => id
  | succ fuel ih =>
    cases todo with
    | nil => exact fun _ => id
    | cons key todo => exact fun other mem => ih (mem_insertKey.mpr (.inr mem))

theorem nodup_visitAll (unique : done.Nodup) : (visitAll rank next fuel todo done).Nodup := by
  induction fuel generalizing todo done with
  | zero => exact unique
  | succ fuel ih =>
    cases todo with
    | nil => exact unique
    | cons key todo => exact ih (nodup_insertKey unique)

-- The loop with known results

variable (rank) in
/-- The successors of a key, where it is known for some what can be reached from them: that is
taken over, and the others are listed unless they have been found.
-/
def stageKnown (cache : V → Option (List V)) (successors : List V) (found todo : List V)
    : List V × List V :=
  successors.foldl
    (fun lists key =>
      match cache key with
      | some known => (known.foldl (fun found key => insertKey rank key found) lists.1, lists.2)
      | none => if key ∈ lists.1 then lists else (lists.1, insertKey rank key lists.2))
    (found, todo)

variable (rank) in
/-- Visits the least key of the list until there is none, with the results that are known. -/
def visitKnown (next : V → List V) (cache : V → Option (List V)) : ℕ → List V → List V → List V
  | 0, _, found => found
  | _ + 1, [], found => found
  | fuel + 1, key :: todo, found =>
    let lists := stageKnown rank cache (next key) (insertKey rank key found) todo
    visitKnown next cache fuel lists.2 lists.1

end Search
