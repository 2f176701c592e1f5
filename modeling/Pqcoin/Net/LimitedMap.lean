import Mathlib.Data.List.AList
import Mathlib.Data.List.Sort

/-! The container of `limitedmap.h`: its two maps, and which element makes room for a new one. -/

namespace Pqcoin

open AList List

/-- The elements of `rmap` stand in the order of their values, with keys for the iterators. -/
structure LimitedMap (K V : Type) where
  map : AList fun _ : K => V
  rmap : List (V × K)
  nMaxSize : Nat

namespace LimitedMap

variable {K V : Type} [DecidableEq K] [LinearOrder V]

/-- A multimap puts an element behind those of its value. -/
def enter (m : LimitedMap K V) (k : K) (v : V) : LimitedMap K V :=
  { m with rmap := m.rmap.orderedInsert (fun a b => a.1 < b.1) (v, k) }

/-- An empty map has no first element. -/
def discardFirst (m : LimitedMap K V) : Option (LimitedMap K V) :=
  match m.rmap with
  | [] => none
  | first :: rest => some { m with map := m.map.erase first.2, rmap := rest }

def insert (m : LimitedMap K V) (k : K) (v : V) : Option (LimitedMap K V) :=
  if k ∈ m.map then some m
  else
    (if (m.map.insert k v).keys.length > m.nMaxSize then
      discardFirst { m with map := m.map.insert k v }
    else some { m with map := m.map.insert k v }).map (·.enter k v)

/-- What `erase` and `update` do first: the reverse element goes, or the loop ends at
`assert(0)`.
-/
def unlink (m : LimitedMap K V) (k : K) (relink : LimitedMap K V → LimitedMap K V)
    : Option (LimitedMap K V) :=
  match m.map.lookup k with
  | none => some m
  | some old =>
    if (old, k) ∈ m.rmap then
      some (relink { m with map := m.map.erase k, rmap := m.rmap.erase (old, k) })
    else none

def erase (m : LimitedMap K V) (k : K) : Option (LimitedMap K V) := m.unlink k id

def update (m : LimitedMap K V) (k : K) (v : V) : Option (LimitedMap K V) :=
  m.unlink k fun m => { m with map := m.map.insert k v }.enter k v

/-- The loop of `max_size` takes an element of `rmap` in each round. -/
def shrink (s : Nat) : Nat → LimitedMap K V → Option (LimitedMap K V)
  | 0, m => some m
  | rounds + 1, m =>
    if m.map.keys.length > s then m.discardFirst.bind (shrink s rounds) else some m

inductive Call (K V : Type) where
  | insert (k : K) (v : V)
  | erase (k : K)
  | update (k : K) (v : V)
  | maxSize (s : Nat)

def perform (m : LimitedMap K V) : Call K V → Option (LimitedMap K V)
  | .insert k v => m.insert k v
  | .erase k => m.erase k
  | .update k v => m.update k v
  | .maxSize s =>
    if s > 0 then (shrink s (m.rmap.length + 1) m).map ({ · with nMaxSize := s }) else none

/-- The constructor and the calls after it; `none` is a failed assertion. -/
def run (nMaxSizeIn : Nat) (calls : List (Call K V)) : Option (LimitedMap K V) :=
  if nMaxSizeIn > 0 then calls.foldlM perform ⟨∅, [], nMaxSizeIn⟩ else none

/-- Both maps describe the same pairs, and the reverse one begins with the smallest value. -/
structure Matched (m : LimitedMap K V) : Prop where
  same : ∀ k v, m.map.lookup k = some v ↔ (v, k) ∈ m.rmap
  once : m.rmap.Nodup
  sorted : m.rmap.Pairwise (·.1 ≤ ·.1)
  positive : 0 < m.nMaxSize

variable {m : LimitedMap K V} {k : K} {v : V}

omit [DecidableEq K] in
theorem sorted_orderedInsert {x} {rmap : List (V × K)} (sorted : rmap.Pairwise (·.1 ≤ ·.1))
    : (rmap.orderedInsert (fun a b => a.1 < b.1) x).Pairwise (·.1 ≤ ·.1) := by
  induction sorted with
  | nil => exact pairwise_singleton ..
  | @cons y rest below sorted ih =>
    rw [orderedInsert_cons]
    split
    · rename_i less
      refine (sorted.cons below).cons ?_
      rw [forall_mem_cons]
      exact ⟨less.le, fun z mem => less.le.trans (below z mem)⟩
    · rename_i above
      refine ih.cons fun z mem => ?_
      rcases (mem_orderedInsert ..).mp mem with rfl | later
      · exact not_lt.mp above
      · exact below z later

theorem Matched.add (matched : Matched m) (new : k ∉ m.map)
    : Matched ({ m with map := m.map.insert k v }.enter k v) := by
  have perm := perm_orderedInsert (fun a b : V × K => a.1 < b.1) (v, k) m.rmap
  have absent (w) : (w, k) ∉ m.rmap := by
    rw [← matched.same, lookup_eq_none.mpr new]
    exact nofun
  refine ⟨fun other w => ?_, perm.nodup_iff.mpr (matched.once.cons (absent v)),
    sorted_orderedInsert matched.sorted, matched.positive⟩
  rw [enter, perm.mem_iff, mem_cons]
  by_cases here : other = k
  · subst here
    rw [lookup_insert, or_iff_left (absent w)]
    simp [eq_comm]
  · rw [lookup_insert_ne here, matched.same]
    simp [here]

theorem Matched.remove (matched : Matched m) (found : m.map.lookup k = some v)
    : Matched { m with map := m.map.erase k, rmap := m.rmap.erase (v, k) } where
  same other w := by
    rw [matched.once.mem_erase_iff, ← matched.same]
    by_cases here : other = k
    · subst here
      rw [lookup_erase, found]
      simp [eq_comm]
    · rw [lookup_erase_ne here]
      simp [here]
  once := matched.once.erase _
  sorted := matched.sorted.sublist erase_sublist
  positive := matched.positive

theorem Matched.first (matched : Matched m) (nonempty : 0 < m.map.keys.length)
    : ∃ gone w rest, m.rmap = (w, gone) :: rest ∧ m.map.lookup gone = some w
      ∧ (∀ k v, m.map.lookup k = some v → w ≤ v)
      ∧ Matched { m with map := m.map.erase gone, rmap := rest } := by
  obtain ⟨k, present⟩ := exists_mem_of_length_pos nonempty
  obtain ⟨v, found⟩ := Option.isSome_iff_exists.mp (lookup_isSome.mpr present)
  obtain ⟨⟨w, gone⟩, rest, begins⟩ :=
    exists_cons_of_ne_nil (ne_nil_of_mem ((matched.same k v).mp found))
  have first : m.map.lookup gone = some w := (matched.same ..).mpr (begins ▸ mem_cons_self)
  have removed := matched.remove first
  have sorted := matched.sorted
  rw [begins, erase_cons_head] at removed
  rw [begins, pairwise_cons] at sorted
  refine ⟨gone, w, rest, begins, first, fun k v found => ?_, removed⟩
  rcases mem_cons.mp (begins ▸ (matched.same k v).mp found) with same | later
  · exact (congrArg Prod.fst same).ge
  · exact sorted.1 _ later

/-- A full map discards the first element of the reverse map, where the new one is not yet. -/
theorem Matched.insert_full (matched : Matched m) (new : k ∉ m.map)
    (full : m.nMaxSize ≤ m.map.keys.length)
    : ∃ gone w after, m.map.lookup gone = some w ∧ (∀ k v, m.map.lookup k = some v → w ≤ v)
      ∧ m.insert k v = some after ∧ Matched after ∧ after.map = (m.map.insert k v).erase gone := by
  obtain ⟨gone, w, rest, begins, first, least, discarded⟩ :=
    matched.first (matched.positive.trans_le full)
  have apart : k ≠ gone := by
    rintro rfl
    exact new (lookup_isSome.mp (first ▸ rfl))
  have moved : (m.map.insert k v).erase gone = (m.map.erase gone).insert k v := by
    have later : k ∉ m.map.erase gone := fun present => new (mem_erase.mp present).2
    rw [insert_of_notMem new, insert_of_notMem later]
    exact AList.ext (kerase_cons_ne apart.symm)
  have larger : (m.map.insert k v).keys.length > m.nMaxSize := by
    rw [keys_insert, erase_of_not_mem new]
    exact Nat.lt_succ_of_le full
  refine ⟨gone, w, _, first, least, ?_, discarded.add (v := v) fun present => ?_, moved.symm⟩
  · rw [LimitedMap.insert, if_neg new, if_pos larger, discardFirst]
    simp only [begins, moved]
    rfl
  · exact new (mem_erase.mp present).2

theorem Matched.insert (matched : Matched m) (k v)
    : ∃ after, m.insert k v = some after ∧ Matched after := by
  by_cases present : k ∈ m.map
  · exact ⟨m, if_pos present, matched⟩
  by_cases full : m.nMaxSize ≤ m.map.keys.length
  · obtain ⟨-, -, after, -, -, inserted, kept, -⟩ := matched.insert_full present full
    exact ⟨after, inserted, kept⟩
  · refine ⟨_, ?_, matched.add (v := v) present⟩
    have fits : ¬ (m.map.insert k v).keys.length > m.nMaxSize := by
      rw [keys_insert, erase_of_not_mem present, length_cons]
      omega
    rw [LimitedMap.insert, if_neg present, if_neg fits]
    rfl

theorem Matched.unlink {relink} (matched : Matched m)
    (keeps : ∀ m : LimitedMap K V, Matched m → k ∉ m.map → Matched (relink m))
    : ∃ after, m.unlink k relink = some after ∧ Matched after := by
  rw [LimitedMap.unlink]
  split
  · exact ⟨m, rfl, matched⟩
  rename_i old found
  rw [if_pos ((matched.same ..).mp found)]
  exact ⟨_, rfl, keeps _ (matched.remove found) fun present => (mem_erase.mp present).1 rfl⟩

theorem Matched.shrink {s rounds} (positive : 0 < s) (matched : Matched m)
    (enough : m.rmap.length < rounds)
    : ∃ after, shrink s rounds m = some after ∧ Matched after := by
  induction rounds generalizing m with
  | zero => exact absurd enough (Nat.not_lt_zero _)
  | succ rounds ih =>
    rw [LimitedMap.shrink]
    split
    · rename_i large
      obtain ⟨gone, w, rest, begins, -, -, discarded⟩ := matched.first (positive.trans large)
      rw [begins, length_cons] at enough
      rw [discardFirst, begins]
      exact ih discarded (Nat.lt_of_succ_lt_succ enough)
    · exact ⟨m, rfl, matched⟩

theorem Matched.perform {call} (matched : Matched m) (sized : ∀ s, call = .maxSize s → 0 < s)
    : ∃ after, m.perform call = some after ∧ Matched after := by
  cases call with
  | insert k v => exact matched.insert k v
  | erase k => exact matched.unlink fun m kept _ => kept
  | update k v => exact matched.unlink fun m kept unlisted => kept.add unlisted
  | maxSize s =>
    have positive := sized s rfl
    obtain ⟨after, shrunk, kept⟩ := matched.shrink positive (Nat.lt_succ_self _)
    refine ⟨{ after with nMaxSize := s }, ?_, kept.same, kept.once, kept.sorted, positive⟩
    rw [LimitedMap.perform, if_pos positive, shrunk]
    rfl

/-- Every run with positive sizes keeps the maps matched and fails no assertion; what an insertion
discards has the smallest value of all exactly if the new value is not below all others.
-/
theorem limitedMap_keeps_iff
    : (∀ nMaxSizeIn, 0 < nMaxSizeIn → ∀ calls : List (Call K V),
        (∀ s, Call.maxSize s ∈ calls → 0 < s) → ∃ m, run nMaxSizeIn calls = some m ∧ Matched m)
      ∧ ∀ (m : LimitedMap K V) k v, Matched m → k ∉ m.map → m.nMaxSize ≤ m.map.keys.length
        → ∃ gone w after, m.map.lookup gone = some w
          ∧ m.insert k v = some after ∧ after.map = (m.map.insert k v).erase gone
          ∧ (w ≤ v ∧ (∀ other u, m.map.lookup other = some u → w ≤ u)
            ↔ ∃ other u, m.map.lookup other = some u ∧ u ≤ v) := by
  refine ⟨fun nMaxSizeIn positive calls sized => ?_, fun m k v matched new full => ?_⟩
  · rw [run, if_pos positive]
    have start : Matched (⟨∅, [], nMaxSizeIn⟩ : LimitedMap K V) :=
      ⟨fun k v => by simp, nodup_nil, .nil, positive⟩
    generalize (⟨∅, [], nMaxSizeIn⟩ : LimitedMap K V) = m at start
    induction calls generalizing m with
    | nil => exact ⟨m, rfl, start⟩
    | cons call rest ih =>
      obtain ⟨next, ran, kept⟩ := start.perform fun s same => sized s (same ▸ mem_cons_self)
      rw [foldlM_cons, ran]
      exact ih (fun s later => sized s (mem_cons_of_mem _ later)) next kept
  · obtain ⟨gone, w, after, first, least, inserted, -, erased⟩ := matched.insert_full new full
    refine ⟨gone, w, after, first, inserted, erased, fun lower => ⟨gone, w, first, lower.1⟩, ?_⟩
    rintro ⟨other, u, found, below⟩
    exact ⟨(least other u found).trans below, least⟩

/-- The older element goes though its value is higher. -/
theorem lower_value_stays
    : ∃ m, run 1 [.insert 1 5, .insert 2 3] = some m
      ∧ m.map.entries = [⟨(2 : Nat), (3 : Nat)⟩] := ⟨_, rfl, rfl⟩

end LimitedMap

end Pqcoin
