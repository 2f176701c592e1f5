import Mathlib.Logic.Function.Basic

/-! Stacks of write-back layers over a store. Some values are dead: they count as no value, so
that a layer is free to keep or to drop them.
-/

namespace WriteBack

variable {K V : Type*}

/-- An entry of a layer. It is dirty when the value below may differ, and fresh when no value
below counts.
-/
structure Entry (V : Type*) where
  value : V
  dirty : Bool
  fresh : Bool
  deriving DecidableEq

abbrev Layer (K V : Type*) := K → Option (Entry V)

def overlay (entry : Option (Entry V)) (behind : Option V) : Option V :=
  match entry with
  | none => behind
  | some entry => some entry.value

def view (store : K → Option V) : List (Layer K V) → K → Option V
  | [], key => store key
  | layer :: below, key => overlay (layer key) (view store below key)

variable (dead : V → Bool)

def shown (value : Option V) : Option V := value.filter (fun value => !dead value)

/-- What the flags of an entry say about the value behind it. -/
structure Entry.Sound (entry : Entry V) (behind : Option V) : Prop where
  fresh : entry.fresh = true → shown dead behind = none
  clean : entry.dirty = false → shown dead (some entry.value) = shown dead behind

def Coherent (store : K → Option V) : List (Layer K V) → Prop
  | [] => True
  | layer :: below =>
    (∀ key entry, layer key = some entry → entry.Sound dead (view store below key))
    ∧ Coherent store below

/-- A coherent stack through which exactly the values of a table show. -/
structure Shows (store : K → Option V) (layers : List (Layer K V)) (table : K → Option V)
    : Prop where
  coherent : Coherent dead store layers
  seen : ∀ key, shown dead (view store layers key) = table key

-- Values that count

variable {dead} {value : V} {behind behind' : Option V}

@[simp] theorem shown_none : shown dead none = none := rfl

theorem shown_some_eq_none : shown dead (some value) = none ↔ dead value = true := by
  simp [shown]

theorem shown_of_alive (alive : dead value = false) : shown dead (some value) = some value := by
  simp [shown, alive]

theorem eq_of_shown_eq_some {seen} (counts : shown dead seen = some value)
    : seen = some value ∧ dead value = false := by
  simpa [shown, Option.filter_eq_some_iff] using counts

/-- Through equal entries, values that count the same are seen the same. -/
theorem shown_overlay_congr (same : shown dead behind = shown dead behind') (entry)
    : shown dead (overlay entry behind) = shown dead (overlay entry behind') := by
  cases entry with
  | none => exact same
  | some entry => rfl

theorem Entry.Sound.congr {entry : Entry V} (sound : entry.Sound dead behind)
    (same : shown dead behind = shown dead behind')
    : entry.Sound dead behind' :=
  ⟨fun fresh => same ▸ sound.fresh fresh, fun clean => same ▸ sound.clean clean⟩

theorem Entry.Sound.written {fresh} (absent : fresh = true → shown dead behind = none)
    : Entry.Sound dead ⟨value, true, fresh⟩ behind :=
  ⟨absent, fun clean => Bool.noConfusion clean⟩

-- Stacks

section Stacks

variable {store store' : K → Option V} {layer layer' : Layer K V}
  {below below' : List (Layer K V)} {table lower : K → Option V}

theorem Coherent.shows (coherent : Coherent dead store below)
    : Shows dead store below (fun key => shown dead (view store below key)) :=
  ⟨coherent, fun _ => rfl⟩

theorem Shows.empty (shows : Shows dead store below table) (empty : ∀ key, layer key = none)
    : Shows dead store (layer :: below) table where
  coherent := ⟨fun key entry found => absurd found (by simp [empty key]), shows.coherent⟩
  seen key := by
    rw [view, empty key, overlay]
    exact shows.seen key

theorem Shows.under (shows : Shows dead store (layer :: below) table)
    (exchanged : Shows dead store' below' (fun key => shown dead (view store below key)))
    : Shows dead store' (layer :: below') table := by
  refine ⟨⟨fun key entry found => ?_, exchanged.coherent⟩, fun key => ?_⟩
  · exact (shows.coherent.1 key entry found).congr (exchanged.seen key).symm
  · rw [← shows.seen key]
    exact shown_overlay_congr (exchanged.seen key) (layer key)

theorem Shows.update [DecidableEq K] (shows : Shows dead store (layer :: below) table) {key}
    {written} (others : ∀ other, other ≠ key → layer' other = layer other)
    (sound : ∀ entry, layer' key = some entry → entry.Sound dead (view store below key))
    (seen : shown dead (overlay (layer' key) (view store below key)) = written)
    : Shows dead store (layer' :: below) (Function.update table key written) := by
  refine ⟨⟨fun other entry found => ?_, shows.coherent.2⟩, fun other => ?_⟩
  · by_cases same : other = key
    · subst other
      exact sound entry found
    · exact shows.coherent.1 other entry (by rw [← others other same, found])
  · by_cases same : other = key
    · subst other
      rw [Function.update_self]
      exact seen
    · rw [Function.update_of_ne same, view, others other same]
      exact shows.seen other

theorem view_of_entry {key} {entry} (found : layer key = some entry)
    : view store (layer :: below) key = some entry.value := by
  rw [view, found, overlay]

theorem view_of_no_entry {key} (missing : layer key = none)
    : view store (layer :: below) key = view store below key := by
  rw [view, missing, overlay]

end Stacks

end WriteBack
