import Mathlib.Data.List.Basic

/-! A list whose elements have keys, with the position of each key kept beside it: elements are
appended, and removed by moving the last one into their place.
-/

namespace SlotIndex

variable {α κ : Type*} [DecidableEq κ] {list : List α} {key : α → κ} {idx : κ → Option ℕ}
  {item back : α} {r : κ} {i : ℕ}

/-- Every element is where the index says, and the index knows no other keys. -/
structure Indexes (list : List α) (key : α → κ) (idx : κ → Option ℕ) : Prop where
  exact : ∀ i item, list[i]? = some item → idx (key item) = some i
  there : ∀ k i, idx k = some i → ∃ item, list[i]? = some item ∧ key item = k

def swapRemove (list : List α) (i : ℕ) (back : α) : List α := (list.set i back).dropLast

omit [DecidableEq κ] in
theorem getElem?_swapRemove (list i j) (back : α)
    : (swapRemove list i back)[j]?
      = if j < list.length - 1 then if i = j then some back else list[j]? else none := by
  rw [swapRemove, List.getElem?_dropLast, List.length_set]
  split
  · rw [List.getElem?_set]
    split
    · rw [if_pos (by omega)]
    · rfl
  · rfl

omit [DecidableEq κ] in
theorem Indexes.index_last (indexes : Indexes list key idx) (last : list.getLast? = some back)
    : idx (key back) = some (list.length - 1) := by
  rw [List.getLast?_eq_getElem?] at last
  exact indexes.exact _ back last

theorem Indexes.swapRemove (indexes : Indexes list key idx) (removed : idx r = some i)
    (last : list.getLast? = some back)
    : Indexes (swapRemove list i back) key
        (fun k => if k = r then none else if k = key back then some i else idx k) := by
  have final := indexes.index_last last
  obtain ⟨gone, present, same⟩ := indexes.there r i removed
  have inside : i < list.length := (List.getElem?_eq_some_iff.mp present).1
  constructor
  · intro j item found
    rw [getElem?_swapRemove] at found
    split at found
    · rename_i before
      split at found
      · rename_i here
        -- the last element, which is not the one that is removed
        cases found
        have apart : key back ≠ r := by
          intro equal
          rw [equal, removed] at final
          have := Option.some.inj final
          omega
        rw [if_neg apart, if_pos rfl, here]
      · rename_i elsewhere
        have known := indexes.exact j item found
        have kept : key item ≠ r := by
          intro equal
          rw [equal, removed] at known
          exact elsewhere (Option.some.inj known)
        have unmoved : key item ≠ key back := by
          intro equal
          rw [equal, final] at known
          have := Option.some.inj known
          omega
        rw [if_neg kept, if_neg unmoved]
        exact known
    · cases found
  · intro k j known
    split at known
    · cases known
    rename_i kept
    split at known
    · rename_i moved
      cases known
      refine ⟨back, ?_, moved.symm⟩
      have apart : i ≠ list.length - 1 := by
        intro equal
        rw [List.getLast?_eq_getElem?, ← equal, present] at last
        exact kept (by rw [moved, ← Option.some.inj last, same])
      rw [getElem?_swapRemove, if_pos (by omega), if_pos rfl]
    · rename_i unmoved
      obtain ⟨item, found, rfl⟩ := indexes.there k j known
      refine ⟨item, ?_, rfl⟩
      have bound : j < list.length := (List.getElem?_eq_some_iff.mp found).1
      have notLast : j ≠ list.length - 1 := by
        intro equal
        rw [List.getLast?_eq_getElem?, ← equal, found] at last
        exact unmoved (by rw [Option.some.inj last])
      have notGone : i ≠ j := by
        intro equal
        rw [equal, found] at present
        exact kept (by rw [Option.some.inj present, same])
      rw [getElem?_swapRemove, if_pos (by omega), if_neg notGone]
      exact found

theorem Indexes.append (indexes : Indexes list key idx) (fresh : idx (key item) = none)
    : Indexes (list ++ [item]) key
        (fun k => if k = key item then some list.length else idx k) := by
  constructor
  · intro j other found
    rcases Nat.lt_trichotomy j list.length with before | rfl | behind
    · rw [List.getElem?_append_left before] at found
      have known := indexes.exact j other found
      have apart : key other ≠ key item := by
        intro equal
        rw [equal, fresh] at known
        cases known
      rw [if_neg apart]
      exact known
    · rw [List.getElem?_append_right (Nat.le_refl _), Nat.sub_self] at found
      cases found
      rw [if_pos rfl]
    · rw [List.getElem?_eq_none (by simp; omega)] at found
      cases found
  · intro k j known
    split at known
    · rename_i same
      cases known
      exact ⟨item, by simp, same.symm⟩
    · obtain ⟨other, found, rfl⟩ := indexes.there k j known
      exact ⟨other, List.getElem?_append_left (List.getElem?_eq_some_iff.mp found).1 ▸ found, rfl⟩

end SlotIndex
