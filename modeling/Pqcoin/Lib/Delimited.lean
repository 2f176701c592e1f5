import Mathlib.Data.List.Basic

/-! Strings that end where they say: two of them, with anything behind, are equal only if what they
stand for agrees, and the rests are equal then. Concatenations of such strings are of this kind.
-/

namespace Delimited

open List

variable {α β : Type*} {x y x' y' : List β} {P Q : Prop}

/-- Wherever `x` and `y` stand in front of equal strings, `P` holds and the rests are equal. -/
def Forces (x y : List β) (P : Prop) : Prop := ∀ s t, x ++ s = y ++ t → P ∧ s = t

theorem Forces.imp (forces : Forces x y P) (weaken : P → Q) : Forces x y Q :=
  fun s t same => (forces s t same).imp_left weaken

theorem Forces.of_eq (forces : Forces x y P) (same : x = y) : P :=
  (forces [] [] (by rw [same])).1

theorem forces_of_length (length : x.length = y.length) : Forces x y (x = y) :=
  fun _ _ same => append_inj same length

theorem forces_nil : Forces ([] : List β) [] True := fun _ _ same => ⟨trivial, same⟩

/-- What the first strings force may be used for the ones behind them. -/
theorem Forces.append (first : Forces x y P) (second : P → Forces x' y' Q)
    : Forces (x ++ x') (y ++ y') (P ∧ Q) := by
  intro s t same
  rw [append_assoc, append_assoc] at same
  obtain ⟨forced, rest⟩ := first _ _ same
  obtain ⟨forced', rest'⟩ := second forced s t rest
  exact ⟨⟨forced, forced'⟩, rest'⟩

theorem forces_flatMap {f g : α → List β} {P : α → Prop} {items : List α}
    (each : ∀ item ∈ items, Forces (f item) (g item) (P item))
    : Forces (items.flatMap f) (items.flatMap g) (∀ item ∈ items, P item) := by
  induction items with
  | nil => exact forces_nil.imp fun _ => by simp
  | cons item items ih =>
    rw [forall_mem_cons] at each
    rw [flatMap_cons, flatMap_cons]
    exact (each.1.append fun _ => ih each.2).imp forall_mem_cons.mpr

theorem forces_range {f g : ℕ → List β} {P : ℕ → Prop} {m n : ℕ} (same : m = n)
    (each : ∀ i < m, Forces (f i) (g i) (P i))
    : Forces ((range m).flatMap f) ((range n).flatMap g) (∀ i < m, P i) := by
  subst same
  exact (forces_flatMap fun i inside => each i (mem_range.mp inside)).imp (by simp)

end Delimited
