import Mathlib.Data.List.Basic

/-! Sequences of checks that stop at the first failure. -/

namespace Checks

variable {ε α β : Type}

def require (holds : Prop) [Decidable holds] (failure : ε) : Except ε Unit :=
  if holds then .ok () else .error failure

@[simp] theorem require_ok {holds : Prop} [Decidable holds] {failure : ε} {result : Unit}
    : require holds failure = .ok result ↔ holds := by
  rw [require]
  split <;> simp_all

/-- A sequence passes exactly when its first part does and then the rest does. -/
theorem bind_ok {first} {next : α → Except ε β} {result}
    : (first >>= next) = .ok result ↔ ∃ value, first = .ok value ∧ next value = .ok result := by
  cases first with
  | error failure | ok value => simp [bind, Except.bind]

theorem map_ok {first : Except ε α} {f : α → β} {result}
    : first.map f = .ok result ↔ ∃ value, first = .ok value ∧ f value = result := by
  cases first with
  | error failure | ok value => simp [Except.map]

/-- A check passes before the others exactly when it passes and they do. -/
@[simp] theorem then_ok {first : Except ε Unit} {next : Except ε β} {result : β}
    : (first >>= fun _ => next) = .ok result ↔ first = .ok () ∧ next = .ok result :=
  bind_ok.trans ⟨fun ⟨(), passed, rest⟩ => ⟨passed, rest⟩, fun passed => ⟨(), passed⟩⟩

theorem require_error {holds : Prop} [Decidable holds] {failure reported : ε}
    : require holds failure = .error reported ↔ ¬ holds ∧ failure = reported := by
  rw [require]
  split <;> simp_all

/-- A sequence fails where its first part does, or where that passes and the rest fails. -/
theorem then_error {first} {next : Except ε β} {failure}
    : (first >>= fun _ => next) = .error failure
      ↔ first = .error failure ∨ (first = .ok () ∧ next = .error failure) := by
  cases first with
  | error other | ok value => simp [bind, Except.bind]

/-- A loop of checks passes exactly when every round does, by list induction. -/
@[simp] theorem forM_ok {check : α → Except ε Unit} {items : List α} {result : Unit}
    : forM items check = .ok result ↔ ∀ item ∈ items, check item = .ok () := by
  induction items with
  | nil => simp [pure, Except.pure]
  | cons item rest ih => simp [ih]

end Checks
