import Mathlib.Logic.Basic

/-! One fallible computation admits another: it returns whatever the other returns, and may only
fail less.
-/

namespace Restriction

universe u v

variable {ε : Type u} {α β : Type v} {lax strict : Except ε α}

/-- What the strict computation returns, the lax one returns too. -/
def Admits (lax strict : Except ε α) : Prop := ∀ a, strict = .ok a → lax = .ok a

theorem Admits.refl (result : Except ε α) : Admits result result := fun _ ran => ran

theorem admits_error (lax : Except ε α) (failure : ε) : Admits lax (.error failure) :=
  fun _ ran => nomatch ran

theorem Admits.guard {p q : Prop} [Decidable p] [Decidable q] {failure failure'}
    (only : p → q) (admits : Admits lax strict)
    : Admits (if p then .error failure else lax) (if q then .error failure' else strict) := by
  by_cases fails : q
  · rw [if_pos fails]
    exact admits_error _ _
  · rw [if_neg fails, if_neg (mt only fails)]
    exact admits

theorem Admits.bind {next next' : α → Except ε β} (admits : Admits lax strict)
    (rest : ∀ a, Admits (next a) (next' a))
    : Admits (lax >>= next) (strict >>= next') := by
  intro b ran
  cases first : strict with
  | error failure =>
    rw [first] at ran
    cases ran
  | ok a =>
    rw [first] at ran
    rw [admits a first]
    exact rest a b ran

theorem Admits.map (admits : Admits lax strict) (f : α → β) : Admits (lax.map f) (strict.map f) :=
  admits.bind fun a => Admits.refl (.ok (f a))

end Restriction
