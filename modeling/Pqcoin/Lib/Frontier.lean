import Mathlib.Data.Set.Basic
import Mathlib.Order.Defs.LinearOrder

/-! Candidates among which the best valid element is looked for. Pruning and failed attempts
take candidates away, so what can be known of them is a mark: a valid candidate above which
no valid element is missing.
-/

namespace Frontier

variable {α β : Type*} [LinearOrder β] {rank rank' : α → β}
  {valid valid' candidates candidates' : Set α} {mark tip best : α}

structure Covers (rank : α → β) (valid candidates : Set α) (mark : α) : Prop where
  usable : mark ∈ valid
  listed : mark ∈ candidates
  above : ∀ a ∈ valid, rank mark < rank a → a ∈ candidates

section

variable (covers : Covers rank valid candidates mark)

include covers

/-- Elements may become invalid and leave, and new ones are listed if they are above the
mark.
-/
theorem Covers.transfer (agree : ∀ a ∈ valid, rank' a = rank a) (kept : mark ∈ valid')
    (still : ∀ a ∈ valid', a ∈ valid → a ∈ candidates → a ∈ candidates')
    (fresh : ∀ a ∈ valid', a ∉ valid → rank' mark < rank' a → a ∈ candidates')
    : Covers rank' valid' candidates' mark where
  usable := kept
  listed := still mark kept covers.usable covers.listed
  above a now higher := by
    by_cases before : a ∈ valid
    · rw [agree mark covers.usable, agree a before] at higher
      exact still a now before (covers.above a before higher)
    · exact fresh a now before higher

/-- Dropping what is below a valid element moves the mark up to it, or leaves it. -/
theorem Covers.prune (usable : tip ∈ valid)
    : Covers rank valid {a ∈ candidates | ¬ rank a < rank tip}
        (if rank mark < rank tip then tip else mark) := by
  split
  · rename_i raised
    exact {
      usable := usable
      listed := ⟨covers.above tip usable raised, lt_irrefl _⟩
      above := fun a valid higher =>
        ⟨covers.above a valid (raised.trans higher), higher.asymm⟩
    }
  · rename_i stays
    exact {
      usable := covers.usable
      listed := ⟨covers.listed, stays⟩
      above := fun a valid higher =>
        ⟨covers.above a valid higher, fun lower => stays (higher.trans lower)⟩
    }

theorem Covers.le_best (greatest : ∀ a ∈ candidates, rank a ≤ rank best) {a} (usable : a ∈ valid)
    : rank a ≤ rank best := by
  rcases lt_or_ge (rank mark) (rank a) with higher | lower
  · exact greatest a (covers.above a usable higher)
  · exact lower.trans (greatest mark covers.listed)

theorem Covers.raise (usable : best ∈ valid) (listed : best ∈ candidates)
    (greatest : ∀ a ∈ candidates, rank a ≤ rank best)
    : Covers rank valid candidates best where
  usable := usable
  listed := listed
  above _ valid higher := absurd higher (covers.le_best greatest valid).not_gt

end

end Frontier
