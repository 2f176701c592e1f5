import Mathlib.Data.List.NodupEquivFin
import Mathlib.Order.Fin.Basic

/-! Matchings of a list of items with a list of slots that keep the order: the first slot that
fits the first item can be given to it.
-/

namespace OrderedMatching

open List

variable {α β : Type*} {fits : α → β → Prop} {items : List α} {slots : List β} {item : α} {slot : β}

def Matches (fits : α → β → Prop) (items : List α) (slots : List β) : Prop :=
  ∃ chosen, chosen.Sublist slots ∧ List.Forall₂ fits items chosen

theorem matches_nil : Matches fits [] slots := ⟨[], nil_sublist slots, .nil⟩

theorem Matches.length_le (matched : Matches fits items slots) : items.length ≤ slots.length := by
  obtain ⟨chosen, sub, pairs⟩ := matched
  exact pairs.length_eq.trans_le sub.length_le

theorem Matches.of_cons (matched : Matches fits (item :: items) slots)
    : Matches fits items slots := by
  obtain ⟨chosen, sub, pairs⟩ := matched
  cases pairs with
  | cons _ rest => exact ⟨_, (sublist_cons_self ..).trans sub, rest⟩

theorem Matches.skip (matched : Matches fits items slots) : Matches fits items (slot :: slots) := by
  obtain ⟨chosen, sub, pairs⟩ := matched
  exact ⟨chosen, sub.cons slot, pairs⟩

/-- The first slot is given to the first item, or to none. -/
theorem matches_cons
    : Matches fits (item :: items) (slot :: slots)
      ↔ (fits item slot ∧ Matches fits items slots) ∨ Matches fits (item :: items) slots := by
  constructor
  · rintro ⟨chosen, sub, pairs⟩
    cases pairs with
    | cons first rest =>
      cases sub with
      | cons _ sub => exact .inr ⟨_, sub, .cons first rest⟩
      | cons_cons _ sub => exact .inl ⟨first, _, sub, rest⟩
  · rintro (⟨first, chosen, sub, rest⟩ | matched)
    · exact ⟨slot :: chosen, sub.cons_cons slot, .cons first rest⟩
    · exact matched.skip

theorem matches_cons_of_fits (first : fits item slot)
    : Matches fits (item :: items) (slot :: slots) ↔ Matches fits items slots := by
  rw [matches_cons]
  exact ⟨fun matched => matched.elim And.right Matches.of_cons,
    fun matched => .inl ⟨first, matched⟩⟩

theorem matches_cons_of_not_fits (misfit : ¬ fits item slot)
    : Matches fits (item :: items) (slot :: slots) ↔ Matches fits (item :: items) slots := by
  rw [matches_cons]
  exact or_iff_right fun matched => misfit matched.1

theorem matches_reverse : Matches fits items.reverse slots.reverse ↔ Matches fits items slots := by
  have one {items} {slots} (matched : Matches fits items slots)
      : Matches fits items.reverse slots.reverse := by
    obtain ⟨chosen, sub, pairs⟩ := matched
    exact ⟨chosen.reverse, sub.reverse, rel_reverse pairs⟩
  refine ⟨fun matched => ?_, one⟩
  simpa using one matched

theorem matches_iff_strictMono
    : Matches fits items slots
      ↔ ∃ place : Fin items.length → Fin slots.length,
          StrictMono place ∧ ∀ i, fits (items.get i) (slots.get (place i)) := by
  constructor
  · rintro ⟨chosen, sub, pairs⟩
    obtain ⟨embedding, same⟩ := sublist_iff_exists_fin_orderEmbedding_get_eq.mp sub
    have length := pairs.length_eq
    refine ⟨fun i => embedding (i.cast length), ?_, fun i => ?_⟩
    · intro i j less
      exact embedding.strictMono less
    · rw [← same]
      exact pairs.get i.isLt (by omega)
  · rintro ⟨place, increasing, all⟩
    refine ⟨List.ofFn (fun i => slots.get (place i)), ?_, ?_⟩
    · rw [sublist_iff_exists_fin_orderEmbedding_get_eq]
      refine ⟨OrderEmbedding.ofStrictMono (fun i => place (i.cast (by simp))) ?_, fun i => ?_⟩
      · intro i j less
        exact increasing less
      · rw [get_ofFn]
        rfl
    · rw [forall₂_iff_get]
      exact ⟨by simp, fun i here there => by simpa using all ⟨i, here⟩⟩

end OrderedMatching
