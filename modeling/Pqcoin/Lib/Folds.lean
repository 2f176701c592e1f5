import Mathlib.Algebra.Order.Ring.Nat
import Mathlib.Data.List.Forall2

/-! Rules for loops over a list: folds, and loops that a missing value ends. -/

namespace Folds

open List Option

variable {σ α : Type*} {step : σ → α → σ}

theorem forall_of_establishes {P : α → σ → Prop} (establishes : ∀ s a, P a (step s a))
    (keeps : ∀ s a b, a ≠ b → P b s → P b (step s a)) (rounds : List α) (s : σ)
    : ∀ a ∈ rounds, P a (rounds.foldl step s) := by
  have kept (rounds : List α) (s : σ) (b : α) (held : P b s) : P b (rounds.foldl step s) := by
    induction rounds generalizing s with
    | nil => exact held
    | cons a rest ih =>
      apply ih
      by_cases same : a = b
      · subst same
        exact establishes s a
      · exact keeps s a b same held
  induction rounds generalizing s with
  | nil => simp
  | cons first rest ih =>
    intro a mem
    rcases mem_cons.mp mem with rfl | later
    · exact kept rest _ a (establishes s a)
    · exact ih _ a later

theorem toNat_foldl_add {w} {word : α → BitVec w} {number}
    (stands : ∀ a, (word a).toNat = number a % 2 ^ w) (rounds : List α) (n)
    : (rounds.foldl (fun n a => n + word a) n).toNat
      = (n.toNat + (rounds.map number).sum) % 2 ^ w := by
  induction rounds generalizing n with
  | nil => simp [Nat.mod_eq_of_lt n.isLt]
  | cons a rest ih =>
    rw [foldl_cons, ih, BitVec.toNat_add, stands, map_cons, sum_cons,
      Nat.add_mod_mod, Nat.mod_add_mod, Nat.add_assoc]

/-- A loop that looks up every element succeeds with what it has found for each. -/
theorem mapM_eq_some_iff {β : Type*} {find} {list : List α} {found : List β}
    : list.mapM find = some found
      ↔ List.Forall₂ (fun a b => find a = some b) list found := by
  induction list generalizing found with
  | nil =>
    rw [mapM_nil, forall₂_nil_left_iff]
    exact ⟨fun same => (Option.some.inj same).symm, fun same => by rw [same]; rfl⟩
  | cons a rest ih =>
    rw [mapM_cons, forall₂_cons_left_iff]
    constructor
    · intro ran
      obtain ⟨b, first, ran⟩ := bind_eq_some_iff.mp ran
      obtain ⟨others, later, same⟩ := bind_eq_some_iff.mp ran
      exact ⟨b, others, first, ih.mp later, (Option.some.inj same).symm⟩
    · rintro ⟨b, others, first, later, rfl⟩
      exact bind_eq_some_iff.mpr ⟨b, first, bind_eq_some_iff.mpr ⟨others, ih.mpr later, rfl⟩⟩

/-- The loop succeeds if there is something to find for every element. -/
theorem exists_mapM_eq_some {β : Type*} {find : α → Option β} {list : List α}
    (there : ∀ a ∈ list, (find a).isSome)
    : ∃ found, list.mapM find = some found := by
  induction list with
  | nil => exact ⟨[], rfl⟩
  | cons a rest ih =>
    rw [forall_mem_cons] at there
    obtain ⟨b, first⟩ := isSome_iff_exists.mp there.1
    obtain ⟨others, later⟩ := ih there.2
    exact ⟨b :: others, mapM_eq_some_iff.mpr (.cons first (mapM_eq_some_iff.mp later))⟩

theorem isSome_of_mapM {β : Type*} {find} {list : List α} {found : List β}
    (ran : list.mapM find = some found)
    : ∀ a ∈ list, (find a).isSome := by
  have paired := mapM_eq_some_iff.mp ran
  clear ran
  induction paired with
  | nil => simp
  | cons here rest ih => simpa [here] using ih

theorem mem_mapM_iff {β : Type*} {find} {list : List α} {found : List β} {b}
    (ran : list.mapM find = some found)
    : b ∈ found ↔ ∃ a ∈ list, find a = some b := by
  have paired := mapM_eq_some_iff.mp ran
  clear ran
  induction paired with
  | nil => simp
  | cons here rest ih => simp [here, ih, eq_comm]

theorem forall_zip_mapM {β : Type*} {find} {list : List α} {found : List β}
    {P : α → β → Prop} (ran : list.mapM find = some found)
    : (∀ pair ∈ list.zip found, P pair.1 pair.2) ↔ ∀ a ∈ list, ∀ b, find a = some b → P a b := by
  have paired := mapM_eq_some_iff.mp ran
  clear ran
  induction paired with
  | nil => simp
  | cons here rest ih =>
    rw [zip_cons_cons, forall_mem_cons, forall_mem_cons]
    exact and_congr (by simp [here]) ih

/-- What every round of a loop that may end early keeps, the loop keeps if it does not. -/
theorem foldlM_rel {round} {R : σ → σ → Prop} (refl : ∀ s, R s s)
    (trans : ∀ s t u, R s t → R t u → R s u) (step : ∀ s a t, round s a = some t → R s t)
    {rounds : List α} {first last} (ran : rounds.foldlM round first = some last)
    : R first last := by
  induction rounds generalizing first with
  | nil =>
    cases ran
    exact refl _
  | cons a rest ih =>
    rw [foldlM_cons] at ran
    obtain ⟨next, here, ran⟩ := bind_eq_some_iff.mp ran
    exact trans _ _ _ (step _ _ _ here) (ih ran)

theorem foldlM_keeps {round} {P : σ → Prop}
    (step : ∀ s a t, P s → round s a = some t → P t) {rounds : List α} {first last}
    (start : P first) (ran : rounds.foldlM round first = some last)
    : P last :=
  foldlM_rel (R := fun s t => P s → P t) (fun _ same => same)
    (fun _ _ _ before after same => after (before same)) (fun s a t ran same => step s a t same ran)
    ran start

section Decide

variable {α β : Type} {ran : Option α} {answered : Option (α × β)} {P : α → Prop} [DecidablePred P]

/-- Whether a run ends with a property is decided by running it. -/
instance decideRan : Decidable (∃ a, ran = some a ∧ P a) :=
  decidable_of_iff (ran.any (P ·) = true) (by simp [Option.any_eq_true])

instance decideAnswered [DecidableEq β] (b : β) : Decidable (∃ a, answered = some (a, b) ∧ P a) :=
  decidable_of_iff (answered.any (fun answer => answer.2 = b ∧ P answer.1) = true)
    (by simp [Option.any_eq_true])

end Decide

end Folds
