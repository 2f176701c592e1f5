import Mathlib.Algebra.BigOperators.Pi
import Mathlib.Algebra.Order.BigOperators.Group.Finset
import Mathlib.Algebra.Order.Ring.Int
import Mathlib.Data.Fintype.Basic
import Mathlib.Logic.Relation

/-! Reachability in a graph and sums over what is reached: vertices that leave the graph, a
vertex that joins it below others, and sums that gain or lose one summand.
-/

namespace Reach

open Finset Relation

-- Vertices that leave and join

section Graphs

variable {V : Type*} {edge : V → V → Prop} {gone parents : V → Prop} {u v fresh : V}

def off (edge : V → V → Prop) (gone : V → Prop) (u v : V) : Prop := edge u v ∧ ¬ gone u ∧ ¬ gone v

def join (edge : V → V → Prop) (parents : V → Prop) (fresh u v : V) : Prop :=
  edge u v ∨ (parents u ∧ v = fresh)

def Acyclic (edge : V → V → Prop) : Prop := ∀ u, ¬ TransGen edge u u

variable (gone) in
/-- A set that has the successors of its members has all that can be reached from them. -/
theorem mem_of_reach (closed : ∀ u v, gone u → edge u v → gone v) (start : gone u)
    (path : ReflTransGen edge u v)
    : gone v := by
  induction path with
  | refl => exact start
  | tail _ step ih => exact closed _ _ ih step

section

variable (closed : (∀ u v, gone u → edge u v → gone v) ∨ (∀ u v, gone v → edge u v → gone u))

include closed

/-- What leaves with all its successors, or with all its predecessors, is on no path between
vertices that stay.
-/
theorem reach_off (first : ¬ gone u) (last : ¬ gone v)
    : ReflTransGen (off edge gone) u v ↔ ReflTransGen edge u v := by
  refine ⟨fun path => ReflTransGen.mono (fun _ _ step => step.1) _ _ path, fun path => ?_⟩
  rcases closed with closed | closed
  · induction path using ReflTransGen.head_induction_on with
    | refl => exact .refl
    | head step path ih =>
      have between := fun inside => last (mem_of_reach gone closed inside path)
      exact .head ⟨step, first, between⟩ (ih between)
  · induction path with
    | refl => exact .refl
    | tail path step ih =>
      rename_i middle final
      have between : ¬ gone middle := by
        intro inside
        have back : ReflTransGen (fun a b => edge b a) middle u := by
          rw [← reflTransGen_swap] at path
          exact path
        exact first (mem_of_reach gone (fun a b here step => closed b a here step) inside back)
      exact .tail (ih between) ⟨step, between, last⟩

/-- From a vertex that stays, what is reached still is what stays of it. -/
theorem reach_off_left (first : ¬ gone u)
    : ReflTransGen (off edge gone) u v ↔ ReflTransGen edge u v ∧ ¬ gone v := by
  refine ⟨fun path => ?_, fun ⟨path, last⟩ => (reach_off closed first last).mpr path⟩
  have last : ¬ gone v := by
    rcases ReflTransGen.cases_tail path with rfl | ⟨_, -, step⟩
    · exact first
    · exact step.2.2
  exact ⟨(reach_off closed first last).mp path, last⟩

/-- To a vertex that stays, so do the vertices that reach it. -/
theorem reach_off_right (last : ¬ gone v)
    : ReflTransGen (off edge gone) u v ↔ ReflTransGen edge u v ∧ ¬ gone u := by
  refine ⟨fun path => ?_, fun ⟨path, first⟩ => (reach_off closed first last).mpr path⟩
  have first : ¬ gone u := by
    rcases ReflTransGen.cases_head path with rfl | ⟨_, step, -⟩
    · exact last
    · exact step.2.1
  exact ⟨(reach_off closed first last).mp path, first⟩

end

theorem acyclic_mono {sub} (inside : ∀ u v, sub u v → edge u v) (acyclic : Acyclic edge)
    : Acyclic sub := fun u cycle => acyclic u (TransGen.mono inside _ _ cycle)

/-- The new vertex is reached through its parents, and from it nothing else. -/
theorem reach_join (last : ∀ v, ¬ edge fresh v) (apart : ¬ parents fresh)
    : ReflTransGen (join edge parents fresh) u v
      ↔ ReflTransGen edge u v
      ∨ (v = fresh ∧ ∃ parent, parents parent ∧ ReflTransGen edge u parent) := by
  constructor
  · intro path
    induction path with
    | refl => exact .inl .refl
    | tail _ step ih =>
      rcases ih with before | ⟨rfl, -⟩
      · rcases step with old | ⟨parent, rfl⟩
        · exact .inl (before.tail old)
        · exact .inr ⟨rfl, _, parent, before⟩
      · rcases step with old | ⟨parent, -⟩
        · exact absurd old (last _)
        · exact absurd parent apart
  · have within {u v} (path : ReflTransGen edge u v) : ReflTransGen (join edge parents fresh) u v :=
      ReflTransGen.mono (fun _ _ step => .inl step) _ _ path
    rintro (path | ⟨rfl, parent, mem, path⟩)
    · exact within path
    · exact (within path).tail (.inr ⟨mem, rfl⟩)

theorem acyclic_join (last : ∀ v, ¬ edge fresh v) (apart : ¬ parents fresh) (acyclic : Acyclic edge)
    : Acyclic (join edge parents fresh) := by
  intro u cycle
  obtain ⟨v, path, step⟩ := TransGen.tail'_iff.mp cycle
  rcases (reach_join last apart).mp path with old | ⟨rfl, -⟩
  · rcases step with step | ⟨parent, rfl⟩
    · exact acyclic u (.tail' old step)
    -- nothing but the new vertex is reached from it
    rcases ReflTransGen.cases_head old with rfl | ⟨next, first, -⟩
    · exact apart parent
    · exact last next first
  · rcases step with step | ⟨parent, -⟩
    · exact last _ step
    · exact apart parent

end Graphs

-- Sums

section Sums

variable {V M : Type*} [Fintype V] [AddCommMonoid M] {weight : V → M} {P Q : V → Prop} {r : V}

open scoped Classical in
@[irreducible] noncomputable def tally (weight : V → M) (P : V → Prop) : M := ∑ v with P v, weight v

theorem tally_congr {other} (same : ∀ v, P v → weight v = other v) (iff : ∀ v, P v ↔ Q v)
    : tally weight P = tally other Q := by
  obtain rfl : P = Q := funext fun v => propext (iff v)
  rw [tally, tally]
  exact sum_congr rfl fun v mem => same v (by simpa using mem)

theorem tally_or (disjoint : ∀ v, P v → ¬ Q v)
    : tally weight (fun v => P v ∨ Q v) = tally weight P + tally weight Q := by
  classical
  rw [tally, tally, tally, ← sum_union (disjoint_filter.mpr fun v _ => disjoint v)]
  exact sum_congr (Finset.ext fun v => by simp) fun _ _ => rfl

@[simp] theorem tally_eq (weight : V → M) (r : V) : tally weight (fun v => v = r) = weight r := by
  classical
  rw [tally, ← sum_singleton weight r]
  exact sum_congr (Finset.ext fun v => by simp) fun _ _ => rfl

theorem tally_insert (absent : ¬ P r)
    : tally weight (fun v => P v ∨ v = r) = tally weight P + weight r := by
  have disjoint (v : V) (here : P v) : ¬ v = r := fun same => absent (same ▸ here)
  rw [tally_or disjoint, tally_eq]

theorem tally_erase (there : P r)
    : tally weight (fun v => P v ∧ v ≠ r) + weight r = tally weight P := by
  rw [← tally_insert (by simp)]
  refine tally_congr (fun _ _ => rfl) fun v => ?_
  by_cases same : v = r
  · simp [same, there]
  · simp [same]

theorem tally_mem {list : List V} (unique : list.Nodup)
    : tally weight (· ∈ list) = (list.map weight).sum := by
  classical
  rw [tally, ← List.sum_toFinset weight unique]
  refine sum_congr (Finset.ext fun v => ?_) fun _ _ => rfl
  simp

/-- A sum whose weights differ at one vertex. -/
theorem tally_add_at {other} {change} (here : other r = weight r + change)
    (elsewhere : ∀ v, v ≠ r → other v = weight v) (there : P r)
    : tally other P = tally weight P + change := by
  rw [← tally_erase there, ← tally_erase there, here, ← add_assoc]
  congr 2
  exact tally_congr (fun v mem => elsewhere v mem.2) fun _ => Iff.rfl

theorem sum_add_at {other : V → M} {change} (here : other r = weight r + change)
    (elsewhere : ∀ v, v ≠ r → other v = weight v)
    : ∑ v, other v = ∑ v, weight v + change := by
  have whole (weight : V → M) : tally weight (fun _ => True) = ∑ v, weight v := by
    rw [tally]
    exact sum_congr (Finset.ext fun v => by simp) fun _ _ => rfl
  rw [← whole, ← whole]
  exact tally_add_at here elsewhere trivial

/-- The sum of pairs is the pair of the sums. -/
theorem tally_prod {N : Type*} [AddCommMonoid N] (weight : V → M × N) (P : V → Prop)
    : tally weight P = (tally (fun v => (weight v).1) P, tally (fun v => (weight v).2) P) := by
  refine Prod.ext ?_ ?_
  · dsimp only
    rw [tally, tally, Prod.fst_sum]
  · dsimp only
    rw [tally, tally, Prod.snd_sum]

end Sums

section Bounds

variable {V : Type*} [Fintype V] {weight : V → ℤ} {P : V → Prop} {r : V}

section

variable (nonneg : ∀ v, 0 ≤ weight v)

include nonneg

theorem tally_pos (there : P r) (pos : 0 < weight r) : 0 < tally weight P := by
  rw [tally]
  exact sum_pos' (fun v _ => nonneg v) ⟨r, by simpa using there, pos⟩

theorem tally_nonneg (P : V → Prop) : 0 ≤ tally weight P := by
  rw [tally]
  exact sum_nonneg fun v _ => nonneg v

/-- It is no greater than the sum over all vertices. -/
theorem tally_le (P : V → Prop) : tally weight P ≤ ∑ v, weight v := by
  rw [tally]
  exact sum_le_univ_sum_of_nonneg nonneg

end

end Bounds

end Reach
