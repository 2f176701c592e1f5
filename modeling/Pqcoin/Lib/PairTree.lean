import Mathlib.Algebra.Order.Group.Nat
import Mathlib.Data.List.Basic

/-! Binary trees over a list, level by level, where the last node of an odd level is paired with
itself: the nodes of a level by their position, the siblings on the way up from a leaf, and the
root that they lead to.
-/

namespace PairTree

open List

variable {α : Type*} (node : α → α → α)

def pairUp : List α → List α
  | [] => []
  | [a] => [node a a]
  | a :: b :: rest => node a b :: pairUp rest

theorem length_pairUp (items) : (pairUp node items).length = (items.length + 1) / 2 := by
  induction items using pairUp.induct with
  | case1 | case2 => simp [pairUp]
  | case3 a b rest ih =>
    simp only [pairUp, length_cons, ih]
    omega

/-- A leaf is hashed with some siblings; the bits of its position select the sides. -/
def climb : ℕ → α → List α → α
  | _, h, [] => h
  | p, h, other :: rest => climb (p / 2) (if p % 2 = 1 then node other h else node h other) rest

theorem climb_concat (p) (h other : α) (path)
    : climb node p h (path ++ [other])
      = if p / 2 ^ path.length % 2 = 1 then node other (climb node p h path)
        else node (climb node p h path) other := by
  induction path generalizing p h with
  | nil => simp [climb]
  | cons first rest ih =>
    rw [cons_append, climb, ih, climb, length_cons, pow_succ', Nat.div_div_eq_div_mul]

variable (leaves : List α)

def level : ℕ → List α
  | 0 => leaves
  | k + 1 => pairUp node (level k)

def width (k : ℕ) : ℕ := (level node leaves k).length

variable {node leaves} {k p : ℕ}

theorem halve (n k) : n / 2 ^ (k + 1) = n / 2 ^ k / 2 := by
  rw [pow_succ, Nat.div_div_eq_div_mul]

theorem width_succ : width node leaves (k + 1) = (width node leaves k + 1) / 2 :=
  length_pairUp node _

theorem width_bounds
    : leaves.length / 2 ^ k ≤ width node leaves k
      ∧ width node leaves k ≤ leaves.length / 2 ^ k + 1 := by
  induction k with
  | zero => simp [width, level]
  | succ k ih =>
    rw [halve, width_succ]
    omega

theorem div_lt_width (inside : p < leaves.length) : p / 2 ^ k < width node leaves k := by
  induction k with
  | zero => simpa [width, level] using inside
  | succ k ih =>
    rw [halve, width_succ]
    omega

variable [Inhabited α] (node leaves)

theorem getD_pairUp {items} {i} (inside : 2 * i < items.length)
    : (pairUp node items).getD i default
      = node (items.getD (2 * i) default)
          (items.getD (min (2 * i + 1) (items.length - 1)) default) := by
  induction items using pairUp.induct generalizing i with
  | case1 => cases inside
  | case2 a =>
    obtain rfl : i = 0 := by simp at inside; omega
    rfl
  | case3 a b rest ih =>
    cases i with
    | zero =>
      rw [show min (2 * 0 + 1) ((a :: b :: rest).length - 1) = 1 by simp]
      rfl
    | succ i =>
      have below : 2 * i < rest.length := by simp at inside; omega
      rw [show min (2 * (i + 1) + 1) ((a :: b :: rest).length - 1)
        = min (2 * i + 1) (rest.length - 1) + 2 by simp; omega]
      exact ih below

/-- The only node of the first level that has no more than one. -/
def root : List α → α
  | [] => default
  | [a] => a
  | a :: b :: rest => root (pairUp node (a :: b :: rest))
termination_by items => items.length
decreasing_by
  rw [length_pairUp]
  simp
  omega

def nodeAt (k i : ℕ) : α := (level node leaves k).getD i default

/-- The sibling of the node above leaf `p`, which is the node itself at the end of an odd level. -/
def sibling (p k : ℕ) : α :=
  nodeAt node leaves k
    (if p / 2 ^ k % 2 = 1 then p / 2 ^ k - 1
      else min (p / 2 ^ k + 1) (width node leaves k - 1))

def siblings (p m : ℕ) : List α := (List.range m).map (sibling node leaves p)

variable {node leaves}

theorem nodeAt_succ {i} (inside : 2 * i < width node leaves k)
    : nodeAt node leaves (k + 1) i
      = node (nodeAt node leaves k (2 * i))
          (nodeAt node leaves k (min (2 * i + 1) (width node leaves k - 1))) :=
  getD_pairUp node inside

theorem siblings_succ (p m)
    : siblings node leaves p (m + 1)
      = siblings node leaves p m ++ [sibling node leaves p m] := by
  rw [siblings, range_succ, map_append, map_singleton, siblings]

theorem root_eq_nodeAt (tall : ∀ i < k, 1 < width node leaves i) (top : width node leaves k = 1)
    : root node leaves = nodeAt node leaves k 0 := by
  have upwards : ∀ i ≤ k, root node leaves = root node (level node leaves i) := by
    intro i
    induction i with
    | zero => exact fun _ => rfl
    | succ i ih =>
      intro below
      have long := tall i below
      rw [width] at long
      rw [ih (Nat.le_of_succ_le below), level]
      revert long
      rcases level node leaves i with _ | ⟨a, _ | ⟨b, rest⟩⟩
      · exact fun long => absurd long (Nat.not_lt_zero 1)
      · exact fun long => absurd long (Nat.lt_irrefl 1)
      · intro _
        rw [root]
  rw [upwards k le_rfl, nodeAt]
  obtain ⟨a, single⟩ := length_eq_one_iff.mp top
  rw [single, root]
  rfl

/-- The siblings lead from a leaf to the node above it, by induction on the level. -/
theorem climb_siblings (inside : p < leaves.length) (m)
    : climb node p (nodeAt node leaves 0 p) (siblings node leaves p m)
      = nodeAt node leaves m (p / 2 ^ m) := by
  induction m with
  | zero => simp [siblings, climb]
  | succ m ih =>
    have below : p / 2 ^ m < width node leaves m := div_lt_width inside
    have length : (siblings node leaves p m).length = m := by simp [siblings]
    have inner : 2 * (p / 2 ^ m / 2) < width node leaves m := by omega
    rw [siblings_succ, climb_concat, ih, length, halve, nodeAt_succ inner, sibling]
    by_cases odd : p / 2 ^ m % 2 = 1
    · rw [if_pos odd, if_pos odd, show 2 * (p / 2 ^ m / 2) = p / 2 ^ m - 1 by omega,
        show min (p / 2 ^ m - 1 + 1) (width node leaves m - 1) = p / 2 ^ m by omega]
    · rw [if_neg odd, if_neg odd, show 2 * (p / 2 ^ m / 2) = p / 2 ^ m by omega]

end PairTree
