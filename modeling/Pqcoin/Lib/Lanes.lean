import Mathlib.Data.Int.ModEq
import Mathlib.Tactic.Ring
import Mathlib.Tactic.Linarith

/-! Several small integers packed into the low bits of one machine word. What lies above the
lanes is arbitrary, and intermediate lanes may be any integers: only the sum of the lanes
at their places is tracked, modulo the bits that the lanes occupy.
-/

namespace Lanes

open Int List

variable {v w : ℕ}

def pack (w : ℕ) : List ℤ → ℤ
  | [] => 0
  | x :: rest => x + 2 ^ w * pack w rest

def Holds (w : ℕ) (word : BitVec v) (lanes : List ℤ) : Prop :=
  (word.toNat : ℤ) ≡ pack w lanes [ZMOD 2 ^ (w * lanes.length)]

instance (word : BitVec v) (lanes : List ℤ) : Decidable (Holds w word lanes) :=
  inferInstanceAs (Decidable (_ ≡ _ [ZMOD _]))

theorem holds_nil (word : BitVec v) : Holds w word [] := by
  simp [Holds, pack, modEq_one]

-- Linear operations on all lanes at once

section Linear
variable {ι : Type*} {lanes : List ι} {f g : ι → ℤ}

theorem pack_add : pack w (lanes.map (fun i => f i + g i))
    = pack w (lanes.map f) + pack w (lanes.map g) := by
  induction lanes with
  | nil => rfl
  | cons i rest ih =>
    simp only [map_cons, pack, ih]
    ring

theorem pack_sub : pack w (lanes.map (fun i => f i - g i))
    = pack w (lanes.map f) - pack w (lanes.map g) := by
  induction lanes with
  | nil => rfl
  | cons i rest ih =>
    simp only [map_cons, pack, ih]
    ring

theorem holds_zero : Holds w (0 : BitVec v) (lanes.map (fun _ => 0)) := by
  have zero : pack w (lanes.map (fun _ => 0)) = 0 := by
    induction lanes with
    | nil => rfl
    | cons i rest ih => simp only [map_cons, pack, ih, mul_zero, add_zero]
  rw [Holds, zero]
  rfl

/-- Reducing modulo the word is harmless for lanes that lie within it. -/
theorem modEq_word (fits : w * lanes.length ≤ v) (n)
    : n % 2 ^ v ≡ n [ZMOD 2 ^ (w * lanes.length)] :=
  (mod_modEq n (2 ^ v)).of_dvd (pow_dvd_pow 2 fits)

theorem Holds.add {left right : BitVec v} (fits : w * lanes.length ≤ v)
    (held : Holds w left (lanes.map f)) (added : Holds w right (lanes.map g))
    : Holds w (left + right) (lanes.map (fun i => f i + g i)) := by
  rw [Holds, length_map] at held added ⊢
  rw [pack_add, BitVec.toNat_add]
  push_cast
  exact (modEq_word fits _).trans (held.add added)

theorem Holds.sub {left right : BitVec v} (fits : w * lanes.length ≤ v)
    (held : Holds w left (lanes.map f)) (removed : Holds w right (lanes.map g))
    : Holds w (left - right) (lanes.map (fun i => f i - g i)) := by
  have small := right.isLt
  rw [Holds, length_map] at held removed ⊢
  rw [pack_sub, BitVec.toNat_sub]
  have wide : ((2 ^ v - right.toNat + left.toNat : ℕ) : ℤ) % 2 ^ v
      ≡ left.toNat - right.toNat [ZMOD 2 ^ (w * lanes.length)] := by
    refine (modEq_word fits _).trans ?_
    rw [Nat.cast_add, Nat.cast_sub (Nat.le_of_lt small)]
    apply modEq_iff_dvd.mpr
    have multiple : (2 ^ (w * lanes.length) : ℤ) ∣ 2 ^ v := pow_dvd_pow 2 fits
    push_cast
    have rearranged : (left.toNat - right.toNat - (2 ^ v - right.toNat + left.toNat) : ℤ)
        = -2 ^ v := by ring
    rw [rearranged]
    exact Int.dvd_neg.mpr multiple
  push_cast at wide ⊢
  exact wide.trans (held.sub removed)

end Linear

-- Pushing and reading single lanes

theorem pow_length_cons (x) (lanes : List ℤ)
    : (2 : ℤ) ^ (w * (x :: lanes).length) = 2 ^ w * 2 ^ (w * lanes.length) := by
  rw [length_cons, Nat.mul_succ, Nat.add_comm, pow_add]

/-- Shifting by one lane and filling the free bits pushes a lane below the others. -/
theorem Holds.push {word} {lanes} (held : Holds w word lanes)
    (lane : BitVec v) (small : lane.toNat < 2 ^ w) (fits : w * (lanes.length + 1) ≤ v)
    : Holds w (word <<< w ||| lane) (lane.toNat :: lanes) := by
  rw [Nat.mul_succ] at fits
  have shifted : (word <<< w ||| lane).toNat = 2 ^ w * (word.toNat % 2 ^ (v - w)) + lane.toNat := by
    have width : 2 ^ v = 2 ^ w * 2 ^ (v - w) := by rw [← pow_add, Nat.add_sub_cancel' (by omega)]
    rw [BitVec.toNat_or, BitVec.toNat_shiftLeft, Nat.shiftLeft_eq, Nat.mul_comm, width,
      Nat.mul_mod_mul_left, Nat.two_pow_add_eq_or_of_lt small]
  have upper : (word.toNat : ℤ) % 2 ^ (v - w) ≡ pack w lanes [ZMOD 2 ^ (w * lanes.length)] :=
    ((mod_modEq _ _).of_dvd (pow_dvd_pow 2 (by omega))).trans held
  rw [Holds, shifted, pow_length_cons, pack]
  push_cast
  rw [Int.add_comm]
  exact upper.mul_left'.add_left _

/-- A lane within its bits is read off the bottom of the word. -/
theorem Holds.head {word : BitVec v} {x} {lanes} (held : Holds w word (x :: lanes))
    (nonneg : 0 ≤ x) (small : x < 2 ^ w)
    : (word.toNat % 2 ^ w : ℕ) = x := by
  rw [Holds, pow_length_cons, pack] at held
  have bottom := held.of_dvd (Dvd.intro _ rfl)
  push_cast
  calc (word.toNat : ℤ) % 2 ^ w
      = (x + 2 ^ w * pack w lanes) % 2 ^ w := bottom
    _ = x % 2 ^ w := add_mul_emod_self_left _ _ _
    _ = x := emod_eq_of_lt nonneg small

/-- Shifting a lane out leaves the others. -/
theorem Holds.tail {word : BitVec v} {x} {lanes} (held : Holds w word (x :: lanes))
    (nonneg : 0 ≤ x) (small : x < 2 ^ w)
    : Holds w (word >>> w) lanes := by
  rw [Holds, pow_length_cons, pack] at held
  obtain ⟨k, diff⟩ := held.dvd
  have word_eq : (word.toNat : ℤ)
      = x + 2 ^ w * (pack w lanes - 2 ^ (w * lanes.length) * k) := by linarith
  have upper : ((word >>> w).toNat : ℤ) = pack w lanes - 2 ^ (w * lanes.length) * k := by
    rw [BitVec.toNat_ushiftRight, Nat.shiftRight_eq_div_pow]
    push_cast
    rw [word_eq, add_mul_ediv_left _ _ (by positivity), ediv_eq_zero_of_lt nonneg small,
      Int.zero_add]
  rw [Holds, upper]
  exact modEq_iff_dvd.mpr ⟨k, by ring⟩

end Lanes
