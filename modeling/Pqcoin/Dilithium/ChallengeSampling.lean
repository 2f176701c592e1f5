import Pqcoin.Dilithium.Mult

/-! `poly_challenge`: the challenge that is sampled from the output stream of the hash. -/

namespace Pqcoin.Dilithium

abbrev SHAKE256_RATE : Nat := 136

/-- The variables of `poly_challenge`; `buf` is the block with this number. -/
structure Sampling where
  c : Poly
  signs : BitVec 64
  block : Nat
  pos : Nat

section Sampling

variable (stream : Nat → BitVec 8)

/-- The first eight bytes of the stream, the lowest one first. -/
def challengeSigns : BitVec 64 :=
  (List.range 8).foldl (fun signs i => signs ||| (stream i).setWidth 64 <<< (8 * i)) 0

/-- The rejection loop: the next byte of the stream that is at most `i`, with the block and the
position behind it. It is `none` when it takes more than `fuel` bytes.
-/
def drawIndex (i : Nat) : Nat → Nat → Nat → Option (BitVec 8 × Nat × Nat)
  | 0, _, _ => none
  | fuel + 1, block, pos =>
    let current := if SHAKE256_RATE ≤ pos then block + 1 else block
    let next := if SHAKE256_RATE ≤ pos then 0 else pos
    let b := stream (SHAKE256_RATE * current + next)
    if i < b.toNat then drawIndex i fuel current (next + 1) else some (b, current, next + 1)

/-- The loop body for the coefficient `i`. -/
def sampleRound (fuel : Nat) (i : Fin N) (state : Sampling) : Option Sampling :=
  (drawIndex stream i fuel state.block state.pos).map fun (b, block, pos) =>
    let c := Function.update state.c i (state.c b.toFin)
    ⟨Function.update c b.toFin ((1 - 2 * (state.signs &&& 1)).setWidth 32), state.signs >>> 1,
      block, pos⟩

/-- The variables after some rounds of the loop, which starts at `N - TAU`. -/
def sampleRounds (fuel : Nat) : Nat → Option Sampling
  | 0 => some ⟨fun _ => 0, challengeSigns stream, 0, 8⟩
  | k + 1 => (sampleRounds fuel k).bind (sampleRound stream fuel (Fin.ofNat N (N - TAU + k)))

/-- `poly_challenge` on the stream that the seed expands to. -/
def polyChallenge (fuel : Nat) : Option Sampling := sampleRounds stream fuel TAU

end Sampling

variable {stream : Nat → BitVec 8} {fuel : Nat}

theorem drawIndex_le {i block pos} {drawn} (ran : drawIndex stream i fuel block pos = some drawn)
    : drawn.1.toNat ≤ i := by
  induction fuel generalizing block pos with
  | zero => cases ran
  | succ fuel ih =>
    rw [drawIndex] at ran
    generalize (if SHAKE256_RATE ≤ pos then block + 1 else block) = current at ran
    generalize (if SHAKE256_RATE ≤ pos then 0 else pos) = next at ran
    split at ran
    · exact ih ran
    rename_i accepted
    cases ran
    exact Nat.le_of_not_lt accepted

/-- A draw ends at the first small byte from its position on, if not before. -/
theorem drawIndex_eq_some {i block pos gap} (inside : pos ≤ SHAKE256_RATE) (near : gap < fuel)
    (small : (stream (SHAKE256_RATE * block + pos + gap)).toNat ≤ i)
    : ∃ drawn, drawIndex stream i fuel block pos = some drawn ∧ drawn.2.2 ≤ SHAKE256_RATE := by
  induction fuel generalizing block pos gap with
  | zero => cases near
  | succ fuel ih =>
    have refill : SHAKE256_RATE * block + pos
          = SHAKE256_RATE * (if SHAKE256_RATE ≤ pos then block + 1 else block)
            + (if SHAKE256_RATE ≤ pos then 0 else pos)
        ∧ (if SHAKE256_RATE ≤ pos then 0 else pos) < SHAKE256_RATE := by
      rw [show SHAKE256_RATE = 136 from rfl] at inside ⊢
      split <;> omega
    rw [drawIndex]
    generalize (if SHAKE256_RATE ≤ pos then block + 1 else block) = current at refill ⊢
    generalize (if SHAKE256_RATE ≤ pos then 0 else pos) = next at refill ⊢
    rw [refill.1] at small
    split
    · rename_i rejected
      cases gap with
      | zero => exact absurd small (Nat.not_le.mpr rejected)
      | succ gap =>
        rw [← add_assoc, add_right_comm] at small
        exact ih refill.2 (Nat.lt_of_succ_lt_succ near) small
    · exact ⟨_, rfl, refill.2⟩

theorem sampleRounds_eq_some
    (small : ∀ n, ∃ gap < fuel, (stream (n + gap)).toNat ≤ N - TAU) {k} (rounds : k ≤ TAU)
    : ∃ state, sampleRounds stream fuel k = some state ∧ state.pos ≤ SHAKE256_RATE := by
  induction k with
  | zero => exact ⟨_, rfl, show 8 ≤ 136 by decide⟩
  | succ k ih =>
    obtain ⟨state, ran, inside⟩ := ih (by omega)
    obtain ⟨gap, near, small⟩ := small (SHAKE256_RATE * state.block + state.pos)
    have place : (Fin.ofNat N (N - TAU + k)).val = N - TAU + k :=
      Nat.mod_eq_of_lt (show 256 - 49 + k < 256 by have : k + 1 ≤ 49 := rounds; omega)
    obtain ⟨drawn, found, within⟩ := drawIndex_eq_some inside near
      (small.trans (place ▸ Nat.le_add_right _ k))
    rw [sampleRounds, ran, Option.bind_some, sampleRound, found]
    exact ⟨_, rfl, within⟩

theorem sign_cases (signs : BitVec 64)
    : (1 - 2 * (signs &&& 1)).setWidth 32 = (1 : BitVec 32)
      ∨ (1 - 2 * (signs &&& 1)).setWidth 32 = (-1 : BitVec 32) := by
  have bit : signs &&& 1 = 0 ∨ signs &&& 1 = 1 := by
    simp only [← BitVec.toNat_inj, BitVec.toNat_and]
    rw [show (1 : BitVec 64).toNat = 1 from rfl, Nat.and_one_is_mod]
    exact Nat.mod_two_eq_zero_or_one _
  rcases bit with bit | bit
  · exact .inl (by rw [bit]; decide)
  · exact .inr (by rw [bit]; decide)

/-- What holds after `k` rounds: as many coefficients are set as sign bits are used, and the
positions of the rounds to come are still zero.
-/
structure Sampled (signs : BitVec 64) (k : Nat) (state : Sampling) : Prop where
  ternary : ∀ i, state.c i = 0 ∨ state.c i = 1 ∨ state.c i = -1
  untouched : ∀ i : Fin N, N - TAU + k ≤ i → state.c i = 0
  weight : (Finset.univ.filter (fun i => state.c i ≠ 0)).card = k
  signs : state.signs = signs >>> k

/-- A round sets one more coefficient: the one of the round if the drawn one was set, and the
drawn one otherwise.
-/
theorem Sampled.round {signs} {k} {state after} (sampled : Sampled signs k state) (inside : k < TAU)
    (ran : sampleRound stream fuel (Fin.ofNat N (N - TAU + k)) state = some after)
    : Sampled signs (k + 1) after := by
  obtain ⟨⟨b, block, pos⟩, drawn, rfl⟩ := Option.map_eq_some_iff.mp ran
  have degree : N = 256 := rfl
  have weight : TAU = 49 := rfl
  have below := drawIndex_le drawn
  have place : (Fin.ofNat N (N - TAU + k)).val = N - TAU + k := Nat.mod_eq_of_lt (by omega)
  generalize Fin.ofNat N (N - TAU + k) = i at place below drawn ran
  have empty : state.c i = 0#32 := sampled.untouched i (Nat.le_of_eq place.symm)
  have sign := sign_cases state.signs
  generalize (1 - 2 * (state.signs &&& 1)).setWidth 32 = value at sign
  have set : value ≠ 0#32 := by rcases sign with rfl | rfl <;> decide
  dsimp only at below ⊢
  generalize drawnAt : (b.toFin : Fin N) = j at *
  have order : j ≤ i := by
    rw [Fin.le_def, ← drawnAt]
    exact below
  refine ⟨fun m => ?_, fun m above => ?_, ?_, ?_⟩
  · dsimp only
    rw [Function.update_apply, Function.update_apply]
    split
    · exact .inr sign
    split
    · exact sampled.ternary j
    · exact sampled.ternary m
  · have past : i < m := by
      rw [Fin.lt_def]
      omega
    dsimp only
    rw [Function.update_of_ne (Fin.ne_of_gt (Fin.lt_of_le_of_lt order past)),
      Function.update_of_ne (Fin.ne_of_gt past), sampled.untouched m (by omega)]
  · have grown : Finset.univ.filter (fun m =>
          Function.update (Function.update state.c i (state.c j)) j value m ≠ 0)
        = insert (if state.c j = 0#32 then j else i)
          (Finset.univ.filter (fun m => state.c m ≠ 0)) := by
      ext m
      simp only [Finset.mem_filter_univ, Finset.mem_insert, Function.update_apply]
      by_cases drawnHere : m = j
      · subst drawnHere
        by_cases unset : state.c m = 0#32 <;> simp [unset, set]
      by_cases here : m = i
      · subst here
        by_cases unset : state.c j = 0#32 <;> simp [unset, drawnHere, empty]
      · by_cases unset : state.c j = 0#32 <;> simp [unset, drawnHere, here]
    dsimp only
    rw [grown, Finset.card_insert_of_notMem, sampled.weight]
    rw [Finset.mem_filter_univ, not_not]
    split <;> assumption
  · dsimp only
    rw [sampled.signs, BitVec.shiftRight_add]

theorem sampled_sampleRounds {k} {state} (rounds : k ≤ TAU)
    (ran : sampleRounds stream fuel k = some state)
    : Sampled (challengeSigns stream) k state := by
  induction k generalizing state with
  | zero =>
    cases ran
    exact ⟨fun _ => .inl rfl, fun _ _ => rfl, by simp, (BitVec.ushiftRight_zero _).symm⟩
  | succ k ih =>
    obtain ⟨before, previous, round⟩ := Option.bind_eq_some_iff.mp ran
    exact (ih (by omega) previous).round (by omega) round

/-- On a stream with a small byte for every draw `poly_challenge` ends. Whenever it does, it gives a
challenge, and has used one of the sign bits for each coefficient that is not zero.
-/
theorem polyChallenge_wellFormed (stream : Nat → BitVec 8) (fuel : Nat)
    : ((∀ n, ∃ gap < fuel, (stream (n + gap)).toNat ≤ N - TAU)
        → (polyChallenge stream fuel).isSome)
      ∧ ∀ state, polyChallenge stream fuel = some state
        → (∃ challenge : Challenge, challenge.poly = state.c)
          ∧ state.signs = challengeSigns stream
            >>> (Finset.univ.filter (fun i => state.c i ≠ 0)).card := by
  refine ⟨fun small => ?_, fun state ran => ?_⟩
  · obtain ⟨state, ran, -⟩ := sampleRounds_eq_some small le_rfl
    exact Option.isSome_iff_exists.mpr ⟨state, ran⟩
  · have sampled := sampled_sampleRounds le_rfl ran
    exact ⟨⟨⟨state.c, sampled.ternary, sampled.weight⟩, rfl⟩, by rw [sampled.weight, sampled.signs]⟩

/-- All sign bits are set, and the first draw is rejected. -/
def ninthRejected (n : Nat) : BitVec 8 := if n < 9 then 255 else 0

theorem polyChallenge_wellFormed_rejected
    : polyChallenge ninthRejected 1 = none
      ∧ ∃ state, polyChallenge ninthRejected 10 = some state
        ∧ (∃ challenge : Challenge, challenge.poly = state.c)
        ∧ state.signs = challengeSigns ninthRejected
          >>> (Finset.univ.filter (fun i => state.c i ≠ 0)).card := by
  obtain ⟨ends, wellFormed⟩ := polyChallenge_wellFormed ninthRejected 10
  obtain ⟨state, ran⟩ := Option.isSome_iff_exists.mp (ends fun n => ⟨9, by decide, by
    rw [ninthRejected, if_neg (by omega)]
    decide⟩)
  have stuck : (polyChallenge ninthRejected 1).isNone = true := by decide +kernel
  exact ⟨Option.isNone_iff_eq_none.mp stuck, state, ran, wellFormed state ran⟩

end Pqcoin.Dilithium
