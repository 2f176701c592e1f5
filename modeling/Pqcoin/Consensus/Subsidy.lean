import Pqcoin.Primitives.Transaction

/-! The block reward: when `GetPqcoinBlockSubsidy` is defined, how it falls with the height,
and how many coins all blocks together may create. A shift by an amount outside the width of
its operand is undefined behaviour, written as `none`.
-/

namespace Pqcoin

open Int

def COIN : Int := 100000000

/-- The fields of `Consensus::Params` that the reward depends on. -/
structure SubsidyParams where
  nSubsidyHalvingInterval : Int
  fSimplifiedRewards : Bool
  deriving DecidableEq

def shiftRight (width : Nat) (value amount : Int) : Option Int :=
  if 0 ≤ amount ∧ amount < width then some (value / 2 ^ amount.toNat) else none

/-- `strtol` on the seven characters from position 7 of the hexadecimal hash. -/
def rewardSeed (prevHash : Uint256) : Nat := prevHash.toNat / 16 ^ 50 % 16 ^ 7

section Subsidy

variable (generateMTRandom : Nat → Int → Int)

/-- `GetPqcoinBlockSubsidy`; the random number generator is a parameter. -/
def getPqcoinBlockSubsidy (nHeight : Int) (consensusParams : SubsidyParams) (prevHash : Uint256)
    : Option Int :=
  let halvings := (nHeight - 26250).tdiv consensusParams.nSubsidyHalvingInterval
  if consensusParams.nSubsidyHalvingInterval = 0 then none
  else if !consensusParams.fSimplifiedRewards then
    match shiftRight 32 1000000 halvings with
    | none => none
    | some maxReward =>
      some ((1 + generateMTRandom (rewardSeed prevHash) (maxReward - 1)) * COIN)
  else if nHeight ≤ 26250 then some (1024 * COIN)
  else shiftRight 64 (168 * COIN) halvings

def emission (consensusParams : SubsidyParams) (prevHashes : Nat → Uint256)
    : Nat → Option Int
  | 0 => some 0
  | nHeight + 1 =>
    match emission consensusParams prevHashes nHeight,
      getPqcoinBlockSubsidy generateMTRandom (nHeight + 1) consensusParams (prevHashes nHeight) with
    | some total, some subsidy => some (total + subsidy)
    | _, _ => none

-- Halvings

def reward (halvings : Nat) : Int := 168 * COIN / 2 ^ halvings

theorem reward_nonneg (halvings) : 0 ≤ reward halvings :=
  ediv_nonneg (by decide) (by positivity)

/-- A halving loses at least half. -/
theorem two_mul_reward_succ (halvings) : 2 * reward (halvings + 1) ≤ reward halvings := by
  have half : reward (halvings + 1) = reward halvings / 2 := by
    rw [reward, reward, pow_succ, ediv_ediv_of_nonneg (by positivity)]
  omega

theorem reward_le_reward {fewer more} (le : fewer ≤ more) : reward more ≤ reward fewer := by
  refine antitone_nat_of_succ_le (fun halvings => ?_) le
  have half := two_mul_reward_succ halvings
  have pos := reward_nonneg (halvings + 1)
  omega

-- The reward as a function of the height

variable {generateMTRandom} {consensusParams : SubsidyParams}

section

variable (simplified : consensusParams.fSimplifiedRewards = true)
  (pos : 0 < consensusParams.nSubsidyHalvingInterval)

include simplified pos

theorem subsidy_early {nHeight} (early : nHeight ≤ 26250) (prevHash)
    : getPqcoinBlockSubsidy generateMTRandom nHeight consensusParams prevHash
      = some (1024 * COIN) := by
  simp [getPqcoinBlockSubsidy, simplified, Int.ne_of_gt pos, early]

theorem subsidy_late {nHeight} (late : 26250 < nHeight) (prevHash)
    : getPqcoinBlockSubsidy generateMTRandom nHeight consensusParams prevHash
      = if (nHeight - 26250) / consensusParams.nSubsidyHalvingInterval < 64 then
          some (reward ((nHeight - 26250) / consensusParams.nSubsidyHalvingInterval).toNat)
        else none := by
  have halvings := tdiv_eq_ediv_of_nonneg (b := consensusParams.nSubsidyHalvingInterval)
    (show 0 ≤ nHeight - 26250 by omega)
  have nonneg : 0 ≤ (nHeight - 26250) / consensusParams.nSubsidyHalvingInterval :=
    ediv_nonneg (by omega) (Int.le_of_lt pos)
  simp only [getPqcoinBlockSubsidy, simplified, Int.ne_of_gt pos, halvings,
    Int.not_le.mpr late, if_false, Bool.not_true, Bool.false_eq_true, shiftRight, nonneg,
    true_and, reward]
  rfl

theorem subsidy_defined_iff {nHeight} (late : 26250 < nHeight) (prevHash hash)
    : (∃ subsidy next,
        getPqcoinBlockSubsidy generateMTRandom nHeight consensusParams prevHash = some subsidy
        ∧ getPqcoinBlockSubsidy generateMTRandom (nHeight + 1) consensusParams hash = some next
        ∧ next ≤ subsidy)
      ↔ (nHeight + 1 - 26250) / consensusParams.nSubsidyHalvingInterval < 64 := by
  have mono : (nHeight - 26250) / consensusParams.nSubsidyHalvingInterval
      ≤ (nHeight + 1 - 26250) / consensusParams.nSubsidyHalvingInterval :=
    Int.ediv_le_ediv pos (by omega)
  rw [subsidy_late simplified pos late,
    subsidy_late simplified pos (show 26250 < nHeight + 1 by omega)]
  constructor
  · rintro ⟨subsidy, next, -, defined, -⟩
    split_ifs at defined with few
    exact few
  · intro few
    rw [if_pos few, if_pos (lt_of_le_of_lt mono few)]
    exact ⟨_, _, rfl, rfl, reward_le_reward (toNat_le_toNat mono)⟩

end

/-- The reward is not negative, if the generator draws positive numbers. -/
theorem subsidy_nonneg {nHeight subsidy} {prevHash}
    (drawn : ∀ seed range, 1 ≤ generateMTRandom seed range)
    (defined : getPqcoinBlockSubsidy generateMTRandom nHeight consensusParams prevHash
      = some subsidy)
    : 0 ≤ subsidy := by
  simp only [getPqcoinBlockSubsidy] at defined
  split at defined
  · cases defined
  split at defined
  · split at defined
    · cases defined
    cases defined
    refine mul_nonneg ?_ (by decide)
    have pos := drawn (rewardSeed prevHash)
    exact add_nonneg (by decide) (le_trans (by decide) (pos _))
  split at defined
  · cases defined
    decide
  rw [shiftRight] at defined
  split at defined
  · cases defined
    exact ediv_nonneg (by decide) (by positivity)
  · cases defined

-- The sum of the rewards

/-- What the blocks of the current interval and of all later ones may still create: the rest
of the interval at its own reward, and once more a whole interval.
-/
def outstanding (interval blocks : Nat) : Int :=
  (2 * interval - 1 - (blocks % interval : Nat)) * reward (blocks / interval)

theorem outstanding_succ {interval} (pos : 0 < interval) (blocks)
    : reward ((blocks + 1) / interval) + outstanding interval (blocks + 1)
      ≤ outstanding interval blocks := by
  have inside := Nat.mod_lt blocks pos
  have split := Nat.mod_add_div blocks interval
  by_cases same : blocks % interval + 1 < interval
  · obtain ⟨quot, rest⟩ := (Nat.div_mod_unique pos).mpr
      (⟨by omega, same⟩ : blocks % interval + 1 + interval * (blocks / interval) = blocks + 1 ∧ _)
    rw [outstanding, outstanding, quot, rest]
    push_cast
    linarith
  · -- The last block of the interval: what was left is a whole interval at twice the reward.
    obtain ⟨quot, rest⟩ := (Nat.div_mod_unique pos).mpr
      (⟨by rw [Nat.mul_add]; omega, pos⟩
        : 0 + interval * (blocks / interval + 1) = blocks + 1 ∧ _)
    have last : blocks % interval = interval - 1 := by omega
    have half := two_mul_reward_succ (blocks / interval)
    rw [outstanding, outstanding, quot, rest, last]
    push_cast [pos]
    nlinarith

theorem outstanding_nonneg {interval} (pos : 0 < interval) (blocks)
    : 0 ≤ outstanding interval blocks := by
  have inside := Nat.mod_lt blocks pos
  exact mul_nonneg (by omega) (reward_nonneg _)

section

variable (simplified : consensusParams.fSimplifiedRewards = true)

include simplified

theorem emission_early (pos : 0 < consensusParams.nSubsidyHalvingInterval)
    (prevHashes : Nat → Uint256) {nHeight} (early : nHeight ≤ 26250)
    : emission generateMTRandom consensusParams prevHashes nHeight
      = some (nHeight * (1024 * COIN)) := by
  induction nHeight with
  | zero => simp [emission]
  | succ nHeight ih =>
    have height : ((nHeight : Int) + 1) ≤ 26250 := by omega
    rw [emission, ih (by omega), subsidy_early simplified pos height]
    simp only [Option.some.injEq]
    push_cast
    ring

variable {interval : Nat} (pos : 0 < interval)
  (same : consensusParams.nSubsidyHalvingInterval = interval)

include pos same

theorem subsidy_behind (blocks) (prevHash)
    : getPqcoinBlockSubsidy generateMTRandom (((26250 + blocks : Nat) : Int) + 1) consensusParams
        prevHash
      = if (blocks + 1) / interval < 64 then some (reward ((blocks + 1) / interval))
        else none := by
  have behind : ((26250 + blocks : Nat) : Int) + 1 - 26250 = ((blocks + 1 : Nat) : Int) := by
    push_cast
    ring
  rw [subsidy_late simplified (by omega) (by omega), same, behind, ← natCast_ediv, toNat_natCast]
  norm_cast

/-- Once all halvings are used up the sum is not defined. -/
theorem emission_undefined (prevHashes : Nat → Uint256) {blocks} (many : 64 * interval ≤ blocks)
    : emission generateMTRandom consensusParams prevHashes (26250 + blocks) = none := by
  obtain ⟨before, rfl⟩ : ∃ before, blocks = before + 1 := ⟨blocks - 1, by omega⟩
  have full : 64 ≤ (before + 1) / interval := (Nat.le_div_iff_mul_le pos).mpr many
  rw [← Nat.add_assoc, emission, subsidy_behind simplified pos same, if_neg (by omega)]
  split
  · rename_i impossible
    cases impossible
  · rfl

/-- The rewards stay within the bound together with what is outstanding, by induction over
the blocks.
-/
theorem emission_late (prevHashes : Nat → Uint256) {blocks} (few : blocks / interval < 64)
    : ∃ total,
        emission generateMTRandom consensusParams prevHashes (26250 + blocks) = some total
        ∧ total + outstanding interval blocks
          ≤ 26250 * (1024 * COIN) + 2 * interval * (168 * COIN) := by
  induction blocks with
  | zero =>
    refine ⟨_, emission_early simplified (by omega) prevHashes (Nat.le_refl 26250), ?_⟩
    have first : reward 0 = 168 * COIN := by decide
    rw [outstanding, Nat.zero_mod, Nat.zero_div, first, COIN]
    push_cast
    linarith
  | succ blocks ih =>
    have earlier : blocks / interval < 64 :=
      lt_of_le_of_lt (Nat.div_le_div_right (Nat.le_succ blocks)) few
    obtain ⟨total, ran, bound⟩ := ih earlier
    have taken := outstanding_succ pos blocks
    refine ⟨total + reward ((blocks + 1) / interval), ?_, by linarith⟩
    rw [← Nat.add_assoc, emission, ran, subsidy_behind simplified pos same, if_pos few]

end

theorem emission_main_iff (simplified : consensusParams.fSimplifiedRewards = true)
    (main : consensusParams.nSubsidyHalvingInterval = 420000) (prevHashes : Nat → Uint256) (nHeight)
    : (∃ total,
        emission generateMTRandom consensusParams prevHashes nHeight = some total
        ∧ total ≤ 168000000 * COIN)
      ↔ nHeight < 26250 + 64 * 420000 := by
  have pos : 0 < 420000 := by decide
  by_cases early : nHeight ≤ 26250
  · rw [emission_early simplified (by omega) prevHashes early, COIN]
    constructor
    · intro _
      omega
    · intro _
      exact ⟨_, rfl, by omega⟩
  · obtain ⟨blocks, rfl⟩ : ∃ blocks, nHeight = 26250 + blocks := ⟨nHeight - 26250, by omega⟩
    constructor
    · rintro ⟨total, defined, -⟩
      by_contra many
      rw [emission_undefined simplified pos main prevHashes (by omega)] at defined
      cases defined
    · intro few
      obtain ⟨total, defined, bound⟩ := emission_late simplified pos main prevHashes
        (show blocks / 420000 < 64 by omega)
      have left := outstanding_nonneg pos blocks
      refine ⟨total, defined, ?_⟩
      rw [COIN] at bound ⊢
      push_cast at bound
      linarith

/-- With simplified rewards, the reward is defined and does not rise exactly while there are
fewer than 64 halvings, and the bound on the coins of the main network holds exactly as long:
then the shift leaves the width of its operand.
-/
theorem emission_bounded_iff (simplified : consensusParams.fSimplifiedRewards = true)
    (pos : 0 < consensusParams.nSubsidyHalvingInterval)
    : (∀ nHeight > 26250,
        ∀ prevHash hash,
          (∃ subsidy next,
            getPqcoinBlockSubsidy generateMTRandom nHeight consensusParams prevHash
              = some subsidy
            ∧ getPqcoinBlockSubsidy generateMTRandom (nHeight + 1) consensusParams hash
              = some next
            ∧ next ≤ subsidy)
          ↔ (nHeight + 1 - 26250) / consensusParams.nSubsidyHalvingInterval < 64)
      ∧ (consensusParams.nSubsidyHalvingInterval = 420000
        → ∀ prevHashes nHeight,
          (∃ total,
            emission generateMTRandom consensusParams prevHashes nHeight = some total
            ∧ total ≤ 168000000 * COIN)
          ↔ nHeight < 26250 + 64 * 420000) :=
  ⟨fun _ late => subsidy_defined_iff simplified pos late,
    fun main => emission_main_iff simplified main⟩

/-- The first block of the halvings, and the sum of the first million rewards. -/
theorem emission_bounded_main
    : (∃ subsidy next,
        getPqcoinBlockSubsidy (fun _ _ => 0) 26251 ⟨420000, true⟩ 0 = some subsidy
        ∧ getPqcoinBlockSubsidy (fun _ _ => 0) (26251 + 1) ⟨420000, true⟩ 0 = some next
        ∧ next ≤ subsidy)
      ∧ ∃ total,
          emission (fun _ _ => 0) ⟨420000, true⟩ (fun _ => 0) 1000000 = some total
          ∧ total ≤ 168000000 * COIN :=
  ⟨((emission_bounded_iff rfl (by decide)).1 26251 (by decide) 0 0).mpr (by decide),
    ((emission_bounded_iff rfl (by decide)).2 rfl (fun _ => 0) 1000000).mpr (by decide)⟩

/-- On the main network the shift is by 64 from height 26906250 on. -/
theorem subsidy_undefined_main
    : getPqcoinBlockSubsidy (fun _ _ => 0) 26906250 ⟨420000, true⟩ 0 = none
      ∧ emission (fun _ _ => 0) ⟨420000, true⟩ (fun _ => 0) 26906250 = none := by
  have undefined : emission (fun _ _ => 0) ⟨420000, true⟩ (fun _ => 0) (26250 + 64 * 420000)
      = none := emission_undefined rfl (by decide) rfl _ (Nat.le_refl _)
  exact ⟨by decide, undefined⟩

end Subsidy

end Pqcoin
