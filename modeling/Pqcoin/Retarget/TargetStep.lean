import Pqcoin.Consensus.Params

/-! The integer part of `CalculatecoinNextWorkRequired_only_aux`: a stored target is scaled by
the modulation in thousandths and capped. The product is taken modulo `2 ^ 256`.
-/

namespace Pqcoin

open BaseUint BitVec

variable (bnPowLimit bnNew : BaseUint) (low_rate nModulatedTimespan : BitVec 64)

-- The step on 256-bit integers

def accuracy : BitVec 64 := 1000

/-- The multiplication of a target by the modulation: the product first, or, when that
exceeds the limit, the quotient first. The modulation reaches `operator*=(uint32_t)`.
-/
def scaleTarget
    : Except BaseUint.UintError BaseUint :=
  let bnNew_over := bnNew.mulU32 (nModulatedTimespan.setWidth 32)
  if bnNew_over.gt bnPowLimit then do
    let quot ← bnNew.div (BaseUint.ofUint64 accuracy)
    return quot.mulU32 (nModulatedTimespan.setWidth 32)
  else bnNew_over.div (BaseUint.ofUint64 accuracy)

/-- One parent's target: scaled, then held below `bnPowLimit / low_rate`. -/
def retargetStep (bnNew : BaseUint) (nModulatedTimespan : BitVec 64)
    : Except BaseUint.UintError BaseUint := do
  let scaled ← scaleTarget bnPowLimit bnNew nModulatedTimespan
  let bnPowLimit_low ← bnPowLimit.div (BaseUint.ofUint64 low_rate)
  return if scaled.gt bnPowLimit_low then bnPowLimit_low else scaled

/-- The Bitcoin parent's target, with `btc_low_rate = 1000`. -/
def retargetBtc (bnNew_btc : BaseUint) (nModulatedTimespan_btc : BitVec 64)
    : Except BaseUint.UintError BaseUint :=
  retargetStep bnPowLimit 1000 bnNew_btc nModulatedTimespan_btc

/-- The Litecoin parent's target, with `ltc_low_rate = 100`. -/
def retargetLtc (bnNew_ltc : BaseUint) (nModulatedTimespan_ltc : BitVec 64)
    : Except BaseUint.UintError BaseUint :=
  retargetStep bnPowLimit 100 bnNew_ltc nModulatedTimespan_ltc

-- The step on numbers

/-- What `scaleTarget` computes, as a number. -/
def scaledValue (limit target modulation : Nat) : Nat :=
  if limit < target * modulation % 2 ^ 256 then target / 1000 * modulation % 2 ^ 256
  else target * modulation % 2 ^ 256 / 1000

theorem toNat_scaleTarget (word : nModulatedTimespan.toNat < 2 ^ 32)
    : ∃ scaled, scaleTarget bnPowLimit bnNew nModulatedTimespan = .ok scaled
      ∧ scaled.toNat
        = scaledValue bnPowLimit.toNat bnNew.toNat nModulatedTimespan.toNat := by
  have thousand : (ofUint64 accuracy).toNat = 1000 := by
    rw [toNat_ofUint64]
    rfl
  have factor : (nModulatedTimespan.setWidth 32).toNat = nModulatedTimespan.toNat := by
    rw [toNat_setWidth, Nat.mod_eq_of_lt word]
  simp only [scaleTarget, scaledValue, gt_iff, toNat_mulU32, factor]
  split
  · obtain ⟨quot, computed, value⟩ :=
      div_eq bnNew (ofUint64 accuracy) (by rw [thousand]; decide)
    refine ⟨_, by rw [computed]; rfl, ?_⟩
    rw [toNat_mulU32, factor, value, thousand]
  · obtain ⟨quot, computed, value⟩ :=
      div_eq (bnNew.mulU32 (nModulatedTimespan.setWidth 32))
        (ofUint64 accuracy) (by rw [thousand]; decide)
    refine ⟨quot, computed, ?_⟩
    rw [value, thousand, toNat_mulU32, factor]

theorem toNat_retargetStep (pos : 0 < low_rate.toNat) (word : nModulatedTimespan.toNat < 2 ^ 32)
    : ∃ next, retargetStep bnPowLimit low_rate bnNew nModulatedTimespan = .ok next
      ∧ next.toNat
        = min (bnPowLimit.toNat / low_rate.toNat)
          (scaledValue bnPowLimit.toNat bnNew.toNat nModulatedTimespan.toNat) := by
  obtain ⟨scaled, scaling, value⟩ := toNat_scaleTarget bnPowLimit bnNew nModulatedTimespan word
  obtain ⟨low, dividing, cap⟩ := div_eq bnPowLimit (ofUint64 low_rate)
    (by rwa [toNat_ofUint64])
  rw [toNat_ofUint64] at cap
  refine ⟨if scaled.gt low then low else scaled, ?_, ?_⟩
  · rw [retargetStep, scaling, dividing]
    rfl
  · rw [← value, ← cap]
    split
    · rename_i above
      rw [gt_iff] at above
      omega
    · rename_i within
      rw [gt_iff] at within
      omega

theorem retargetStep_isOk (pos : 0 < low_rate.toNat)
    : ∃ next, retargetStep bnPowLimit low_rate bnNew nModulatedTimespan = .ok next := by
  have low : ((nModulatedTimespan.setWidth 32).setWidth 64).setWidth 32
      = nModulatedTimespan.setWidth 32 := by
    rw [setWidth_setWidth_of_le _ (by decide), setWidth_eq]
  obtain ⟨next, computed, _⟩ := toNat_retargetStep bnPowLimit bnNew low_rate
    ((nModulatedTimespan.setWidth 32).setWidth 64) pos
    (by rw [toNat_setWidth]; omega)
  refine ⟨next, ?_⟩
  rw [← computed]
  simp only [retargetStep, scaleTarget, low]

-- When the step scales faithfully

/-- Dividing first loses less than one multiple of the modulation. -/
theorem div_mul_le_mul_div (target modulation)
    : target / 1000 * modulation ≤ target * modulation / 1000
      ∧ target * modulation / 1000 ≤ target / 1000 * modulation + modulation := by
  constructor
  · rw [Nat.le_div_iff_mul_le (by decide)]
    calc target / 1000 * modulation * 1000
        = target / 1000 * 1000 * modulation := by ring
      _ ≤ target * modulation := Nat.mul_le_mul_right _ (Nat.div_mul_le_self _ _)
  · apply Nat.div_le_of_le_mul
    have split := Nat.div_add_mod target 1000
    have rest := Nat.mod_lt target (show 1000 > 0 by decide)
    calc target * modulation
        = (1000 * (target / 1000) + target % 1000) * modulation := by rw [split]
      _ ≤ (1000 * (target / 1000) + 1000) * modulation := Nat.mul_le_mul_right _ (by omega)
      _ = 1000 * (target / 1000 * modulation + modulation) := by ring

theorem scaledValue_le (limit target modulation)
    : scaledValue limit target modulation ≤ target * modulation / 1000 := by
  rw [scaledValue]
  split
  · exact (Nat.mod_le _ _).trans (div_mul_le_mul_div target modulation).1
  · exact Nat.div_le_div_right (Nat.mod_le _ _)

/-- No product that the step relies on wraps, or its residue still reaches the cap. The full
product counts where its residue stays within the limit, the quotient's product elsewhere.
-/
def WithoutHarmfulWrap (cap limit target modulation : Nat) : Prop :=
  if limit < target * modulation % 2 ^ 256 then
    target / 1000 * modulation < 2 ^ 256 ∨ cap ≤ target / 1000 * modulation % 2 ^ 256
  else target * modulation < 2 ^ 256 ∨ cap ≤ target * modulation % 2 ^ 256 / 1000

/-- A residue of the full product below the product itself is below the quotient's multiple:
the quotient loses less than a thousand modulations, a wrap at least `2 ^ 256`.
-/
theorem mod_div_lt_of_wraps {target modulation} (small : modulation ≤ 5000)
    (wraps : 2 ^ 256 ≤ target * modulation)
    : target * modulation % 2 ^ 256 / 1000 < target / 1000 * modulation := by
  have lost := (div_mul_le_mul_div target modulation).2
  have turns := Nat.div_add_mod (target * modulation) (2 ^ 256)
  have once : 1 ≤ target * modulation / 2 ^ 256 := (Nat.one_le_div_iff (by decide)).mpr wraps
  omega

theorem min_le_scaledValue_iff (cap limit target modulation) (small : modulation ≤ 5000)
    : min cap (target / 1000 * modulation) ≤ min cap (scaledValue limit target modulation)
      ↔ WithoutHarmfulWrap cap limit target modulation := by
  have bound : min cap (target / 1000 * modulation)
        ≤ min cap (scaledValue limit target modulation)
      ↔ target / 1000 * modulation ≤ scaledValue limit target modulation
        ∨ cap ≤ scaledValue limit target modulation := by omega
  rw [bound, WithoutHarmfulWrap, scaledValue]
  split
  · refine or_congr_left ⟨fun kept => ?_, fun fits => ?_⟩
    · exact Nat.lt_of_le_of_lt kept (Nat.mod_lt _ (by decide))
    · rw [Nat.mod_eq_of_lt fits]
  refine or_congr_left ⟨fun kept => ?_, fun fits => ?_⟩
  · by_contra wraps
    exact absurd kept (Nat.not_le_of_lt (mod_div_lt_of_wraps small (Nat.le_of_not_lt wraps)))
  · rw [Nat.mod_eq_of_lt fits]
    exact (div_mul_le_mul_div target modulation).1

/-- The two-sided bound of a faithful step, over the unbounded numbers, with its
consequences: at most one modulation is lost against the exact value, and a smaller
modulation never leads to a target that is larger by more than that.
-/
def FaithfulAt (step : BitVec 64 → Except BaseUint.UintError BaseUint) (cap target : Nat)
    (modulation : BitVec 64)
    : Prop :=
  ∃ next, step modulation = .ok next
    ∧ min cap (target / 1000 * modulation.toNat) ≤ next.toNat
    ∧ next.toNat ≤ min cap (target * modulation.toNat / 1000)
    ∧ min cap (target * modulation.toNat / 1000) ≤ next.toNat + modulation.toNat
    ∧ ∀ smaller : BitVec 64, smaller.toNat ≤ modulation.toNat
      → ∃ before, step smaller = .ok before
        ∧ before.toNat ≤ next.toNat + modulation.toNat

theorem retargetStep_faithfulAt_iff (modulation) (pos : 0 < low_rate.toNat)
    (small : modulation.toNat ≤ 5000)
    : FaithfulAt (retargetStep bnPowLimit low_rate bnNew)
        (bnPowLimit.toNat / low_rate.toNat) bnNew.toNat modulation
      ↔ WithoutHarmfulWrap (bnPowLimit.toNat / low_rate.toNat) bnPowLimit.toNat bnNew.toNat
        modulation.toNat := by
  obtain ⟨next, computed, value⟩ :=
    toNat_retargetStep bnPowLimit bnNew low_rate modulation pos (by omega)
  have exactBound (word : BitVec 64) := scaledValue_le bnPowLimit.toNat bnNew.toNat word.toNat
  rw [← min_le_scaledValue_iff _ _ _ _ small, ← value]
  constructor
  · rintro ⟨other, sameStep, lower, _⟩
    obtain rfl : next = other := by
      rw [computed] at sameStep
      exact Except.ok.inj sameStep
    exact lower
  · intro lower
    have lost := (div_mul_le_mul_div bnNew.toNat modulation.toNat).2
    have above := exactBound modulation
    have close : min (bnPowLimit.toNat / low_rate.toNat) (bnNew.toNat * modulation.toNat / 1000)
        ≤ next.toNat + modulation.toNat := by omega
    refine ⟨next, computed, lower, by omega, close, ?_⟩
    intro smaller order
    obtain ⟨before, earlier, earlierValue⟩ :=
      toNat_retargetStep bnPowLimit bnNew low_rate smaller pos (by omega)
    refine ⟨before, earlier, ?_⟩
    have exactOrder : bnNew.toNat * smaller.toNat / 1000 ≤ bnNew.toNat * modulation.toNat / 1000 :=
      Nat.div_le_div_right (Nat.mul_le_mul_left _ order)
    have earlierBound := exactBound smaller
    omega

/-- Both parents' steps are faithful exactly on the targets and modulations whose products
do not wrap harmfully, for every limit and every modulation the clamp can produce.
-/
theorem retarget_faithful_iff (powLimit : Uint256) (target : BaseUint) (modulation : BitVec 64)
    (atMost : modulation.toNat ≤ 5000)
    : (FaithfulAt (retargetBtc (uintToArith256 powLimit) target) (powLimit.toNat / 1000)
          target.toNat modulation
        ↔ WithoutHarmfulWrap (powLimit.toNat / 1000) powLimit.toNat target.toNat modulation.toNat)
      ∧ (FaithfulAt (retargetLtc (uintToArith256 powLimit) target) (powLimit.toNat / 100)
          target.toNat modulation
        ↔ WithoutHarmfulWrap (powLimit.toNat / 100) powLimit.toNat target.toNat
          modulation.toNat) := by
  have btc := retargetStep_faithfulAt_iff (uintToArith256 powLimit) target 1000 modulation
    (by decide) atMost
  have ltc := retargetStep_faithfulAt_iff (uintToArith256 powLimit) target 100 modulation
    (by decide) atMost
  rw [toNat_uintToArith256] at btc ltc
  exact ⟨btc, ltc⟩

/-- The stored target `0x1f200000` denotes `2 ^ 245`, just below the Bitcoin cap. -/
theorem toNat_highTarget : (setCompact 0x1f200000).target.toNat = 2 ^ 245 := by
  rw [toNat_setCompact]
  decide

/-- A high target and a factor of one. -/
theorem retarget_faithful_iff_unit
    : FaithfulAt
      (retargetBtc (uintToArith256 (mainConsensus 0).powLimit)
        (BaseUint.setCompact 0x1f200000).target)
      ((mainConsensus 0).powLimit.toNat / 1000)
      (BaseUint.setCompact 0x1f200000).target.toNat 1000 := by
  refine (retarget_faithful_iff _ _ 1000 (by decide)).1.mpr ?_
  rw [toNat_highTarget, WithoutHarmfulWrap, if_neg (by decide)]
  exact .inl (by decide)

/-- Scaling `2 ^ 245` by `4.096` wraps to zero on the main network, where the cap was due. -/
theorem retargetBtc_wraps_to_zero
    : (∃ next,
        retargetBtc (uintToArith256 (mainConsensus 0).powLimit)
          (BaseUint.setCompact 0x1f200000).target 4096 = .ok next
        ∧ next.toNat = 0)
      ∧ min ((mainConsensus 0).powLimit.toNat / 1000)
          ((BaseUint.setCompact 0x1f200000).target.toNat / 1000 * 4096)
        = (mainConsensus 0).powLimit.toNat / 1000
      ∧ 0 < (mainConsensus 0).powLimit.toNat / 1000 := by
  obtain ⟨next, computed, value⟩ := toNat_retargetStep
    (uintToArith256 (mainConsensus 0).powLimit) (setCompact 0x1f200000).target 1000 4096
    (by decide) (by decide)
  rw [toNat_highTarget] at value ⊢
  refine ⟨⟨next, computed, ?_⟩, by decide, by decide⟩
  rw [value, toNat_uintToArith256]
  decide

end Pqcoin
