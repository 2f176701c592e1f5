import Pqcoin.Chain.BlockIndex

/-! The required target of the next block, `GetNextWorkRequired` of `pow.cpp`. -/

namespace Pqcoin

def compactOf (limit : Uint256) : BitVec 32 := (uintToArith256 limit).getCompact false

/-- The header comes more than two target spacings after its predecessor. -/
def IsLate (pindexLast : BlockIndex) (pblock : PureBlockHeader) (params : Params) : Prop :=
  pblock.getBlockTime > pindexLast.getBlockTime + params.nPowTargetSpacing * 2

instance (pindexLast : BlockIndex) (pblock : PureBlockHeader) (params : Params)
    : Decidable (IsLate pindexLast pblock params) :=
  inferInstanceAs (Decidable (_ > _))

def AllowDigishieldMinDifficultyForBlock (pindexLast : BlockIndex) (pblock : PureBlockHeader)
    (params : Params)
    : Prop :=
  params.fPowAllowMinDifficultyBlocks = true
  ∧ ¬ pindexLast.nHeight < 157500
  ∧ IsLate pindexLast pblock params

instance (pindexLast : BlockIndex) (pblock : PureBlockHeader) (params : Params)
    : Decidable (AllowDigishieldMinDifficultyForBlock pindexLast pblock params) :=
  inferInstanceAs (Decidable (_ ∧ _ ∧ _))

/-- "Return the last non-special-min-difficulty-rules-block": its `nBits`. -/
def lastRegularBits (params : Params) : BlockIndex → BitVec 32
  | .root _ header => header.nBits
  | .child pprev _ header =>
    if ((pprev.nHeight + 1 : Nat) : Int).tmod params.difficultyAdjustmentInterval ≠ 0
        ∧ header.nBits = compactOf params.powLimit then
      lastRegularBits params pprev
    else header.nBits

/-- `CalculatePqcoinNextWorkRequired_new`: the last recorded Litecoin target, capped. Its
other arguments only go to the log; `back()` of an empty vector is undefined.
-/
def calculatePqcoinNextWorkRequiredNew (ltc_nBits : List (BitVec 32)) (params : Params)
    : Option (BitVec 32) := do
  let nBits ← ltc_nBits.getLast?
  let bnNew_pq := (BaseUint.setCompact nBits).target
  let bnPowLimit := uintToArith256 params.powLimit
  return (if bnNew_pq.gt bnPowLimit then bnPowLimit else bnNew_pq).getCompact false

/-- `GetNextWorkRequired` on a previous block. There is no value where an assertion fails,
where the interval is zero, and where no Litecoin target has been recorded.
-/
def getNextWorkRequired (ltc_nBits : List (BitVec 32)) (pindexLast : BlockIndex)
    (pblock : PureBlockHeader) (params : Params)
    : Option (BitVec 32) :=
  let nHeight : Int := pindexLast.nHeight
  let interval : Int := if nHeight ≥ 145000 then 1 else params.difficultyAdjustmentInterval
  if AllowDigishieldMinDifficultyForBlock pindexLast pblock params then
    some (compactOf params.powLimit)
  else if nHeight = 0 then some (compactOf params.initPowDifficulty)
  else if interval = 0 then none
  else if (nHeight + 1).tmod interval ≠ 0 then
    if params.fPowAllowMinDifficultyBlocks then
      if IsLate pindexLast pblock params then some (compactOf params.powLimit)
      else some (lastRegularBits params pindexLast)
    else some pindexLast.nBits
  else
    let blockstogoback := if nHeight + 1 ≠ interval then interval else interval - 1
    let nHeightFirst := nHeight - blockstogoback
    if nHeightFirst < 0 then none
    else
      match pindexLast.getAncestor nHeightFirst.toNat with
      | none => none
      | some _ => calculatePqcoinNextWorkRequiredNew ltc_nBits params

theorem getNextWorkRequired_congr {left right} (same : left.nTime = right.nTime)
    (ltc_nBits pindexLast params)
    : getNextWorkRequired ltc_nBits pindexLast left params
      = getNextWorkRequired ltc_nBits pindexLast right params := by
  have late : IsLate pindexLast left params ↔ IsLate pindexLast right params := by
    simp only [IsLate, PureBlockHeader.getBlockTime, same]
  simp only [getNextWorkRequired, AllowDigishieldMinDifficultyForBlock, late]

end Pqcoin
