import Pqcoin.Chain.BlockIndex
import Pqcoin.Retarget.TargetStep

/-! The retarget state that `ProcessNewBlock` keeps in globals and text files, and its update
for one block.
-/

namespace Pqcoin

open List Option

variable (ctx : RetargetContext)

-- Globals and files

structure RetargetGlobals where
  count1 : BitVec 32
  count2 : BitVec 32
  ltc_block_counts : List (BitVec 32)
  btc_block_counts : List (BitVec 32)
  ltc_nBits : List (BitVec 32)
  btc_nBits : List (BitVec 32)
  deriving DecidableEq

/-- The text files, line by line. A count file holds one line once it has been written. -/
structure RetargetFiles where
  count1Txt : Option (BitVec 32)
  count2Txt : Option (BitVec 32)
  ltcBlockCountsTxt : List (BitVec 32)
  btcBlockCountsTxt : List (BitVec 32)
  ltcNbitsTxt : List (BitVec 32)
  btcNbitsTxt : List (BitVec 32)
  deriving DecidableEq

structure RetargetState extends RetargetGlobals where
  files : RetargetFiles
  deriving DecidableEq

def RetargetGlobals.cleared : RetargetGlobals := ⟨0, 0, [], [], [], []⟩

def RetargetState.fresh : RetargetState := ⟨.cleared, none, none, [], [], [], []⟩

def RetargetState.restart (r : RetargetState) : RetargetState := ⟨.cleared, r.files⟩

/-- What the update reads besides the state: the network's parameters, and the floating-point
part of `CalculatecoinNextWorkRequired_only_aux`, which maps the last four Bitcoin and
Litecoin counts, the actual and the intended time span to the two modulations in thousandths
(Bitcoin first). Every interval is a positive number of blocks.
-/
structure RetargetContext where
  chainparams : ChainParams
  modulation : List (BitVec 32) → List (BitVec 32) → Int → Int → BitVec 64 × BitVec 64
  positive : ∀ nHeight, 0 < (chainparams.getConsensus nHeight).difficultyAdjustmentInterval

def RetargetContext.consensus (nHeight : Nat) : Params :=
  ctx.chainparams.getConsensus (BitVec.ofNat 32 nHeight)

/-- `nHeight % consensus.DifficultyAdjustmentInterval() == 0`. -/
def RetargetContext.Retargets (nHeight : Nat) : Prop :=
  (nHeight : Int).tmod (ctx.consensus nHeight).difficultyAdjustmentInterval = 0

instance (ctx : RetargetContext) (nHeight : Nat) : Decidable (ctx.Retargets nHeight) :=
  inferInstanceAs (Decidable (_ = _))

-- The new targets

/-- The last four counts, the latest first; fewer are read past the vector. -/
def lastFour (counts : List (BitVec 32)) : Option (List (BitVec 32)) :=
  if counts.length < 4 then none else some (counts.reverse.take 4)

/-- `pindexFirst` of `CalculatecoinNextWorkRequired_only_aux`. -/
def periodStart (pindexLast : BlockIndex) (params : Params) : Option BlockIndex :=
  let nHeight : Int := pindexLast.nHeight + 1
  let height :=
    if nHeight > params.difficultyAdjustmentInterval then
      nHeight - params.difficultyAdjustmentInterval
    else nHeight - 1
  if height < 0 then none else pindexLast.getAncestor height.toNat

/-- The targets that `CalculatecoinNextWorkRequired_only_aux` computes, Litecoin first. There
are none where it reads past a vector or a null pointer.
-/
def RetargetContext.nextTargets (pindexLast : BlockIndex) (g : RetargetGlobals)
    : Option (BitVec 32 × BitVec 32) := do
  let params := ctx.consensus pindexLast.nHeight
  let pindexFirst ← periodStart pindexLast params
  let x_n ← lastFour g.btc_block_counts
  let y_n ← lastFour g.ltc_block_counts
  let m := ctx.modulation x_n y_n (pindexLast.getBlockTime - pindexFirst.getBlockTime)
    params.nPowTargetTimespan
  let bnPowLimit := uintToArith256 params.powLimit
  let btc ← g.btc_nBits.getLast?
  let ltc ← g.ltc_nBits.getLast?
  let bnNew_btc ← (retargetBtc bnPowLimit (BaseUint.setCompact btc).target m.1).toOption
  let bnNew_ltc ← (retargetLtc bnPowLimit (BaseUint.setCompact ltc).target m.2).toOption
  return (bnNew_ltc.getCompact false, bnNew_btc.getCompact false)

-- The update in memory

def isBitcoinParent (auxpow : Option AuxPow) : Bool :=
  auxpow.any (fun auxpow => auxpow.parentBlock.nVersion == 0x20000000)

namespace RetargetGlobals

def countBlock (auxpow : Option AuxPow) (g : RetargetGlobals) : RetargetGlobals :=
  if isBitcoinParent auxpow then { g with count2 := g.count2 + 1 }
  else { g with count1 := g.count1 + 1 }

def pushCounts (g : RetargetGlobals) : RetargetGlobals :=
  {
    g with
    ltc_block_counts := g.ltc_block_counts ++ [g.count1]
    btc_block_counts := g.btc_block_counts ++ [g.count2]
  }

def pushNBits (targets : BitVec 32 × BitVec 32) (g : RetargetGlobals) : RetargetGlobals :=
  {
    g with
    ltc_nBits := g.ltc_nBits ++ [targets.1]
    btc_nBits := g.btc_nBits ++ [targets.2]
  }

def resetCounts (g : RetargetGlobals) : RetargetGlobals := { g with count1 := 0, count2 := 0 }

/-- The targets of the next period, once its counts are recorded: computed from the fourth
period on, the initial one before.
-/
def periodTargets (ctx : RetargetContext) (tip : BlockIndex) (g : RetargetGlobals)
    : Option (BitVec 32 × BitVec 32) :=
  if g.ltc_block_counts.length ≥ 4 then ctx.nextTargets tip g
  else
    let init := (uintToArith256 (ctx.consensus tip.nHeight).initPowDifficulty).getCompact false
    some (init, init)

/-- What the update is for: the block is counted, and at the end of a period its counts and
the next targets are recorded. No file occurs.
-/
def advance (ctx : RetargetContext) (tip : BlockIndex) (auxpow : Option AuxPow)
    (g : RetargetGlobals)
    : Option RetargetGlobals :=
  let g := g.countBlock auxpow
  if ctx.Retargets tip.nHeight then
    let g := g.pushCounts
    (g.periodTargets ctx tip).map (fun targets => (g.pushNBits targets).resetCounts)
  else some g

end RetargetGlobals

-- The update with files

namespace RetargetState

variable (r : RetargetState) (ctx : RetargetContext)

/-- The counts of a new process, read back at most heights. `readToTxtCount` returns nothing
defined for a file without a line.
-/
def reloadCounts (nHeight : Nat) (r : RetargetState)
    : Option RetargetState :=
  if nHeight ≠ 1 ∧ ¬ ctx.Retargets nHeight ∧ r.count1 = 0 ∧ r.count2 = 0 then do
    let count1 ← r.files.count1Txt
    let count2 ← r.files.count2Txt
    return { r with count1 := count1, count2 := count2 }
  else some r

def writeCounts : RetargetState :=
  { r with files := { r.files with count1Txt := some r.count1, count2Txt := some r.count2 } }

def countBlock (auxpow : Option AuxPow) (r : RetargetState) : RetargetState :=
  writeCounts { r with toRetargetGlobals := r.toRetargetGlobals.countBlock auxpow }

def resetCounts (r : RetargetState) : RetargetState :=
  writeCounts { r with toRetargetGlobals := r.toRetargetGlobals.resetCounts }

/-- The recorded counts of a new process. The first assignment goes to the Bitcoin vector. -/
def reloadBlockCounts (nHeight : Nat) (r : RetargetState) : RetargetState :=
  if nHeight > 2016 then
    let r :=
      if r.ltc_block_counts = [] then { r with btc_block_counts := r.files.ltcBlockCountsTxt }
      else r
    if r.btc_block_counts = [] then { r with btc_block_counts := r.files.btcBlockCountsTxt }
    else r
  else r

/-- Both counts are appended, in memory and by `writeToTxt`. -/
def recordCounts : RetargetState :=
  {
    toRetargetGlobals := r.toRetargetGlobals.pushCounts
    files := {
      r.files with
      ltcBlockCountsTxt := r.files.ltcBlockCountsTxt ++ [r.count1]
      btcBlockCountsTxt := r.files.btcBlockCountsTxt ++ [r.count2]
    }
  }

def reloadNBits : RetargetState :=
  {
    r with
    ltc_nBits := if r.ltc_nBits = [] then r.files.ltcNbitsTxt else r.ltc_nBits
    btc_nBits := if r.btc_nBits = [] then r.files.btcNbitsTxt else r.btc_nBits
  }

/-- Both targets are appended, in memory and by `writeToTxt`. -/
def recordNBits (targets : BitVec 32 × BitVec 32) (r : RetargetState) : RetargetState :=
  {
    toRetargetGlobals := r.toRetargetGlobals.pushNBits targets
    files := {
      r.files with
      ltcNbitsTxt := r.files.ltcNbitsTxt ++ [targets.1]
      btcNbitsTxt := r.files.btcNbitsTxt ++ [targets.2]
    }
  }

/-- The targets of the next period: `CalculatecoinNextWorkRequired_only_aux` reloads them
first. The emptiness tests that follow in `ProcessNewBlock` are on vectors just appended to.
-/
def recordTargets (tip : BlockIndex) (r : RetargetState)
    : Option RetargetState :=
  let r := if r.ltc_block_counts.length ≥ 4 then r.reloadNBits else r
  (r.toRetargetGlobals.periodTargets ctx tip).map (fun targets => r.recordNBits targets)

/-- What `ProcessNewBlock` does for the delivered block after `ActivateBestChain`, with the
active tip it then finds.
-/
def recordBlock (tip : BlockIndex) (auxpow : Option AuxPow) (r : RetargetState)
    : Option RetargetState := do
  let r ← r.reloadCounts ctx tip.nHeight
  let r := r.countBlock auxpow
  if ctx.Retargets tip.nHeight then
    let r ← ((r.reloadBlockCounts tip.nHeight).recordCounts).recordTargets ctx tip
    return r.resetCounts
  else return r

end RetargetState

/-- Everything one call can do to the state. -/
theorem RetargetState.recordBlock_cases {ctx} {tip} {auxpow} {r r' : RetargetState}
    (stepped : r.recordBlock ctx tip auxpow = some r')
    : (¬ ctx.Retargets tip.nHeight
        ∧ ∃ loaded, r.reloadCounts ctx tip.nHeight = some loaded
          ∧ r' = loaded.countBlock auxpow)
      ∨ (ctx.Retargets tip.nHeight
        ∧ ∃ closed,
          (((r.countBlock auxpow).reloadBlockCounts tip.nHeight).recordCounts).recordTargets
            ctx tip = some closed
          ∧ r' = closed.resetCounts) := by
  simp only [recordBlock, bind_eq_bind, bind_eq_some_iff] at stepped
  obtain ⟨loaded, reload, stepped⟩ := stepped
  split at stepped
  · rename_i ends
    obtain ⟨closed, recorded, result⟩ := bind_eq_some_iff.mp stepped
    rw [reloadCounts, if_neg (fun reads => reads.2.1 ends)] at reload
    cases reload
    exact .inr ⟨ends, closed, recorded, (Option.some.inj result).symm⟩
  · rename_i continues
    exact .inl ⟨continues, loaded, reload, (Option.some.inj stepped).symm⟩

-- The files mirror the memory

def RetargetState.mirror (g : RetargetGlobals) : RetargetState where
  toRetargetGlobals := g
  files := ⟨some g.count1, some g.count2, g.ltc_block_counts, g.btc_block_counts, g.ltc_nBits,
    g.btc_nBits⟩

/-- Every recorded period has both counts and both targets. -/
structure RetargetGlobals.Paired (g : RetargetGlobals) : Prop where
  btcCounts : g.btc_block_counts.length = g.ltc_block_counts.length
  ltcTargets : g.ltc_nBits.length = g.ltc_block_counts.length
  btcTargets : g.btc_nBits.length = g.ltc_block_counts.length

theorem RetargetGlobals.Paired.cleared : cleared.Paired := ⟨rfl, rfl, rfl⟩

section Mirror

variable {ctx : RetargetContext} {tip : BlockIndex} {auxpow : Option AuxPow}
  {g g' : RetargetGlobals}

theorem RetargetGlobals.advance_cases (stepped : g.advance ctx tip auxpow = some g')
    : (¬ ctx.Retargets tip.nHeight ∧ g' = g.countBlock auxpow)
      ∨ (ctx.Retargets tip.nHeight
        ∧ ∃ targets, (g.countBlock auxpow).pushCounts.periodTargets ctx tip = some targets
          ∧ g' = ((g.countBlock auxpow).pushCounts.pushNBits targets).resetCounts) := by
  rw [RetargetGlobals.advance] at stepped
  split at stepped
  · rename_i ends
    obtain ⟨targets, computed, rfl⟩ := map_eq_some_iff.mp stepped
    exact .inr ⟨ends, targets, computed, rfl⟩
  · rename_i continues
    exact .inl ⟨continues, (Option.some.inj stepped).symm⟩

/-- Counting leaves the recorded vectors alone. -/
theorem RetargetGlobals.countBlock_eq (auxpow) (g : RetargetGlobals)
    : ∃ count1 count2, g.countBlock auxpow = { g with count1 := count1, count2 := count2 } := by
  rw [RetargetGlobals.countBlock]
  split <;> exact ⟨_, _, rfl⟩

/-- One block keeps the pairs. -/
theorem RetargetGlobals.Paired.advance (paired : g.Paired)
    (stepped : g.advance ctx tip auxpow = some g')
    : g'.Paired := by
  obtain ⟨count1, count2, counted⟩ := g.countBlock_eq auxpow
  obtain ⟨btcCounts, ltcTargets, btcTargets⟩ := paired
  rcases advance_cases stepped with ⟨_, rfl⟩ | ⟨_, targets, _, rfl⟩
  · rw [counted]
    exact ⟨btcCounts, ltcTargets, btcTargets⟩
  rw [counted]
  constructor
  all_goals
    simp only [resetCounts, pushNBits, pushCounts, length_append, length_singleton]
    omega

open RetargetState

theorem reloadCounts_mirror (nHeight g)
    : (mirror g).reloadCounts ctx nHeight = some (mirror g) := by
  rw [reloadCounts]
  split <;> rfl

theorem countBlock_mirror (auxpow) (g : RetargetGlobals)
    : (mirror g).countBlock auxpow = mirror (g.countBlock auxpow) := by
  obtain ⟨count1, count2, counted⟩ := g.countBlock_eq auxpow
  rw [countBlock, mirror, counted]
  rfl

theorem reloadBlockCounts_mirror (nHeight) (paired : g.Paired)
    : (mirror g).reloadBlockCounts nHeight = mirror g := by
  have empty (none : g.ltc_block_counts = []) : g.btc_block_counts = [] := by
    rw [← length_eq_zero_iff, paired.btcCounts, none]
    rfl
  cases g
  simp only [reloadBlockCounts, mirror] at empty ⊢
  split_ifs <;> simp_all

theorem reloadNBits_mirror (g) : (mirror g).reloadNBits = mirror g := by
  rw [reloadNBits, mirror, ite_self, ite_self]

theorem recordTargets_mirror (g)
    : (mirror g).recordTargets ctx tip
      = (g.periodTargets ctx tip).map (fun targets => mirror (g.pushNBits targets)) := by
  rw [recordTargets, reloadNBits_mirror, ite_self]
  rfl

/-- On mirrored files, the update of `ProcessNewBlock` is the one in memory, and the files
mirror its result.
-/
theorem recordBlock_mirror (paired : g.Paired)
    : (mirror g).recordBlock ctx tip auxpow = (g.advance ctx tip auxpow).map mirror := by
  have counted : (g.countBlock auxpow).Paired := by
    obtain ⟨count1, count2, same⟩ := g.countBlock_eq auxpow
    rw [same]
    exact ⟨paired.btcCounts, paired.ltcTargets, paired.btcTargets⟩
  have recorded : (mirror (g.countBlock auxpow)).recordCounts
      = mirror (g.countBlock auxpow).pushCounts := rfl
  rw [recordBlock, RetargetGlobals.advance, reloadCounts_mirror]
  simp only [bind_eq_bind, bind_some, countBlock_mirror,
    reloadBlockCounts_mirror tip.nHeight counted, recorded, recordTargets_mirror]
  split
  · cases (g.countBlock auxpow).pushCounts.periodTargets ctx tip with
    | none | some targets => rfl
  · rfl

/-- The first block after the genesis block does the same on files that do not exist yet. -/
theorem recordBlock_fresh (first : tip.nHeight = 1)
    : RetargetState.fresh.recordBlock ctx tip auxpow
      = (mirror .cleared).recordBlock ctx tip auxpow := by
  have unread : RetargetState.fresh.reloadCounts ctx tip.nHeight = some .fresh :=
    if_neg (fun reads => reads.1 first)
  have counted : RetargetState.fresh.countBlock auxpow
      = (mirror .cleared).countBlock auxpow := by
    rw [countBlock, countBlock]
    rfl
  rw [recordBlock, recordBlock, unread, reloadCounts_mirror]
  simp only [bind_eq_bind, bind_some, counted]

theorem periodStart_isSome (ctx : RetargetContext) (pindexLast)
    : ∃ pindexFirst, periodStart pindexLast (ctx.consensus pindexLast.nHeight)
      = some pindexFirst := by
  have positive : 0 < (ctx.consensus pindexLast.nHeight).difficultyAdjustmentInterval :=
    ctx.positive _
  have reached (height) (within : height ≤ pindexLast.nHeight)
      : ∃ pindexFirst, pindexLast.getAncestor height = some pindexFirst := by
    obtain ⟨found, reached, _⟩ := BlockIndex.ancestor_eq_some within
    exact ⟨found, by rw [BlockIndex.getAncestor_eq, reached]⟩
  simp only [periodStart]
  split_ifs
  · omega
  · exact reached _ (by omega)
  · omega
  · exact reached _ (by omega)

/-- With four periods recorded in full, the next targets are defined. -/
theorem nextTargets_isSome (tip : BlockIndex) (btcCounts : 4 ≤ g.btc_block_counts.length)
    (ltcCounts : 4 ≤ g.ltc_block_counts.length) (btcTargets : g.btc_nBits ≠ [])
    (ltcTargets : g.ltc_nBits ≠ [])
    : ∃ targets, ctx.nextTargets tip g = some targets := by
  obtain ⟨pindexFirst, started⟩ := periodStart_isSome ctx tip
  have btc := getLast?_eq_some_getLast btcTargets
  have ltc := getLast?_eq_some_getLast ltcTargets
  have step {next : BaseUint → Option (BitVec 32 × BitVec 32)}
      {computed : Except BaseUint.UintError BaseUint} (ok : ∃ value, computed = .ok value)
      (rest : ∀ value, ∃ targets, next value = some targets)
      : ∃ targets, computed.toOption.bind next = some targets := by
    obtain ⟨value, rfl⟩ := ok
    exact rest value
  simp only [RetargetContext.nextTargets, started, lastFour, btcCounts.not_gt, ltcCounts.not_gt,
    if_false, btc, ltc, bind_eq_bind, bind_some]
  exact step (retargetStep_isOk _ _ 1000 _ (by decide)) fun bnNew_btc =>
    step (retargetStep_isOk _ _ 100 _ (by decide)) fun bnNew_ltc => ⟨_, rfl⟩

/-- The update in memory is defined whenever the pairs are complete. -/
theorem RetargetGlobals.Paired.advance_isSome (paired : g.Paired) (ctx) (tip : BlockIndex) (auxpow)
    : ∃ g', g.advance ctx tip auxpow = some g' := by
  obtain ⟨count1, count2, counted⟩ := g.countBlock_eq auxpow
  have computed : ∃ targets, (g.countBlock auxpow).pushCounts.periodTargets ctx tip
      = some targets := by
    rw [counted, RetargetGlobals.periodTargets]
    split
    · rename_i enough
      simp only [RetargetGlobals.pushCounts, length_append, length_singleton] at enough
      obtain ⟨btcCounts, ltcTargets, btcTargets⟩ := paired
      apply nextTargets_isSome tip
      · simp only [RetargetGlobals.pushCounts, length_append, length_singleton]
        omega
      · simp only [RetargetGlobals.pushCounts, length_append, length_singleton]
        omega
      · simp only [RetargetGlobals.pushCounts, ← length_pos_iff]
        omega
      · simp only [RetargetGlobals.pushCounts, ← length_pos_iff]
        omega
    · exact ⟨_, rfl⟩
  obtain ⟨targets, computed⟩ := computed
  simp only [RetargetGlobals.advance, computed]
  split <;> exact ⟨_, rfl⟩

end Mirror

end Pqcoin
