import Pqcoin.Arith.Compact

/-! The consensus parameters that the modelled checks read, and their lookup by height. -/

namespace Pqcoin

/-- `Consensus::Params`, restricted to the fields that a modelled function uses. -/
structure Params where
  hashGenesisBlock : Uint256
  BIP65Height : Int
  BIP66Height : Int
  powLimit : Uint256
  initPowDifficulty : Uint256
  fPowAllowMinDifficultyBlocks : Bool
  nPowTargetSpacing : Int
  nPowTargetTimespan : Int
  nAuxpowChainId : BitVec 32
  fStrictChainId : Bool
  fAllowLegacyBlocks : Bool
  nHeightEffective : BitVec 32
  deriving DecidableEq

/-- `DifficultyAdjustmentInterval()`: a 64-bit division truncating towards zero. -/
def Params.difficultyAdjustmentInterval (params : Params) : Int :=
  params.nPowTargetTimespan.tdiv params.nPowTargetSpacing

/-- The search tree of consensus parameters; `nil` is a null `pLeft` or `pRight`. -/
inductive ConsensusTree where
  | nil
  | node (params : Params) (pLeft pRight : ConsensusTree)

/-- `Consensus::Params::GetConsensus`, `none` on a null pointer. -/
def ConsensusTree.getConsensus (nTargetHeight : BitVec 32) : ConsensusTree → Option Params
  | .nil => none
  | .node params pLeft pRight =>
    if nTargetHeight < params.nHeightEffective then
      some ((pLeft.getConsensus nTargetHeight).getD params)
    else if params.nHeightEffective < nTargetHeight then
      match pRight.getConsensus nTargetHeight with
      | some candidate =>
        if candidate.nHeightEffective ≤ nTargetHeight then some candidate else some params
      | none => some params
    else some params

-- The lookup by height

namespace ConsensusTree

def sets : ConsensusTree → List Params
  | .nil => []
  | .node params pLeft pRight => pLeft.sets ++ params :: pRight.sets

/-- The effective heights rise strictly from left to right. -/
def Ordered (tree : ConsensusTree) : Prop :=
  tree.sets.Pairwise (·.nHeightEffective < ·.nHeightEffective)

instance (tree : ConsensusTree) : Decidable tree.Ordered :=
  inferInstanceAs (Decidable (List.Pairwise _ _))

/-- What the lookup returns from any subtree: one of its sets, and the greatest that is not above
the target if there is one. A candidate of the right branch that is too high shows that the whole
branch is.
-/
theorem getConsensus_spec {tree : ConsensusTree} (ordered : tree.Ordered) (nTargetHeight)
    : (tree.sets = [] ∧ tree.getConsensus nTargetHeight = none)
      ∨ ∃ found ∈ tree.sets, tree.getConsensus nTargetHeight = some found
        ∧ ∀ set ∈ tree.sets, set.nHeightEffective ≤ nTargetHeight
          → found.nHeightEffective ≤ nTargetHeight
            ∧ set.nHeightEffective ≤ found.nHeightEffective := by
  induction tree with
  | nil => exact .inl ⟨rfl, rfl⟩
  | node params pLeft pRight ihLeft ihRight =>
    obtain ⟨left, right, apart⟩ := List.pairwise_append.mp ordered
    obtain ⟨above, right⟩ := List.pairwise_cons.mp right
    have below := fun set mem => apart set mem params (.head _)
    right
    simp only [sets, List.mem_append, List.mem_cons]
    rw [getConsensus]
    by_cases lower : nTargetHeight < params.nHeightEffective
    · rw [if_pos lower]
      rcases ihLeft left with ⟨empty, reached⟩ | ⟨found, inside, reached, greatest⟩ <;> rw [reached]
      · refine ⟨params, .inr (.inl rfl), rfl, ?_⟩
        rintro set (mem | rfl | mem) small
        · simp [empty] at mem
        · bv_omega
        · have := above set mem
          bv_omega
      · refine ⟨found, .inl inside, rfl, ?_⟩
        rintro set (mem | rfl | mem) small
        · exact greatest set mem small
        · bv_omega
        · have := above set mem
          bv_omega
    · rw [if_neg lower]
      have own (none : ∀ set ∈ pRight.sets, ¬ set.nHeightEffective ≤ nTargetHeight) {set}
          (mem : set ∈ pLeft.sets ∨ set = params ∨ set ∈ pRight.sets)
          (small : set.nHeightEffective ≤ nTargetHeight)
          : params.nHeightEffective ≤ nTargetHeight
            ∧ set.nHeightEffective ≤ params.nHeightEffective := by
        rcases mem with mem | rfl | mem
        · have := below set mem
          bv_omega
        · bv_omega
        · exact absurd small (none set mem)
      split
      · rcases ihRight right with ⟨empty, reached⟩ | ⟨candidate, inside, reached, greatest⟩
          <;> rw [reached]
        · exact ⟨params, .inr (.inl rfl), rfl, fun _ => own (by simp [empty])⟩
        dsimp only
        split
        · have := above candidate inside
          refine ⟨candidate, .inr (.inr inside), rfl, ?_⟩
          rintro set (mem | rfl | mem) small
          · have := below set mem
            bv_omega
          · bv_omega
          · exact greatest set mem small
        · rename_i high
          exact ⟨params, .inr (.inl rfl), rfl,
            fun _ => own fun set mem small => high (greatest set mem small).1⟩
      · refine ⟨params, .inr (.inl rfl), rfl, fun _ => own fun set mem small => ?_⟩
        have := above set mem
        bv_omega

/-- The lookup finds the set with the greatest effective height that is not above the target. -/
theorem getConsensus_greatest (tree : ConsensusTree) (ordered : tree.Ordered)
    (nTargetHeight : BitVec 32) (covered : ∃ set ∈ tree.sets, set.nHeightEffective ≤ nTargetHeight)
    : ∃ found ∈ tree.sets, tree.getConsensus nTargetHeight = some found
      ∧ found.nHeightEffective ≤ nTargetHeight
      ∧ ∀ set ∈ tree.sets, set.nHeightEffective ≤ nTargetHeight
        → set.nHeightEffective ≤ found.nHeightEffective := by
  obtain ⟨set, mem, small⟩ := covered
  rcases getConsensus_spec ordered nTargetHeight with
    ⟨empty, -⟩ | ⟨found, inside, reached, greatest⟩
  · simp [empty] at mem
  exact ⟨found, inside, reached, (greatest set mem small).1,
    fun other mem small => (greatest other mem small).2⟩

end ConsensusTree

/-- `CChainParams`, restricted to what a modelled function uses: the root of the parameter
tree with its two branches, and the heights of `checkpointData.mapCheckpoints`.
-/
structure ChainParams where
  consensus : Params
  pLeft : ConsensusTree
  pRight : ConsensusTree
  checkpoints : List (Nat × Uint256)

def ChainParams.getConsensus (chainparams : ChainParams) (nTargetHeight : BitVec 32) : Params :=
  ((ConsensusTree.node chainparams.consensus chainparams.pLeft
    chainparams.pRight).getConsensus nTargetHeight).getD chainparams.consensus

-- The main network

/-- `consensus` and `digishieldConsensus` of `CMainParams`, which agree on these fields. The
genesis hash is computed at start-up, so it is left to the hash function in use.
-/
def mainConsensus (hashGenesisBlock : Uint256) : Params where
  hashGenesisBlock := hashGenesisBlock
  BIP65Height := 3464751
  BIP66Height := 1034383
  powLimit := BitVec.ofNat 256 (2 ^ 255 - 1)
  initPowDifficulty := BitVec.ofNat 256 (2 ^ 255 - 1)
  fPowAllowMinDifficultyBlocks := false
  nPowTargetSpacing := 300
  nPowTargetTimespan := 7 * 24 * 60 * 60
  nAuxpowChainId := 0x0062
  fStrictChainId := true
  fAllowLegacyBlocks := true
  nHeightEffective := 0

/-- Parameter sets for the heights `0`, `10` and `20`. -/
def threeSets : ConsensusTree :=
  let set (nHeightEffective : BitVec 32) : Params :=
    { mainConsensus 0 with nHeightEffective := nHeightEffective }
  .node (set 10) (.node (set 0) .nil .nil) (.node (set 20) .nil .nil)

/-- The middle one of three sets is in force. -/
theorem getConsensus_greatest_three
    : ∃ found ∈ threeSets.sets, threeSets.getConsensus 15 = some found
      ∧ found.nHeightEffective ≤ 15
      ∧ ∀ set ∈ threeSets.sets, set.nHeightEffective ≤ 15
        → set.nHeightEffective ≤ found.nHeightEffective :=
  ConsensusTree.getConsensus_greatest threeSets (by decide) 15 (by decide)

def mainAuxpowConsensus (hashGenesisBlock : Uint256) : Params :=
  { mainConsensus hashGenesisBlock with fAllowLegacyBlocks := false }

/-- `CMainParams`: all three sets become effective at height `0`, and no checkpoint is set. -/
def mainParams (hashGenesisBlock : Uint256) : ChainParams where
  consensus := mainConsensus hashGenesisBlock
  pLeft := .node (mainConsensus hashGenesisBlock) .nil .nil
  pRight := .node (mainAuxpowConsensus hashGenesisBlock) .nil .nil
  checkpoints := []

theorem mainParams_interval (hashGenesisBlock nTargetHeight)
    : ((mainParams hashGenesisBlock).getConsensus nTargetHeight).difficultyAdjustmentInterval
      = 2016 := by
  simp only [ChainParams.getConsensus, mainParams, ConsensusTree.getConsensus, mainConsensus,
    mainAuxpowConsensus]
  split_ifs <;> rfl

theorem mainParams_chainId (hashGenesisBlock nTargetHeight)
    : ((mainParams hashGenesisBlock).getConsensus nTargetHeight).nAuxpowChainId = 0x62 := by
  simp only [ChainParams.getConsensus, mainParams, ConsensusTree.getConsensus, mainConsensus,
    mainAuxpowConsensus]
  split_ifs <;> rfl

end Pqcoin
