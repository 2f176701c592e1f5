import Mathlib.Logic.Relation
import Pqcoin.Validation.Extension

/-! Runs of `ProcessNewBlock`, and when the retarget state is a function of the active chain.
-/

namespace Pqcoin

open List Node RetargetState

-- Undisturbed runs

/-- The blocks of `chainActive`, with the merge-mining proofs that are stored for them. -/
def Node.activeChain (node : Node) : List Connected :=
  node.tip.path.map (fun idx =>
    ⟨idx, (node.blockFiles idx.hash).bind (fun block => block.auxpow)⟩)

def blocksSinceRetarget (ctx : RetargetContext) : BlockIndex → Nat
  | .root _ _ => 0
  | .child pprev _ _ =>
    if ctx.Retargets (pprev.nHeight + 1) then 0
    else blocksSinceRetarget ctx pprev + 1

/-- The call refuses its block, or connects it and no other one. -/
def Undisturbed (ctx : NodeContext) (node : Node) (sent : Delivery) : Prop :=
  Refused ctx node sent ∨ ∃ entry, PlainExtension ctx node sent entry

def UndisturbedCall (ctx : NodeContext) (node after : Node) : Prop :=
  ∃ sent rounds reply, Undisturbed ctx node sent
    ∧ node.processNewBlock ctx rounds sent = some (after, reply)

/-- One undisturbed call after the other. -/
def UndisturbedRun (ctx : NodeContext) : Node → Node → Prop :=
  Relation.ReflTransGen (UndisturbedCall ctx)

section Run

variable {ctx : NodeContext} {start node after first second : Node}

theorem activeChain_extended {activated sent entry} (plain : PlainExtension ctx node sent entry)
    (extended : Extended node activated sent entry)
    : activated.activeChain = node.activeChain ++ [⟨entry, sent.block.auxpow⟩] := by
  have path : entry.path = node.tip.path ++ [entry] := by
    obtain ⟨hash, header, rfl⟩ := eq_child_of_pprev plain.above
    rfl
  rw [activeChain, activeChain, extended.tip, extended.blockFiles, path, map_append,
    map_singleton, Function.update_self]
  congr 1
  refine map_congr_left fun idx mem => ?_
  rw [Function.update_of_ne (plain.unconnected idx mem)]

theorem UndisturbedCall.cases (call : UndisturbedCall ctx node after)
    : (after.tip = node.tip ∧ after.activeChain = node.activeChain
        ∧ after.retarget = node.retarget)
      ∨ ∃ auxpow, after.tip.pprev = some node.tip ∧ after.tip.nHeight < 2 ^ 31
        ∧ after.activeChain = node.activeChain ++ [⟨after.tip, auxpow⟩]
        ∧ node.retarget.recordBlock ctx.toRetargetContext after.tip auxpow
          = some after.retarget := by
  obtain ⟨sent, rounds, reply, refused | ⟨entry, plain⟩, ran⟩ := call
  · obtain ⟨tip, blockFiles, retarget⟩ := processNewBlock_refused refused ran
    refine .inl ⟨tip, ?_, retarget⟩
    rw [activeChain, activeChain, tip, blockFiles]
  cases rounds with
  | zero =>
    obtain ⟨received, accepted, _⟩ := acceptBlock_extends plain
    simp [processNewBlock, checkBlock_eq plain.accepted, accepted, activateBestChain]
      at ran
  | succ rounds =>
    obtain ⟨activated, extended, called⟩ := processNewBlock_extends plain rounds
    rw [called, Option.map_eq_some_iff] at ran
    obtain ⟨retarget, recorded, same⟩ := ran
    cases same
    obtain rfl := extended.tip
    have longer := activeChain_extended plain extended
    exact .inr ⟨sent.block.auxpow, plain.above, plain.height, longer, recorded⟩

theorem UndisturbedRun.blocks (run : UndisturbedRun ctx start node)
    : ∃ blocks, node.activeChain = start.activeChain ++ blocks
      ∧ recordBlocks ctx.toRetargetContext blocks start.retarget = some node.retarget := by
  induction run with
  | refl => exact ⟨[], (append_nil _).symm, rfl⟩
  | @tail middle after run call ih =>
    obtain ⟨blocks, chain, recorded⟩ := ih
    rcases call.cases with ⟨_, same, kept⟩ | ⟨auxpow, _, _, longer, step⟩
    · exact ⟨blocks, same.trans chain, kept ▸ recorded⟩
    refine ⟨blocks ++ [⟨after.tip, auxpow⟩], ?_, ?_⟩
    · rw [longer, chain, append_assoc]
    · rw [recordBlocks_append, recorded, Option.bind_some, recordBlocks, step]
      rfl

theorem UndisturbedRun.retarget_eq (firstRun : UndisturbedRun ctx start first)
    (secondRun : UndisturbedRun ctx start second) (same : first.activeChain = second.activeChain)
    : first.retarget = second.retarget := by
  obtain ⟨blocks, firstChain, firstState⟩ := firstRun.blocks
  obtain ⟨others, secondChain, secondState⟩ := secondRun.blocks
  have alike : blocks = others :=
    append_cancel_left (firstChain.symm.trans (same.trans secondChain))
  rw [alike] at firstState
  exact Option.some.inj (firstState.symm.trans secondState)

-- Counts

/-- The counts are those of the blocks since the last adjustment, and the files mirror the
memory, or nothing has been written yet.
-/
def Settled (ctx : RetargetContext) (node : Node) : Prop :=
  (node.retarget = .fresh ∧ node.tip.nHeight = 0)
  ∨ ∃ g, node.retarget = mirror g ∧ g.Paired
    ∧ g.count1.toNat + g.count2.toNat = blocksSinceRetarget ctx node.tip

theorem blocksSinceRetarget_le (ctx idx)
    : blocksSinceRetarget ctx idx ≤ idx.nHeight := by
  induction idx with
  | root hash header => exact Nat.le_refl 0
  | child pprev hash header ih =>
    rw [blocksSinceRetarget, BlockIndex.nHeight]
    split
    · exact Nat.zero_le _
    · exact Nat.succ_le_succ ih

theorem sum_countBlock {g : RetargetGlobals} (auxpow)
    (small : g.count1.toNat + g.count2.toNat + 1 < 2 ^ 32)
    : (g.countBlock auxpow).count1.toNat + (g.countBlock auxpow).count2.toNat
      = g.count1.toNat + g.count2.toNat + 1 := by
  rw [RetargetGlobals.countBlock]
  split
  · rw [BitVec.toNat_add_of_lt (by simp; omega)]
    simp
    omega
  · rw [BitVec.toNat_add_of_lt (by simp; omega)]
    simp
    omega

theorem sum_advance {ctx : RetargetContext} {tip idx} {g g' : RetargetGlobals}
    {auxpow} (above : idx.pprev = some tip) (height : idx.nHeight < 2 ^ 31)
    (sum : g.count1.toNat + g.count2.toNat = blocksSinceRetarget ctx tip)
    (stepped : g.advance ctx idx auxpow = some g')
    : g'.count1.toNat + g'.count2.toNat = blocksSinceRetarget ctx idx := by
  have level := nHeight_of_pprev above
  have bounded := blocksSinceRetarget_le ctx tip
  obtain ⟨hash, header, rfl⟩ := eq_child_of_pprev above
  rw [blocksSinceRetarget, ← level]
  rcases RetargetGlobals.advance_cases stepped with ⟨ordinary, rfl⟩ | ⟨ends, targets, _, rfl⟩
  · rw [if_neg ordinary, sum_countBlock auxpow (by omega), sum]
  rw [if_pos ends]
  rfl

theorem Settled.call (settled : Settled ctx.toRetargetContext node)
    (call : UndisturbedCall ctx node after)
    : Settled ctx.toRetargetContext after := by
  rcases call.cases with ⟨tip, _, kept⟩ | ⟨auxpow, above, height, _, recorded⟩
  · rw [Settled, tip, kept]
    exact settled
  -- a new data directory behaves as one that mirrors cleared globals
  have mirrored : ∃ g, (mirror g).recordBlock ctx.toRetargetContext after.tip auxpow
        = some after.retarget
      ∧ g.Paired
      ∧ g.count1.toNat + g.count2.toNat
        = blocksSinceRetarget ctx.toRetargetContext node.tip := by
    rcases settled with ⟨fresh, start⟩ | ⟨g, same, paired, sum⟩
    · have first : after.tip.nHeight = 1 := by rw [nHeight_of_pprev above, start]
      have bounded := blocksSinceRetarget_le ctx.toRetargetContext node.tip
      refine ⟨.cleared, ?_, .cleared, ?_⟩
      · rw [← recordBlock_fresh first, ← fresh, recorded]
      · rw [start] at bounded
        exact (Nat.le_zero.mp bounded).symm
    · exact ⟨g, same ▸ recorded, paired, sum⟩
  obtain ⟨g, recorded, paired, sum⟩ := mirrored
  rw [recordBlock_mirror paired, Option.map_eq_some_iff] at recorded
  obtain ⟨g', stepped, same⟩ := recorded
  exact .inr ⟨g', same.symm, paired.advance stepped, sum_advance above height sum stepped⟩

theorem UndisturbedRun.sum (run : UndisturbedRun ctx start node)
    (settled : Settled ctx.toRetargetContext start)
    : node.retarget.count1.toNat + node.retarget.count2.toNat
      = blocksSinceRetarget ctx.toRetargetContext node.tip := by
  have reached : Settled ctx.toRetargetContext node := by
    induction run with
    | refl => exact settled
    | tail run call ih => exact ih.call call
  rcases reached with ⟨fresh, start⟩ | ⟨g, same, _, sum⟩
  · have bounded := blocksSinceRetarget_le ctx.toRetargetContext node.tip
    rw [start] at bounded
    rw [fresh]
    exact (Nat.le_zero.mp bounded).symm
  · rw [same]
    exact sum

/-- The block of the delivered header is stored. -/
def Known (ctx : NodeContext) (node : Node) (sent : Delivery) : Prop :=
  ∃ idx, node.find (sent.block.getHash ctx.H) = some idx ∧ node.HaveData idx

/-- An undisturbed call can only refuse a block that is stored already. -/
theorem Known.retarget_eq {sent rounds reply} (known : Known ctx node sent)
    (undisturbed : Undisturbed ctx node sent)
    (ran : node.processNewBlock ctx rounds sent = some (after, reply))
    : after.retarget = node.retarget := by
  rcases undisturbed with refused | ⟨entry, plain⟩
  · exact (processNewBlock_refused refused ran).2.2
  obtain ⟨idx, found, data⟩ := known
  rcases plain.announced with ⟨same, _, missing, _⟩ | ⟨fresh, _⟩
  · cases found.symm.trans same
    exact absurd data missing
  · cases found.symm.trans fresh

/-- Whatever block extended the chain, its second delivery makes the update once more on the
same chain.
-/
theorem redelivered_extension {activated sent entry} (plain : PlainExtension ctx node sent entry)
    (extended : Extended node activated sent entry) (retarget rounds)
    : { activated with retarget := retarget }.processNewBlock ctx (rounds + 1) sent
      = (retarget.recordBlock ctx.toRetargetContext entry sent.block.auxpow).map
          (fun again => ({ activated with retarget := again }, ⟨true, false⟩)) := by
  obtain rfl := extended.tip
  have listed : activated.find (sent.block.getHash ctx.H) = some activated.tip := by
    rw [← plain.announced.hash]
    exact extended.listed
  exact processNewBlock_redelivered { activated with retarget := retarget } plain.accepted
    plain.other listed (not_not.mpr extended.unfailed) extended.data extended.candidates rounds

end Run

/-- In runs whose calls refuse their block or connect it and no other one, the retarget state
is a function of the active chain, the counts sum up to the blocks since the last adjustment,
and a block that is stored already changes nothing.
-/
theorem retargetState_of_activeChain (ctx : NodeContext) (start first second : Node)
    (firstRun : UndisturbedRun ctx start first) (secondRun : UndisturbedRun ctx start second)
    : (first.activeChain = second.activeChain
        → first.retarget.toRetargetGlobals = second.retarget.toRetargetGlobals)
      ∧ (Settled ctx.toRetargetContext start
        → first.retarget.count1.toNat + first.retarget.count2.toNat
          = blocksSinceRetarget ctx.toRetargetContext first.tip)
      ∧ ∀ sent rounds after reply, Known ctx first sent
        → Undisturbed ctx first sent
        → first.processNewBlock ctx rounds sent = some (after, reply)
        → after.retarget.toRetargetGlobals = first.retarget.toRetargetGlobals := by
  refine ⟨fun same => ?_, firstRun.sum, fun sent rounds after reply known calm ran => ?_⟩
  · rw [firstRun.retarget_eq secondRun same]
  · rw [known.retarget_eq calm ran]

-- Two runs

/-- The main network, with `1` for the hash of the genesis block and verdicts that refuse
nothing.
-/
def lenientContext : NodeContext where
  chainparams := mainParams 1
  modulation _ _ _ _ := (1000, 1000)
  positive _ := by rw [mainParams_interval]; decide
  H := zeroHashing
  fCheckpointsEnabled := true
  contextualCheckBlock _ _ := .ok ()
  connectBlock _ _ := .ok ()
  address hash := hash.toNat

/-- A new node: the genesis block is all it has. -/
def genesisNode : Node where
  mapBlockIndex := [.root 1 ⟨1, 0, 0, 0, 0x207fffff, 0⟩]
  nStatus _ := BLOCK_VALID_SCRIPTS ||| BLOCK_HAVE_DATA
  gFailedBlocks := []
  distinct := nodup_singleton _
  nTx _ := 1
  nChainTx _ := 1
  nSequenceId _ := 1
  nBlockSequenceId := 2
  setBlockIndexCandidates := [.root 1 ⟨1, 0, 0, 0, 0x207fffff, 0⟩]
  mapBlocksUnlinked := []
  blockFiles _ := none
  tip := .root 1 ⟨1, 0, 0, 0, 0x207fffff, 0⟩
  retarget := .fresh

/-- The hash of a header is the low byte of its time. -/
def timedHashing : Hashing :=
  ⟨fun bytes => if bytes.length = 80 then BitVec.ofNat 256 (bytes.getD 68 0).toNat else 0,
    fun _ => 0⟩

/-- A block of time 9 is refused. -/
def timedContext : NodeContext :=
  { lenientContext with
    H := timedHashing
    contextualCheckBlock := fun block _ =>
      if block.nTime = 9 then .error (invalid 10 "") else .ok () }

def timed (hashPrevBlock : Uint256) (nTime : BitVec 32) : Delivery :=
  ⟨⟨{ plainHeader with hashPrevBlock := hashPrevBlock, nTime := nTime }, [multisigCoinBase 0],
    false⟩, false, 0⟩

def Node.entryOf (node : Node) (sent : Delivery) : BlockIndex :=
  .child node.tip (sent.block.getHash timedHashing) sent.block.toPureBlockHeader

def Node.deliver (node : Node) (sent : Delivery) : Node :=
  ((node.processNewBlock timedContext 1 sent).getD (node, ⟨false, false⟩)).1

/-- Two blocks, and the same two behind a block that is refused but stays in the index. -/
theorem retargetState_of_activeChain_detour
    : ∃ direct detour, UndisturbedRun timedContext genesisNode direct
      ∧ UndisturbedRun timedContext genesisNode detour
      ∧ direct.tip.nHeight = 2
      ∧ direct.mapBlockIndex.length = 3 ∧ detour.mapBlockIndex.length = 4
      ∧ direct.retarget.toRetargetGlobals = detour.retarget.toRetargetGlobals
      ∧ detour.retarget.count1.toNat + detour.retarget.count2.toNat
        = blocksSinceRetarget timedContext.toRetargetContext detour.tip := by
  have call {node sent} (calm : Undisturbed timedContext node sent)
      (ran : (node.processNewBlock timedContext 1 sent).isSome = true)
      : UndisturbedCall timedContext node (node.deliver sent) := by
    obtain ⟨⟨after, reply⟩, ran⟩ := Option.isSome_iff_exists.mp ran
    exact ⟨sent, 1, reply, calm, by simp [deliver, ran]⟩
  have extend {node sent} (plain : PlainExtension timedContext node sent (node.entryOf sent))
      := call (.inr ⟨_, plain⟩)
  have refused : Refused timedContext genesisNode (timed 1 9) := by
    refine @Refused.contextual _ _ _ _ (genesisNode.entryOf (timed 1 9)) (invalid 10 "")
      (Prod.ext rfl ?_) ?_ ?_ ?_
    all_goals decide +kernel
  have direct : UndisturbedRun timedContext genesisNode
      ((genesisNode.deliver (timed 1 2)).deliver (timed 2 3)) := by
    refine .tail (.single (extend ?_ (by decide +kernel))) (extend ?_ (by decide +kernel))
    all_goals constructor <;> decide +kernel
  have detour : UndisturbedRun timedContext genesisNode
      (((genesisNode.deliver (timed 1 9)).deliver (timed 1 2)).deliver (timed 2 3)) := by
    refine .tail (.tail (.single (call (.inl refused) (by decide +kernel)))
      (extend ?_ (by decide +kernel))) (extend ?_ (by decide +kernel))
    all_goals constructor <;> decide +kernel
  obtain ⟨same, -⟩ := retargetState_of_activeChain _ _ _ _ direct detour
  obtain ⟨-, sum, -⟩ := retargetState_of_activeChain _ _ _ _ detour direct
  exact ⟨_, _, direct, detour, by decide +kernel, by decide +kernel, by decide +kernel,
    same (by decide +kernel), sum (.inl ⟨rfl, rfl⟩)⟩

-- A block delivered twice

def firstHeader : BlockHeader := { plainHeader with hashPrevBlock := 1, nTime := 1 }

def firstDelivery : Delivery := ⟨⟨firstHeader, [multisigCoinBase 0], false⟩, false, 0⟩

def firstEntry : BlockIndex := .child genesisNode.tip 0 firstHeader.toPureBlockHeader

theorem firstDelivery_plain
    : PlainExtension lenientContext genesisNode firstDelivery firstEntry := by
  constructor <;> decide +kernel

/-- The first block is counted once, and once more when it is delivered again. -/
theorem firstDelivery_recorded
    : genesisNode.retarget.recordBlock lenientContext.toRetargetContext firstEntry
          firstDelivery.block.auxpow
        = some (mirror ⟨1, 0, [], [], [], []⟩)
      ∧ (mirror ⟨1, 0, [], [], [], []⟩).recordBlock lenientContext.toRetargetContext firstEntry
          firstDelivery.block.auxpow
        = some (mirror ⟨2, 0, [], [], [], []⟩) := by
  decide

/-- The first block after the genesis block, delivered twice: the second call connects nothing
and leaves the same active chain, and yet it counts the block again.
-/
theorem redelivery_counts_twice
    : ∃ once twice,
      genesisNode.processNewBlock lenientContext 1 firstDelivery = some (once, ⟨true, true⟩)
      ∧ once.processNewBlock lenientContext 1 firstDelivery = some (twice, ⟨true, false⟩)
      ∧ once.activeChain = twice.activeChain
      ∧ once.retarget.toRetargetGlobals = ⟨1, 0, [], [], [], []⟩
      ∧ twice.retarget.toRetargetGlobals = ⟨2, 0, [], [], [], []⟩
      ∧ blocksSinceRetarget lenientContext.toRetargetContext twice.tip = 1 := by
  obtain ⟨activated, extended, called⟩ := processNewBlock_extends firstDelivery_plain 0
  have again := redelivered_extension firstDelivery_plain extended (mirror ⟨1, 0, [], [], [], []⟩) 0
  rw [firstDelivery_recorded.1] at called
  rw [firstDelivery_recorded.2] at again
  refine ⟨_, _, called, again, rfl, rfl, rfl, ?_⟩
  rw [extended.tip]
  decide

end Pqcoin
