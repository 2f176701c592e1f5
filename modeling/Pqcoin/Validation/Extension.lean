import Pqcoin.Validation.Node

/-! The call of `ProcessNewBlock` in which the delivered block becomes the new tip, and the
calls that are refused.
-/

namespace Pqcoin

open BaseUint BlockIndex Function HeaderState List Option

-- A block on top of the tip

def Delivery.checked (sent : Delivery) : Block := { sent.block with fChecked := true }

namespace Node

/-- The header of the delivered block has `entry`: an entry that was waiting for its block, or
a new one on top of the tip.
-/
def Announces (ctx : NodeContext) (node : Node) (sent : Delivery) (entry : BlockIndex)
    : Prop :=
  let header := ctx.toHeaderContext sent.nAdjustedTime
  let hash := sent.block.getHash ctx.H
  (node.find hash = some entry
    ∧ ¬ node.Failed entry ∧ ¬ node.HaveData entry ∧ node.nTx hash = 0)
  ∨ (node.find hash = none
    ∧ checkNewHeader header node.toHeaderState sent.block.toBlockHeader = .ok node.tip
    ∧ node.failedAncestor header node.tip = none
    ∧ entry = .child node.tip hash sent.block.toPureBlockHeader)

instance (ctx : NodeContext) (node : Node) (sent : Delivery) (entry : BlockIndex)
    : Decidable (Announces ctx node sent entry) :=
  inferInstanceAs (Decidable (_ ∨ _))

/-- The delivered block is new and valid, it builds on the active tip, and no other block
competes with it or waits for it.
-/
structure PlainExtension (ctx : NodeContext) (node : Node) (sent : Delivery) (entry : BlockIndex)
    : Prop where
  accepted : Accepted ctx.H ctx.chainparams true true sent.block
  other : sent.block.getHash ctx.H
    ≠ (ctx.chainparams.getConsensus 0).hashGenesisBlock
  announced : Announces ctx node sent entry
  above : entry.pprev = some node.tip
  unconnected : ∀ idx ∈ node.tip.path, idx.hash ≠ entry.hash
  contextual : ctx.contextualCheckBlock sent.checked entry.pprev = .ok ()
  connects : ctx.connectBlock sent.checked entry = .ok ()
  linked : node.nChainTx node.tip.hash ≠ 0
  counted : node.nChainTx node.tip.hash + BitVec.ofNat 32 sent.block.vtx.length ≠ 0
  work : node.tip.nChainWork.toNat < entry.nChainWork.toNat
  best : ∀ idx ∈ node.setBlockIndexCandidates, idx.nChainWork.toNat < entry.nChainWork.toNat
  alone : ∀ waiting ∈ node.mapBlocksUnlinked, waiting.1 ≠ entry
  height : entry.nHeight < 2 ^ 31

section Extension

variable {ctx : NodeContext} {node : Node} {sent : Delivery} {entry : BlockIndex}

theorem Announces.hash (announced : Announces ctx node sent entry)
    : entry.hash = sent.block.getHash ctx.H := by
  rcases announced with ⟨found, _⟩ | ⟨_, _, _, rfl⟩
  · exact (node.find_eq_some.mp found).2
  · rfl

theorem checkBlock_eq (accepted : Accepted ctx.H ctx.chainparams true true sent.block)
    : checkBlock ctx.H ctx.chainparams true true sent.block = .ok sent.checked := by
  obtain ⟨checked, passed⟩ := accepted
  rw [passed]
  rw [checkBlock] at passed
  split at passed
  · rename_i flag
    cases passed
    rw [Delivery.checked, ← flag]
  · simp only [Checks.then_ok, pure, Except.pure, Except.ok.injEq] at passed
    rw [← passed.2.2]
    rfl

theorem acceptBlockHeader_announced (announced : Announces ctx node sent entry)
    (other : sent.block.getHash ctx.H
      ≠ (ctx.chainparams.getConsensus 0).hashGenesisBlock)
    : ∃ headers,
      acceptBlockHeader (ctx.toHeaderContext sent.nAdjustedTime) node.toHeaderState
          sent.block.toBlockHeader
        = (headers, .ok entry)
      ∧ headers.find entry.hash = some entry
      ∧ headers.nStatus entry.hash &&& BLOCK_FAILED_MASK = 0
      ∧ headers.nStatus entry.hash &&& BLOCK_HAVE_DATA = 0
      ∧ (node.enterHeader headers entry).nTx entry.hash = 0 := by
  rw [announced.hash]
  rcases announced with ⟨found, unfailed, missing, unread⟩ | ⟨fresh, checked, unrejected, rfl⟩
  · obtain ⟨_, hash⟩ := node.find_eq_some.mp found
    refine ⟨node.toHeaderState, acceptBlockHeader_known other found unfailed, found, ?_, ?_, ?_⟩
    · rw [← hash]
      exact not_not.mp unfailed
    · rw [← hash]
      exact not_not.mp missing
    · simp only [enterHeader, hash, found]
      exact unread
  · obtain ⟨listed, raised⟩ := find_addToBlockIndex fresh
    have entry : node.newEntry ctx.H sent.block.toPureBlockHeader
        = .child node.tip (sent.block.getHash ctx.H) sent.block.toPureBlockHeader := by
      rw [HeaderState.newEntry, (checkNewHeader_ok.mp checked).2.1]
    rw [entry] at listed
    refine ⟨_, ?_, listed, ?_, ?_, ?_⟩
    · rw [acceptBlockHeader_new other fresh checked unrejected, ← entry]
      rfl
    · rw [raised]
      rfl
    · rw [raised]
      rfl
    · simp only [enterHeader, BlockIndex.hash, fresh]
      exact update_self ..

theorem worse_of_less {node : Node} {pa pb} (less : pa.nChainWork.toNat < pb.nChainWork.toNat)
    : node.worse ctx pa pb = true := by
  rw [worse, if_neg (by rw [gt_iff]; omega), if_pos (by rw [gt_iff]; omega)]

theorem worse_of_more {node : Node} {pa pb} (more : pb.nChainWork.toNat < pa.nChainWork.toNat)
    : node.worse ctx pa pb = false := by
  rw [worse, if_pos (by rw [gt_iff]; omega)]

/-- The node after `AcceptBlock`: the block is stored, and its entry is a candidate. -/
structure Received (node received : Node) (sent : Delivery) (entry : BlockIndex)
    : Prop where
  tip : received.tip = node.tip
  retarget : received.retarget = node.retarget
  blockFiles : received.blockFiles
    = Function.update node.blockFiles entry.hash (some { sent.block with fChecked := false })
  listed : received.find entry.hash = some entry
  unfailed : received.nStatus entry.hash &&& BLOCK_FAILED_MASK = 0
  data : received.HaveData entry
  chainTx : received.nChainTx entry.hash ≠ 0
  candidates : received.setBlockIndexCandidates = entry :: node.setBlockIndexCandidates

theorem received_of_extension (ctx node) (above : entry.pprev = some node.tip)
    (apart : node.tip.hash ≠ entry.hash) (listed : node.find entry.hash = some entry)
    (unfailed : node.nStatus entry.hash &&& BLOCK_FAILED_MASK = 0)
    (linked : node.nChainTx node.tip.hash ≠ 0)
    (counted : node.nChainTx node.tip.hash + BitVec.ofNat 32 sent.block.vtx.length ≠ 0)
    (work : node.tip.nChainWork.toNat < entry.nChainWork.toNat)
    (best : ∀ idx ∈ node.setBlockIndexCandidates, idx.nChainWork.toNat < entry.nChainWork.toNat)
    (alone : ∀ waiting ∈ node.mapBlocksUnlinked, waiting.1 ≠ entry)
    : Received node (node.receivedBlockTransactions ctx sent.checked entry) sent
      entry := by
  have unlisted : entry ∉ node.setBlockIndexCandidates := fun mem =>
    Nat.lt_irrefl _ (best entry mem)
  have before : (node.storeBlock sent.checked entry).nChainTx node.tip.hash
      = node.nChainTx node.tip.hash := update_of_ne apart ..
  have own : (node.storeBlock sent.checked entry).nTx entry.hash
      = BitVec.ofNat 32 sent.block.vtx.length := update_self ..
  have status (mask) (apart : ~~~BLOCK_VALID_MASK &&& mask = mask)
      (level : BLOCK_VALID_TRANSACTIONS &&& mask = 0)
      : (node.storeBlock sent.checked entry).nStatus entry.hash &&& mask
        = node.nStatus entry.hash &&& mask ||| BLOCK_HAVE_DATA &&& mask :=
    (and_raiseValidity _ entry apart level).trans (and_setFlag ..)
  have none : (node.storeBlock sent.checked entry).waitingFor entry = [] := by
    rw [waitingFor, reverse_eq_nil_iff, filter_eq_nil_iff]
    exact fun waiting mem => by simpa using alone waiting mem
  simp only [receivedBlockTransactions, above, before, ne_eq, linked, not_false_eq_true, if_true]
  rw [linkLoop, none, map_nil, append_nil, linkLoop, link]
  have higher : (node.storeBlock sent.checked entry).tip.nChainWork.toNat
      < entry.nChainWork.toNat := work
  simp only [worse_of_more higher, Bool.false_eq_true, if_false]
  exact {
    tip := rfl
    retarget := rfl
    blockFiles := rfl
    listed := (find_raiseValidity ..).trans listed
    unfailed := by
      refine (status _ (by decide) (by decide)).trans ?_
      rw [unfailed]
      rfl
    data := by
      refine ne_of_eq_of_ne (status BLOCK_HAVE_DATA (by decide) (by decide)) fun none => ?_
      exact absurd (BitVec.or_eq_zero_iff.mp none).2 (by decide)
    chainTx := by
      refine ne_of_eq_of_ne (update_self ..) ?_
      rw [own, above, map_some, getD_some, before]
      exact counted
    candidates := insert_of_not_mem unlisted
  }

theorem acceptBlock_extends (plain : PlainExtension ctx node sent entry)
    : ∃ received, node.acceptBlock ctx sent sent.checked = (received, true, .ok ())
      ∧ Received node received sent entry := by
  obtain ⟨headers, accepted, listed, unfailed, missing, unread⟩ :=
    acceptBlockHeader_announced plain.announced plain.other
  have apart := plain.unconnected node.tip (mem_path_self node.tip)
  have kept := nChainTx_enterHeader headers entry node apart
  refine ⟨(node.enterHeader headers entry).receivedBlockTransactions ctx sent.checked
    entry, ?_, ?_⟩
  · have wanted : (node.enterHeader headers entry).Wanted sent.fForceProcessing entry := by
      refine fun _ => ⟨unread, (gt_iff ..).mpr plain.work, ?_⟩
      rw [nHeight_of_pprev plain.above]
      exact Nat.add_le_add_left (by decide) _
    have checked : checkBlock ctx.H ctx.chainparams true true sent.checked
        = .ok sent.checked := if_pos rfl
    have header : sent.checked.toBlockHeader = sent.block.toBlockHeader := rfl
    have absent : ¬ (node.enterHeader headers entry).HaveData entry := not_not.mpr missing
    simp only [acceptBlock, header, accepted, if_neg absent, wanted, not_true_eq_false, if_false,
      checked, bind, Except.bind, plain.contextual]
  · have result := received_of_extension ctx (node.enterHeader headers entry) plain.above
      apart listed unfailed (kept ▸ plain.linked) (kept ▸ plain.counted) plain.work plain.best
      plain.alone
    exact ⟨result.tip, result.retarget, result.blockFiles, result.listed, result.unfailed,
      result.data, result.chainTx, result.candidates⟩

theorem lastInOrder_cons {node : Node} {candidates}
    (best : ∀ idx ∈ candidates, idx.nChainWork.toNat < entry.nChainWork.toNat)
    : node.lastInOrder ctx (entry :: candidates) = some entry := by
  rw [lastInOrder]
  split
  · rfl
  rename_i other last
  rw [worse_of_more (best other (mem_of_lastInOrder last))]
  rfl

theorem eq_child_of_pprev {idx tip : BlockIndex} (above : idx.pprev = some tip)
    : ∃ hash header, idx = .child tip hash header := by
  cases idx with
  | root hash header => cases above
  | child pprev hash header =>
    cases above
    exact ⟨hash, header, rfl⟩

theorem contains_tip (node : Node) : node.Contains node.tip := ancestor_self node.tip

/-- The active chain is usable. -/
theorem firstUnusable_of_contains {node : Node} {idx} (contained : node.Contains idx)
    : node.firstUnusable idx = some none := by
  cases idx with
  | root hash header | child pprev hash header => exact if_pos contained

theorem findMostWorkChain_of_usable {node : Node}
    (last : node.lastInOrder ctx node.setBlockIndexCandidates = some entry)
    (usable : node.firstUnusable entry = some none)
    : node.findMostWorkChain ctx = some (node, some entry) := by
  rw [findMostWorkChain]
  split
  · rename_i empty
    cases last.symm.trans empty
  rename_i best same
  cases last.symm.trans same
  simp only [usable]

theorem findMostWorkChain_received {received : Node} (plain : PlainExtension ctx node sent entry)
    (facts : Received node received sent entry)
    : received.findMostWorkChain ctx = some (received, some entry) := by
  apply findMostWorkChain_of_usable
  · rw [facts.candidates]
    exact lastInOrder_cons plain.best
  · have outside : ¬ received.Contains entry := by
      rw [Contains, facts.tip, ancestor_eq_none]
      · exact nofun
      · rw [nHeight_of_pprev plain.above]
        exact Nat.lt_succ_self _
    obtain ⟨hash, header, rfl⟩ := eq_child_of_pprev plain.above
    have linked : received.nChainTx hash ≠ 0 := facts.chainTx
    rw [firstUnusable, if_neg outside, if_neg linked, if_neg]
    · rw [← facts.tip]
      exact firstUnusable_of_contains received.contains_tip
    · exact not_or.mpr ⟨not_not.mpr facts.unfailed, not_not.mpr facts.data⟩

/-- The node after `ActivateBestChain`: the block is the tip and the only candidate. -/
structure Extended (node activated : Node) (sent : Delivery) (entry : BlockIndex)
    : Prop where
  tip : activated.tip = entry
  retarget : activated.retarget = node.retarget
  blockFiles : activated.blockFiles
    = Function.update node.blockFiles entry.hash (some { sent.block with fChecked := false })
  listed : activated.find entry.hash = some entry
  unfailed : activated.nStatus entry.hash &&& BLOCK_FAILED_MASK = 0
  data : activated.HaveData entry
  candidates : activated.setBlockIndexCandidates = [entry]

theorem findFork_above {node : Node} (above : entry.pprev = some node.tip)
    : node.findFork entry = some node.tip := by
  obtain ⟨hash, header, rfl⟩ := eq_child_of_pprev above
  have reached : (BlockIndex.child node.tip hash header).getAncestor node.tip.nHeight
      = some node.tip := by
    rw [getAncestor_eq, BlockIndex.ancestor, if_neg (by omega), ancestor_self]
  have higher : (BlockIndex.child node.tip hash header).nHeight > node.tip.nHeight :=
    Nat.lt_succ_self _
  rw [findFork, if_pos higher, reached, bind_some]
  have contained := node.contains_tip
  cases same : node.tip with
  | root hash header | child pprev hash header => exact if_pos (same ▸ contained)

theorem disconnectTo_self (idx) : disconnectTo (some idx) idx = (idx, true) := by
  cases idx with
  | root hash header => simp [disconnectTo]
  | child pprev hash header => exact if_pos rfl

theorem toConnect_above {idx tip : BlockIndex} (above : idx.pprev = some tip)
    : toConnect tip.nHeight idx = [idx] := by
  obtain ⟨hash, header, rfl⟩ := eq_child_of_pprev above
  have none : toConnect tip.nHeight tip = [] := by
    cases tip with
    | root hash header => rfl
    | child pprev hash header => exact if_pos rfl
  rw [toConnect, if_neg (by omega), none, nil_append]

section

variable (plain : PlainExtension ctx node sent entry)

include plain

/-- Connecting the new block leaves it as the only candidate. -/
theorem extended_connectTip {received : Node} (facts : Received node received sent entry)
    : Extended node (received.connectTip ctx entry) sent entry := by
  exact {
    tip := rfl
    retarget := facts.retarget
    blockFiles := facts.blockFiles
    listed := (find_raiseValidity ..).trans facts.listed
    unfailed := (and_raiseValidity _ entry (by decide) (by decide)).trans facts.unfailed
    data := ne_of_eq_of_ne (and_raiseValidity _ entry (by decide) (by decide)) facts.data
    candidates := by
      simp only [connectTip, pruneBlockIndexCandidates, raiseValidity, facts.candidates]
      rw [filter_cons_of_pos (by simp [worse]), filter_eq_nil_iff.mpr]
      intro idx mem
      rw [worse_of_less (plain.best idx mem)]
      exact nofun
  }

theorem activateBestChainStep_received {received : Node} (facts : Received node received sent entry)
    : received.activateBestChainStep ctx (some sent.checked) entry
      = some (received.connectTip ctx entry, .advanced false) := by
  have above : entry.pprev = some received.tip := by rw [plain.above, facts.tip]
  have block : received.blockToConnect ctx.H (some sent.checked) entry entry
      = some sent.checked := if_pos ⟨rfl, plain.announced.hash.symm⟩
  have extended := extended_connectTip plain facts
  have better : (received.connectTip ctx entry).tip.nChainWork.gt received.tip.nChainWork
      = true := by
    rw [extended.tip, facts.tip, gt_iff]
    exact plain.work
  simp only [activateBestChainStep, findFork_above above, disconnectTo_self,
    toConnect_above above, connectLoop, above, ne_eq, not_true_eq_false, if_false, block,
    plain.connects, extended.candidates, better, cons_ne_nil, if_true]

theorem activateBestChain_received {received} (facts : Received node received sent entry)
    (rounds : Nat)
    : received.activateBestChain ctx (some sent.checked) (rounds + 1) none
      = some (received.connectTip ctx entry, true) := by
  have higher : entry ≠ received.tip := by
    intro same
    have level := nHeight_of_pprev plain.above
    rw [same, facts.tip] at level
    omega
  have found : received.mostWorkChain ctx none = some (received, some entry) :=
    findMostWorkChain_received plain facts
  simp only [activateBestChain, found, if_neg higher, activateBestChainStep_received plain facts,
    (extended_connectTip plain facts).tip, Bool.false_eq_true, if_false, if_true]

-- ProcessNewBlock

theorem processNewBlock_extends (rounds : Nat)
    : ∃ activated, Extended node activated sent entry
      ∧ node.processNewBlock ctx (rounds + 1) sent
        = (node.retarget.recordBlock ctx.toRetargetContext entry sent.block.auxpow).map
            (fun retarget => ({ activated with retarget := retarget }, ⟨true, true⟩)) := by
  obtain ⟨received, accepted, facts⟩ := acceptBlock_extends plain
  have extended := extended_connectTip plain facts
  refine ⟨_, extended, ?_⟩
  simp only [processNewBlock, checkBlock_eq plain.accepted, accepted,
    activateBestChain_received plain facts, bind_eq_bind, bind_some, if_true,
    extended.tip, extended.retarget]
  exact (map_eq_bind ..).symm

end

/-- `CheckBlock`, `AcceptBlockHeader` or `ContextualCheckBlock` refuses the block. -/
inductive Refused (ctx : NodeContext) (node : Node) (sent : Delivery) : Prop where
  | block (failed : ¬ Accepted ctx.H ctx.chainparams true true sent.block)
  | header {headers : HeaderState} {failure : Failure}
      (failed : acceptBlockHeader (ctx.toHeaderContext sent.nAdjustedTime)
        node.toHeaderState sent.block.toBlockHeader = (headers, .error failure))
  | contextual {headers : HeaderState} {pindex : BlockIndex} {failure : Failure}
      (entered : acceptBlockHeader (ctx.toHeaderContext sent.nAdjustedTime)
        node.toHeaderState sent.block.toBlockHeader = (headers, .ok pindex))
      (missing : ¬ (node.enterHeader headers pindex).HaveData pindex)
      (wanted : (node.enterHeader headers pindex).Wanted sent.fForceProcessing pindex)
      (failed : ctx.contextualCheckBlock sent.checked pindex.pprev = .error failure)

theorem acceptBlock_refused (refused : Refused ctx node sent)
    (accepted : Accepted ctx.H ctx.chainparams true true sent.block)
    : ∃ after fNewBlock failure,
      node.acceptBlock ctx sent sent.checked = (after, fNewBlock, .error failure)
      ∧ after.tip = node.tip ∧ after.blockFiles = node.blockFiles
      ∧ after.retarget = node.retarget := by
  have header : sent.checked.toBlockHeader = sent.block.toBlockHeader := rfl
  have checked : checkBlock ctx.H ctx.chainparams true true sent.checked
      = .ok sent.checked := if_pos rfl
  cases refused with
  | block failed => exact absurd accepted failed
  | header failed =>
    simp only [acceptBlock, header, failed]
    exact ⟨_, _, _, rfl, rfl, rfl, rfl⟩
  | @contextual headers pindex failure entered missing wanted failed =>
    simp only [acceptBlock, header, entered, if_neg missing, wanted, not_true_eq_false,
      if_false, checked, bind, Except.bind, failed]
    cases failure with
    | assertion => exact ⟨_, _, _, rfl, rfl, rfl, rfl⟩
    | rejected rejection =>
      refine ⟨_, _, _, rfl, ?_⟩
      split <;> exact ⟨rfl, rfl, rfl⟩

/-- A refused block changes neither the active chain nor the retarget state. -/
theorem processNewBlock_refused {after} {reply rounds} (refused : Refused ctx node sent)
    (ran : node.processNewBlock ctx rounds sent = some (after, reply))
    : after.tip = node.tip ∧ after.blockFiles = node.blockFiles
      ∧ after.retarget = node.retarget := by
  rw [processNewBlock] at ran
  by_cases accepted : Accepted ctx.H ctx.chainparams true true sent.block
  · obtain ⟨stopped, fNewBlock, failure, failed, kept⟩ := acceptBlock_refused refused accepted
    simp only [checkBlock_eq accepted, failed] at ran
    cases failure with
    | assertion => cases ran
    | rejected rejection =>
      cases ran
      exact kept
  · split at ran
    · cases ran
    · cases ran
      exact ⟨rfl, rfl, rfl⟩
    · rename_i block passed
      exact absurd ⟨block, passed⟩ accepted

/-- The tip delivered again: nothing is accepted or connected, and yet the retarget update is
made once more.
-/
theorem processNewBlock_redelivered (node : Node)
    (accepted : Accepted ctx.H ctx.chainparams true true sent.block)
    (other : sent.block.getHash ctx.H
      ≠ (ctx.chainparams.getConsensus 0).hashGenesisBlock)
    (listed : node.find (sent.block.getHash ctx.H) = some node.tip)
    (unfailed : ¬ node.Failed node.tip) (data : node.HaveData node.tip)
    (candidates : node.setBlockIndexCandidates = [node.tip]) (rounds)
    : node.processNewBlock ctx (rounds + 1) sent
      = (node.retarget.recordBlock ctx.toRetargetContext node.tip sent.block.auxpow).map
          (fun retarget => ({ node with retarget := retarget }, ⟨true, false⟩)) := by
  have header : acceptBlockHeader (ctx.toHeaderContext sent.nAdjustedTime)
      node.toHeaderState sent.checked.toBlockHeader = (node.toHeaderState, .ok node.tip) :=
    acceptBlockHeader_known other listed unfailed
  have entered : node.enterHeader node.toHeaderState node.tip = node := by
    have known : node.find node.tip.hash = some node.tip := by
      rwa [(node.find_eq_some.mp listed).2]
    simp [enterHeader, known]
  have best : node.mostWorkChain ctx none = some (node, some node.tip) := by
    apply findMostWorkChain_of_usable
    · rw [candidates]
      rfl
    · exact firstUnusable_of_contains node.contains_tip
  have idle : node.activateBestChain ctx (some sent.checked) (rounds + 1) none
      = some (node, true) := by
    simp only [activateBestChain, best, if_true]
  simp only [processNewBlock, checkBlock_eq accepted, acceptBlock, header, entered, data, if_true,
    idle, bind_eq_bind, bind_some]
  exact (map_eq_bind ..).symm

end Extension

end Node

end Pqcoin
