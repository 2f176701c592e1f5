import Pqcoin.Validation.HeaderMarks
import Pqcoin.Validation.Reconsider

/-! What the calls on the block index do to the failure marks: each but
`ResetBlockFailureFlags` only sets marks that have a cause.
-/

namespace Pqcoin

open BlockIndex List

-- The index and the rest of the node

namespace Node

open HeaderState

/-- The entries that the node refers to are in its index. -/
structure InTree (node : Node) : Prop where
  closed : node.Closed
  candidates : ∀ idx ∈ node.setBlockIndexCandidates, idx ∈ node.mapBlockIndex
  waiting : ∀ entry ∈ node.mapBlocksUnlinked, entry.2 ∈ node.mapBlockIndex
  tip : node.tip ∈ node.mapBlockIndex

/-- What any call but `ResetBlockFailureFlags` does to the index. -/
def Develops (node after : Node) : Prop :=
  node.InTree → after.InTree ∧ Marks node.toHeaderState after.toHeaderState

section Develops

variable {ctx : NodeContext} {node after last : Node} {idx pindex : BlockIndex}

theorem Develops.refl (node) : Develops node node := fun tree => ⟨tree, .refl _⟩

theorem Develops.trans (first : Develops node after) (second : Develops after last)
    : Develops node last := by
  intro tree
  obtain ⟨middle, before⟩ := first tree
  obtain ⟨reached, later⟩ := second middle
  exact ⟨reached, before.trans tree.closed later⟩

/-- The new references are to entries of the index. -/
theorem InTree.step (tree : node.InTree) (marks : Marks node.toHeaderState after.toHeaderState)
    (candidates : ∀ idx ∈ after.setBlockIndexCandidates,
      idx ∈ node.setBlockIndexCandidates ∨ idx ∈ after.mapBlockIndex)
    (waiting : ∀ entry ∈ after.mapBlocksUnlinked,
      entry ∈ node.mapBlocksUnlinked ∨ entry.2 ∈ after.mapBlockIndex)
    (tip : after.tip = node.tip ∨ after.tip ∈ after.mapBlockIndex)
    : after.InTree where
  closed := marks.closed tree.closed
  candidates idx mem := by
    rcases candidates idx mem with before | now
    · exact marks.grows idx (tree.candidates idx before)
    · exact now
  waiting entry mem := by
    rcases waiting entry mem with before | now
    · exact marks.grows _ (tree.waiting entry before)
    · exact now
  tip := by
    rcases tip with same | now
    · rw [same]
      exact marks.grows _ tree.tip
    · exact now

/-- The marks change, and nothing that refers to entries. -/
theorem Develops.of_marks {headers} (marks : node.InTree → Marks node.toHeaderState headers)
    : Develops node { node with toHeaderState := headers } := by
  intro tree
  exact ⟨tree.step (marks tree) (fun _ => .inl) (fun _ => .inl) (.inl rfl), marks tree⟩

theorem develops_dropCandidate (node idx) : Develops node (node.dropCandidate idx) := by
  intro tree
  exact ⟨tree.step (.refl _) (fun _ mem => .inl (mem_of_mem_erase mem)) (fun _ => .inl)
    (.inl rfl), .refl _⟩

theorem develops_setTip (reached : node.InTree → idx ∈ node.mapBlockIndex)
    : Develops node { node with tip := idx } := by
  intro tree
  exact ⟨tree.step (.refl _) (fun _ => .inl) (fun _ => .inl) (.inr (reached tree)), .refl _⟩

-- AcceptBlock

variable (known : node.InTree → pindex ∈ node.mapBlockIndex)

include known in
theorem develops_link : Develops node (node.link ctx pindex) := by
  intro tree
  simp only [link]
  split
  · exact ⟨tree.step (.refl _) (fun _ => .inl) (fun _ => .inl) (.inl rfl), .refl _⟩
  refine ⟨tree.step (.refl _) (fun idx mem => ?_) (fun _ => .inl) (.inl rfl), .refl _⟩
  rcases mem_insert_iff.mp mem with rfl | before
  · exact .inr (known tree)
  · exact .inl before

/-- One round of the loop of `ReceivedBlockTransactions`. -/
def linkStep (ctx : NodeContext) (pindex : BlockIndex) (node : Node) : Node :=
  { node.link ctx pindex with mapBlocksUnlinked := node.notWaitingFor pindex }

theorem linkStep_unchanged
    : (node.linkStep ctx pindex).toHeaderState = node.toHeaderState
      ∧ (node.linkStep ctx pindex).nTx = node.nTx
      ∧ (node.linkStep ctx pindex).blockFiles = node.blockFiles
      ∧ (node.linkStep ctx pindex).tip = node.tip := by
  simp only [linkStep, link]
  split <;> exact ⟨rfl, rfl, rfl, rfl⟩

include known in
theorem develops_linkStep : Develops node (node.linkStep ctx pindex) := by
  intro tree
  obtain ⟨headers, _⟩ := @linkStep_unchanged ctx node pindex
  refine (develops_link known).trans (fun linked => ⟨?_, .refl _⟩) tree
  refine linked.step (.refl _) (fun _ => .inl) (fun entry mem => .inr ?_) (.inl rfl)
  rw [headers]
  exact tree.waiting entry (mem_of_mem_filter mem)

theorem develops_linkLoop {queue} (known : node.InTree → ∀ idx ∈ queue, idx ∈ node.mapBlockIndex)
    : Develops node (linkLoop ctx queue node) := by
  fun_induction linkLoop ctx queue node with
  | case1 node => exact .refl node
  | case2 pindex queue node ih =>
    intro tree
    have here := known tree
    have stepped : Develops node (node.linkStep ctx pindex) :=
      develops_linkStep fun _ => here pindex mem_cons_self
    refine stepped.trans (ih fun _ idx mem => ?_) tree
    change idx ∈ (node.linkStep ctx pindex).mapBlockIndex
    rw [(@linkStep_unchanged ctx node pindex).1]
    rcases mem_append.mp mem with later | woken
    · exact here idx (mem_cons_of_mem _ later)
    obtain ⟨entry, waiting, rfl⟩ := mem_map.mp woken
    exact tree.waiting entry (mem_waitingFor.mp waiting).1

include known in
theorem develops_storeBlock (block) : Develops node (node.storeBlock block pindex) := by
  intro tree
  have stored : Marks node.toHeaderState (node.toHeaderState.setFlag pindex BLOCK_HAVE_DATA) :=
    .setFlag_haveData (known tree)
  have raised : Marks (node.toHeaderState.setFlag pindex BLOCK_HAVE_DATA)
      ((node.toHeaderState.setFlag pindex BLOCK_HAVE_DATA).raiseValidity pindex
        BLOCK_VALID_TRANSACTIONS) :=
    Marks.raiseValidity (s := node.toHeaderState.setFlag pindex BLOCK_HAVE_DATA) (known tree)
      (by decide)
  have marks := stored.trans tree.closed raised
  exact ⟨tree.step marks (fun _ => .inl) (fun _ => .inl) (.inl rfl), marks⟩

include known in
theorem develops_receivedBlockTransactions (block)
    : Develops node (node.receivedBlockTransactions ctx block pindex) := by
  intro tree
  have stored := develops_storeBlock known block
  have present := (stored tree).2.grows pindex (known tree)
  have linked : Develops node (linkLoop ctx [pindex] (node.storeBlock block pindex)) :=
    stored.trans (develops_linkLoop fun _ idx mem => mem_singleton.mp mem ▸ present)
  simp only [receivedBlockTransactions]
  split
  · exact linked tree
  split
  · exact linked tree
  split
  · refine stored.trans (fun tree' => ⟨?_, .refl _⟩) tree
    refine tree'.step (.refl _) (fun _ => .inl) (fun entry mem => ?_) (.inl rfl)
    rcases mem_cons.mp mem with rfl | before
    · exact .inr present
    · exact .inl before
  · exact stored tree

theorem develops_enterHeader {headers} (marks : node.InTree → Marks node.toHeaderState headers)
    : Develops node (node.enterHeader headers pindex) := by
  intro tree
  exact ⟨tree.step (marks tree) (fun _ => .inl) (fun _ => .inl) (.inl rfl), marks tree⟩

theorem develops_acceptBlock (sent block)
    : Develops node (node.acceptBlock ctx sent block).1 := by
  intro tree
  have marks := Marks.acceptBlockHeader (ctx.toHeaderContext sent.nAdjustedTime)
    block.toBlockHeader tree.closed
  simp only [acceptBlock]
  split
  · rename_i headers failure refused
    rw [refused] at marks
    exact Develops.of_marks (fun _ => marks) tree
  rename_i headers pindex accepted
  rw [accepted] at marks
  have known := mem_acceptBlockHeader accepted
  have entered : Develops node (node.enterHeader headers pindex) :=
    develops_enterHeader fun _ => marks
  split
  · exact entered tree
  split
  · exact entered tree
  split
  · exact entered tree
  · split
    · exact entered tree
    · exact entered.trans (.of_marks fun _ => .setFlag_failedValid known) tree
  · exact entered.trans (develops_receivedBlockTransactions (fun _ => known) block) tree

-- ActivateBestChain

/-- The walk from a failed candidate marks what is above a failed entry, by induction on its
way down.
-/
theorem develops_discard {fFailedChain pindexTest pindexFailed}
    (known : node.InTree → pindexFailed ∈ node.mapBlockIndex)
    (below : pindexTest ∈ pindexFailed.path) (failed : fFailedChain = true → node.Failed pindexTest)
    : Develops node (node.discard fFailedChain pindexTest pindexFailed) := by
  induction pindexFailed generalizing node with
  | root hash header => exact develops_dropCandidate node _
  | child pprev hash header ih =>
    rw [discard]
    split
    · exact develops_dropCandidate node _
    rename_i higher
    have deeper := mem_path_of_ne below higher
    intro tree
    have parent := tree.closed.parent (known tree) rfl
    split
    · rename_i chain
      have test := failed chain
      have found := tree.closed _ (known tree) pindexTest below
      have marked : Develops node (node.setFlag (.child pprev hash header) BLOCK_FAILED_CHILD) :=
        .of_marks fun _ => .setFlag_failedChild (known tree) ⟨pindexTest, below, found, test⟩
      exact (marked.trans ((develops_dropCandidate _ _).trans
        (ih (fun _ => parent) deeper fun _ => Failed.setFlag test _ BLOCK_FAILED_CHILD))) tree
    · have waiting : Develops node
          { node with mapBlocksUnlinked :=
            (pprev, .child pprev hash header) :: node.mapBlocksUnlinked } := by
        intro tree
        refine ⟨tree.step (.refl _) (fun _ => .inl) (fun entry mem => ?_) (.inl rfl), .refl _⟩
        rcases mem_cons.mp mem with rfl | before
        · exact .inr (known tree)
        · exact .inl before
      exact (waiting.trans ((develops_dropCandidate _ _).trans
        (ih (fun _ => parent) deeper failed))) tree

/-- The walk from a candidate stays on its path. -/
theorem mem_path_of_firstUnusable {pindexNew pindexTest}
    (found : node.firstUnusable pindexNew = some (some pindexTest))
    : pindexTest ∈ pindexNew.path ∧ (node.Failed pindexTest ∨ ¬ node.HaveData pindexTest) := by
  induction pindexNew with
  | root hash header =>
    simp only [firstUnusable] at found
    split at found
    · cases found
    split at found
    · rename_i unusable
      cases found
      exact ⟨mem_path_self _, unusable⟩
    · cases found
  | child pprev hash header ih =>
    simp only [firstUnusable] at found
    split at found
    · cases found
    split at found
    · cases found
    split at found
    · rename_i unusable
      cases found
      exact ⟨mem_path_self _, unusable⟩
    · obtain ⟨below, unusable⟩ := ih found
      exact ⟨mem_path_child.mpr (.inl below), unusable⟩

theorem develops_findMostWorkChain {best} (result : node.findMostWorkChain ctx = some (after, best))
    : Develops node after
      ∧ ∀ idx ∈ best, idx ∈ after.setBlockIndexCandidates := by
  fun_induction findMostWorkChain ctx node with
  | case1 node _ =>
    cases result
    exact ⟨.refl _, nofun⟩
  | case2 => cases result
  | case3 node pindexNew last _ =>
    cases result
    refine ⟨.refl _, fun idx same => ?_⟩
    cases same
    exact mem_of_lastInOrder last
  | case4 node pindexNew last pindexTest found ih =>
    obtain ⟨below, _⟩ := mem_path_of_firstUnusable found
    have discarded : Develops node
        (node.discard (node.Failed pindexTest) pindexTest pindexNew) :=
      develops_discard (fun tree => tree.candidates _ (mem_of_lastInOrder last)) below
        (fun failed => of_decide_eq_true failed)
    obtain ⟨developed, listed⟩ := ih result
    exact ⟨discarded.trans developed, listed⟩

include known in
theorem develops_invalidBlockFound (rejection)
    : Develops node (node.invalidBlockFound rejection pindex) := by
  rw [invalidBlockFound]
  split
  · exact .refl node
  intro tree
  have flagged : Marks node.toHeaderState
      (node.toHeaderState.setFlag pindex BLOCK_FAILED_VALID) := .setFlag_failedValid (known tree)
  have marked : Develops node (node.setFlag pindex BLOCK_FAILED_VALID) := .of_marks fun _ => flagged
  refine (marked.trans ((develops_dropCandidate _ pindex).trans (.of_marks fun _ => ?_))) tree
  refine .record fun failed mem => ?_
  rcases mem_insert_iff.mp mem with rfl | before
  · exact .inr ⟨known tree, failedValid_setFlag _ failed⟩
  · exact .inl before

include known in
theorem develops_connectTip : Develops node (node.connectTip ctx pindex) := by
  intro tree
  have raised : Marks node.toHeaderState
      (node.toHeaderState.raiseValidity pindex BLOCK_VALID_SCRIPTS) :=
    .raiseValidity (known tree) (by decide)
  refine ⟨tree.step raised (fun idx mem => .inl ?_) (fun _ => .inl) (.inr ?_), raised⟩
  · exact mem_of_mem_filter mem
  · exact raised.grows pindex (known tree)

theorem develops_connectLoop {pblock pindexMostWork pindexOldTip path progress}
    (known : node.InTree → ∀ idx ∈ path, idx ∈ node.mapBlockIndex)
    (result : connectLoop ctx pblock pindexMostWork pindexOldTip path node
      = some (after, progress))
    : Develops node after := by
  fun_induction connectLoop ctx pblock pindexMostWork pindexOldTip path node with
  | case1 node | case3 node =>
    cases result
    exact .refl _
  | case2 | case4 | case6 => cases result
  | case5 pindexConnect rest node _ block _ rejection _ =>
    cases result
    exact develops_invalidBlockFound (fun tree => known tree _ mem_cons_self) rejection
  | case7 pindexConnect rest node =>
    have connected : Develops node (node.connectTip ctx pindexConnect) :=
      develops_connectTip fun tree => known tree _ mem_cons_self
    have same := (Prod.mk.inj (Option.some.inj result)).1
    exact same ▸ connected
  | case8 pindexConnect rest node _ _ _ _ _ connected _ _ ih =>
    have connected : Develops node (node.connectTip ctx pindexConnect) :=
      develops_connectTip fun tree => known tree _ mem_cons_self
    intro tree
    refine connected.trans (ih (fun _ idx mem => ?_) result) tree
    exact (connected tree).2.grows idx (known tree idx (mem_cons_of_mem _ mem))

theorem mem_path_of_toConnect {nHeight best} (mem : idx ∈ toConnect nHeight best)
    : idx ∈ best.path := by
  induction best with
  | root hash header =>
    rw [toConnect] at mem
    split at mem
    · cases mem
    · exact mem
  | child pprev hash header ih =>
    rw [toConnect] at mem
    split at mem
    · cases mem
    rcases mem_append.mp mem with lower | own
    · exact mem_path_child.mpr (.inl (ih lower))
    · exact mem_path_child.mpr (.inr (mem_singleton.mp own))

theorem mem_path_of_disconnectTo (pindexFork tip) : (disconnectTo pindexFork tip).1 ∈ tip.path := by
  induction tip with
  | root hash header => exact mem_path_self _
  | child pprev hash header ih =>
    rw [disconnectTo]
    split
    · exact mem_path_self _
    · exact mem_path_child.mpr (.inl ih)

theorem develops_activateBestChainStep {pblock pindexMostWork progress}
    (known : node.InTree → pindexMostWork ∈ node.mapBlockIndex)
    (result : node.activateBestChainStep ctx pblock pindexMostWork = some (after, progress))
    : Develops node after := by
  intro tree
  have below := mem_path_of_disconnectTo (node.findFork pindexMostWork) node.tip
  have lowered : Develops node
      { node with tip := (disconnectTo (node.findFork pindexMostWork) node.tip).1 } :=
    develops_setTip fun tree => tree.closed _ tree.tip _ below
  simp only [activateBestChainStep] at result
  split at result
  · rename_i tip disconnected
    cases result
    rw [disconnected] at lowered
    exact lowered tree
  · rename_i tip disconnected
    rw [disconnected] at lowered
    refine lowered.trans (develops_connectLoop (fun tree' idx mem => ?_) result) tree
    exact tree'.closed _ (known tree) idx (mem_path_of_toConnect mem)

theorem develops_mostWorkChain {cached best}
    (known : node.InTree → ∀ idx ∈ cached, idx ∈ node.mapBlockIndex)
    (result : node.mostWorkChain ctx cached = some (after, best))
    : Develops node after
      ∧ (node.InTree → ∀ idx ∈ best, idx ∈ after.mapBlockIndex) := by
  rw [mostWorkChain] at result
  split at result
  · cases result
    exact ⟨.refl _, known⟩
  obtain ⟨developed, listed⟩ := develops_findMostWorkChain result
  exact ⟨developed, fun tree idx mem =>
    (developed tree).1.candidates idx (listed idx mem)⟩

theorem develops_activateBestChain {pblock rounds cached activated}
    (known : node.InTree → ∀ idx ∈ cached, idx ∈ node.mapBlockIndex)
    (result : node.activateBestChain ctx pblock rounds cached = some (after, activated))
    : Develops node after := by
  fun_induction activateBestChain ctx pblock rounds cached node with
  | case1 | case2 | case5 => cases result
  | case3 cached node rounds found searched | case4 rounds cached node found searched =>
    cases result
    exact (develops_mostWorkChain known searched).1
  | case6 rounds cached node found best searched _ stopped stepped
  | case7 rounds cached node found best searched _ next _ stepped _ _ =>
    cases result
    obtain ⟨developed, listed⟩ := develops_mostWorkChain known searched
    intro tree
    exact (developed.trans (develops_activateBestChainStep
      (fun _ => listed tree best rfl) stepped)) tree
  | case8 rounds cached node found best searched _ next fInvalidFound stepped pindexMostWork _ ih =>
    obtain ⟨developed, listed⟩ := develops_mostWorkChain known searched
    intro tree
    have stepping : Develops found next :=
      develops_activateBestChainStep (fun _ => listed tree best rfl) stepped
    refine developed.trans (stepping.trans (ih (fun _ idx mem => ?_) result)) tree
    obtain rfl : best = idx := by
      simp only [pindexMostWork] at mem
      split at mem
      · cases mem
      · exact Option.some.inj mem
    exact (stepping (developed tree).1).2.grows _ (listed tree _ rfl)

-- InvalidateBlock and ResetBlockFailureFlags

theorem mem_path_of_disconnectBelow (pindex tip) : (disconnectBelow pindex tip).1 ∈ tip.path := by
  induction tip with
  | root hash header => exact mem_path_self _
  | child pprev hash header ih =>
    simp only [disconnectBelow]
    split
    · exact mem_path_child.mpr (.inl ih)
    · exact mem_path_self _

/-- The walk marks blocks above `pindex`, by induction on its way down. -/
structure MarksDisconnected (pindex : BlockIndex) (node after : Node) : Prop where
  map : after.mapBlockIndex = node.mapBlockIndex
  records : after.gFailedBlocks = node.gFailedBlocks
  waiting : after.mapBlocksUnlinked = node.mapBlocksUnlinked
  tip : after.tip = node.tip
  candidates : after.setBlockIndexCandidates ⊆ node.setBlockIndexCandidates
  keeps : ∀ idx, node.FailedValid idx → after.FailedValid idx
  caused : ∀ idx ∈ node.mapBlockIndex, after.Failed idx
    → node.Failed idx ∨ pindex ∈ idx.path

theorem MarksDisconnected.refl : MarksDisconnected pindex node node :=
  ⟨rfl, rfl, rfl, rfl, fun _ => id, fun _ => id, fun _ _ => .inl⟩

theorem markDisconnected_marks {tip} (closed : node.Closed) (known : tip ∈ node.mapBlockIndex)
    (below : pindex ∈ tip.path)
    : MarksDisconnected pindex node (node.markDisconnected pindex tip) := by
  induction tip generalizing node with
  | root hash header => exact .refl
  | child pprev hash header ih =>
    rw [markDisconnected]
    split
    · exact .refl
    rename_i higher
    have deeper := mem_path_of_ne below higher
    have parent := closed.parent known rfl
    have rest := @ih ((node.setFlag (.child pprev hash header) BLOCK_FAILED_CHILD).dropCandidate
      (.child pprev hash header)) closed parent deeper
    obtain ⟨map, records, waiting, tip, candidates, keeps, caused⟩ := rest
    refine ⟨map, records, waiting, tip, fun idx mem => ?_, fun idx flagged => ?_,
      fun idx found failed => ?_⟩
    · exact mem_of_mem_erase (candidates mem)
    · exact keeps idx (FailedValid.setFlag flagged _ _)
    · rcases caused idx found failed with marked | above
      · rcases failed_setFlag found known marked with before | rfl
        · exact .inl before
        · exact .inr below
      · exact .inr above

theorem develops_readdCandidate (known : node.InTree → idx ∈ node.mapBlockIndex)
    : Develops node (node.readdCandidate ctx idx) := by
  intro tree
  rw [readdCandidate]
  split
  · have marks : Marks node.toHeaderState
        { node.toHeaderState with gFailedBlocks := node.gFailedBlocks.erase idx } :=
      .record fun failed mem => .inl (mem_of_mem_erase mem)
    refine ⟨tree.step marks (fun other mem => ?_) (fun _ => .inl) (.inl rfl), marks⟩
    rcases mem_insert_iff.mp mem with rfl | before
    · exact .inr (known tree)
    · exact .inl before
  · exact ⟨tree, .refl _⟩

theorem develops_readdAll (entries : List BlockIndex)
    (known : node.InTree → ∀ idx ∈ entries, idx ∈ node.mapBlockIndex)
    : Develops node (entries.foldl (readdCandidate ctx) node) := by
  induction entries generalizing node with
  | nil => exact .refl node
  | cons idx rest ih =>
    intro tree
    have here := known tree
    have first : Develops node (node.readdCandidate ctx idx) :=
      develops_readdCandidate fun _ => here idx mem_cons_self
    refine first.trans (ih fun _ other mem => ?_) tree
    exact (first tree).2.grows other (here other (mem_cons_of_mem _ mem))

/-- Whether or not the block was in the active chain, marks are only set above it. -/
theorem disconnectBranch_marks {tip} (tree : node.InTree)
    : MarksDisconnected pindex { node with tip := tip } (node.disconnectBranch pindex tip) := by
  rw [disconnectBranch]
  split
  · rename_i contained
    have below := mem_path_iff.mpr contained
    exact @markDisconnected_marks { node with tip := tip } pindex node.tip tree.closed
      tree.tip below
  · exact .refl

theorem failed_markInvalid {tip} (tree : node.InTree) (present : pindex ∈ node.mapBlockIndex)
    (found : idx ∈ node.mapBlockIndex)
    (failed : ((node.disconnectBranch pindex tip).markInvalid pindex).Failed idx)
    : node.Failed idx ∨ pindex ∈ idx.path := by
  obtain ⟨map, _, _, _, _, _, caused⟩ := @disconnectBranch_marks node pindex tip tree
  have failing : ((node.disconnectBranch pindex tip).toHeaderState.setFlag pindex
      BLOCK_FAILED_VALID).Failed idx := failed
  rw [← map] at present found
  rcases failed_setFlag (s := (node.disconnectBranch pindex tip).toHeaderState) found present
    failing with marked | rfl
  · exact caused idx (map ▸ found) marked
  · exact .inr (mem_path_self idx)

include known in
/-- The block and its disconnected descendants are marked. The descendants come first, so the
two steps have to be taken together.
-/
theorem develops_markInvalid {tip} (below : tip ∈ node.tip.path)
    : Develops node ((node.disconnectBranch pindex tip).markInvalid pindex) := by
  intro tree
  have present := known tree
  obtain ⟨map, records, waiting, same, candidates, keeps, _⟩ :=
    @disconnectBranch_marks node pindex tip tree
  have cause : ((node.disconnectBranch pindex tip).markInvalid pindex).FailedValid pindex :=
    failedValid_setFlag (node.disconnectBranch pindex tip).toHeaderState pindex
  have marks : Marks node.toHeaderState
      ((node.disconnectBranch pindex tip).markInvalid pindex).toHeaderState := {
    grows := fun idx found => map ▸ found
    closed := fun closed => by
      intro idx mem lower deeper
      change lower ∈ (node.disconnectBranch pindex tip).mapBlockIndex
      rw [map]
      exact closed idx (map ▸ mem) lower deeper
    keeps := fun idx found flagged => (keeps idx flagged).setFlag _ _
    caused := fun idx mem failed => by
      have found : idx ∈ node.mapBlockIndex := map ▸ mem
      rcases failed_markInvalid tree present found failed with before | above
      · exact .inl ⟨idx, mem_path_self idx, found, before⟩
      · exact .inr ⟨pindex, above, cause⟩
    recorded := fun failed mem => by
      rcases mem_insert_iff.mp mem with rfl | before
      · refine .inr ⟨?_, cause⟩
        change failed ∈ (node.disconnectBranch failed tip).mapBlockIndex
        rw [map]
        exact present
      · exact .inl (records ▸ before)
  }
  refine ⟨tree.step marks (fun idx mem => .inl ?_) (fun entry mem => .inl ?_) (.inr ?_),
    marks⟩
  · exact candidates (mem_of_mem_erase mem)
  · exact waiting ▸ mem
  · change (node.disconnectBranch pindex tip).tip ∈ (node.disconnectBranch pindex tip).mapBlockIndex
    rw [same, map]
    exact tree.closed _ tree.tip tip below

include known in
theorem develops_invalidateBlock
    : Develops node (node.invalidateBlock ctx pindex).1 := by
  have below := mem_path_of_disconnectBelow pindex node.tip
  rw [invalidateBlock]
  split
  · rename_i tip disconnected
    rw [disconnected] at below
    exact develops_setTip fun tree => tree.closed _ tree.tip _ below
  · rename_i tip disconnected
    rw [disconnected] at below
    exact (develops_markInvalid known below).trans (develops_readdAll _ fun _ _ => id)

theorem develops_perform {call} (ran : node.perform ctx call = some after)
    (marking : ∀ hash, call ≠ .resetBlockFailureFlags hash)
    : Develops node after := by
  cases call with
  | acceptBlockHeader nAdjustedTime header =>
    intro tree
    have marks := Marks.acceptBlockHeader (ctx.toHeaderContext nAdjustedTime) header tree.closed
    simp only [perform] at ran
    split at ran
    · cases ran
    · rename_i refused
      rw [refused] at marks
      cases ran
      exact Develops.of_marks (fun _ => marks) tree
    · rename_i accepted
      rw [accepted] at marks
      cases ran
      exact develops_enterHeader (fun _ => marks) tree
  | acceptBlock sent =>
    have developed := @develops_acceptBlock ctx node sent sent.block
    simp only [perform] at ran
    split at ran
    · cases ran
    · rename_i refused
      rw [refused] at developed
      cases ran
      exact developed
    · rename_i accepted
      rw [accepted] at developed
      cases ran
      exact developed
  | activateBestChain pblock rounds =>
    obtain ⟨⟨reached, activated⟩, result, rfl⟩ := Option.map_eq_some_iff.mp ran
    exact develops_activateBestChain (fun _ _ mem => absurd mem (Option.not_mem_none _)) result
  | invalidateBlock hash =>
    simp only [perform] at ran
    split at ran
    · cases ran
      exact .refl _
    rename_i pindex found
    cases ran
    exact develops_invalidateBlock fun _ => (node.find_eq_some.mp found).1
  | resetBlockFailureFlags hash => exact absurd rfl (marking hash)

end Develops

end Node

end Pqcoin
