import Pqcoin.Validation.FailureMarks
import Pqcoin.Validation.Runs

/-! What `ResetBlockFailureFlags` clears, and what it leaves behind: records without their
flag, and marks without their cause.
-/

namespace Pqcoin

open BlockIndex List Node

namespace Node

open HeaderState

-- What is cleared

def OnLine (pindex idx : BlockIndex) : Prop := pindex ∈ idx.path ∨ idx ∈ pindex.path

instance (pindex idx : BlockIndex) : Decidable (OnLine pindex idx) :=
  inferInstanceAs (Decidable (_ ∨ _))

section Reset

variable {ctx : NodeContext} {node : Node} {idx pindex : BlockIndex}

theorem and_not_mask_of_clear {status} (clear : status &&& BLOCK_FAILED_MASK = 0)
    : status &&& ~~~BLOCK_FAILED_MASK = status := by
  have whole : status &&& (BLOCK_FAILED_MASK ||| ~~~BLOCK_FAILED_MASK) = status := by
    rw [show BLOCK_FAILED_MASK ||| ~~~BLOCK_FAILED_MASK = BitVec.allOnes 32 by decide,
      BitVec.and_allOnes]
  rw [BitVec.and_or_distrib_left, clear] at whole
  exact BitVec.zero_or.symm.trans whole

theorem clear_clear (first second : Prop) [Decidable first] [Decidable second]
    (status mask : BitVec 32)
    : (if second then (if first then status &&& mask else status) &&& mask
        else if first then status &&& mask else status)
      = if first ∨ second then status &&& mask else status := by
  by_cases once : first
  · simp only [once, if_true, true_or, BitVec.and_assoc, BitVec.and_self, ite_self]
  · simp only [once, if_false, false_or]

theorem nStatus_clearFailure (node : Node) (idx hash)
    : (node.clearFailure idx).nStatus hash
      = if idx.hash = hash then node.nStatus hash &&& ~~~BLOCK_FAILED_MASK
        else node.nStatus hash := by
  split
  · rename_i same
    subst same
    exact nStatus_setStatus ..
  · rename_i apart
    exact Function.update_of_ne (Ne.symm apart) ..

/-- One round clears the flags of an entry above `pindex`. -/
theorem nStatus_resetEntry (node : Node) (idx hash)
    : (node.resetEntry ctx pindex idx).nStatus hash
      = if idx.hash = hash ∧ pindex ∈ idx.path then
          node.nStatus hash &&& ~~~BLOCK_FAILED_MASK
        else node.nStatus hash := by
  have above : idx.getAncestor pindex.nHeight = some pindex ↔ pindex ∈ idx.path := by
    rw [getAncestor_eq, mem_path_iff]
  have cleared := nStatus_clearFailure node idx hash
  simp only [resetEntry, above]
  split
  · rename_i reset
    simp only [reset.2, and_true]
    split
    · exact cleared
    · exact cleared
  · rename_i kept
    split
    · rename_i here
      have valid : node.IsValid idx BLOCK_VALID_TRANSACTIONS := by
        by_contra invalid
        exact kept ⟨invalid, here.2⟩
      rw [← here.1]
      exact (and_not_mask_of_clear (not_not.mp valid.1)).symm
    · rfl

theorem nStatus_resetEntries (entries : List BlockIndex) (node hash)
    : (entries.foldl (resetEntry ctx pindex) node).nStatus hash
      = if ∃ idx ∈ entries, idx.hash = hash ∧ pindex ∈ idx.path then
          node.nStatus hash &&& ~~~BLOCK_FAILED_MASK
        else node.nStatus hash := by
  induction entries generalizing node with
  | nil => simp
  | cons idx rest ih =>
    rw [foldl_cons, ih, nStatus_resetEntry]
    simp only [clear_clear, exists_mem_cons_iff]

theorem nStatus_clearIfFailed (node : Node) (idx hash)
    : (if node.Failed idx then node.clearFailure idx else node).nStatus hash
      = if idx.hash = hash then node.nStatus hash &&& ~~~BLOCK_FAILED_MASK
        else node.nStatus hash := by
  split
  · exact nStatus_clearFailure node idx hash
  rename_i clear
  split
  · rename_i same
    subst same
    exact (and_not_mask_of_clear (not_not.mp clear)).symm
  · rfl

/-- The walk down clears the flags of an entry and its ancestors. -/
theorem nStatus_clearAncestors (node : Node) (pindex hash)
    : (node.clearAncestors pindex).nStatus hash
      = if ∃ lower ∈ pindex.path, lower.hash = hash then
          node.nStatus hash &&& ~~~BLOCK_FAILED_MASK
        else node.nStatus hash := by
  induction pindex generalizing node with
  | root own header =>
    have alone : (∃ lower ∈ (BlockIndex.root own header).path, lower.hash = hash) ↔ own = hash := by
      simp [BlockIndex.path, BlockIndex.hash]
    simp only [alone]
    exact nStatus_clearIfFailed node (.root own header) hash
  | child pprev own header ih =>
    have split : (∃ lower ∈ (BlockIndex.child pprev own header).path, lower.hash = hash)
        ↔ own = hash ∨ ∃ lower ∈ pprev.path, lower.hash = hash := by
      simp [BlockIndex.path, BlockIndex.hash, or_comm, or_and_right, exists_or]
    simp only [split]
    have own := nStatus_clearIfFailed node (.child pprev own header) hash
    rw [clearAncestors, ih, own]
    exact clear_clear ..

def remark (node : Node) (nStatus : Uint256 → BitVec 32) (candidates : List BlockIndex) : Node :=
  {
    node with
    toHeaderState := { node.toHeaderState with nStatus := nStatus }
    setBlockIndexCandidates := candidates
  }

theorem resetEntry_eq (node : Node) (idx)
    : ∃ nStatus candidates, node.resetEntry ctx pindex idx = node.remark nStatus candidates
      ∧ ∀ other ∈ candidates, other ∈ node.setBlockIndexCandidates ∨ other = idx := by
  simp only [resetEntry]
  split
  · split
    · exact ⟨_, _, rfl, fun other mem => (mem_insert_iff.mp mem).symm⟩
    · exact ⟨_, _, rfl, fun other mem => .inl mem⟩
  · exact ⟨_, _, rfl, fun other mem => .inl mem⟩

theorem resetEntries_eq (entries : List BlockIndex) (node)
    : ∃ nStatus candidates,
        entries.foldl (resetEntry ctx pindex) node = node.remark nStatus candidates
        ∧ ∀ other ∈ candidates, other ∈ node.setBlockIndexCandidates ∨ other ∈ entries := by
  induction entries generalizing node with
  | nil => exact ⟨_, _, rfl, fun other mem => .inl mem⟩
  | cons idx rest ih =>
    obtain ⟨first, kept, stepped, origin⟩ := @resetEntry_eq ctx pindex node idx
    obtain ⟨nStatus, candidates, result, later⟩ := ih (node.resetEntry ctx pindex idx)
    refine ⟨nStatus, candidates, ?_, fun other mem => ?_⟩
    · rw [foldl_cons, result, stepped]
      rfl
    · rcases later other mem with before | among
      · rw [stepped] at before
        rcases origin other before with earlier | rfl
        · exact .inl earlier
        · exact .inr mem_cons_self
      · exact .inr (mem_cons_of_mem _ among)

theorem clearAncestors_eq (node : Node) (pindex)
    : ∃ nStatus, node.clearAncestors pindex
      = node.remark nStatus node.setBlockIndexCandidates := by
  have cleared (node : Node) (idx)
      : ∃ nStatus, (if node.Failed idx then node.clearFailure idx else node)
        = node.remark nStatus node.setBlockIndexCandidates := by
    split <;> exact ⟨_, rfl⟩
  induction pindex generalizing node with
  | root hash header => exact cleared node _
  | child pprev hash header ih =>
    obtain ⟨first, stepped⟩ := cleared node (.child pprev hash header)
    obtain ⟨nStatus, result⟩ := ih (node.remark first node.setBlockIndexCandidates)
    refine ⟨nStatus, ?_⟩
    rw [clearAncestors, stepped, result]
    rfl

theorem resetBlockFailureFlags_eq (ctx : NodeContext) (pindex) (node : Node)
    : ∃ nStatus candidates,
        node.resetBlockFailureFlags ctx pindex = node.remark nStatus candidates
        ∧ ∀ other ∈ candidates,
          other ∈ node.setBlockIndexCandidates ∨ other ∈ node.mapBlockIndex := by
  obtain ⟨first, candidates, stepped, origin⟩ :=
    @resetEntries_eq ctx pindex node.mapBlockIndex node
  obtain ⟨nStatus, result⟩ := clearAncestors_eq (node.remark first candidates) pindex
  refine ⟨nStatus, candidates, ?_, origin⟩
  rw [resetBlockFailureFlags, stepped, result]
  rfl

section

variable (ctx : NodeContext) (tree : node.InTree)
  (known : pindex ∈ node.mapBlockIndex) (found : idx ∈ node.mapBlockIndex)

include tree known found

theorem nStatus_resetBlockFailureFlags
    : (node.resetBlockFailureFlags ctx pindex).nStatus idx.hash
      = if OnLine pindex idx then node.nStatus idx.hash &&& ~~~BLOCK_FAILED_MASK
        else node.nStatus idx.hash := by
  have above : (∃ other ∈ node.mapBlockIndex, other.hash = idx.hash ∧ pindex ∈ other.path)
      ↔ pindex ∈ idx.path := by
    constructor
    · rintro ⟨other, mem, same, higher⟩
      exact eq_of_hash mem found same ▸ higher
    · exact fun higher => ⟨idx, found, rfl, higher⟩
  have below : (∃ lower ∈ pindex.path, lower.hash = idx.hash) ↔ idx ∈ pindex.path := by
    constructor
    · rintro ⟨lower, mem, same⟩
      exact eq_of_hash (tree.closed pindex known lower mem) found same ▸ mem
    · exact fun mem => ⟨idx, mem, rfl⟩
  rw [resetBlockFailureFlags, nStatus_clearAncestors, nStatus_resetEntries]
  simp only [above, below]
  exact clear_clear ..

theorem reset_flag_iff {flag : BitVec 32} (cleared : ~~~BLOCK_FAILED_MASK &&& flag = 0)
    : (node.resetBlockFailureFlags ctx pindex).nStatus idx.hash &&& flag ≠ 0
      ↔ node.nStatus idx.hash &&& flag ≠ 0 ∧ ¬ OnLine pindex idx := by
  rw [nStatus_resetBlockFailureFlags ctx tree known found]
  split
  · rename_i here
    rw [BitVec.and_assoc, cleared]
    simp [here]
  · rename_i kept
    simp only [kept, not_false_eq_true, and_true]

theorem reset_failed_iff
    : (node.resetBlockFailureFlags ctx pindex).Failed idx
      ↔ node.Failed idx ∧ ¬ OnLine pindex idx :=
  reset_flag_iff ctx tree known found (by decide)

theorem reset_failedValid_iff
    : (node.resetBlockFailureFlags ctx pindex).FailedValid idx
      ↔ node.FailedValid idx ∧ ¬ OnLine pindex idx :=
  reset_flag_iff ctx tree known found (by decide)

end

theorem InTree.reset (tree : node.InTree)
    : (node.resetBlockFailureFlags ctx pindex).InTree := by
  obtain ⟨nStatus, candidates, result, origin⟩ := resetBlockFailureFlags_eq ctx pindex node
  rw [result]
  exact ⟨tree.closed, fun idx mem => (origin idx mem).elim (tree.candidates idx) id,
    tree.waiting, tree.tip⟩

-- Calls that reconsider a block

def Reconsiders (node : Node) (call : ChainCall) (pindex : BlockIndex) : Prop :=
  ∃ hash, call = .resetBlockFailureFlags hash ∧ node.find hash = some pindex

theorem perform_of_reconsiders {call} (reconsiders : node.Reconsiders call pindex)
    : node.perform ctx call = some (node.resetBlockFailureFlags ctx pindex) := by
  obtain ⟨hash, rfl, found⟩ := reconsiders
  simp only [Node.perform, found]

/-- Everything a call can do to the marks. -/
theorem perform_cases {call after} (ran : node.perform ctx call = some after)
    : (∃ pindex ∈ node.mapBlockIndex, node.Reconsiders call pindex
        ∧ after = node.resetBlockFailureFlags ctx pindex)
      ∨ ((∀ pindex, ¬ node.Reconsiders call pindex) ∧ Develops node after) := by
  by_cases marking : ∀ hash, call ≠ .resetBlockFailureFlags hash
  · refine .inr ⟨fun pindex reconsiders => ?_, develops_perform ran marking⟩
    obtain ⟨hash, same, _⟩ := reconsiders
    exact marking hash same
  push Not at marking
  obtain ⟨hash, rfl⟩ := marking
  cases found : node.find hash with
  | none =>
    refine .inr ⟨fun pindex reconsiders => ?_, ?_⟩
    · obtain ⟨other, same, known⟩ := reconsiders
      cases same
      cases found.symm.trans known
    · simp only [Node.perform, found] at ran
      cases ran
      exact .refl _
  | some pindex =>
    have reconsiders : node.Reconsiders (.resetBlockFailureFlags hash) pindex := ⟨hash, rfl, found⟩
    rw [perform_of_reconsiders reconsiders] at ran
    exact .inl ⟨pindex, (node.find_eq_some.mp found).1, reconsiders,
      (Option.some.inj ran).symm⟩

theorem InTree.perform {call after} (tree : node.InTree) (ran : node.perform ctx call = some after)
    : after.InTree := by
  rcases perform_cases ran with ⟨pindex, _, _, rfl⟩ | ⟨_, developed⟩
  · exact tree.reset
  · exact (developed tree).1

/-- A property that the other calls keep is kept exactly if reconsidering keeps it. -/
theorem reconsiders_iff {P : Node → Prop} {Q : BlockIndex → Prop} (call)
    (others : ∀ after, Develops node after → P after)
    (exact : ∀ pindex ∈ node.mapBlockIndex,
      P (node.resetBlockFailureFlags ctx pindex) ↔ Q pindex)
    : (∀ pindex, node.Reconsiders call pindex → Q pindex)
      ↔ ∀ after, node.perform ctx call = some after → P after := by
  constructor
  · intro allowed after ran
    rcases perform_cases ran with ⟨pindex, known, reconsiders, rfl⟩ | ⟨_, developed⟩
    · exact (exact pindex known).mpr (allowed pindex reconsiders)
    · exact others after developed
  · intro kept pindex reconsiders
    obtain ⟨hash, _, found⟩ := id reconsiders
    have known := (node.find_eq_some.mp found).1
    exact (exact pindex known).mp (kept _ (perform_of_reconsiders reconsiders))

end Reset

/-- A start with the genesis block. -/
theorem AtGenesis.inTree {ctx} {node : Node} (genesis : node.AtGenesis ctx)
    : node.InTree where
  closed := by
    intro idx mem lower below
    rw [genesis.index, mem_singleton] at mem ⊢
    subst mem
    obtain ⟨hash, header, same⟩ := eq_root_of_pprev genesis.root
    rw [same] at below ⊢
    exact mem_singleton.mp below
  candidates idx mem := by
    rw [genesis.candidates] at mem
    rw [genesis.index]
    exact mem
  waiting entry mem := by
    rw [genesis.unlinked] at mem
    cases mem
  tip := by
    rw [genesis.index]
    exact mem_singleton_self _

-- Records

/-- Every recorded block has its flag, and no header runs into the assertion. -/
def HeadersSafe (ctx : NodeContext) (node : Node) : Prop :=
  (∀ failed ∈ node.gFailedBlocks, node.FailedValid failed)
  ∧ ∀ nAdjustedTime header,
    (node.perform ctx (.acceptBlockHeader nAdjustedTime header)).isSome = true

def SparesRecords (node : Node) (call : ChainCall) : Prop :=
  ∀ pindex, node.Reconsiders call pindex → ∀ failed ∈ node.gFailedBlocks, ¬ OnLine pindex failed

section Records

variable {ctx : NodeContext} {node after : Node}

theorem headersSafe_iff
    : HeadersSafe ctx node ↔ ∀ failed ∈ node.gFailedBlocks, node.FailedValid failed := by
  refine and_iff_left_of_imp fun flagged nAdjustedTime header => ?_
  simp only [perform]
  split
  · rename_i failed
    have result := congrArg Prod.snd failed
    obtain ⟨failedit, mem, unflagged⟩ := acceptBlockHeader_assertion result
    exact absurd (flagged failedit mem) unflagged
  · rfl
  · rfl

/-- The records are entries of the index. -/
def Recorded (node : Node) : Prop :=
  node.InTree ∧ ∀ failed ∈ node.gFailedBlocks, failed ∈ node.mapBlockIndex

theorem gFailedBlocks_reset (ctx pindex) (node : Node)
    : (node.resetBlockFailureFlags ctx pindex).gFailedBlocks = node.gFailedBlocks
      ∧ (node.resetBlockFailureFlags ctx pindex).mapBlockIndex = node.mapBlockIndex := by
  obtain ⟨nStatus, candidates, result, _⟩ := resetBlockFailureFlags_eq ctx pindex node
  rw [result]
  exact ⟨rfl, rfl⟩

theorem Recorded.perform {call} (recorded : node.Recorded)
    (ran : node.perform ctx call = some after)
    : after.Recorded := by
  obtain ⟨tree, known⟩ := recorded
  refine ⟨tree.perform ran, fun failed mem => ?_⟩
  rcases perform_cases ran with ⟨pindex, _, _, rfl⟩ | ⟨_, developed⟩
  · obtain ⟨records, map⟩ := gFailedBlocks_reset ctx pindex node
    rw [records] at mem
    rw [map]
    exact known failed mem
  · have marks := (developed tree).2
    rcases marks.recorded failed mem with before | ⟨found, _⟩
    · exact marks.grows failed (known failed before)
    · exact found

/-- A call keeps the flags of the records exactly if it spares them. -/
theorem sparesRecords_iff (recorded : node.Recorded) (safe : HeadersSafe ctx node) (call)
    : SparesRecords node call
      ↔ ∀ after, node.perform ctx call = some after → HeadersSafe ctx after := by
  obtain ⟨tree, known⟩ := recorded
  have flagged := headersSafe_iff.mp safe
  refine reconsiders_iff call (fun after developed => ?_) fun pindex present => ?_
  · refine headersSafe_iff.mpr fun failed mem => ?_
    have marks := (developed tree).2
    rcases marks.recorded failed mem with before | ⟨_, now⟩
    · exact marks.keeps failed (known failed before) (flagged failed before)
    · exact now
  · rw [headersSafe_iff, (gFailedBlocks_reset ctx pindex node).1]
    refine forall₂_congr fun failed mem => ?_
    rw [reset_failedValid_iff ctx tree present (known failed mem)]
    exact and_iff_right (flagged failed mem)

end Records

end Node

/-- Every recorded block keeps its flag, so that no header runs into the assertion, exactly if
no block on the line of a recorded one is reconsidered.
-/
theorem failedBlocks_flagged_iff (ctx : NodeContext) (start : Node)
    (genesis : start.AtGenesis ctx) (calls : List ChainCall)
    : start.Always ctx (Node.HeadersSafe ctx) calls
      ↔ start.Throughout ctx Node.SparesRecords calls := by
  have none {failed} (mem : failed ∈ start.gFailedBlocks) : False := by
    rw [genesis.records] at mem
    cases mem
  apply always_iff_throughout Node.Recorded.perform
  · exact fun call recorded safe => sparesRecords_iff recorded safe call
  · exact ⟨genesis.inTree, fun failed mem => (none mem).elim⟩
  · exact headersSafe_iff.mpr fun failed mem => (none mem).elim

/-- A chain of merge-mined headers under a hash that reads the Merkle root back. -/
def forkContext : NodeContext := { lenientContext with H := rootHashing }

def forkHeader (hashPrevBlock : Uint256) (nTime : BitVec 32) (hash : Uint256) : BlockHeader :=
  {
    mergedChild (forkContext.chainparams.getConsensus 0) (plainAuxPow 1) 0x207fffff hash with
    hashPrevBlock := hashPrevBlock
    nTime := nTime
  }

theorem genesisNode_atGenesis : genesisNode.AtGenesis forkContext where
  index := rfl
  root := rfl
  hash := rfl
  valid := by decide
  data := by decide
  counted := rfl
  nonempty := by decide
  candidates := rfl
  unlinked := rfl
  records := rfl

/-- A header that is accepted and then invalidated. -/
theorem failedBlocks_flagged_iff_invalidated
    : genesisNode.Always forkContext (Node.HeadersSafe forkContext)
        [.acceptBlockHeader 0 (forkHeader 1 1 2), .invalidateBlock 2] := by
  refine (failedBlocks_flagged_iff forkContext genesisNode genesisNode_atGenesis _).mpr ?_
  exact ⟨nofun, fun _ _ => ⟨nofun, fun _ _ => trivial⟩⟩

/-- A header is invalidated and reconsidered, and the next header on top of it runs into the
assertion.
-/
theorem reconsidered_header_asserts
    : ∃ node, genesisNode.performAll forkContext
          [.acceptBlockHeader 0 (forkHeader 1 1 2), .invalidateBlock 2, .resetBlockFailureFlags 2]
        = some node
      ∧ (∃ failed ∈ node.gFailedBlocks, ¬ node.FailedValid failed)
      ∧ node.perform forkContext (.acceptBlockHeader 0 (forkHeader 2 2 3)) = none := by
  decide +kernel

-- Causes

namespace Node

/-- A failed block has a cause: itself or an ancestor that carries `BLOCK_FAILED_VALID`. -/
def Caused (node : Node) : Prop :=
  ∀ idx ∈ node.mapBlockIndex, node.Failed idx → ∃ cause ∈ idx.path, node.FailedValid cause

/-- What is failed off the line of a reconsidered block has a cause that is not cleared. -/
def LeavesCauses (node : Node) (call : ChainCall) : Prop :=
  ∀ pindex, node.Reconsiders call pindex
    → ∀ idx ∈ node.mapBlockIndex, node.Failed idx → ¬ OnLine pindex idx
    → ∃ cause ∈ idx.path, node.FailedValid cause ∧ cause ∉ pindex.path

section Causes

variable {ctx : NodeContext} {node after : Node}

/-- Marks keep their causes. -/
theorem Caused.develops (caused : node.Caused) (tree : node.InTree)
    (developed : Develops node after)
    : after.Caused := by
  have marks := (developed tree).2
  intro idx found failed
  rcases marks.caused idx found failed with ⟨lower, below, known, earlier⟩ | cause
  · obtain ⟨cause, deeper, flagged⟩ := caused lower known earlier
    have mem := tree.closed lower known cause deeper
    exact ⟨cause, mem_path_trans deeper below, marks.keeps cause mem flagged⟩
  · exact cause

theorem leavesCauses_iff (tree : node.InTree) (caused : node.Caused) (call)
    : LeavesCauses node call
      ↔ ∀ after, node.perform ctx call = some after → after.Caused := by
  refine reconsiders_iff call (fun after developed => caused.develops tree developed)
    fun pindex present => ?_
  rw [Caused, (gFailedBlocks_reset ctx pindex node).2]
  refine forall₂_congr fun idx found => ?_
  rw [reset_failed_iff ctx tree present found, and_imp]
  refine forall₂_congr fun failed off => exists_congr fun cause => and_congr_right fun below => ?_
  have mem := tree.closed idx found cause below
  rw [reset_failedValid_iff ctx tree present mem, OnLine,
    or_iff_right fun higher => off (.inl (mem_path_trans higher below))]

end Causes

end Node

/-- Every failed block has a cause throughout a run exactly if each reconsidered block leaves
what is failed off its line with one.
-/
theorem failures_caused_iff (ctx : NodeContext) (start : Node)
    (genesis : start.AtGenesis ctx) (calls : List ChainCall)
    : start.Always ctx Node.Caused calls
      ↔ start.Throughout ctx Node.LeavesCauses calls := by
  apply always_iff_throughout Node.InTree.perform
  · exact fun call tree caused => leavesCauses_iff tree caused call
  · exact genesis.inTree
  · intro idx mem failed
    rw [genesis.index, mem_singleton] at mem
    subst mem
    exact absurd failed genesis.valid.1

/-- The genesis block is reconsidered before a header fails. -/
theorem failures_caused_iff_reconsidered
    : genesisNode.Always forkContext Node.Caused
        [.resetBlockFailureFlags 1, .acceptBlockHeader 0 (forkHeader 1 1 2),
          .invalidateBlock 2] := by
  refine (failures_caused_iff forkContext genesisNode genesisNode_atGenesis _).mpr ?_
  refine ⟨fun pindex _ idx mem failed => ?_, fun _ _ => ⟨nofun, fun _ _ =>
    ⟨nofun, fun _ _ => trivial⟩⟩⟩
  cases mem_singleton.mp mem
  exact absurd failed (by decide)

/-- Two headers on a third one, which is invalidated. One of the two is marked because of it,
and stays marked when the other is reconsidered.
-/
theorem reconsidering_orphans_mark
    : ∃ node, genesisNode.performAll forkContext
          [.acceptBlockHeader 0 (forkHeader 1 1 2), .acceptBlockHeader 0 (forkHeader 2 2 3),
            .acceptBlockHeader 0 (forkHeader 2 2 4), .invalidateBlock 2,
            .acceptBlockHeader 0 (forkHeader 4 3 5), .resetBlockFailureFlags 3]
        = some node
      ∧ ∃ idx ∈ node.mapBlockIndex, node.Failed idx
        ∧ ∀ cause ∈ idx.path, ¬ node.FailedValid cause := by
  decide +kernel

end Pqcoin
