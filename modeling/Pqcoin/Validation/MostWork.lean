import Pqcoin.Validation.Activation

/-! Whether the active chain is the usable chain with the most work, and what
`ResetBlockFailureFlags` and `ReceivedBlockTransactions` forget.
-/

namespace Pqcoin

open List
open BlockIndex (mem_path_child mem_path_iff mem_path_self mem_path_trans)

namespace Node

open HeaderState

-- InvalidateBlock

section Invalidate

variable {ctx : NodeContext} {node after : Node} {mark idx pindex tip : BlockIndex}

theorem disconnectBelow_cases (pindex tip)
    : (∃ lower ∈ tip.path, disconnectBelow pindex tip = (lower, true) ∧ pindex ∉ lower.path)
      ∨ (disconnectBelow pindex tip = (pindex, false) ∧ pindex ∈ tip.path
        ∧ pindex.pprev = none) := by
  induction tip with
  | root hash header =>
    simp only [disconnectBelow]
    by_cases reached : (BlockIndex.root hash header).ancestor pindex.nHeight = some pindex
    · have below := mem_path_iff.mpr reached
      cases mem_singleton.mp below
      refine .inr ⟨?_, below, rfl⟩
      rw [decide_eq_false (not_not.mpr reached)]
    · refine .inl ⟨_, mem_path_self _, ?_, mt mem_path_iff.mp reached⟩
      rw [decide_eq_true reached]
  | child pprev hash header ih =>
    simp only [disconnectBelow]
    split
    · rcases ih with ⟨lower, below, ends, off⟩ | ⟨ends, below, root⟩
      · exact .inl ⟨lower, mem_path_child.mpr (.inl below), ends, off⟩
      · exact .inr ⟨ends, mem_path_child.mpr (.inl below), root⟩
    · rename_i off
      exact .inl ⟨_, mem_path_self _, rfl, mt mem_path_iff.mp off⟩

theorem SameBlocks.markDisconnected (pindex node tip)
    : SameBlocks node (node.markDisconnected pindex tip) := by
  induction tip generalizing node with
  | root hash header => exact .refl node
  | child pprev hash header ih =>
    rw [Node.markDisconnected]
    split
    · exact .refl node
    have marked : SameBlocks node
        ((node.setFlag (.child pprev hash header) BLOCK_FAILED_CHILD).dropCandidate
          (.child pprev hash header)) :=
      ⟨.setFlag (by decide) (by decide), rfl, rfl, rfl, rfl, rfl⟩
    exact marked.trans (ih _)

theorem SameBlocks.markInvalid (pindex node tip)
    : SameBlocks node ((node.disconnectBranch pindex tip).markInvalid pindex) := by
  have lowered : SameBlocks node { node with tip := tip } := ⟨.refl _, rfl, rfl, rfl, rfl, rfl⟩
  have branch : SameBlocks node (node.disconnectBranch pindex tip) := by
    rw [disconnectBranch]
    split
    · exact lowered.trans (.markDisconnected pindex _ node.tip)
    · exact lowered
  have flagged : SameData (node.disconnectBranch pindex tip).toHeaderState
      ((node.disconnectBranch pindex tip).toHeaderState.setFlag pindex BLOCK_FAILED_VALID) :=
    .setFlag (by decide) (by decide)
  exact branch.trans ⟨⟨flagged.map, flagged.data, flagged.level⟩, rfl, rfl, rfl, rfl, rfl⟩

/-- The loop over the index adds every entry that is valid, linked and not worse than the tip.
Nothing else changes apart from the records.
-/
theorem readdAll_eq (ctx) (entries : List BlockIndex) (node)
    : ∃ listed records,
        entries.foldl (readdCandidate ctx) node
          = { node with gFailedBlocks := records, setBlockIndexCandidates := listed }
        ∧ ∀ idx, idx ∈ listed ↔ idx ∈ node.setBlockIndexCandidates
          ∨ (idx ∈ entries ∧ node.IsValid idx BLOCK_VALID_TRANSACTIONS ∧ node.Linked idx
            ∧ node.rank ctx node.tip ≤ node.rank ctx idx) := by
  have round (node : Node) (first)
      : ∃ listed records,
          node.readdCandidate ctx first
            = { node with gFailedBlocks := records, setBlockIndexCandidates := listed }
          ∧ ∀ idx, idx ∈ listed ↔ idx ∈ node.setBlockIndexCandidates
            ∨ (idx = first ∧ node.IsValid idx BLOCK_VALID_TRANSACTIONS ∧ node.Linked idx
              ∧ node.rank ctx node.tip ≤ node.rank ctx idx) := by
    rw [readdCandidate]
    split
    · rename_i added
      refine ⟨_, _, rfl, fun idx => ?_⟩
      rw [mem_insert_iff, or_comm, ← worse_eq_false_iff]
      refine or_congr_right (and_iff_left_of_imp ?_).symm
      rintro rfl
      exact added
    · rename_i kept
      refine ⟨_, _, rfl, fun idx => (or_iff_left ?_).symm⟩
      rintro ⟨rfl, valid, linked, higher⟩
      exact kept ⟨valid, linked, worse_eq_false_iff.mpr higher⟩
  induction entries generalizing node with
  | nil => exact ⟨_, _, rfl, fun idx => by simp⟩
  | cons first rest ih =>
    obtain ⟨listed, records, stepped, one⟩ := round node first
    obtain ⟨all, others, result, later⟩ := ih (node.readdCandidate ctx first)
    rw [stepped] at result later
    refine ⟨all, others, ?_, fun idx => ?_⟩
    · rw [foldl_cons, stepped]
      exact result
    · rw [later idx, mem_cons]
      change idx ∈ listed ∨ (idx ∈ rest ∧ node.IsValid idx _ ∧ node.Linked idx
        ∧ node.rank ctx node.tip ≤ node.rank ctx idx) ↔ _
      rw [one idx]
      tauto

/-- What `InvalidateBlock` does when it ends at `tip`: only entries from `pindex` on fail, and
the usable entries that are not worse than the new tip are candidates.
-/
structure Invalidated (ctx : NodeContext) (pindex tip : BlockIndex) (node after : Node)
    : Prop where
  same : SameBlocks node after
  moved : after.tip = tip
  failed : ∀ idx ∈ node.mapBlockIndex, after.Failed idx
    → node.Failed idx ∨ pindex ∈ idx.path
  origin : ∀ idx ∈ after.setBlockIndexCandidates,
    idx ∈ node.setBlockIndexCandidates ∨ after.Linked idx
  readded : ∀ idx ∈ after.mapBlockIndex, after.IsValid idx BLOCK_VALID_TRANSACTIONS
    → after.Linked idx → after.rank ctx tip ≤ after.rank ctx idx
    → idx ∈ after.setBlockIndexCandidates

theorem invalidateBlock_cases (ctx) (tree : node.InTree) (present : pindex ∈ node.mapBlockIndex)
    : (∃ tip ∈ node.tip.path, pindex ∉ tip.path
        ∧ Invalidated ctx pindex tip node (node.invalidateBlock ctx pindex).1)
      ∨ ((node.invalidateBlock ctx pindex).1 = { node with tip := pindex }
        ∧ pindex ∈ node.tip.path ∧ pindex.pprev = none) := by
  rcases disconnectBelow_cases pindex node.tip with ⟨tip, below, ends, off⟩ | ⟨ends, below, root⟩
  · refine .inl ⟨tip, below, off, ?_⟩
    obtain ⟨_, _, _, moved, fewer, _, _⟩ := @disconnectBranch_marks node pindex tip tree
    obtain ⟨listed, records, result, readded⟩ := readdAll_eq ctx
      ((node.disconnectBranch pindex tip).markInvalid pindex).mapBlockIndex
      ((node.disconnectBranch pindex tip).markInvalid pindex)
    have moved' : ((node.disconnectBranch pindex tip).markInvalid pindex).tip = tip := moved
    rw [moved'] at readded
    simp only [invalidateBlock, ends, result]
    exact {
      same := (SameBlocks.markInvalid pindex node tip).trans
        ⟨⟨rfl, fun _ => rfl, fun _ => BitVec.le_refl _⟩, rfl, rfl, rfl, rfl, rfl⟩
      moved := moved
      failed := fun idx found => failed_markInvalid tree present found
      origin := fun idx mem => by
        rcases (readded idx).mp mem with before | ⟨_, _, linked, _⟩
        · exact .inl (fewer (mem_of_mem_erase before))
        · exact .inr linked
      readded := fun idx known valid linked higher =>
        (readded idx).mpr (.inr ⟨known, valid, linked, higher⟩)
    }
  · refine .inr ⟨?_, below, root⟩
    rw [invalidateBlock, ends]

theorem Ready.invalidateBlock (ready : Ready ctx node [] mark)
    (present : pindex ∈ node.mapBlockIndex)
    (genesis : pindex.pprev = none → node.worse ctx node.tip pindex = false)
    : ∃ mark', Ready ctx (node.invalidateBlock ctx pindex).1 [] mark' := by
  have tree' := (@develops_invalidateBlock ctx node pindex (fun _ => present) ready.tree).1
  obtain ⟨tree, stored, front, order⟩ := ready
  rcases invalidateBlock_cases ctx tree present
    with ⟨tip, below, off, invalidated⟩ | ⟨result, below, root⟩
  · generalize (node.invalidateBlock ctx pindex).1 = after at tree' invalidated
    obtain ⟨same, moved, failed, origin, readded⟩ := invalidated
    subst moved
    have stored' := stored.same same
    have firm : after.Firm ctx after.tip := by
      intro lower deeper
      obtain ⟨unfailed, linked, connects⟩ := front.tipFirm.below below lower deeper
      have found := tree.closed _ tree.tip lower (mem_path_trans deeper below)
      refine ⟨fun now => ?_, (same.linked_iff lower).mpr linked, connects⟩
      rcases failed lower found now with before | above
      · exact unfailed before
      · exact off (mem_path_trans above deeper)
    have listed : ∀ idx ∈ after.usable,
        after.rank ctx after.tip ≤ after.rank ctx idx → idx ∈ after.candidates := by
      rintro idx ⟨known, unfailed, linked⟩ higher
      have here := (stored'.linked idx known linked).1
      exact readded idx known ⟨unfailed, stored'.level idx known here⟩ linked higher
    have usable := firm.usable tree'.tip
    refine ⟨after.tip, tree', stored', ⟨fun idx mem => ?_, firm, firm, ?_⟩, le_rfl⟩
    · rcases origin idx mem with before | linked
      · exact (same.linked_iff idx).mpr (front.linked idx before)
      · exact linked
    · exact ⟨usable, listed _ usable le_rfl, fun idx now higher => listed idx now higher.le⟩
  · rw [result]
    have lowered := (Active.mk tree stored front).lowerTip below
    exact ⟨mark, lowered.tree, lowered.stored, lowered.front,
      (worse_eq_false_iff.mp (genesis root)).trans order⟩

end Invalidate

-- ResetBlockFailureFlags

section Reset

variable {ctx : NodeContext} {node : Node} {mark idx pindex : BlockIndex}

theorem SameBlocks.reset (ctx pindex node)
    : SameBlocks node (node.resetBlockFailureFlags ctx pindex) := by
  have cleared (hash)
      : (node.resetBlockFailureFlags ctx pindex).nStatus hash = node.nStatus hash
        ∨ (node.resetBlockFailureFlags ctx pindex).nStatus hash
          = node.nStatus hash &&& ~~~BLOCK_FAILED_MASK := by
    rw [resetBlockFailureFlags, nStatus_clearAncestors, nStatus_resetEntries, clear_clear]
    split
    · exact .inr rfl
    · exact .inl rfl
  have data : ~~~BLOCK_FAILED_MASK &&& BLOCK_HAVE_DATA = BLOCK_HAVE_DATA := by decide
  have level : ~~~BLOCK_FAILED_MASK &&& BLOCK_VALID_MASK = BLOCK_VALID_MASK := by decide
  obtain ⟨nStatus, candidates, result, _⟩ := resetBlockFailureFlags_eq ctx pindex node
  rw [result] at cleared ⊢
  refine ⟨⟨rfl, fun hash => ?_, fun hash => ?_⟩, rfl, rfl, rfl, rfl, rfl⟩
  · rcases cleared hash with same | same
    · rw [same]
    · rw [same, BitVec.and_assoc, data]
  · rcases cleared hash with same | same
    · rw [same]
      exact BitVec.le_refl _
    · rw [same, BitVec.and_assoc, level]
      exact BitVec.le_refl _

/-- The entry is put among the candidates when its flags are cleared. -/
def Returns (ctx : NodeContext) (pindex : BlockIndex) (node : Node) (idx : BlockIndex)
    : Prop :=
  node.Failed idx ∧ pindex ∈ idx.path
  ∧ BLOCK_VALID_TRANSACTIONS ≤ node.nStatus idx.hash &&& BLOCK_VALID_MASK
  ∧ node.Linked idx ∧ node.rank ctx node.tip < node.rank ctx idx

theorem candidates_resetEntry (node : Node) (first)
    : (∀ idx ∈ (node.resetEntry ctx pindex first).setBlockIndexCandidates,
        idx ∈ node.setBlockIndexCandidates ∨ node.Linked idx)
      ∧ (∀ idx ∈ node.setBlockIndexCandidates,
        idx ∈ (node.resetEntry ctx pindex first).setBlockIndexCandidates)
      ∧ (node.Returns ctx pindex first
        → first ∈ (node.resetEntry ctx pindex first).setBlockIndexCandidates) := by
  have above : first.getAncestor pindex.nHeight = some pindex ↔ pindex ∈ first.path := by
    rw [BlockIndex.getAncestor_eq, mem_path_iff]
  simp only [resetEntry, above]
  split
  · rename_i reset
    split
    · rename_i listed
      refine ⟨fun idx mem => ?_, fun idx => mem_insert_of_mem, fun _ => mem_insert_self⟩
      rcases mem_insert_iff.mp mem with rfl | before
      · exact .inr listed.2.1
      · exact .inl before
    · rename_i unlisted
      refine ⟨fun _ => .inl, fun _ => id, fun returns => absurd ?_ unlisted⟩
      obtain ⟨_, _, level, linked, higher⟩ := returns
      have status := nStatus_clearFailure node first first.hash
      rw [if_pos rfl] at status
      refine ⟨⟨?_, ?_⟩, linked, worse_iff.mpr higher⟩
      · rw [Failed, status, BitVec.and_assoc,
          show ~~~BLOCK_FAILED_MASK &&& BLOCK_FAILED_MASK = 0#32 by decide, BitVec.and_zero]
        exact fun set => set rfl
      · rw [status, BitVec.and_assoc,
          show ~~~BLOCK_FAILED_MASK &&& BLOCK_VALID_MASK = BLOCK_VALID_MASK by decide]
        exact level
  · rename_i kept
    refine ⟨fun _ => .inl, fun _ => id, fun returns => absurd ⟨?_, returns.2.1⟩ kept⟩
    exact fun valid => valid.1 returns.1

/-- The loop over the index, by induction on the entries. Each one is met with the flags it had
before.
-/
theorem candidates_resetEntries (entries : List BlockIndex) (node)
    (known : ∀ idx ∈ entries, idx ∈ node.mapBlockIndex)
    : (∀ idx ∈ (entries.foldl (resetEntry ctx pindex) node).setBlockIndexCandidates,
        idx ∈ node.setBlockIndexCandidates ∨ node.Linked idx)
      ∧ (∀ idx ∈ node.setBlockIndexCandidates,
        idx ∈ (entries.foldl (resetEntry ctx pindex) node).setBlockIndexCandidates)
      ∧ (∀ idx ∈ entries, node.Returns ctx pindex idx
        → idx ∈ (entries.foldl (resetEntry ctx pindex) node).setBlockIndexCandidates) := by
  induction entries generalizing node with
  | nil => exact ⟨fun _ => .inl, fun _ => id, nofun⟩
  | cons first rest ih =>
    obtain ⟨origin, kept, added⟩ := @candidates_resetEntry ctx pindex node first
    obtain ⟨nStatus, candidates, same, _⟩ := @resetEntry_eq ctx pindex node first
    have status (hash) := @nStatus_resetEntry ctx pindex node first hash
    rw [foldl_cons]
    rw [same] at origin kept added status ⊢
    obtain ⟨origin', kept', added'⟩ := ih (node.remark nStatus candidates)
      fun idx mem => known idx (mem_cons_of_mem _ mem)
    refine ⟨fun idx mem => ?_, fun idx mem => kept' idx (kept idx mem),
      fun idx mem returns => ?_⟩
    · rcases origin' idx mem with before | linked
      · exact origin idx before
      · exact .inr linked
    · by_cases own : idx = first
      · subst own
        exact kept' idx (added returns)
      have later := (mem_cons.mp mem).resolve_left own
      have apart : ¬ (first.hash = idx.hash ∧ pindex ∈ first.path) := fun both =>
        own (eq_of_hash (known idx mem) (known first mem_cons_self) both.1.symm)
      have unchanged := status idx.hash
      rw [if_neg apart] at unchanged
      obtain ⟨failed, above, level, linked, higher⟩ := returns
      refine added' idx later ⟨?_, above, ?_, linked, higher⟩
      · rw [Failed, unchanged]
        exact failed
      · rw [unchanged]
        exact level

/-- Failed ancestors of the reconsidered block are cleared without becoming candidates, which
does no harm where none is better than the tip.
-/
theorem Ready.reset (ready : Ready ctx node [] mark) (present : pindex ∈ node.mapBlockIndex)
    (allowed : ∀ lower ∈ pindex.path, lower ≠ pindex → node.Failed lower → node.Linked lower
      → node.worse ctx node.tip lower = false)
    : Ready ctx (node.resetBlockFailureFlags ctx pindex) [] mark := by
  obtain ⟨tree, stored, front, order⟩ := ready
  have tree' : (node.resetBlockFailureFlags ctx pindex).InTree := tree.reset
  have same := SameBlocks.reset ctx pindex node
  have failed {idx} (known : idx ∈ node.mapBlockIndex) :=
    reset_failed_iff ctx tree present known
  obtain ⟨nStatus, cleared⟩ :=
    clearAncestors_eq (node.mapBlockIndex.foldl (resetEntry ctx pindex) node) pindex
  have candidates : (node.resetBlockFailureFlags ctx pindex).setBlockIndexCandidates
      = (node.mapBlockIndex.foldl (resetEntry ctx pindex) node).setBlockIndexCandidates := by
    rw [resetBlockFailureFlags, cleared]
    rfl
  obtain ⟨origin, kept, added⟩ :=
    @candidates_resetEntries ctx pindex node.mapBlockIndex node fun _ => id
  rw [← candidates] at origin kept added
  have tip : (node.resetBlockFailureFlags ctx pindex).tip = node.tip := by
    obtain ⟨_, _, result, _⟩ := resetBlockFailureFlags_eq ctx pindex node
    rw [result]
    rfl
  have rank (idx : BlockIndex)
      : (node.resetBlockFailureFlags ctx pindex).rank ctx idx
        = node.rank ctx idx := rank_congr (congrFun same.nSequenceId _)
  have map := same.headers.map
  have spares : Spares ctx node (node.resetBlockFailureFlags ctx pindex) := {
    grows := fun idx known => map ▸ known
    linked := fun idx _ => (same.linked_iff idx).mpr
    failed := fun idx known now => not_sound_of_failed ((failed known).mp now).1
  }
  refine ⟨tree', stored.same same, ?_, by rw [tip, rank, rank]; exact order⟩
  refine front.step tree spares ?_ ?_ ?_ ?_ ?_
  · rw [tip]
    exact front.tipFirm.spares tree tree.tip spares
  · intro idx mem
    rcases origin idx mem with before | linked
    · exact (same.linked_iff idx).mpr (front.linked idx before)
    · exact (same.linked_iff idx).mpr linked
  · exact fun idx _ => congrFun same.nSequenceId idx.hash
  · exact fun idx _ _ mem => kept idx mem
  · intro idx usable unusable higher
    obtain ⟨known, unfailed, linked⟩ := usable
    rw [map] at known
    rw [same.linked_iff] at linked
    rw [rank, rank] at higher
    have before : node.Failed idx := by
      by_contra clear
      exact unusable ⟨known, clear, linked⟩
    have cleared : OnLine pindex idx := by
      by_contra off
      exact unfailed ((failed known).mpr ⟨before, off⟩)
    by_cases above : pindex ∈ idx.path
    · have here := (stored.linked idx known linked).1
      exact added idx known ⟨before, above, stored.level idx known here, linked,
        order.trans_lt higher⟩
    have below := cleared.resolve_left above
    have apart : idx ≠ pindex := fun own => above (own ▸ mem_path_self pindex)
    have lower := worse_eq_false_iff.mp (allowed idx below apart before linked)
    exact absurd higher (lower.trans order).not_gt

end Reset

-- Runs

def KeepsCandidates (ctx : NodeContext) (node : Node) : ChainCall → Prop
  | .acceptBlock sent => Linkable ctx node sent
  | .invalidateBlock hash =>
    ∀ pindex, node.find hash = some pindex → pindex.pprev = none
      → node.worse ctx node.tip pindex = false
  | .resetBlockFailureFlags hash =>
    ∀ pindex, node.find hash = some pindex → ∀ lower ∈ pindex.path, lower ≠ pindex
      → node.Failed lower → node.Linked lower → node.worse ctx node.tip lower = false
  | .acceptBlockHeader _ _ => True
  | .activateBestChain _ _ => True

section Runs

variable {ctx : NodeContext} {node after : Node} {mark : BlockIndex}

theorem Ready.perform {call}
    (fixed : ∀ block other idx, ctx.connectBlock block idx = ctx.connectBlock other idx)
    (ready : Ready ctx node [] mark) (allowed : KeepsCandidates ctx node call)
    (ran : node.perform ctx call = some after)
    : ∃ mark', Ready ctx after [] mark' := by
  cases call with
  | acceptBlockHeader nAdjustedTime header =>
    simp only [Node.perform] at ran
    split at ran
    · cases ran
    · rename_i refused
      cases ran
      exact ⟨mark, ready.refuseHeader refused⟩
    · rename_i accepted
      cases ran
      exact ⟨mark, ready.enterHeader accepted⟩
  | acceptBlock sent =>
    have accepted := ready.acceptBlock allowed
    simp only [Node.perform] at ran
    split at ran
    · cases ran
    · rename_i result
      rw [result] at accepted
      cases ran
      exact ⟨mark, accepted⟩
    · rename_i result
      rw [result] at accepted
      cases ran
      exact ⟨mark, accepted⟩
  | activateBestChain pblock rounds =>
    obtain ⟨⟨reached, activated⟩, result, rfl⟩ := Option.map_eq_some_iff.mp ran
    obtain ⟨⟨_, active⟩, best⟩ := (Active.mk ready.tree ready.stored ready.front).activateBestChain
      fixed (fun _ mem => absurd mem (Option.not_mem_none _)) result
    exact ⟨reached.tip, active.ready best⟩
  | invalidateBlock hash =>
    simp only [Node.perform] at ran
    split at ran
    · cases ran
      exact ⟨mark, ready⟩
    rename_i pindex found
    cases ran
    exact ready.invalidateBlock (node.find_eq_some.mp found).1 (allowed pindex found)
  | resetBlockFailureFlags hash =>
    simp only [Node.perform] at ran
    split at ran
    · cases ran
      exact ⟨mark, ready⟩
    rename_i pindex found
    cases ran
    exact ⟨mark, ready.reset (node.find_eq_some.mp found).1 (allowed pindex found)⟩

theorem AtGenesis.ready (genesis : node.AtGenesis ctx) : Ready ctx node [] node.tip := by
  have only {idx} (mem : idx ∈ node.mapBlockIndex) : idx = node.tip := by
    rw [genesis.index] at mem
    exact mem_singleton.mp mem
  have linked : node.Linked node.tip := by
    rw [Linked, genesis.counted]
    exact genesis.nonempty
  obtain ⟨hash, header, same⟩ := BlockIndex.eq_root_of_pprev genesis.root
  have firm : node.Firm ctx node.tip := by
    intro lower below
    rw [same] at below
    cases mem_singleton.mp below
    rw [← same]
    exact ⟨genesis.valid.1, linked, .inl genesis.root⟩
  refine ⟨genesis.inTree, ?_, ⟨?_, firm, firm, ?_⟩, le_rfl⟩
  · refine ⟨?_, ?_, ?_, ?_, ?_, ?_, ?_, ?_⟩
    · exact fun idx mem _ => only mem ▸ genesis.hash
    · intro idx mem _
      rw [only mem]
      refine ⟨genesis.data, ?_, fun pprev below => ?_⟩
      · have counted := genesis.counted
        rw [same] at counted ⊢
        exact counted
      · rw [genesis.root] at below
        cases below
    · exact fun idx mem _ => only mem ▸ genesis.valid.2
    · exact fun idx mem _ above => absurd (only mem ▸ genesis.root) above
    · intro entry mem
      rw [genesis.unlinked] at mem
      cases mem
    · intro idx mem
      cases mem
    · rw [genesis.unlinked]
      exact nodup_nil
    · exact fun idx mem _ => .inl (only mem ▸ linked)
  · rw [genesis.candidates]
    exact fun idx mem => mem_singleton.mp mem ▸ linked
  · refine ⟨firm.usable genesis.inTree.tip, ?_, fun idx usable higher => ?_⟩
    · change node.tip ∈ node.setBlockIndexCandidates
      rw [genesis.candidates]
      exact mem_singleton_self _
    · rw [only usable.1] at higher
      exact absurd higher (lt_irrefl _)

end Runs

end Node

section Reached

variable (ctx : NodeContext)
  (fixed : ∀ block other idx, ctx.connectBlock block idx = ctx.connectBlock other idx)
  (start : Node) (genesis : start.AtGenesis ctx) (calls : List ChainCall)
  (allowed : start.Throughout ctx (Node.KeepsCandidates ctx) calls) (node : Node)
  (ran : start.performAll ctx calls = some node)

include fixed genesis allowed ran

/-- The node is ready after every run of calls that keep the candidates. -/
theorem Node.ready_of_performAll : ∃ mark, Node.Ready ctx node [] mark := by
  refine @invariant_of_performAll ctx (fun node => ∃ mark, Node.Ready ctx node [] mark)
    _ _ _ _ ?_ ⟨start.tip, genesis.ready⟩ allowed ran
  rintro node next call ⟨mark, ready⟩ allowed performed
  exact ready.perform fixed allowed performed

/-- Whatever `ConnectBlock` says of each block, if the calls keep the candidates complete, then
`ActivateBestChain` leaves no usable chain with more work than the active one.
-/
theorem activeChain_mostWork (pblock : Option Block) (rounds : Nat)
    (after : Node) (returned : node.activateBestChain ctx pblock rounds none = some (after, true))
    : ∀ idx ∈ after.mapBlockIndex, after.AllData idx
      → (∀ lower ∈ idx.path, ¬ after.Failed lower)
      → idx.nChainWork.gt after.tip.nChainWork = false := by
  obtain ⟨mark, ready⟩ :=
    Node.ready_of_performAll ctx fixed start genesis calls allowed node ran
  obtain ⟨⟨_, active⟩, best⟩ := (Node.Active.mk ready.tree ready.stored
    ready.front).activateBestChain fixed (fun _ mem => absurd mem (Option.not_mem_none _))
    returned
  intro idx known here unfailed
  have usable : idx ∈ after.usable :=
    ⟨known, unfailed idx (mem_path_self idx),
      active.stored.linked_of_allData active.tree known here⟩
  exact Node.not_gt_of_rank_le (active.front.covers.le_best best.greatest usable)

/-- What `CheckBlockIndex` asserts of the data: `nChainTx` is set where all blocks below are here,
and a block waits in `mapBlocksUnlinked` where one is missing.
-/
theorem blockData_consistent
    : ∀ idx ∈ node.mapBlockIndex,
      (node.nChainTx idx.hash ≠ 0 ↔ node.AllData idx)
      ∧ (∀ pprev ∈ idx.pprev, (pprev, idx) ∈ node.mapBlocksUnlinked
        ↔ node.HaveData idx ∧ ¬ node.AllData idx)
      ∧ (idx ∈ node.setBlockIndexCandidates → node.AllData idx) := by
  obtain ⟨mark, tree, stored, front, -⟩ :=
    Node.ready_of_performAll ctx fixed start genesis calls allowed node ran
  intro idx known
  have linked : node.Linked idx ↔ node.AllData idx :=
    ⟨stored.allData tree known, stored.linked_of_allData tree known⟩
  refine ⟨linked, fun pprev below => ⟨fun waits => ?_, fun here => ?_⟩,
    fun listed => linked.mp (front.linked idx listed)⟩
  · obtain ⟨-, here, unlinked, -⟩ := stored.waits _ waits
    exact ⟨here, mt linked.mpr unlinked⟩
  · rcases stored.complete idx known here.1 with reached | queued | ⟨other, same, waits⟩
    · exact absurd (linked.mp reached) here.2
    · cases queued
    · cases same.symm.trans below
      exact waits

end Reached

/-- A block on the genesis block; with the hash that reads the Merkle root back, it has the hash
of its coinbase.
-/
def forkHash : Uint256 := (multisigCoinBase 0).getHash rootHashing

def forkDelivery : Delivery := ⟨⟨forkHeader 1 1 forkHash, [multisigCoinBase 0], false⟩, true, 0⟩

/-- Another one, on a block of which only the header is known. -/
def waitingDelivery : Delivery := ⟨⟨forkHeader 3 2 forkHash, [multisigCoinBase 0], false⟩, true, 0⟩

/-- The header is accepted, and the block can be counted. -/
def Node.fits (node : Node) (sent : Delivery) : Bool :=
  match acceptBlockHeader (forkContext.toHeaderContext sent.nAdjustedTime) node.toHeaderState
    sent.block.toBlockHeader with
  | (headers, .ok pindex) =>
    decide ((node.enterHeader headers pindex).Fits sent.block pindex)
  | (_, .error _) => false

theorem Node.linkable_of_fits {node : Node} {sent} (fits : node.fits sent = true)
    : node.Linkable forkContext sent := by
  intro headers pindex accepted _
  rw [Node.fits, accepted] at fits
  exact of_decide_eq_true fits

theorem forkDelivery_linkable : genesisNode.Linkable forkContext forkDelivery :=
  Node.linkable_of_fits (by decide +kernel)

/-- A delivered block is connected. -/
theorem activeChain_mostWork_delivered
    : ∃ node after, genesisNode.performAll forkContext
          [.acceptBlock forkDelivery, .activateBestChain none 3] = some node
      ∧ node.activateBestChain forkContext none 3 none = some (after, true)
      ∧ after.tip.hash = forkHash
      ∧ ∀ idx ∈ after.mapBlockIndex, after.AllData idx
        → (∀ lower ∈ idx.path, ¬ after.Failed lower)
        → idx.nChainWork.gt after.tip.nChainWork = false := by
  obtain ⟨node, ran, after, returned, tip⟩ : ∃ node, genesisNode.performAll forkContext
        [.acceptBlock forkDelivery, .activateBestChain none 3] = some node
      ∧ ∃ after, node.activateBestChain forkContext none 3 none = some (after, true)
        ∧ after.tip.hash = forkHash := by
    decide +kernel
  refine ⟨node, after, ran, returned, tip, ?_⟩
  have allowed : genesisNode.Throughout forkContext (Node.KeepsCandidates forkContext)
      [.acceptBlock forkDelivery, .activateBestChain none 3] :=
    ⟨forkDelivery_linkable, fun _ _ => ⟨trivial, fun _ _ => trivial⟩⟩
  exact activeChain_mostWork forkContext (fun _ _ _ => rfl) genesisNode genesisNode_atGenesis _
    allowed node ran none 3 after returned

def waitingCalls : List ChainCall :=
  [.acceptBlockHeader 0 (forkHeader 1 1 3), .acceptBlock waitingDelivery]

/-- A block that arrives before the one below it waits. -/
theorem blockData_consistent_delivered
    : ∃ node, genesisNode.performAll forkContext waitingCalls = some node
      ∧ node.mapBlocksUnlinked ≠ []
      ∧ ∀ idx ∈ node.mapBlockIndex, node.nChainTx idx.hash ≠ 0 ↔ node.AllData idx := by
  obtain ⟨node, ran, waits⟩ : ∃ node, genesisNode.performAll forkContext waitingCalls = some node
      ∧ node.mapBlocksUnlinked ≠ [] := by
    decide +kernel
  have fits : (genesisNode.perform forkContext (.acceptBlockHeader 0 (forkHeader 1 1 3))).all
      (fun next => next.fits waitingDelivery) = true := by
    decide +kernel
  have allowed : genesisNode.Throughout forkContext (Node.KeepsCandidates forkContext)
      waitingCalls := by
    refine ⟨trivial, fun next entered => ⟨Node.linkable_of_fits ?_, fun _ _ => trivial⟩⟩
    rwa [entered] at fits
  exact ⟨node, ran, waits, fun idx known => (blockData_consistent forkContext (fun _ _ _ => rfl)
    genesisNode genesisNode_atGenesis _ allowed node ran idx known).1⟩

/-- The block is connected and invalidated, and a header on top of it is reconsidered. That
clears the block without making it a candidate, so `ActivateBestChain` is content with the
genesis block.
-/
theorem reconsidering_loses_candidate
    : ∃ node after, genesisNode.performAll forkContext
          [.acceptBlock forkDelivery, .activateBestChain none 3,
            .acceptBlockHeader 0 (forkHeader forkHash 2 3), .invalidateBlock forkHash,
            .resetBlockFailureFlags 3] = some node
      ∧ node.activateBestChain forkContext none 3 none = some (after, true)
      ∧ ∃ idx ∈ after.mapBlockIndex, after.AllData idx
        ∧ (∀ lower ∈ idx.path, ¬ after.Failed lower)
        ∧ idx.nChainWork.gt after.tip.nChainWork = true := by
  simp only [exists_and_left]
  decide +kernel

end Pqcoin
