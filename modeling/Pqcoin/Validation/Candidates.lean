import Mathlib.Data.Prod.Lex
import Pqcoin.Lib.Frontier
import Pqcoin.Validation.StoredBlocks

/-! `setBlockIndexCandidates`: what is known of it between two calls, and that arriving headers
and blocks keep it so.
-/

namespace Pqcoin

open BlockIndex Function List

namespace Node

open HeaderState

-- The order of the candidates

/-- What `CBlockIndexWorkComparator` compares. -/
def rank (ctx : NodeContext) (node : Node) (idx : BlockIndex) : ℕ ×ₗ ℤ ×ₗ ℤ :=
  toLex (idx.nChainWork.toNat,
    toLex (-(node.nSequenceId idx.hash).toInt, -(ctx.address idx.hash : ℤ)))

section Rank

variable {ctx : NodeContext} {node after : Node} {idx best : BlockIndex}

theorem worse_iff
    : node.worse ctx idx best = true
      ↔ node.rank ctx idx < node.rank ctx best := by
  simp only [worse, rank, Prod.Lex.toLex_lt_toLex, BaseUint.gt_iff]
  split_ifs <;> simp <;> omega

theorem worse_eq_false_iff
    : node.worse ctx idx best = false
      ↔ node.rank ctx best ≤ node.rank ctx idx := by
  rw [← not_lt, ← worse_iff, Bool.not_eq_true]

theorem not_gt_of_rank_le (lower : node.rank ctx idx ≤ node.rank ctx best)
    : idx.nChainWork.gt best.nChainWork = false := by
  rw [rank, rank, Prod.Lex.toLex_le_toLex] at lower
  rw [← Bool.not_eq_true, BaseUint.gt_iff]
  rcases lower with less | ⟨same, _⟩
  · exact less.asymm
  · exact same.le.not_gt

theorem rank_congr (same : after.nSequenceId idx.hash = node.nSequenceId idx.hash)
    : after.rank ctx idx = node.rank ctx idx := by
  rw [rank, rank, same]

theorem lastInOrder_eq_none {candidates} (none : node.lastInOrder ctx candidates = none)
    : candidates = [] := by
  cases candidates with
  | nil => rfl
  | cons first rest =>
    rw [lastInOrder] at none
    split at none
    · cases none
    · split at none <;> cases none

theorem greatest_lastInOrder {candidates} (last : node.lastInOrder ctx candidates = some best)
    : ∀ idx ∈ candidates, node.rank ctx idx ≤ node.rank ctx best := by
  induction candidates generalizing best with
  | nil => exact nofun
  | cons first rest ih =>
    rw [lastInOrder] at last
    intro idx mem
    split at last
    · rename_i none
      cases last
      rcases mem_cons.mp mem with rfl | later
      · exact le_rfl
      rw [lastInOrder_eq_none none] at later
      cases later
    · rename_i other found
      split at last
      · rename_i lower
        cases last
        rcases mem_cons.mp mem with rfl | later
        · exact (worse_iff.mp lower).le
        · exact ih found idx later
      · rename_i higher
        cases last
        rcases mem_cons.mp mem with rfl | later
        · exact le_rfl
        exact (ih found idx later).trans (worse_eq_false_iff.mp (Bool.not_eq_true _ ▸ higher))

end Rank

-- Candidates

/-- An entry that stays connected: it has not failed, it is linked, and `ConnectBlock` accepts
its block. A root is not connected.
-/
def Sound (ctx : NodeContext) (node : Node) (idx : BlockIndex) : Prop :=
  ¬ node.Failed idx ∧ node.Linked idx
  ∧ (idx.pprev = none ∨ ∀ block, ctx.connectBlock block idx = .ok ())

/-- The whole chain of an entry is sound. -/
def Firm (ctx : NodeContext) (node : Node) (idx : BlockIndex) : Prop :=
  ∀ lower ∈ idx.path, node.Sound ctx lower

def usable (node : Node) : Set BlockIndex :=
  {idx | idx ∈ node.mapBlockIndex ∧ ¬ node.Failed idx ∧ node.Linked idx}

def candidates (node : Node) : Set BlockIndex :=
  {idx | idx ∈ node.setBlockIndexCandidates}

/-- The candidates are linked, and no usable entry above the mark is missing from them. Neither
the tip nor the mark can become unusable.
-/
structure Front (ctx : NodeContext) (node : Node) (mark : BlockIndex) : Prop where
  linked : ∀ idx ∈ node.setBlockIndexCandidates, node.Linked idx
  tipFirm : node.Firm ctx node.tip
  markFirm : node.Firm ctx mark
  covers : Frontier.Covers (node.rank ctx) node.usable node.candidates mark

section Front

variable {ctx : NodeContext} {node after : Node} {mark idx : BlockIndex}

/-- Entries of a firm chain stay linked, and what fails is not below one. -/
structure Spares (ctx : NodeContext) (node after : Node) : Prop where
  grows : ∀ idx ∈ node.mapBlockIndex, idx ∈ after.mapBlockIndex
  linked : ∀ idx ∈ node.mapBlockIndex, node.Linked idx → after.Linked idx
  failed : ∀ idx ∈ node.mapBlockIndex, after.Failed idx
    → ∃ lower ∈ idx.path, ¬ node.Sound ctx lower

theorem Firm.below (firm : node.Firm ctx idx) {lower} (below : lower ∈ idx.path)
    : node.Firm ctx lower :=
  fun lowest deeper => firm lowest (mem_path_trans deeper below)

theorem Firm.spares (firm : node.Firm ctx idx) (tree : node.InTree)
    (known : idx ∈ node.mapBlockIndex) (spares : Spares ctx node after)
    : after.Firm ctx idx := by
  intro lower below
  obtain ⟨_, linked, connects⟩ := firm lower below
  have found := tree.closed idx known lower below
  refine ⟨fun failed => ?_, spares.linked lower found linked, connects⟩
  obtain ⟨lowest, deeper, unsound⟩ := spares.failed lower found failed
  exact unsound (firm lowest (mem_path_trans deeper below))

theorem Firm.usable (firm : node.Firm ctx idx) (known : idx ∈ node.mapBlockIndex)
    : idx ∈ node.usable := by
  obtain ⟨unfailed, linked, _⟩ := firm idx (mem_path_self idx)
  exact ⟨known, unfailed, linked⟩

theorem Front.step (front : Front ctx node mark) (tree : node.InTree)
    (spares : Spares ctx node after) (tip : after.Firm ctx after.tip)
    (linked : ∀ idx ∈ after.setBlockIndexCandidates, after.Linked idx)
    (agree : ∀ idx ∈ node.usable, after.nSequenceId idx.hash = node.nSequenceId idx.hash)
    (still : ∀ idx ∈ after.usable, idx ∈ node.usable → idx ∈ node.candidates
      → idx ∈ after.candidates)
    (fresh : ∀ idx ∈ after.usable, idx ∉ node.usable
      → after.rank ctx mark < after.rank ctx idx → idx ∈ after.candidates)
    : Front ctx after mark := by
  have known := front.covers.usable.1
  have firm := front.markFirm.spares tree known spares
  refine ⟨linked, tip, firm, front.covers.transfer ?_ ?_ still fresh⟩
  · exact fun idx usable => rank_congr (agree idx usable)
  · exact firm.usable (spares.grows mark known)

/-- Failures alone: no block arrives, and only failed entries leave the candidates. -/
structure Fails (ctx : NodeContext) (node after : Node) : Prop where
  same : SameBlocks node after
  tip : after.tip = node.tip
  failed : ∀ idx ∈ node.mapBlockIndex, after.Failed idx
    → ∃ lower ∈ idx.path, ¬ node.Sound ctx lower
  keeps : ∀ idx, node.Failed idx → after.Failed idx
  fewer : ∀ idx ∈ after.setBlockIndexCandidates, idx ∈ node.setBlockIndexCandidates
  dropped : ∀ idx ∈ node.setBlockIndexCandidates, ¬ after.Failed idx
    → idx ∈ after.setBlockIndexCandidates

theorem SameBlocks.linked_iff (same : SameBlocks node after) (idx)
    : after.Linked idx ↔ node.Linked idx := by
  rw [Linked, Linked, same.nChainTx]

theorem not_sound_of_failed (failed : node.Failed idx)
    : ∃ lower ∈ idx.path, ¬ node.Sound ctx lower :=
  ⟨idx, mem_path_self idx, fun sound => sound.1 failed⟩

theorem Fails.refl (node) : Fails ctx node node where
  same := .refl node
  tip := rfl
  failed _ _ := not_sound_of_failed
  keeps _ := id
  fewer _ := id
  dropped _ mem _ := mem

theorem Fails.trans {last} (closed : node.Closed) (first : Fails ctx node after)
    (second : Fails ctx after last)
    : Fails ctx node last where
  same := first.same.trans second.same
  tip := second.tip.trans first.tip
  failed idx known now := by
    have map := first.same.headers.map
    obtain ⟨lower, below, unsound⟩ := second.failed idx (map ▸ known) now
    by_cases failed : after.Failed lower
    · have found := closed idx known lower below
      obtain ⟨lowest, deeper, before⟩ := first.failed lower found failed
      exact ⟨lowest, mem_path_trans deeper below, before⟩
    · refine ⟨lower, below, fun sound => unsound ⟨failed, ?_, sound.2.2⟩⟩
      exact (first.same.linked_iff lower).mpr sound.2.1
  keeps idx failed := second.keeps idx (first.keeps idx failed)
  fewer idx mem := first.fewer idx (second.fewer idx mem)
  dropped idx mem unfailed := by
    refine second.dropped idx (first.dropped idx mem fun failed => ?_) unfailed
    exact unfailed (second.keeps idx failed)

/-- An entry fails that is not on a firm chain. -/
theorem Fails.setFlag {flag} (known : idx ∈ node.mapBlockIndex)
    (unsound : ∃ lower ∈ idx.path, ¬ node.Sound ctx lower)
    (data : flag &&& BLOCK_HAVE_DATA = 0) (level : flag &&& BLOCK_VALID_MASK = 0)
    : Fails ctx node (node.setFlag idx flag) where
  same := ⟨.setFlag data level, rfl, rfl, rfl, rfl, rfl⟩
  tip := rfl
  failed other found now := by
    rcases failed_setFlag found known now with before | rfl
    · exact not_sound_of_failed before
    · exact unsound
  keeps _ failed := failed.setFlag _ _
  fewer _ := id
  dropped _ mem _ := mem

theorem Fails.dropCandidate (failed : node.Failed idx)
    : Fails ctx node (node.dropCandidate idx) where
  same := ⟨.refl _, rfl, rfl, rfl, rfl, rfl⟩
  tip := rfl
  failed _ _ := not_sound_of_failed
  keeps _ := id
  fewer _ := mem_of_mem_erase
  dropped other mem unfailed := by
    have apart : other ≠ idx := fun same => unfailed (same ▸ failed)
    exact (mem_erase_of_ne apart).mpr mem

theorem Fails.record (records) : Fails ctx node { node with gFailedBlocks := records } where
  same := ⟨⟨rfl, fun _ => rfl, fun _ => BitVec.le_refl _⟩, rfl, rfl, rfl, rfl, rfl⟩
  tip := rfl
  failed _ _ := not_sound_of_failed
  keeps _ := id
  fewer _ := id
  dropped _ mem _ := mem

theorem Fails.inTree (fails : Fails ctx node after) (tree : node.InTree) : after.InTree := by
  have map := fails.same.headers.map
  refine ⟨?_, ?_, ?_, ?_⟩
  · rw [Closed, map]
    exact tree.closed
  · rw [map]
    exact fun idx mem => tree.candidates idx (fails.fewer idx mem)
  · rw [map, fails.same.unlinked]
    exact tree.waiting
  · rw [map, fails.tip]
    exact tree.tip

theorem Front.fails (front : Front ctx node mark) (tree : node.InTree)
    (fails : Fails ctx node after)
    : Front ctx after mark := by
  have map := fails.same.headers.map
  have linked := fails.same.linked_iff
  have spares : Spares ctx node after := {
    grows := fun idx known => map ▸ known
    linked := fun idx _ => (linked idx).mpr
    failed := fails.failed
  }
  refine front.step tree spares ?_ ?_ ?_ ?_ ?_
  · rw [fails.tip]
    exact front.tipFirm.spares tree tree.tip spares
  · exact fun idx mem => (linked idx).mpr (front.linked idx (fails.fewer idx mem))
  · exact fun idx _ => congrFun fails.same.nSequenceId idx.hash
  · exact fun idx usable _ mem => fails.dropped idx mem usable.2.1
  · intro idx usable unusable _
    obtain ⟨known, unfailed, now⟩ := usable
    exact absurd ⟨map ▸ known, mt (fails.keeps idx) unfailed, (linked idx).mp now⟩ unusable

end Front

-- New blocks

/-- What holds in the loop of `ReceivedBlockTransactions`; with nothing in the queue, what
holds between two calls. The tip is not above the mark.
-/
structure Ready (ctx : NodeContext) (node : Node) (queue : List BlockIndex) (mark : BlockIndex)
    : Prop where
  tree : node.InTree
  stored : Stored ctx node queue
  front : Front ctx node mark
  order : node.rank ctx node.tip ≤ node.rank ctx mark

section Arrival

variable {ctx : NodeContext} {node after : Node} {queue : List BlockIndex}
  {mark idx pindex : BlockIndex}

theorem nSequenceId_linkStep
    : (node.linkStep ctx pindex).nSequenceId
      = Function.update node.nSequenceId pindex.hash node.nBlockSequenceId := by
  simp only [linkStep, link]
  split <;> rfl

theorem mem_candidates_linkStep
    : idx ∈ (node.linkStep ctx pindex).setBlockIndexCandidates
      ↔ idx ∈ node.setBlockIndexCandidates
        ∨ idx = pindex ∧ (node.linkStep ctx pindex).rank ctx node.tip
          ≤ (node.linkStep ctx pindex).rank ctx pindex := by
  have rank (linked : Node) (idx)
      (same : linked.nSequenceId
        = Function.update node.nSequenceId pindex.hash node.nBlockSequenceId)
      : (node.linkStep ctx pindex).rank ctx idx = linked.rank ctx idx := by
    refine rank_congr ?_
    rw [nSequenceId_linkStep, same]
  rw [rank { node with nSequenceId := _ } _ rfl, rank { node with nSequenceId := _ } _ rfl,
    ← worse_eq_false_iff]
  simp only [linkStep, link]
  split
  · rename_i lower
    refine (or_iff_left fun higher => ?_).symm
    exact absurd (lower.symm.trans higher.2) (by decide)
  · rename_i higher
    rw [mem_insert_iff, or_comm]
    exact or_congr_right (and_iff_left (Bool.not_eq_true _ ▸ higher)).symm

theorem Ready.linkStep (ready : Ready ctx node (pindex :: queue) mark) (counts : node.Countable)
    : Ready ctx (node.linkStep ctx pindex)
        (queue ++ (node.waitingFor pindex).map Prod.snd) mark := by
  obtain ⟨tree, stored, front, order⟩ := ready
  obtain ⟨headers, _, _, tip⟩ := @linkStep_unchanged ctx node pindex
  obtain ⟨present, _, unlinked, _⟩ := stored.queued pindex mem_cons_self
  have linked {idx} (known : idx ∈ node.mapBlockIndex) :=
    stored.linked_linkStep_iff tree counts known
  have failed (idx)
      : (node.linkStep ctx pindex).Failed idx ↔ node.Failed idx := by
    rw [Failed, Failed, headers]
  have spares : Spares ctx node (node.linkStep ctx pindex) := {
    grows := fun idx known => headers ▸ known
    linked := fun idx known before => (linked known).mpr (.inl before)
    failed := fun idx _ now => not_sound_of_failed ((failed idx).mp now)
  }
  have agree : ∀ idx ∈ node.usable,
      (node.linkStep ctx pindex).nSequenceId idx.hash = node.nSequenceId idx.hash := by
    intro idx usable
    rw [nSequenceId_linkStep, update_of_ne]
    intro same
    cases eq_of_hash usable.1 present same
    exact unlinked usable.2.2
  have order' : (node.linkStep ctx pindex).rank ctx node.tip
      ≤ (node.linkStep ctx pindex).rank ctx mark := by
    rw [rank_congr (agree _ (front.tipFirm.usable tree.tip)),
      rank_congr (agree _ front.covers.usable)]
    exact order
  refine ⟨(develops_linkStep (fun _ => present) tree).1, stored.linkStep tree counts, ?_,
    tip ▸ order'⟩
  refine front.step tree spares ?_ ?_ agree ?_ ?_
  · rw [tip]
    exact front.tipFirm.spares tree tree.tip spares
  · intro idx mem
    rcases mem_candidates_linkStep.mp mem with before | ⟨rfl, _⟩
    · exact spares.linked idx (tree.candidates idx before) (front.linked idx before)
    · exact (linked present).mpr (.inr rfl)
  · exact fun idx _ _ mem => mem_candidates_linkStep.mpr (.inl mem)
  · intro idx usable unusable higher
    obtain ⟨known, unfailed, now⟩ := usable
    rw [headers] at known
    rcases (linked known).mp now with before | rfl
    · exact absurd ⟨known, mt (failed idx).mpr unfailed, before⟩ unusable
    · exact mem_candidates_linkStep.mpr (.inr ⟨rfl, order'.trans higher.le⟩)

theorem Ready.linkLoop (ready : Ready ctx node queue mark) (counts : node.Countable)
    : Ready ctx (linkLoop ctx queue node) [] mark := by
  fun_induction Node.linkLoop ctx queue node with
  | case1 node => exact ready
  | case2 pindex queue node ih =>
    refine ih (ready.linkStep counts) ?_
    obtain ⟨headers, nTx, _⟩ := @linkStep_unchanged ctx node pindex
    change (node.linkStep ctx pindex).Countable
    simp only [Countable, AllData, HaveData, headers, nTx]
    exact counts

theorem Ready.haveData_genesis (ready : Ready ctx node queue mark)
    (known : idx ∈ node.mapBlockIndex)
    (genesis : idx.hash = (ctx.chainparams.getConsensus 0).hashGenesisBlock)
    : node.HaveData idx := by
  obtain ⟨tree, stored, front, _⟩ := ready
  obtain ⟨root, below, bottom⟩ := exists_root node.tip
  have found := tree.closed _ tree.tip root below
  cases eq_of_hash known found (genesis.trans (stored.roots root found bottom).symm)
  exact (stored.linked idx found (front.tipFirm idx below).2.1).1

variable (ready : Ready ctx node [] mark)

include ready

theorem Ready.refuseHeader {header block failure headers}
    (refused : Pqcoin.acceptBlockHeader header node.toHeaderState block
      = (headers, .error failure))
    : Ready ctx { node with toHeaderState := headers } [] mark := by
  obtain ⟨tree, stored, front, order⟩ := ready
  have fails : Fails ctx node { node with toHeaderState := headers } := {
    same := ⟨.acceptBlockHeader_error refused, rfl, rfl, rfl, rfl, rfl⟩
    tip := rfl
    failed := fun idx found failed => by
      rcases acceptBlockHeader_error refused
        with rfl | ⟨failedit, prev, below, known, flagged, rfl⟩
      · exact not_sound_of_failed failed
      rcases failed_markFailedChildren tree.closed known below found failed with before | above
      · exact not_sound_of_failed before
      · exact ⟨failedit, above, fun sound => sound.1 flagged.failed⟩
    keeps := fun idx failed => by
      rcases acceptBlockHeader_error refused with rfl | ⟨failedit, prev, _, _, _, rfl⟩
      · exact failed
      · exact failed.markFailedChildren failedit prev
    fewer := fun _ => id
    dropped := fun _ mem _ => mem
  }
  exact ⟨fails.inTree tree, stored.same fails.same, front.fails tree fails, order⟩

section

variable {nAdjustedTime block headers}
  (accepted : Pqcoin.acceptBlockHeader (ctx.toHeaderContext nAdjustedTime)
    node.toHeaderState block = (headers, .ok pindex))

include accepted

theorem Ready.unfailed_enterHeader (missing : ¬ (node.enterHeader headers pindex).HaveData pindex)
    : ¬ (node.enterHeader headers pindex).Failed pindex := by
  rcases acceptBlockHeader_ok accepted with ⟨rfl, found, unfailed⟩ | ⟨_, _, _, nStatus, _⟩
  · have known := (node.find_eq_some.mp found).1
    rw [enterHeader_of_known known] at missing ⊢
    exact unfailed.resolve_right fun genesis => missing (ready.haveData_genesis known genesis)
  intro failed
  change headers.nStatus pindex.hash &&& BLOCK_FAILED_MASK ≠ 0 at failed
  rw [nStatus, update_self] at failed
  exact failed (by decide)

/-- A new entry is not linked. -/
theorem Ready.enterHeader
    : Ready ctx (node.enterHeader headers pindex) [] mark := by
  have stored := ready.stored.enterHeader ready.tree accepted
  rcases acceptBlockHeader_ok accepted with ⟨rfl, found, _⟩ | ⟨unknown, hash, map, nStatus, _⟩
  · rw [enterHeader_of_known (node.find_eq_some.mp found).1]
    exact ready
  obtain ⟨tree, _, front, order⟩ := ready
  have marks := Marks.acceptBlockHeader (ctx.toHeaderContext nAdjustedTime) block tree.closed
  rw [accepted] at marks
  rw [← hash] at unknown
  obtain ⟨_, nChainTx, nSequenceId⟩ := @enterHeader_of_fresh node headers pindex unknown
  have apart {idx} (known : idx ∈ node.mapBlockIndex)
      : idx.hash ≠ pindex.hash := hash_ne_of_fresh unknown known
  have linked {idx} (known : idx ∈ node.mapBlockIndex)
      : (node.enterHeader headers pindex).Linked idx ↔ node.Linked idx := by
    rw [Linked, Linked, nChainTx, update_of_ne (apart known)]
  have failed {idx} (known : idx ∈ node.mapBlockIndex)
      : (node.enterHeader headers pindex).Failed idx ↔ node.Failed idx := by
    change headers.nStatus idx.hash &&& _ ≠ 0 ↔ _
    rw [nStatus, update_of_ne (apart known), Failed]
  have spares : Spares ctx node (node.enterHeader headers pindex) := {
    grows := marks.grows
    linked := fun idx known => (linked known).mpr
    failed := fun idx known now => not_sound_of_failed ((failed known).mp now)
  }
  have agree : ∀ idx ∈ node.usable,
      (node.enterHeader headers pindex).nSequenceId idx.hash = node.nSequenceId idx.hash := by
    intro idx usable
    rw [nSequenceId, update_of_ne (apart usable.1)]
  refine ⟨(develops_enterHeader (fun _ => marks) tree).1, stored, ?_, ?_⟩
  · refine front.step tree spares ?_ ?_ agree (fun _ _ _ => id) ?_
    · exact front.tipFirm.spares tree tree.tip spares
    · exact fun idx mem =>
        spares.linked idx (tree.candidates idx mem) (front.linked idx mem)
    · intro idx usable unusable _
      obtain ⟨mem, unfailed, now⟩ := usable
      change idx ∈ headers.mapBlockIndex at mem
      rw [map] at mem
      rcases mem_cons.mp mem with rfl | known
      · rw [Linked, nChainTx, update_self] at now
        exact absurd rfl now
      · exact absurd ⟨known, mt (failed known).mpr unfailed, (linked known).mp now⟩ unusable
  · rw [rank_congr (agree mark front.covers.usable)]
    have tip : (node.enterHeader headers pindex).rank ctx node.tip
        = node.rank ctx node.tip := rank_congr (agree _ (front.tipFirm.usable tree.tip))
    exact tip.trans_le order

end

/-- The block of an entry is stored, and the entry put where it belongs. -/
theorem Ready.storeBlock {waiting} (block)
    (present : pindex ∈ node.mapBlockIndex) (missing : ¬ node.HaveData pindex)
    (unfailed : ¬ node.Failed pindex) (placed : node.Placed pindex queue waiting)
    : Ready ctx { node.storeBlock block pindex with mapBlocksUnlinked := waiting } queue
        mark := by
  obtain ⟨tree, stored, front, order⟩ := ready
  have unlinked : ¬ node.Linked pindex :=
    fun linked => missing (stored.linked pindex present linked).1
  have linked := @linked_storeBlock_iff node block pindex unlinked
  have failed := @failed_storeBlock_iff node block pindex
  obtain ⟨tree', marks⟩ := develops_storeBlock (fun _ => present) block tree
  have map : (node.storeBlock block pindex).mapBlockIndex = node.mapBlockIndex :=
    mapBlockIndex_storeBlock
  have spares : Spares ctx node
      { node.storeBlock block pindex with mapBlocksUnlinked := waiting } := {
    grows := marks.grows
    linked := fun idx _ => (linked idx).mpr
    failed := fun idx _ now => not_sound_of_failed ((failed idx).mp now)
  }
  refine ⟨?_, stored.storeBlock tree present missing unfailed placed, ?_, order⟩
  · refine tree'.step (.refl _) (fun _ => .inl) (fun entry mem => ?_) (.inl rfl)
    rcases placed with ⟨_, rfl, _⟩ | ⟨_, pprev, _, _, rfl⟩
    · exact .inl mem
    rcases mem_cons.mp mem with rfl | before
    · exact .inr (marks.grows pindex present)
    · exact .inl before
  · refine front.step tree spares ?_ ?_ (fun _ _ => rfl) (fun _ _ _ => id) ?_
    · exact front.tipFirm.spares tree tree.tip spares
    · exact fun idx mem => (linked idx).mpr (front.linked idx mem)
    · intro idx usable unusable _
      obtain ⟨mem, unfailed, now⟩ := usable
      refine absurd ⟨?_, mt (failed idx).mpr unfailed, (linked idx).mp now⟩ unusable
      exact map ▸ mem

/-- The parent of the entry is linked or `IsValid`, and with this block no chain that is here
counts a multiple of `2 ^ 32` transactions.
-/
def Fits (node : Node) (block : Block) (pindex : BlockIndex) : Prop :=
  (∀ pprev ∈ pindex.pprev, node.Linked pprev ∨ node.IsValid pprev BLOCK_VALID_TREE)
  ∧ ∀ idx ∈ node.mapBlockIndex,
    (∀ lower ∈ idx.path, node.HaveData lower ∨ lower = pindex)
    → countTx (Function.update node.nTx pindex.hash (BitVec.ofNat 32 block.vtx.length)) idx ≠ 0

instance (node : Node) (block : Block) (pindex : BlockIndex)
    : Decidable (node.Fits block pindex) :=
  inferInstanceAs (Decidable (_ ∧ _))

theorem Ready.receivedBlockTransactions {block}
    (present : pindex ∈ node.mapBlockIndex) (missing : ¬ node.HaveData pindex)
    (unfailed : ¬ node.Failed pindex) (fits : node.Fits block pindex)
    : Ready ctx (node.receivedBlockTransactions ctx block pindex) [] mark := by
  have unlinked : ¬ node.Linked pindex :=
    fun linked => missing (ready.stored.linked pindex present linked).1
  have linked := @linked_storeBlock_iff node block pindex unlinked
  have counts : (node.storeBlock block pindex).Countable := by
    intro idx known here
    rw [mapBlockIndex_storeBlock] at known
    refine fits.2 idx known fun lower below => ?_
    exact (haveData_storeBlock_iff (ready.tree.closed idx known lower below) present).mp
      (here lower below)
  have looped (above : ∀ pprev ∈ pindex.pprev, node.Linked pprev)
      : Ready ctx (Node.linkLoop ctx [pindex] (node.storeBlock block pindex)) [] mark := by
    have placed : node.Placed pindex [pindex] node.mapBlocksUnlinked := .inl ⟨rfl, rfl, above⟩
    exact (ready.storeBlock block present missing unfailed placed).linkLoop counts
  simp only [Node.receivedBlockTransactions]
  split
  · rename_i root
    refine looped fun pprev below => ?_
    rw [root] at below
    cases below
  · rename_i pprev below
    split
    · rename_i now
      refine looped fun parent same => ?_
      cases below.symm.trans same
      exact (linked pprev).mp now
    · rename_i lower
      have parent : ¬ node.Linked pprev := mt (linked pprev).mpr lower
      have valid : (node.storeBlock block pindex).IsValid pprev BLOCK_VALID_TREE := by
        have before := (fits.1 pprev below).resolve_left parent
        refine ⟨mt (failed_storeBlock_iff pprev).mp before.1, ?_⟩
        have found := ready.tree.closed.parent present below
        have apart : pprev.hash ≠ pindex.hash :=
          fun same => ne_of_pprev below (eq_of_hash found present same)
        rw [(level_storeBlock unfailed pprev).2 apart]
        exact before.2
      rw [if_pos valid]
      exact ready.storeBlock block present missing unfailed (.inr ⟨rfl, pprev, below, parent, rfl⟩)

theorem Ready.markUnlinked (known : pindex ∈ node.mapBlockIndex) (unlinked : ¬ node.Linked pindex)
    : Ready ctx (node.setFlag pindex BLOCK_FAILED_VALID) [] mark := by
  obtain ⟨tree, stored, front, order⟩ := ready
  have fails : Fails ctx node (node.setFlag pindex BLOCK_FAILED_VALID) := by
    refine .setFlag known ?_ (by decide) (by decide)
    exact ⟨pindex, mem_path_self pindex, fun sound => unlinked sound.2.1⟩
  exact ⟨fails.inTree tree, stored.same fails.same, front.fails tree fails, order⟩

/-- An arriving block finds its parent linked or valid, and does not bring the count of a chain
to zero.
-/
def Linkable (ctx : NodeContext) (node : Node) (sent : Delivery) : Prop :=
  ∀ headers pindex,
    Pqcoin.acceptBlockHeader (ctx.toHeaderContext sent.nAdjustedTime) node.toHeaderState
      sent.block.toBlockHeader = (headers, .ok pindex)
    → ¬ (node.enterHeader headers pindex).HaveData pindex
    → (node.enterHeader headers pindex).Fits sent.block pindex

theorem Ready.acceptBlock {sent} (linkable : Linkable ctx node sent)
    : Ready ctx (node.acceptBlock ctx sent sent.block).1 [] mark := by
  simp only [Node.acceptBlock]
  split
  · rename_i refused
    exact ready.refuseHeader refused
  rename_i headers pindex accepted
  have entered := ready.enterHeader accepted
  have known := mem_acceptBlockHeader accepted
  split
  · exact entered
  rename_i missing
  have unlinked : ¬ (node.enterHeader headers pindex).Linked pindex :=
    fun linked => missing (entered.stored.linked pindex known linked).1
  split
  · exact entered
  split
  · exact entered
  · split
    · exact entered
    · exact entered.markUnlinked known unlinked
  · exact entered.receivedBlockTransactions known missing
      (ready.unfailed_enterHeader accepted missing)
      (linkable headers pindex accepted missing)

end Arrival

end Node

end Pqcoin
