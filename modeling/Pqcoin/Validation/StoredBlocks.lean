import Pqcoin.Validation.ClearedMarks

/-! The blocks that are here, and those that wait for an ancestor: what `nChainTx` and
`mapBlocksUnlinked` say about them, and that the calls on the block index keep it so.
-/

namespace Pqcoin

open Function List
open BlockIndex (mem_path_child mem_path_of_pprev mem_path_self)

-- Calls without a new block

namespace HeaderState

/-- No entry is added, and the flags apart from those of failure stay. -/
structure SameData (s s' : HeaderState) : Prop where
  map : s'.mapBlockIndex = s.mapBlockIndex
  data : ∀ hash, s'.nStatus hash &&& BLOCK_HAVE_DATA = s.nStatus hash &&& BLOCK_HAVE_DATA
  level : ∀ hash, s.nStatus hash &&& BLOCK_VALID_MASK ≤ s'.nStatus hash &&& BLOCK_VALID_MASK

section SameData

variable {s s' s'' : HeaderState} {idx : BlockIndex}

theorem SameData.refl (s) : SameData s s := ⟨rfl, fun _ => rfl, fun _ => BitVec.le_refl _⟩

theorem SameData.trans (first : SameData s s') (second : SameData s' s'') : SameData s s'' where
  map := second.map.trans first.map
  data hash := (second.data hash).trans (first.data hash)
  level hash := BitVec.le_trans (first.level hash) (second.level hash)

theorem SameData.setStatus {nStatus}
    (data : nStatus &&& BLOCK_HAVE_DATA = s.nStatus idx.hash &&& BLOCK_HAVE_DATA)
    (level : s.nStatus idx.hash &&& BLOCK_VALID_MASK ≤ nStatus &&& BLOCK_VALID_MASK)
    : SameData s (s.setStatus idx nStatus) where
  map := rfl
  data hash := by
    by_cases same : hash = idx.hash
    · rw [same, nStatus_setStatus, data]
    have kept : (s.setStatus idx nStatus).nStatus hash = s.nStatus hash := update_of_ne same ..
    rw [kept]
  level hash := by
    by_cases same : hash = idx.hash
    · rw [same, nStatus_setStatus]
      exact level
    have kept : (s.setStatus idx nStatus).nStatus hash = s.nStatus hash := update_of_ne same ..
    rw [kept]
    exact BitVec.le_refl _

theorem SameData.setFlag {flag} (data : flag &&& BLOCK_HAVE_DATA = 0)
    (level : flag &&& BLOCK_VALID_MASK = 0)
    : SameData s (s.setFlag idx flag) := by
  have data' : (s.nStatus idx.hash ||| flag) &&& BLOCK_HAVE_DATA
      = s.nStatus idx.hash &&& BLOCK_HAVE_DATA := by
    rw [BitVec.and_or_distrib_right, data]
    exact BitVec.or_zero
  have level' : (s.nStatus idx.hash ||| flag) &&& BLOCK_VALID_MASK
      = s.nStatus idx.hash &&& BLOCK_VALID_MASK := by
    rw [BitVec.and_or_distrib_right, level]
    exact BitVec.or_zero
  exact .setStatus data' (level' ▸ BitVec.le_refl _)

theorem and_levelMask (status) {nUpTo} (within : nUpTo &&& BLOCK_VALID_MASK = nUpTo)
    : (status &&& ~~~BLOCK_VALID_MASK ||| nUpTo) &&& BLOCK_VALID_MASK = nUpTo := by
  have apart : ~~~BLOCK_VALID_MASK &&& BLOCK_VALID_MASK = 0#32 := by decide
  rw [BitVec.and_or_distrib_right, BitVec.and_assoc, apart, within, BitVec.and_zero, BitVec.zero_or]

theorem SameData.raiseValidity {nUpTo} (data : nUpTo &&& BLOCK_HAVE_DATA = 0)
    (within : nUpTo &&& BLOCK_VALID_MASK = nUpTo)
    : SameData s (s.raiseValidity idx nUpTo) := by
  rw [HeaderState.raiseValidity]
  split
  · exact .refl s
  split
  · rename_i lower
    refine .setStatus ?_ ?_
    · have apart : ~~~BLOCK_VALID_MASK &&& BLOCK_HAVE_DATA = BLOCK_HAVE_DATA := by decide
      rw [BitVec.and_or_distrib_right, BitVec.and_assoc, apart, data]
      exact BitVec.or_zero
    · rw [and_levelMask _ within]
      exact BitVec.le_of_lt lower
  · exact .refl s

theorem failed_setFlag_iff {flag} (apart : flag &&& BLOCK_FAILED_MASK = 0) (other)
    : (s.setFlag idx flag).Failed other ↔ s.Failed other := by
  rw [Failed, Failed]
  by_cases same : other.hash = idx.hash
  · rw [same, and_setFlag, apart]
    exact not_congr (Eq.congr_left BitVec.or_zero)
  · rw [setFlag, nStatus_setStatus_of_ne same]

theorem nStatus_raiseValidity_of_ne {other : BlockIndex} (apart : other.hash ≠ idx.hash) (nUpTo)
    : (s.raiseValidity idx nUpTo).nStatus other.hash = s.nStatus other.hash := by
  rw [raiseValidity]
  split_ifs
  · rfl
  · exact nStatus_setStatus_of_ne apart
  · rfl

theorem failed_raiseValidity_iff {nUpTo : BitVec 32} (apart : nUpTo &&& BLOCK_FAILED_MASK = 0)
    (other)
    : (s.raiseValidity idx nUpTo).Failed other ↔ s.Failed other := by
  rw [Failed, Failed]
  by_cases same : other.hash = idx.hash
  · rw [same, and_raiseValidity s idx (by decide) apart]
  · rw [nStatus_raiseValidity_of_ne same]

theorem le_raiseValidity (unfailed : ¬ s.Failed idx) {nUpTo}
    (within : nUpTo &&& BLOCK_VALID_MASK = nUpTo)
    : nUpTo ≤ (s.raiseValidity idx nUpTo).nStatus idx.hash &&& BLOCK_VALID_MASK := by
  rw [raiseValidity, if_neg unfailed]
  split
  · rw [nStatus_setStatus, and_levelMask _ within]
    exact BitVec.le_refl _
  · rename_i reached
    exact BitVec.not_lt.mp reached

theorem SameData.markFailedChildren (failedit prev)
    : SameData s (s.markFailedChildren failedit prev) := by
  induction prev generalizing s with
  | root hash header => exact .refl s
  | child pprev hash header ih =>
    rw [markFailedChildren]
    split
    · exact .refl s
    · exact (SameData.setFlag (by decide) (by decide)).trans ih

theorem SameData.acceptBlockHeader_error {ctx block failure}
    (refused : Pqcoin.acceptBlockHeader ctx s block = (s', .error failure))
    : SameData s s' := by
  rcases HeaderState.acceptBlockHeader_error refused with rfl | ⟨failedit, prev, _, _, _, rfl⟩
  · exact .refl s'
  · exact .markFailedChildren failedit prev

end SameData

end HeaderState

namespace Node

open HeaderState

/-- No block arrives and none gets its place in the order of arrival. -/
structure SameBlocks (node after : Node) : Prop where
  headers : SameData node.toHeaderState after.toHeaderState
  nTx : after.nTx = node.nTx
  nChainTx : after.nChainTx = node.nChainTx
  nSequenceId : after.nSequenceId = node.nSequenceId
  unlinked : after.mapBlocksUnlinked = node.mapBlocksUnlinked
  blockFiles : after.blockFiles = node.blockFiles

section SameBlocks

variable {node after last : Node}

theorem SameBlocks.refl (node) : SameBlocks node node :=
  ⟨.refl _, rfl, rfl, rfl, rfl, rfl⟩

theorem SameBlocks.trans (first : SameBlocks node after) (second : SameBlocks after last)
    : SameBlocks node last where
  headers := first.headers.trans second.headers
  nTx := second.nTx.trans first.nTx
  nChainTx := second.nChainTx.trans first.nChainTx
  nSequenceId := second.nSequenceId.trans first.nSequenceId
  unlinked := second.unlinked.trans first.unlinked
  blockFiles := second.blockFiles.trans first.blockFiles

theorem SameBlocks.haveData_iff (same : SameBlocks node after) (idx)
    : after.HaveData idx ↔ node.HaveData idx := by
  rw [HaveData, HaveData, same.headers.data]

end SameBlocks

-- The blocks that are here

def Linked (node : Node) (idx : BlockIndex) : Prop := node.nChainTx idx.hash ≠ 0

instance (node : Node) (idx : BlockIndex) : Decidable (node.Linked idx) :=
  inferInstanceAs (Decidable (_ ≠ _))

/-- The transactions of an entry and its ancestors, as the source counts them. -/
def countTx (nTx : Uint256 → BitVec 32) : BlockIndex → BitVec 32
  | .root hash _ => nTx hash
  | .child pprev hash _ => countTx nTx pprev + nTx hash

/-- The blocks of an entry and all its ancestors are here. -/
def AllData (node : Node) (idx : BlockIndex) : Prop :=
  ∀ lower ∈ idx.path, node.HaveData lower

instance (node : Node) (idx : BlockIndex) : Decidable (node.AllData idx) :=
  inferInstanceAs (Decidable (∀ lower ∈ idx.path, _))

/-- What is known of the blocks: each one that is here is linked, is in the queue of the
entries to be linked, or waits for its previous one.
-/
structure Stored (ctx : NodeContext) (node : Node) (queue : List BlockIndex) : Prop where
  roots : ∀ idx ∈ node.mapBlockIndex, idx.pprev = none
    → idx.hash = (ctx.chainparams.getConsensus 0).hashGenesisBlock
  linked : ∀ idx ∈ node.mapBlockIndex, node.Linked idx
    → node.HaveData idx ∧ node.nChainTx idx.hash = countTx node.nTx idx
      ∧ ∀ pprev ∈ idx.pprev, node.Linked pprev
  level : ∀ idx ∈ node.mapBlockIndex, node.HaveData idx
    → BLOCK_VALID_TRANSACTIONS ≤ node.nStatus idx.hash &&& BLOCK_VALID_MASK
  files : ∀ idx ∈ node.mapBlockIndex, node.HaveData idx → idx.pprev ≠ none
    → node.blockFiles idx.hash ≠ none
  waits : ∀ entry ∈ node.mapBlocksUnlinked, entry.2.pprev = some entry.1
    ∧ node.HaveData entry.2 ∧ ¬ node.Linked entry.2 ∧ ¬ node.Linked entry.1
  queued : ∀ idx ∈ queue, idx ∈ node.mapBlockIndex ∧ node.HaveData idx
    ∧ ¬ node.Linked idx ∧ ∀ pprev ∈ idx.pprev, node.Linked pprev
  once : (queue ++ node.mapBlocksUnlinked.map Prod.snd).Nodup
  complete : ∀ idx ∈ node.mapBlockIndex, node.HaveData idx
    → node.Linked idx ∨ idx ∈ queue
      ∨ ∃ pprev, idx.pprev = some pprev ∧ (pprev, idx) ∈ node.mapBlocksUnlinked

section Stored

variable {ctx : NodeContext} {node after : Node} {queue : List BlockIndex}
  {idx pindex : BlockIndex}

theorem Stored.same (stored : Stored ctx node queue) (same : SameBlocks node after)
    : Stored ctx after queue := by
  have linked (idx) : after.Linked idx ↔ node.Linked idx := by
    rw [Linked, Linked, same.nChainTx]
  refine ⟨?_, ?_, ?_, ?_, ?_, ?_, ?_, ?_⟩
  · rw [same.headers.map]
    exact stored.roots
  · simp only [same.headers.map, linked, same.haveData_iff, same.nChainTx, same.nTx]
    exact stored.linked
  · simp only [same.headers.map, same.haveData_iff]
    exact fun idx known here =>
      BitVec.le_trans (stored.level idx known here) (same.headers.level idx.hash)
  · simp only [same.headers.map, same.haveData_iff, same.blockFiles]
    exact stored.files
  · simp only [same.unlinked, linked, same.haveData_iff]
    exact stored.waits
  · simp only [same.headers.map, linked, same.haveData_iff]
    exact stored.queued
  · rw [same.unlinked]
    exact stored.once
  · simp only [same.headers.map, linked, same.haveData_iff, same.unlinked]
    exact stored.complete

theorem Stored.linked_of_allData (stored : Stored ctx node []) (tree : node.InTree)
    (known : idx ∈ node.mapBlockIndex) (here : node.AllData idx)
    : node.Linked idx := by
  have own := stored.complete idx known (here idx (mem_path_self idx))
  induction idx with
  | root hash header =>
    rcases own with linked | queued | ⟨pprev, below, _⟩
    · exact linked
    · cases queued
    · cases below
  | child pprev hash header ih =>
    rcases own with linked | queued | ⟨parent, below, waiting⟩
    · exact linked
    · cases queued
    · cases below
      have found := tree.closed.parent known rfl
      have below : node.AllData pprev :=
        fun lower deeper => here lower (mem_path_child.mpr (.inl deeper))
      have linked := ih found below
        (stored.complete pprev found (below pprev (mem_path_self pprev)))
      exact absurd linked (stored.waits _ waiting).2.2.2

variable (stored : Stored ctx node queue) (tree : node.InTree)

include stored tree

theorem Stored.linked_path (known : idx ∈ node.mapBlockIndex) (linked : node.Linked idx)
    : ∀ lower ∈ idx.path, node.Linked lower := by
  induction idx with
  | root hash header =>
    intro lower below
    cases mem_singleton.mp below
    exact linked
  | child pprev hash header ih =>
    intro lower below
    have parent := tree.closed.parent known rfl
    rcases mem_path_child.mp below with deeper | rfl
    · exact ih parent ((stored.linked _ known linked).2.2 pprev rfl) lower deeper
    · exact linked

theorem Stored.allData (known : idx ∈ node.mapBlockIndex) (linked : node.Linked idx)
    : node.AllData idx :=
  fun lower below => (stored.linked lower (tree.closed idx known lower below)
    (stored.linked_path tree known linked lower below)).1

theorem Stored.count_queued (queued : pindex ∈ queue)
    : (pindex.pprev.map (fun pprev => node.nChainTx pprev.hash)).getD 0 + node.nTx pindex.hash
      = countTx node.nTx pindex := by
  obtain ⟨known, _, _, above⟩ := stored.queued pindex queued
  cases pindex with
  | root hash header => exact BitVec.zero_add _
  | child pprev hash header =>
    have parent := tree.closed.parent known rfl
    have count := (stored.linked pprev parent (above pprev rfl)).2.1
    exact congrArg (· + node.nTx hash) count

/-- The blocks of a queued entry are all here. -/
theorem Stored.allData_queued (queued : pindex ∈ queue)
    : node.AllData pindex := by
  obtain ⟨known, here, _, above⟩ := stored.queued pindex queued
  cases pindex with
  | root hash header =>
    intro lower below
    cases mem_singleton.mp below
    exact here
  | child pprev hash header =>
    intro lower below
    rcases mem_path_child.mp below with deeper | rfl
    · have parent := tree.closed.parent known rfl
      exact stored.allData tree parent (above pprev rfl) lower deeper
    · exact here

end Stored

-- Linking

/-- The 32-bit count of the transactions is not zero where all blocks are here. -/
def Countable (node : Node) : Prop :=
  ∀ idx ∈ node.mapBlockIndex, node.AllData idx → countTx node.nTx idx ≠ 0

section Linking

variable {ctx : NodeContext} {node : Node} {queue : List BlockIndex} {idx pindex : BlockIndex}

theorem nChainTx_linkStep
    : (node.linkStep ctx pindex).nChainTx
      = Function.update node.nChainTx pindex.hash
        ((pindex.pprev.map (fun pprev => node.nChainTx pprev.hash)).getD 0
          + node.nTx pindex.hash) := by
  simp only [linkStep, link]
  split <;> rfl

theorem perm_waitingFor (node : Node) (pindex)
    : (node.mapBlocksUnlinked.map Prod.snd).Perm
        ((node.waitingFor pindex).map Prod.snd ++ (node.notWaitingFor pindex).map Prod.snd) := by
  rw [← map_append]
  exact ((filter_append_perm _ _).symm.trans ((reverse_perm _).symm.append_right _)).map _

section

variable (stored : Stored ctx node (pindex :: queue)) (tree : node.InTree)
  (counts : node.Countable)

include stored tree counts

theorem Stored.linked_linkStep_iff (known : idx ∈ node.mapBlockIndex)
    : (node.linkStep ctx pindex).Linked idx ↔ node.Linked idx ∨ idx = pindex := by
  have first : pindex ∈ pindex :: queue := mem_cons_self
  have present := (stored.queued pindex first).1
  rw [Linked, nChainTx_linkStep]
  by_cases same : idx.hash = pindex.hash
  · have here : idx = pindex := eq_of_hash known present same
    rw [same, update_self, stored.count_queued tree first]
    exact iff_of_true (counts pindex present (stored.allData_queued tree first)) (.inr here)
  · rw [update_of_ne same]
    have apart : idx ≠ pindex := fun here => same (congrArg _ here)
    exact (or_iff_left apart).symm

/-- One round links the first entry of the queue and puts those that waited for it there. -/
theorem Stored.linkStep
    : Stored ctx (node.linkStep ctx pindex)
        (queue ++ (node.waitingFor pindex).map Prod.snd) := by
  obtain ⟨headers, nTx, blockFiles, _⟩ := @linkStep_unchanged ctx node pindex
  have first : pindex ∈ pindex :: queue := mem_cons_self
  have linked {idx} (known : idx ∈ node.mapBlockIndex) :=
    stored.linked_linkStep_iff tree counts known
  have here (idx)
      : (node.linkStep ctx pindex).HaveData idx ↔ node.HaveData idx := by
    rw [HaveData, HaveData, headers]
  have onceLeft := (nodup_cons.mp stored.once).1
  -- What waits is not the entry that is linked, which has left `mapBlocksUnlinked`.
  have unlinked {entry} (mem : entry ∈ node.mapBlocksUnlinked)
      : ¬ (node.linkStep ctx pindex).Linked entry.2 := by
    rw [linked (tree.waiting entry mem)]
    rintro (before | rfl)
    · exact (stored.waits entry mem).2.2.1 before
    · exact onceLeft (mem_append_right _ (mem_map_of_mem mem))
  refine ⟨?_, ?_, ?_, ?_, ?_, ?_, ?_, ?_⟩
  · rw [headers]
    exact stored.roots
  · rw [headers]
    intro idx known now
    rw [here, nTx]
    rcases (linked known).mp now with before | rfl
    · obtain ⟨data, count, above⟩ := stored.linked idx known before
      refine ⟨data, ?_, fun pprev below => (linked (tree.closed.parent known below)).mpr
        (.inl (above pprev below))⟩
      have apart : idx.hash ≠ pindex.hash := fun same => by
        cases eq_of_hash known (stored.queued pindex first).1 same
        exact (stored.queued _ first).2.2.1 before
      rw [nChainTx_linkStep, update_of_ne apart]
      exact count
    · obtain ⟨_, data, _, above⟩ := stored.queued idx first
      refine ⟨data, ?_, fun pprev below => (linked (tree.closed.parent known below)).mpr
        (.inl (above pprev below))⟩
      rw [nChainTx_linkStep, update_self]
      exact stored.count_queued tree first
  · rw [headers]
    exact fun idx known data => stored.level idx known ((here idx).mp data)
  · rw [headers, blockFiles]
    exact fun idx known data => stored.files idx known ((here idx).mp data)
  · intro entry mem
    obtain ⟨before, other⟩ := mem_filter.mp mem
    obtain ⟨below, data, _, lower⟩ := stored.waits entry before
    refine ⟨below, (here _).mpr data, unlinked before, fun now => ?_⟩
    rcases (linked (tree.closed.parent (tree.waiting entry before) below)).mp now with linked | same
    · exact lower linked
    · simp [same] at other
  · rw [headers]
    intro idx mem
    rw [here]
    rcases mem_append.mp mem with later | woken
    · obtain ⟨known, data, lower, above⟩ := stored.queued idx (mem_cons_of_mem _ later)
      refine ⟨known, data, fun now => ?_,
        fun pprev below => (linked (tree.closed.parent known below)).mpr (.inl (above pprev below))⟩
      rcases (linked known).mp now with before | rfl
      · exact lower before
      · exact onceLeft (mem_append_left _ later)
    · obtain ⟨entry, waiting, rfl⟩ := mem_map.mp woken
      obtain ⟨before, same⟩ := mem_waitingFor.mp waiting
      obtain ⟨below, data, _, _⟩ := stored.waits entry before
      have known := tree.waiting entry before
      refine ⟨known, data, unlinked before, fun pprev above => ?_⟩
      rw [below] at above
      cases above
      exact (linked (tree.closed.parent known below)).mpr (.inr same)
  · have split := (perm_waitingFor node pindex).append_left queue
    rw [← append_assoc] at split
    exact split.nodup_iff.mp (nodup_cons.mp stored.once).2
  · rw [headers]
    intro idx known data
    rw [linked known]
    rcases stored.complete idx known ((here idx).mp data) with before | queued | waiting
    · exact .inl (.inl before)
    · rcases mem_cons.mp queued with rfl | later
      · exact .inl (.inr rfl)
      · exact .inr (.inl (mem_append_left _ later))
    · obtain ⟨pprev, below, mem⟩ := waiting
      by_cases same : pprev = pindex
      · refine .inr (.inl (mem_append_right _ (mem_map.mpr ⟨(pprev, idx), ?_, rfl⟩)))
        exact mem_waitingFor.mpr ⟨mem, same⟩
      · refine .inr (.inr ⟨pprev, below, mem_filter.mpr ⟨mem, ?_⟩⟩)
        simp [same]

end

theorem countTx_congr {nTx nTx'} {idx} (same : ∀ lower ∈ idx.path, nTx' lower.hash = nTx lower.hash)
    : countTx nTx' idx = countTx nTx idx := by
  induction idx with
  | root hash header => exact same _ (mem_path_self _)
  | child pprev hash header ih =>
    have own : nTx' hash = nTx hash := same _ (mem_path_self (.child pprev hash header))
    rw [countTx, countTx, own, ih fun lower deeper => same lower (mem_path_child.mpr (.inl deeper))]

end Linking

-- A new block

section Arrival

variable {ctx : NodeContext} {node : Node} {block : Block} {idx pindexNew : BlockIndex}

theorem haveData_storeBlock_iff (known : idx ∈ node.mapBlockIndex)
    (present : pindexNew ∈ node.mapBlockIndex)
    : (node.storeBlock block pindexNew).HaveData idx
      ↔ node.HaveData idx ∨ idx = pindexNew := by
  have raised := (@SameData.raiseValidity (node.toHeaderState.setFlag pindexNew BLOCK_HAVE_DATA)
    pindexNew BLOCK_VALID_TRANSACTIONS (by decide) (by decide)).data idx.hash
  change ¬ (_ &&& BLOCK_HAVE_DATA = 0) ↔ _
  rw [show (node.storeBlock block pindexNew).nStatus idx.hash &&& BLOCK_HAVE_DATA = _ from raised]
  by_cases same : idx.hash = pindexNew.hash
  · cases eq_of_hash known present same
    rw [and_setFlag]
    refine iff_of_true (fun clear => ?_) (.inr rfl)
    exact absurd (BitVec.or_eq_zero_iff.mp clear).2 (by decide)
  · have apart : idx ≠ pindexNew := fun here => same (congrArg _ here)
    rw [HeaderState.setFlag, nStatus_setStatus_of_ne same]
    exact (or_iff_left apart).symm

theorem mapBlockIndex_storeBlock
    : (node.storeBlock block pindexNew).mapBlockIndex = node.mapBlockIndex :=
  (@SameData.raiseValidity (node.toHeaderState.setFlag pindexNew BLOCK_HAVE_DATA) pindexNew
    BLOCK_VALID_TRANSACTIONS (by decide) (by decide)).map

theorem failed_storeBlock_iff (idx)
    : (node.storeBlock block pindexNew).Failed idx ↔ node.Failed idx :=
  (failed_raiseValidity_iff (by decide) idx).trans (failed_setFlag_iff (by decide) idx)

theorem level_storeBlock (unfailed : ¬ node.Failed pindexNew) (idx : BlockIndex)
    : (idx.hash = pindexNew.hash
        → BLOCK_VALID_TRANSACTIONS
          ≤ (node.storeBlock block pindexNew).nStatus idx.hash &&& BLOCK_VALID_MASK)
      ∧ (idx.hash ≠ pindexNew.hash
        → (node.storeBlock block pindexNew).nStatus idx.hash = node.nStatus idx.hash) := by
  constructor
  · intro same
    rw [same]
    refine le_raiseValidity (fun failed => unfailed ?_) (by decide)
    exact (failed_setFlag_iff (by decide) pindexNew).mp failed
  · intro apart
    exact (nStatus_raiseValidity_of_ne apart _).trans (nStatus_setStatus_of_ne apart)

theorem linked_storeBlock_iff (unlinked : ¬ node.Linked pindexNew) (idx)
    : (node.storeBlock block pindexNew).Linked idx ↔ node.Linked idx := by
  change Function.update node.nChainTx pindexNew.hash 0 idx.hash ≠ 0 ↔ _
  by_cases same : idx.hash = pindexNew.hash
  · rw [same, update_self, Linked, same]
    exact iff_of_false (fun set => set rfl) unlinked
  · rw [update_of_ne same, Linked]

/-- A new block is put where it belongs: it is to be linked, or it waits. -/
def Placed (node : Node) (pindexNew : BlockIndex) (queue : List BlockIndex)
    (waiting : List (BlockIndex × BlockIndex))
    : Prop :=
  (queue = [pindexNew] ∧ waiting = node.mapBlocksUnlinked
    ∧ ∀ pprev ∈ pindexNew.pprev, node.Linked pprev)
  ∨ (queue = [] ∧ ∃ pprev, pindexNew.pprev = some pprev ∧ ¬ node.Linked pprev
    ∧ waiting = (pprev, pindexNew) :: node.mapBlocksUnlinked)

theorem Stored.storeBlock {queue waiting} (stored : Stored ctx node []) (tree : node.InTree)
    (present : pindexNew ∈ node.mapBlockIndex) (missing : ¬ node.HaveData pindexNew)
    (unfailed : ¬ node.Failed pindexNew) (placed : node.Placed pindexNew queue waiting)
    : Stored ctx { node.storeBlock block pindexNew with mapBlocksUnlinked := waiting } queue := by
  have map : (node.storeBlock block pindexNew).mapBlockIndex = node.mapBlockIndex :=
    mapBlockIndex_storeBlock
  have unlinked : ¬ node.Linked pindexNew :=
    fun linked => missing (stored.linked pindexNew present linked).1
  have linked := @linked_storeBlock_iff node block pindexNew unlinked
  have data {idx} (known : idx ∈ node.mapBlockIndex) :=
    @haveData_storeBlock_iff node block idx pindexNew known present
  have apart {idx} (known : idx ∈ node.mapBlockIndex) (other : idx ≠ pindexNew)
      : idx.hash ≠ pindexNew.hash := fun same => other (eq_of_hash known present same)
  refine ⟨?_, ?_, ?_, ?_, ?_, ?_, ?_, ?_⟩
  · rw [map]
    exact stored.roots
  · rw [map]
    intro idx known now
    obtain ⟨here, count, above⟩ := stored.linked idx known ((linked idx).mp now)
    have other : idx ≠ pindexNew := fun same => missing (same ▸ here)
    refine ⟨(data known).mpr (.inl here), ?_,
      fun pprev below => (linked pprev).mpr (above pprev below)⟩
    -- The new block is not below the entry, as all of its blocks were here already.
    have counted : countTx (node.storeBlock block pindexNew).nTx idx
        = countTx node.nTx idx := by
      refine countTx_congr fun lower below => update_of_ne ?_ ..
      have found := tree.closed idx known lower below
      refine apart found fun same => missing (same ▸ ?_)
      exact stored.allData tree known ((linked idx).mp now) lower below
    refine (update_of_ne (apart known other) ..).trans ?_
    rw [counted]
    exact count
  · rw [map]
    intro idx known here
    obtain ⟨own, others⟩ := @level_storeBlock node block pindexNew unfailed idx
    by_cases same : idx = pindexNew
    · exact own (congrArg _ same)
    rw [others (apart known same)]
    exact stored.level idx known (((data known).mp here).resolve_right same)
  · rw [map]
    intro idx known here above
    by_cases same : idx = pindexNew
    · rw [same]
      change Function.update node.blockFiles pindexNew.hash _ pindexNew.hash ≠ none
      rw [update_self]
      exact Option.some_ne_none _
    · change Function.update node.blockFiles pindexNew.hash _ idx.hash ≠ none
      rw [update_of_ne (apart known same)]
      exact stored.files idx known (((data known).mp here).resolve_right same) above
  · have before {entry} (mem : entry ∈ node.mapBlocksUnlinked)
        : entry.2.pprev = some entry.1 ∧ (node.storeBlock block pindexNew).HaveData entry.2
          ∧ ¬ (node.storeBlock block pindexNew).Linked entry.2
          ∧ ¬ (node.storeBlock block pindexNew).Linked entry.1 := by
      rw [linked, linked, data (tree.waiting entry mem)]
      obtain ⟨below, here, own, lower⟩ := stored.waits entry mem
      exact ⟨below, .inl here, own, lower⟩
    intro entry mem
    rcases placed with ⟨_, rfl, _⟩ | ⟨_, pprev, below, lower, rfl⟩
    · exact before mem
    rcases mem_cons.mp mem with rfl | earlier
    · exact ⟨below, (data present).mpr (.inr rfl), mt (linked _).mp unlinked,
        mt (linked _).mp lower⟩
    · exact before earlier
  · rw [map]
    intro idx mem
    rcases placed with ⟨rfl, _, above⟩ | ⟨rfl, _⟩
    · cases mem_singleton.mp mem
      exact ⟨present, (data present).mpr (.inr rfl), mt (linked _).mp unlinked,
        fun pprev below => (linked pprev).mpr (above pprev below)⟩
    · cases mem
  · have fresh : pindexNew ∉ node.mapBlocksUnlinked.map Prod.snd := by
      intro mem
      obtain ⟨entry, waits, rfl⟩ := mem_map.mp mem
      exact missing (stored.waits entry waits).2.1
    have once : (pindexNew :: node.mapBlocksUnlinked.map Prod.snd).Nodup :=
      nodup_cons.mpr ⟨fresh, stored.once⟩
    rcases placed with ⟨rfl, rfl, _⟩ | ⟨rfl, pprev, _, _, rfl⟩
    · exact once
    · exact once
  · rw [map]
    intro idx known here
    rcases (data known).mp here with before | rfl
    · rcases stored.complete idx known before with now | queued | ⟨pprev, below, mem⟩
      · exact .inl ((linked idx).mpr now)
      · cases queued
      · refine .inr (.inr ⟨pprev, below, ?_⟩)
        rcases placed with ⟨_, rfl, _⟩ | ⟨_, _, _, _, rfl⟩
        · exact mem
        · exact mem_cons_of_mem _ mem
    · rcases placed with ⟨rfl, _, _⟩ | ⟨_, pprev, below, _, rfl⟩
      · exact .inr (.inl mem_cons_self)
      · exact .inr (.inr ⟨pprev, below, mem_cons_self⟩)

/-- The counters of a new entry start at zero. -/
theorem enterHeader_of_fresh {headers pindex} (fresh : node.find pindex.hash = none)
    : (node.enterHeader headers pindex).nTx = Function.update node.nTx pindex.hash 0
      ∧ (node.enterHeader headers pindex).nChainTx = Function.update node.nChainTx pindex.hash 0
      ∧ (node.enterHeader headers pindex).nSequenceId
        = Function.update node.nSequenceId pindex.hash 0 := by
  simp [enterHeader, fresh]

theorem enterHeader_of_known {pindex} (known : pindex ∈ node.mapBlockIndex)
    : node.enterHeader node.toHeaderState pindex = node := by
  have found := node.find_eq_some.mpr ⟨known, rfl⟩
  simp only [enterHeader, found, Option.isSome_some, if_true]

theorem Stored.enterHeader {nAdjustedTime header headers pindex} (stored : Stored ctx node [])
    (tree : node.InTree)
    (accepted : Pqcoin.acceptBlockHeader (ctx.toHeaderContext nAdjustedTime)
      node.toHeaderState header = (headers, .ok pindex))
    : Stored ctx (node.enterHeader headers pindex) [] := by
  rcases acceptBlockHeader_ok accepted
    with ⟨rfl, found, _⟩ | ⟨unknown, hash, map, nStatus, placed⟩
  · rw [enterHeader_of_known (node.find_eq_some.mp found).1]
    exact stored
  rw [← hash] at unknown
  obtain ⟨nTx, nChainTx, _⟩ := @enterHeader_of_fresh node headers pindex unknown
  have apart {idx} (known : idx ∈ node.mapBlockIndex)
      : idx.hash ≠ pindex.hash := hash_ne_of_fresh unknown known
  have status {idx} (known : idx ∈ node.mapBlockIndex)
      : (node.enterHeader headers pindex).nStatus idx.hash = node.nStatus idx.hash := by
    change headers.nStatus idx.hash = _
    rw [nStatus, update_of_ne (apart known)]
  have data {idx} (known : idx ∈ node.mapBlockIndex)
      : (node.enterHeader headers pindex).HaveData idx ↔ node.HaveData idx := by
    rw [HaveData, HaveData, status known]
  have linked {idx} (known : idx ∈ node.mapBlockIndex)
      : (node.enterHeader headers pindex).Linked idx ↔ node.Linked idx := by
    rw [Linked, Linked, nChainTx, update_of_ne (apart known)]
  have missing : ¬ (node.enterHeader headers pindex).HaveData pindex := by
    intro here
    change headers.nStatus pindex.hash &&& BLOCK_HAVE_DATA ≠ 0 at here
    rw [nStatus, update_self] at here
    exact here (by decide)
  have unlinked : ¬ (node.enterHeader headers pindex).Linked pindex := by
    rw [Linked, nChainTx, update_self]
    exact fun set => set rfl
  have old {idx} (mem : idx ∈ (node.enterHeader headers pindex).mapBlockIndex)
      (here : (node.enterHeader headers pindex).HaveData idx) : idx ∈ node.mapBlockIndex := by
    change idx ∈ headers.mapBlockIndex at mem
    rw [map] at mem
    rcases mem_cons.mp mem with rfl | known
    · exact absurd here missing
    · exact known
  refine ⟨?_, ?_, ?_, ?_, ?_, ?_, ?_, ?_⟩
  · intro idx mem root
    change idx ∈ headers.mapBlockIndex at mem
    rw [map] at mem
    rcases mem_cons.mp mem with rfl | known
    · rcases placed with genesis | ⟨pprev, _, below⟩
      · exact genesis
      · cases root.symm.trans below
    · exact stored.roots idx known root
  · intro idx mem now
    change idx ∈ headers.mapBlockIndex at mem
    rw [map] at mem
    rcases mem_cons.mp mem with rfl | known
    · exact absurd now unlinked
    obtain ⟨here, count, above⟩ := stored.linked idx known ((linked known).mp now)
    refine ⟨(data known).mpr here, ?_,
      fun pprev below => (linked (tree.closed.parent known below)).mpr (above pprev below)⟩
    rw [nChainTx, update_of_ne (apart known), count, nTx]
    refine (countTx_congr fun lower below => update_of_ne ?_ ..).symm
    exact apart (tree.closed idx known lower below)
  · intro idx mem here
    have known := old mem here
    rw [status known]
    exact stored.level idx known ((data known).mp here)
  · intro idx mem here
    have known := old mem here
    exact stored.files idx known ((data known).mp here)
  · intro entry mem
    obtain ⟨below, here, own, lower⟩ := stored.waits entry mem
    have known := tree.waiting entry mem
    exact ⟨below, (data known).mpr here, mt (linked known).mp own,
      mt (linked (tree.closed.parent known below)).mp lower⟩
  · exact nofun
  · exact stored.once
  · intro idx mem here
    have known := old mem here
    rcases stored.complete idx known ((data known).mp here) with now | queued | waiting
    · exact .inl ((linked known).mpr now)
    · cases queued
    · exact .inr (.inr waiting)

end Arrival

end Node

end Pqcoin
