import Pqcoin.Validation.Candidates

/-! `ActivateBestChain` ends with the best candidate as the tip: the search for it, the blocks
that are connected on the way, and the rounds.
-/

namespace Pqcoin

open BlockIndex List Option

namespace Node

open HeaderState

-- The search for the best candidate

/-- What holds in `ActivateBestChain`, where the tip can be anywhere. -/
structure Active (ctx : NodeContext) (node : Node) (mark : BlockIndex) : Prop where
  tree : node.InTree
  stored : Stored ctx node []
  front : Front ctx node mark

/-- The entry is the best candidate, and nothing on its chain has failed. -/
structure Best (ctx : NodeContext) (node : Node) (best : BlockIndex) : Prop where
  listed : best ∈ node.setBlockIndexCandidates
  greatest : ∀ idx ∈ node.setBlockIndexCandidates,
    node.rank ctx idx ≤ node.rank ctx best
  unfailed : ∀ lower ∈ best.path, ¬ node.Failed lower

section Search

variable {ctx : NodeContext} {node after : Node} {mark best idx : BlockIndex}

theorem Active.fails (active : Active ctx node mark) (fails : Fails ctx node after)
    : Active ctx after mark :=
  ⟨fails.inTree active.tree, active.stored.same fails.same, active.front.fails active.tree fails⟩

theorem failed_setFlag_self (s : HeaderState) (idx) {flag}
    (failure : flag &&& BLOCK_FAILED_MASK ≠ 0)
    : (s.setFlag idx flag).Failed idx := by
  rw [Failed, and_setFlag]
  exact fun clear => failure (BitVec.or_eq_zero_iff.mp clear).2

/-- The walk from a failed candidate, by induction on its way down. -/
theorem Fails.discard {pindexTest top} (closed : node.Closed) (known : top ∈ node.mapBlockIndex)
    (below : pindexTest ∈ top.path) (failed : node.Failed pindexTest)
    : Fails ctx node (node.discard true pindexTest top) := by
  induction top generalizing node with
  | root hash header =>
    cases mem_singleton.mp below
    exact .dropCandidate failed
  | child pprev hash header ih =>
    rw [discard]
    split
    · rename_i here
      rw [← here] at failed
      exact .dropCandidate failed
    rename_i higher
    have deeper := mem_path_of_ne below higher
    have parent := closed.parent known rfl
    have marked : Fails ctx node
        (node.setFlag (.child pprev hash header) BLOCK_FAILED_CHILD) :=
      .setFlag known ⟨pindexTest, below, fun sound => sound.1 failed⟩ (by decide) (by decide)
    have dropped : Fails ctx (node.setFlag (.child pprev hash header) BLOCK_FAILED_CHILD)
        ((node.setFlag (.child pprev hash header) BLOCK_FAILED_CHILD).dropCandidate
          (.child pprev hash header)) :=
      .dropCandidate (failed_setFlag_self _ _ (by decide))
    rw [if_pos rfl]
    refine (marked.trans closed dropped).trans closed (ih closed parent deeper ?_)
    exact failed.setFlag _ _

/-- A search that gets down to the active chain has met no failed entry. -/
theorem unfailed_of_firstUnusable (firm : node.Firm ctx node.tip)
    (found : node.firstUnusable idx = some none)
    : ∀ lower ∈ idx.path, ¬ node.Failed lower := by
  induction idx with
  | root hash header =>
    intro lower below
    cases mem_singleton.mp below
    simp only [firstUnusable] at found
    split at found
    · rename_i contained
      exact (firm _ (mem_path_iff.mpr contained)).1
    split at found
    · cases found
    rename_i usable
    exact (not_or.mp usable).1
  | child pprev hash header ih =>
    intro lower below
    simp only [firstUnusable] at found
    split at found
    · rename_i contained
      exact (firm lower (mem_path_trans below (mem_path_iff.mpr contained))).1
    split at found
    · cases found
    split at found
    · cases found
    rename_i usable
    rcases mem_path_child.mp below with deeper | rfl
    · exact ih found lower deeper
    · exact (not_or.mp usable).1

theorem Active.findMostWorkChain {chosen} (active : Active ctx node mark)
    (found : node.findMostWorkChain ctx = some (after, chosen))
    : Active ctx after mark ∧ ∃ best, chosen = some best ∧ Best ctx after best := by
  fun_induction Node.findMostWorkChain ctx node with
  | case1 node none =>
    have listed : mark ∈ node.setBlockIndexCandidates := active.front.covers.listed
    rw [lastInOrder_eq_none none] at listed
    cases listed
  | case2 => cases found
  | case3 node pindexNew last usable =>
    cases found
    refine ⟨active, pindexNew, rfl, mem_of_lastInOrder last, greatest_lastInOrder last, ?_⟩
    exact unfailed_of_firstUnusable active.front.tipFirm usable
  | case4 node pindexNew last pindexTest unusable ih =>
    have known := active.tree.candidates _ (mem_of_lastInOrder last)
    have linked := active.front.linked _ (mem_of_lastInOrder last)
    obtain ⟨below, bad⟩ := mem_path_of_firstUnusable unusable
    have here := active.stored.allData active.tree known linked pindexTest below
    have failed := bad.resolve_right (not_not.mpr here)
    rw [decide_eq_true failed] at ih found
    exact ih (active.fails (.discard active.tree.closed known below failed)) found

end Search

-- Connecting

section Connect

variable {ctx : NodeContext} {node after : Node} {mark best idx pindex : BlockIndex}

theorem Best.usable (best' : Best ctx node best) (active : Active ctx node mark)
    (below : idx ∈ best.path)
    : idx ∈ node.usable := by
  have known := active.tree.candidates best best'.listed
  have linked := active.front.linked best best'.listed
  exact ⟨active.tree.closed best known idx below, best'.unfailed idx below,
    active.stored.linked_path active.tree known linked idx below⟩

theorem Active.lowerTip (active : Active ctx node mark) (below : idx ∈ node.tip.path)
    : Active ctx { node with tip := idx } mark where
  tree := ⟨active.tree.closed, active.tree.candidates, active.tree.waiting,
    active.tree.closed _ active.tree.tip idx below⟩
  stored := active.stored.same ⟨.refl _, rfl, rfl, rfl, rfl, rfl⟩
  front := ⟨active.front.linked, active.front.tipFirm.below below, active.front.markFirm,
    active.front.covers⟩

theorem Best.lowerTip (best' : Best ctx node best)
    : Best ctx { node with tip := idx } best :=
  ⟨best'.listed, best'.greatest, best'.unfailed⟩

theorem Fails.invalidBlockFound {block rejection} (closed : node.Closed)
    (known : pindex ∈ node.mapBlockIndex) (above : pindex.pprev ≠ none)
    (rejected : ctx.connectBlock block pindex = .error (.rejected rejection))
    : Fails ctx node (node.invalidBlockFound rejection pindex) := by
  rw [Node.invalidBlockFound]
  split
  · exact .refl node
  have unsound : ¬ node.Sound ctx pindex := by
    rintro ⟨_, _, root | accepted⟩
    · exact above root
    · cases rejected.symm.trans (accepted block)
  have marked : Fails ctx node (node.setFlag pindex BLOCK_FAILED_VALID) :=
    .setFlag known ⟨pindex, mem_path_self pindex, unsound⟩ (by decide) (by decide)
  have dropped : Fails ctx (node.setFlag pindex BLOCK_FAILED_VALID)
      ((node.setFlag pindex BLOCK_FAILED_VALID).dropCandidate pindex) :=
    .dropCandidate (failed_setFlag_self _ _ (by decide))
  exact (marked.trans closed dropped).trans closed (.record _)

theorem connectTip_failed_iff (idx)
    : (node.connectTip ctx pindex).Failed idx ↔ node.Failed idx :=
  failed_raiseValidity_iff (by decide) idx

theorem SameBlocks.connectTip : SameBlocks node (node.connectTip ctx pindex) :=
  ⟨.raiseValidity (by decide) (by decide), rfl, rfl, rfl, rfl, rfl⟩

theorem mem_candidates_connectTip
    : idx ∈ (node.connectTip ctx pindex).setBlockIndexCandidates
      ↔ idx ∈ node.setBlockIndexCandidates
        ∧ ¬ node.rank ctx idx < node.rank ctx pindex := by
  rw [← worse_iff]
  simp only [connectTip, pruneBlockIndexCandidates, mem_filter, Bool.not_eq_true']
  rw [Bool.not_eq_true]
  rfl

section

variable (active : Active ctx node mark) (best' : Best ctx node best) (below : pindex ∈ best.path)

include active best' below

theorem Active.connectTip (above : pindex.pprev = some node.tip)
    (accepted : ∀ block, ctx.connectBlock block pindex = .ok ())
    : (∃ mark', Active ctx (node.connectTip ctx pindex) mark')
      ∧ Best ctx (node.connectTip ctx pindex) best := by
  obtain ⟨tree, stored, front⟩ := id active
  have usable := best'.usable active below
  have failed := @connectTip_failed_iff ctx node pindex
  have same : SameBlocks node (node.connectTip ctx pindex) := .connectTip
  have map := same.headers.map
  have spares : Spares ctx node (node.connectTip ctx pindex) := {
    grows := fun idx known => map ▸ known
    linked := fun idx _ => (same.linked_iff idx).mpr
    failed := fun idx _ now => not_sound_of_failed ((failed idx).mp now)
  }
  have firm : node.Firm ctx pindex := by
    cases pindex with
    | root hash header => cases above
    | child pprev hash header =>
      cases above
      intro lower mem
      rcases mem_path_child.mp mem with deeper | rfl
      · exact front.tipFirm lower deeper
      · exact ⟨usable.2.1, usable.2.2, .inr accepted⟩
  have top := front.covers.le_best best'.greatest usable
  refine ⟨⟨if node.rank ctx mark < node.rank ctx pindex then pindex else mark, ?_⟩, ?_⟩
  · refine ⟨(develops_connectTip (fun _ => usable.1) tree).1, stored.same same, ?_⟩
    have markFirm : node.Firm ctx
        (if node.rank ctx mark < node.rank ctx pindex then pindex else mark) := by
      split
      · exact firm
      · exact front.markFirm
    have pruned := front.covers.prune usable
    have markFirm' := markFirm.spares tree pruned.usable.1 spares
    refine ⟨fun idx mem => ?_, firm.spares tree usable.1 spares, markFirm',
      pruned.transfer (fun _ _ => rfl) ?_ ?_ ?_⟩
    · have before := (mem_candidates_connectTip.mp mem).1
      exact (same.linked_iff idx).mpr (front.linked idx before)
    · exact markFirm'.usable (spares.grows _ pruned.usable.1)
    · exact fun idx _ _ mem => mem_candidates_connectTip.mpr mem
    · intro idx now before _
      obtain ⟨known, unfailed, linked⟩ := now
      refine absurd ⟨map ▸ known, mt (failed idx).mpr unfailed, ?_⟩ before
      exact (same.linked_iff idx).mp linked
  · refine ⟨mem_candidates_connectTip.mpr ⟨best'.listed, top.not_gt⟩, fun idx mem => ?_,
      fun lower deeper => mt (failed lower).mp (best'.unfailed lower deeper)⟩
    exact best'.greatest idx (mem_candidates_connectTip.mp mem).1

theorem Active.blockToConnect (above : pindex.pprev ≠ none) (pblock)
    : node.blockToConnect ctx.H pblock best pindex ≠ none := by
  obtain ⟨known, _, linked⟩ := best'.usable active below
  have here := (active.stored.linked pindex known linked).1
  have file := active.stored.files pindex known here above
  cases pblock with
  | none => exact file
  | some block =>
    rw [Node.blockToConnect]
    split
    · exact some_ne_none _
    · exact file

end

/-- A step of `ActivateBestChain` went on, to the best chain if no block was found invalid. -/
def Advanced (ctx : NodeContext) (best : BlockIndex) (after : Node) (progress : Progress) : Prop :=
  (∃ mark', Active ctx after mark')
  ∧ ∃ fInvalidFound, progress = .advanced fInvalidFound
    ∧ (fInvalidFound = false → Best ctx after best)

variable (fixed : ∀ block other idx, ctx.connectBlock block idx = ctx.connectBlock other idx)

include fixed in
theorem Active.connectLoop {pblock pindexOldTip path progress}
    (active : Active ctx node mark) (best' : Best ctx node best)
    (below : ∀ idx ∈ path, idx ∈ best.path)
    (result : connectLoop ctx pblock best pindexOldTip path node = some (after, progress))
    : Advanced ctx best after progress := by
  fun_induction Node.connectLoop ctx pblock best pindexOldTip path node generalizing mark with
  | case1 node =>
    cases result
    exact ⟨⟨mark, active⟩, false, rfl, fun _ => best'⟩
  | case2 | case4 | case6 => cases result
  | case3 pindexConnect rest node above missing =>
    have higher : pindexConnect.pprev ≠ none := by
      rw [not_not.mp above]
      exact some_ne_none _
    exact absurd missing (active.blockToConnect best' (below _ mem_cons_self) higher pblock)
  | case5 pindexConnect rest node above block _ rejection rejected =>
    cases result
    have higher : pindexConnect.pprev ≠ none := by
      rw [not_not.mp above]
      exact some_ne_none _
    have known := (best'.usable active (below _ mem_cons_self)).1
    exact ⟨⟨mark, active.fails (.invalidBlockFound active.tree.closed known higher rejected)⟩,
      true, rfl, fun found => absurd found (by decide)⟩
  | case7 pindexConnect rest node above block _ _ accepted =>
    obtain ⟨active', best''⟩ := active.connectTip best' (below _ mem_cons_self)
      (not_not.mp above) (fun other => (fixed other block pindexConnect).trans accepted)
    obtain ⟨rfl, rfl⟩ := Prod.mk.inj (Option.some.inj result)
    exact ⟨active', false, rfl, fun _ => best''⟩
  | case8 pindexConnect rest node above block _ _ accepted =>
    rename_i ih
    obtain ⟨⟨mark', active'⟩, best''⟩ := active.connectTip best' (below _ mem_cons_self)
      (not_not.mp above) (fun other => (fixed other block pindexConnect).trans accepted)
    exact ih active' best'' (fun idx mem => below idx (mem_cons_of_mem _ mem)) result

/-- Every chain meets the active one, at the genesis block at the latest. -/
theorem Active.findForkFrom (active : Active ctx node mark) (known : idx ∈ node.mapBlockIndex)
    : ∃ fork, node.findForkFrom idx = some fork ∧ node.Contains fork := by
  induction idx with
  | root hash header =>
    have contained : node.Contains (.root hash header) := by
      obtain ⟨root, below, bottom⟩ := exists_root node.tip
      have found := active.tree.closed _ active.tree.tip root below
      have genesis := active.stored.roots _ known rfl
      cases eq_of_hash known found (genesis.trans (active.stored.roots root found bottom).symm)
      exact mem_path_iff.mp below
    exact ⟨_, if_pos contained, contained⟩
  | child pprev hash header ih =>
    rw [Node.findForkFrom]
    split
    · rename_i contained
      exact ⟨_, rfl, contained⟩
    · exact ih (active.tree.closed.parent known rfl)

theorem Active.findFork (active : Active ctx node mark) (known : idx ∈ node.mapBlockIndex)
    : ∃ fork, node.findFork idx = some fork ∧ fork ∈ node.tip.path := by
  have meets {lower} (below : lower ∈ idx.path)
      : ∃ fork, node.findForkFrom lower = some fork ∧ fork ∈ node.tip.path := by
    obtain ⟨fork, found, contained⟩ :=
      active.findForkFrom (active.tree.closed idx known lower below)
    exact ⟨fork, found, mem_path_iff.mpr contained⟩
  rw [Node.findFork]
  split
  · rename_i higher
    obtain ⟨lower, reached, height⟩ := ancestor_eq_some (Nat.le_of_lt higher)
    have below : lower ∈ idx.path := mem_path_iff.mpr (by rw [height]; exact reached)
    rw [getAncestor_eq, reached, bind_some]
    exact meets below
  · exact meets (mem_path_self idx)

theorem disconnectTo_of_mem {fork tip} (below : fork ∈ tip.path)
    : disconnectTo (some fork) tip = (fork, true) := by
  induction tip with
  | root hash header =>
    cases mem_singleton.mp below
    simp only [disconnectTo, decide_true]
  | child pprev hash header ih =>
    rw [disconnectTo]
    split
    · rename_i here
      cases here
      rfl
    rename_i lower
    rcases mem_path_child.mp below with deeper | rfl
    · exact ih deeper
    · exact absurd rfl lower

include fixed in
theorem Active.activateBestChainStep {pblock progress} (active : Active ctx node mark)
    (best' : Best ctx node best)
    (result : node.activateBestChainStep ctx pblock best = some (after, progress))
    : Advanced ctx best after progress := by
  obtain ⟨fork, found, below⟩ := active.findFork (active.tree.candidates best best'.listed)
  simp only [Node.activateBestChainStep, found, disconnectTo_of_mem below] at result
  exact (active.lowerTip below).connectLoop fixed best'.lowerTip
    (fun idx mem => mem_path_of_toConnect mem) result

theorem Active.mostWorkChain {cached chosen} (active : Active ctx node mark)
    (kept : ∀ best ∈ cached, Best ctx node best)
    (result : node.mostWorkChain ctx cached = some (after, chosen))
    : Active ctx after mark ∧ ∃ best, chosen = some best ∧ Best ctx after best := by
  rw [Node.mostWorkChain] at result
  split at result
  · rename_i some
    obtain ⟨best, rfl⟩ := isSome_iff_exists.mp some
    cases result
    exact ⟨active, best, rfl, kept best rfl⟩
  · exact active.findMostWorkChain result

include fixed in
theorem Active.activateBestChain {pblock rounds cached activated}
    (active : Active ctx node mark) (kept : ∀ best ∈ cached, Best ctx node best)
    (result : node.activateBestChain ctx pblock rounds cached = some (after, activated))
    : (∃ mark', Active ctx after mark') ∧ Best ctx after after.tip := by
  fun_induction Node.activateBestChain ctx pblock rounds cached node generalizing mark with
  | case1 | case2 | case5 => cases result
  | case3 cached node rounds found searched =>
    obtain ⟨_, best, none, _⟩ := active.mostWorkChain kept searched
    cases none
  | case4 rounds cached node found searched =>
    cases result
    obtain ⟨active', best, same, best'⟩ := active.mostWorkChain kept searched
    cases same
    exact ⟨⟨mark, active'⟩, best'⟩
  | case6 rounds cached node found best searched _ stopped stepped =>
    obtain ⟨active', other, same, best'⟩ := active.mostWorkChain kept searched
    cases same
    obtain ⟨_, _, impossible, _⟩ := active'.activateBestChainStep fixed best' stepped
    cases impossible
  | case7 rounds cached node found best searched _ next fInvalidFound stepped =>
    rename_i reached
    have reached : (if fInvalidFound then none else some best) = some next.tip := reached
    cases result
    obtain ⟨active', other, same, best'⟩ := active.mostWorkChain kept searched
    cases same
    obtain ⟨advanced, _, same, best''⟩ := active'.activateBestChainStep fixed best' stepped
    cases same
    refine ⟨advanced, ?_⟩
    cases fInvalidFound with
    | true =>
      rw [if_pos rfl] at reached
      cases reached
    | false =>
      have same : best = after.tip := Option.some.inj reached
      exact same ▸ best'' rfl
  | case8 rounds cached node found best searched _ next fInvalidFound stepped =>
    rename_i ih
    obtain ⟨active', other, same, best'⟩ := active.mostWorkChain kept searched
    cases same
    obtain ⟨⟨mark', advanced⟩, _, same, best''⟩ := active'.activateBestChainStep fixed best' stepped
    cases same
    refine ih advanced (fun other mem => ?_) result
    have mem : (if fInvalidFound then none else some best) = some other := mem
    cases fInvalidFound with
    | true =>
      rw [if_pos rfl] at mem
      cases mem
    | false =>
      have same : best = other := Option.some.inj mem
      exact same ▸ best'' rfl

theorem Active.ready (active : Active ctx node mark) (best' : Best ctx node node.tip)
    : Ready ctx node [] node.tip := by
  obtain ⟨tree, stored, front⟩ := active
  have usable := front.tipFirm.usable tree.tip
  exact ⟨tree, stored, ⟨front.linked, front.tipFirm, front.tipFirm,
    front.covers.raise usable best'.listed best'.greatest⟩, le_rfl⟩

end Connect

end Node

end Pqcoin
