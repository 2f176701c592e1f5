import Pqcoin.Validation.Headers

/-! Where failure marks come from: what can happen to `BLOCK_FAILED_VALID`,
`BLOCK_FAILED_CHILD` and `gFailedBlocks` of the block index, and what `AcceptBlockHeader` does
to them.
-/

namespace Pqcoin

open BitVec BlockIndex Checks Function List

-- Marks on the index

namespace HeaderState

def FailedValid (s : HeaderState) (idx : BlockIndex) : Prop :=
  s.nStatus idx.hash &&& BLOCK_FAILED_VALID ≠ 0

instance (s : HeaderState) (idx : BlockIndex) : Decidable (s.FailedValid idx) :=
  inferInstanceAs (Decidable (_ ≠ _))

/-- The index has the ancestors of all its entries. -/
def Closed (s : HeaderState) : Prop :=
  ∀ idx ∈ s.mapBlockIndex, ∀ lower ∈ idx.path, lower ∈ s.mapBlockIndex

theorem Closed.parent {s : HeaderState} {idx pprev} (closed : s.Closed)
    (known : idx ∈ s.mapBlockIndex) (below : idx.pprev = some pprev)
    : pprev ∈ s.mapBlockIndex :=
  closed idx known pprev (mem_path_of_pprev below)

/-- What can happen to the marks, apart from their removal: they stay, a new one has a failed
entry or a cause below it, and a new record has its flag.
-/
structure Marks (s s' : HeaderState) : Prop where
  grows : ∀ idx ∈ s.mapBlockIndex, idx ∈ s'.mapBlockIndex
  closed : s.Closed → s'.Closed
  keeps : ∀ idx ∈ s.mapBlockIndex, s.FailedValid idx → s'.FailedValid idx
  caused : ∀ idx ∈ s'.mapBlockIndex, s'.Failed idx
    → (∃ lower ∈ idx.path, lower ∈ s.mapBlockIndex ∧ s.Failed lower)
      ∨ ∃ cause ∈ idx.path, s'.FailedValid cause
  recorded : ∀ failed ∈ s'.gFailedBlocks, failed ∈ s.gFailedBlocks
    ∨ (failed ∈ s'.mapBlockIndex ∧ s'.FailedValid failed)

section Marks

variable {s s' s'' : HeaderState} {idx other : BlockIndex}

theorem eq_of_hash (known : idx ∈ s.mapBlockIndex) (found : other ∈ s.mapBlockIndex)
    (same : idx.hash = other.hash)
    : idx = other :=
  inj_on_of_nodup_map s.distinct known found same

theorem FailedValid.failed (flagged : s.FailedValid idx) : s.Failed idx := by
  intro clear
  have part : BLOCK_FAILED_MASK &&& BLOCK_FAILED_VALID = BLOCK_FAILED_VALID := by decide
  refine flagged ?_
  rw [← part, ← BitVec.and_assoc, clear]
  exact zero_and

theorem Marks.refl (s) : Marks s s where
  grows _ known := known
  closed closed := closed
  keeps _ _ flagged := flagged
  caused idx known failed := .inl ⟨idx, mem_path_self idx, known, failed⟩
  recorded _ mem := .inl mem

theorem Marks.trans (closed : s.Closed) (first : Marks s s') (second : Marks s' s'')
    : Marks s s'' where
  grows idx known := second.grows idx (first.grows idx known)
  closed before := second.closed (first.closed before)
  keeps idx known flagged :=
    second.keeps idx (first.grows idx known) (first.keeps idx known flagged)
  caused idx known failed := by
    rcases second.caused idx known failed with ⟨lower, below, found, already⟩ | caused
    · rcases first.caused lower found already with
      ⟨lowest, deeper, earlier⟩ | ⟨cause, deeper, flagged⟩
      · exact .inl ⟨lowest, mem_path_trans deeper below, earlier⟩
      have mem := first.closed closed lower found cause deeper
      exact .inr ⟨cause, mem_path_trans deeper below, second.keeps cause mem flagged⟩
    · exact .inr caused
  recorded failed mem := by
    rcases second.recorded failed mem with earlier | now
    · rcases first.recorded failed earlier with before | ⟨known, flagged⟩
      · exact .inl before
      · exact .inr ⟨second.grows failed known, second.keeps failed known flagged⟩
    · exact .inr now

theorem nStatus_setStatus_of_ne {nStatus} (apart : other.hash ≠ idx.hash)
    : (s.setStatus idx nStatus).nStatus other.hash = s.nStatus other.hash :=
  update_of_ne apart ..

/-- One entry gets a new status. -/
theorem Marks.setStatus (known : idx ∈ s.mapBlockIndex) {nStatus}
    (keeps : s.FailedValid idx → nStatus &&& BLOCK_FAILED_VALID ≠ 0)
    (caused : nStatus &&& BLOCK_FAILED_MASK ≠ 0
      → (∃ lower ∈ idx.path, lower ∈ s.mapBlockIndex ∧ s.Failed lower)
        ∨ nStatus &&& BLOCK_FAILED_VALID ≠ 0)
    : Marks s (s.setStatus idx nStatus) where
  grows _ known := known
  closed closed := closed
  keeps other found flagged := by
    by_cases same : other.hash = idx.hash
    · cases eq_of_hash found known same
      rw [FailedValid, nStatus_setStatus]
      exact keeps flagged
    · rw [FailedValid, nStatus_setStatus_of_ne same]
      exact flagged
  caused other found failed := by
    by_cases same : other.hash = idx.hash
    · cases eq_of_hash found known same
      rw [Failed, nStatus_setStatus] at failed
      rcases caused failed with earlier | own
      · exact .inl earlier
      refine .inr ⟨idx, mem_path_self idx, ?_⟩
      rw [FailedValid, nStatus_setStatus]
      exact own
    · rw [Failed, nStatus_setStatus_of_ne same] at failed
      exact .inl ⟨other, mem_path_self other, found, failed⟩
  recorded _ mem := .inl mem

/-- A status with the same failure flags. -/
theorem Marks.setStatus_alike (known : idx ∈ s.mapBlockIndex) {nStatus}
    (alike : nStatus &&& BLOCK_FAILED_MASK = s.nStatus idx.hash &&& BLOCK_FAILED_MASK)
    : Marks s (s.setStatus idx nStatus) := by
  have part : BLOCK_FAILED_MASK &&& BLOCK_FAILED_VALID = BLOCK_FAILED_VALID := by decide
  refine .setStatus known (fun flagged => ?_) fun failed => .inl ?_
  · rw [← part, ← BitVec.and_assoc, alike, BitVec.and_assoc, part]
    exact flagged
  · rw [alike] at failed
    exact ⟨idx, mem_path_self idx, known, failed⟩

theorem and_setFlag_ne_zero {mask} (set : s.nStatus idx.hash &&& mask ≠ 0) (other) (flag)
    : (s.setFlag other flag).nStatus idx.hash &&& mask ≠ 0 := by
  rw [setFlag]
  by_cases same : idx.hash = other.hash
  · rw [same, nStatus_setStatus, ← same, and_or_distrib_right]
    exact fun clear => set (or_eq_zero_iff.mp clear).1
  · rw [nStatus_setStatus_of_ne same]
    exact set

theorem Failed.setFlag (failed : s.Failed idx) (other flag)
    : (s.setFlag other flag).Failed idx :=
  and_setFlag_ne_zero failed other flag

theorem failed_setFlag (known : idx ∈ s.mapBlockIndex) (found : other ∈ s.mapBlockIndex) {flag}
    (failed : (s.setFlag other flag).Failed idx)
    : s.Failed idx ∨ idx = other := by
  by_cases same : idx.hash = other.hash
  · exact .inr (eq_of_hash known found same)
  rw [Failed, setFlag, nStatus_setStatus_of_ne same] at failed
  exact .inl failed

theorem FailedValid.setFlag (flagged : s.FailedValid idx) (other) (flag)
    : (s.setFlag other flag).FailedValid idx :=
  and_setFlag_ne_zero flagged other flag

theorem failedValid_setFlag (s : HeaderState) (idx)
    : (s.setFlag idx BLOCK_FAILED_VALID).FailedValid idx := by
  rw [FailedValid, and_setFlag, BitVec.and_self]
  exact fun clear => absurd (or_eq_zero_iff.mp clear).2 (by decide)

section

variable (known : idx ∈ s.mapBlockIndex)

include known

theorem Marks.setFlag_failedValid : Marks s (s.setFlag idx BLOCK_FAILED_VALID) := by
  have flagged := failedValid_setFlag s idx
  rw [FailedValid, setFlag, nStatus_setStatus] at flagged
  exact .setStatus known (fun _ => flagged) fun _ => .inr flagged

theorem Marks.setFlag_failedChild
    (below : ∃ lower ∈ idx.path, lower ∈ s.mapBlockIndex ∧ s.Failed lower)
    : Marks s (s.setFlag idx BLOCK_FAILED_CHILD) := by
  refine .setStatus known (fun flagged => ?_) fun _ => .inl below
  rw [and_or_distrib_right]
  exact fun clear => flagged (or_eq_zero_iff.mp clear).1

theorem Marks.setFlag_haveData : Marks s (s.setFlag idx BLOCK_HAVE_DATA) := by
  have alike : (s.nStatus idx.hash ||| BLOCK_HAVE_DATA) &&& BLOCK_FAILED_MASK
      = s.nStatus idx.hash &&& BLOCK_FAILED_MASK := by
    rw [and_or_distrib_right]
    exact or_zero
  exact .setStatus_alike known alike

theorem Marks.raiseValidity {nUpTo} (level : nUpTo &&& BLOCK_FAILED_MASK = 0)
    : Marks s (s.raiseValidity idx nUpTo) := by
  rw [HeaderState.raiseValidity]
  split
  · exact .refl s
  split
  · refine .setStatus_alike known ?_
    have apart : ~~~BLOCK_VALID_MASK &&& BLOCK_FAILED_MASK = BLOCK_FAILED_MASK := by decide
    rw [and_or_distrib_right, BitVec.and_assoc, apart, level]
    exact or_zero
  · exact .refl s

end

theorem Marks.record {records} (recorded : ∀ failed ∈ records, failed ∈ s.gFailedBlocks
      ∨ (failed ∈ s.mapBlockIndex ∧ s.FailedValid failed))
    : Marks s { s with gFailedBlocks := records } where
  grows _ known := known
  closed closed := closed
  keeps _ _ flagged := flagged
  caused := (Marks.refl s).caused
  recorded := recorded

-- Marks from headers

theorem closed_cons_newEntry {H block} (closed : s.Closed)
    : ∀ idx ∈ s.newEntry H block :: s.mapBlockIndex, ∀ lower ∈ idx.path,
        lower ∈ s.newEntry H block :: s.mapBlockIndex := by
  intro idx mem lower below
  rcases mem_cons.mp mem with rfl | known
  · rw [newEntry] at below ⊢
    split at below
    · rename_i pprev found
      rcases mem_path_child.mp below with deeper | rfl
      · have known := (s.find_eq_some.mp found).1
        exact mem_cons_of_mem _ (closed pprev known lower deeper)
      · exact mem_cons_self
    · exact mem_cons.mpr (.inl (mem_singleton.mp below))
  · exact mem_cons_of_mem _ (closed idx known lower below)

theorem addToBlockIndex_cases (H) (s : HeaderState) (block)
    : (∃ idx, s.find (block.getHash H) = some idx ∧ s.addToBlockIndex H block = (s, idx))
      ∨ (s.find (block.getHash H) = none
        ∧ (s.addToBlockIndex H block).2 = s.newEntry H block
        ∧ (s.addToBlockIndex H block).1.mapBlockIndex = s.newEntry H block :: s.mapBlockIndex
        ∧ (s.addToBlockIndex H block).1.nStatus
          = Function.update s.nStatus (block.getHash H) BLOCK_VALID_TREE
        ∧ (s.addToBlockIndex H block).1.gFailedBlocks = s.gFailedBlocks) := by
  rw [addToBlockIndex]
  split
  · rename_i idx found
    exact .inl ⟨idx, found, rfl⟩
  · rename_i fresh
    exact .inr ⟨fresh, rfl, rfl, rfl, rfl⟩

theorem hash_ne_of_fresh {hash} (fresh : s.find hash = none) (known : idx ∈ s.mapBlockIndex)
    : idx.hash ≠ hash := by
  rintro rfl
  exact s.find_eq_none.mp fresh (mem_map_of_mem known)

/-- A new entry has no mark. -/
theorem Marks.addToBlockIndex (H) (s : HeaderState) (block)
    : Marks s (s.addToBlockIndex H block).1 := by
  rcases addToBlockIndex_cases H s block with ⟨idx, _, same⟩ | ⟨fresh, _, map, nStatus, records⟩
  · rw [same]
    exact .refl s
  exact {
    grows := fun idx known => map ▸ mem_cons_of_mem _ known
    closed := fun closed => by
      rw [Closed, map]
      exact closed_cons_newEntry closed
    keeps := fun idx known flagged => by
      rw [FailedValid, nStatus, update_of_ne (hash_ne_of_fresh fresh known)]
      exact flagged
    caused := fun idx mem failed => by
      rw [map] at mem
      rw [Failed, nStatus] at failed
      rcases mem_cons.mp mem with rfl | known
      · rw [hash_newEntry, update_self] at failed
        exact absurd rfl failed
      · rw [update_of_ne (hash_ne_of_fresh fresh known)] at failed
        exact .inl ⟨idx, mem_path_self idx, known, failed⟩
    recorded := fun failed mem => .inl (records ▸ mem)
  }

/-- The walk marks what is above a cause, by induction on its way down. -/
theorem Marks.markFailedChildren {failedit prev} (closed : s.Closed)
    (known : prev ∈ s.mapBlockIndex) (below : failedit ∈ prev.path) (cause : s.FailedValid failedit)
    : Marks s (s.markFailedChildren failedit prev) := by
  induction prev generalizing s with
  | root hash header => exact .refl s
  | child pprev hash header ih =>
    rw [markFailedChildren]
    split
    · exact .refl s
    rename_i higher
    have found := closed _ known failedit below
    have marked : Marks s (s.setFlag (.child pprev hash header) BLOCK_FAILED_CHILD) :=
      .setFlag_failedChild known ⟨failedit, below, found, cause.failed⟩
    have deeper := mem_path_of_ne below higher
    have parent := closed.parent known rfl
    exact marked.trans closed (ih closed parent deeper (marked.keeps failedit found cause))

theorem Failed.markFailedChildren (failed : s.Failed idx) (failedit prev)
    : (s.markFailedChildren failedit prev).Failed idx := by
  induction prev generalizing s with
  | root hash header => exact failed
  | child pprev hash header ih =>
    rw [markFailedChildren]
    split
    · exact failed
    · exact ih (failed.setFlag _ _)

theorem failed_markFailedChildren {failedit prev} (closed : s.Closed)
    (known : prev ∈ s.mapBlockIndex) (below : failedit ∈ prev.path)
    (found : idx ∈ s.mapBlockIndex) (failed : (s.markFailedChildren failedit prev).Failed idx)
    : s.Failed idx ∨ failedit ∈ idx.path := by
  induction prev generalizing s with
  | root hash header => exact .inl failed
  | child pprev hash header ih =>
    rw [markFailedChildren] at failed
    split at failed
    · exact .inl failed
    rename_i higher
    have deeper := mem_path_of_ne below higher
    have parent := closed.parent known rfl
    rcases @ih (s.setFlag (.child pprev hash header) BLOCK_FAILED_CHILD) closed parent deeper
      found failed with now | above
    · rcases failed_setFlag found known now with before | rfl
      · exact .inl before
      · exact .inr below
    · exact .inr above

theorem mem_path_of_failedAncestor {ctx prev failedit}
    (found : s.failedAncestor ctx prev = some failedit)
    : failedit ∈ prev.path ∧ failedit ∈ s.gFailedBlocks := by
  rw [failedAncestor] at found
  split at found
  · cases found
  obtain ⟨recorded, reached⟩ := mem_filter.mp (argmin_mem found)
  rw [beq_iff_eq, getAncestor_eq] at reached
  exact ⟨mem_path_iff.mpr reached, recorded⟩

theorem Marks.acceptBlockHeader (ctx block) (closed : s.Closed)
    : Marks s (Pqcoin.acceptBlockHeader ctx s block).1 := by
  simp only [Pqcoin.acceptBlockHeader]
  split
  · exact .addToBlockIndex ..
  split
  · split <;> exact .refl s
  split
  · exact .refl s
  rename_i pindexPrev checked
  split
  · exact .addToBlockIndex ..
  rename_i failedit found
  split
  · exact .refl s
  rename_i cause
  have known := (s.find_eq_some.mp (checkNewHeader_ok.mp checked).2.1).1
  exact .markFailedChildren closed known (mem_path_of_failedAncestor found).1 cause

theorem checkNewHeader_ne_assertion {ctx block}
    : checkNewHeader ctx s block ≠ .error .assertion := by
  have contextual (prev)
      : contextualCheckBlockHeader ctx prev block.toPureBlockHeader ≠ .error .assertion := by
    intro failed
    simp [contextualCheckBlockHeader, then_error, require_error, invalid] at failed
  intro failed
  rw [checkNewHeader, then_error, checkBlockHeader, require_error] at failed
  rcases failed with ⟨_, other⟩ | ⟨_, failed⟩
  · cases other
  split at failed
  · cases failed
  rename_i prev _
  split at failed
  · simp [then_error, require_error, invalid, checkIndexAgainstCheckpoint,
      contextual, pure, Except.pure] at failed
  · simp [then_error, require_error, invalid, contextual, pure, Except.pure]
      at failed

theorem acceptBlockHeader_assertion {ctx block}
    (failed : (Pqcoin.acceptBlockHeader ctx s block).2 = .error .assertion)
    : ∃ failedit ∈ s.gFailedBlocks, ¬ s.FailedValid failedit := by
  simp only [Pqcoin.acceptBlockHeader] at failed
  split at failed
  · cases failed
  split at failed
  · split at failed <;> cases failed
  split at failed
  · rename_i failure checked
    cases failed
    exact absurd checked checkNewHeader_ne_assertion
  split at failed
  · cases failed
  rename_i failedit found
  split at failed
  · rename_i unflagged
    exact ⟨failedit, (mem_path_of_failedAncestor found).2, not_not.mpr unflagged⟩
  · cases failed

/-- The entry of an accepted header is known, or it is new and has an entry below it. -/
theorem acceptBlockHeader_ok {ctx block}
    (accepted : Pqcoin.acceptBlockHeader ctx s block = (s', .ok idx))
    : (s' = s ∧ s.find (block.getHash ctx.H) = some idx
        ∧ (¬ s.Failed idx
          ∨ idx.hash = (ctx.chainparams.getConsensus 0).hashGenesisBlock))
      ∨ (s.find (block.getHash ctx.H) = none ∧ idx.hash = block.getHash ctx.H
        ∧ s'.mapBlockIndex = idx :: s.mapBlockIndex
        ∧ s'.nStatus = Function.update s.nStatus idx.hash BLOCK_VALID_TREE
        ∧ (idx.hash = (ctx.chainparams.getConsensus 0).hashGenesisBlock
          ∨ ∃ pprev ∈ s.mapBlockIndex, idx.pprev = some pprev)) := by
  have added (same : (s.addToBlockIndex ctx.H block.toPureBlockHeader).map id
      (Except.ok : BlockIndex → Except Failure BlockIndex) = (s', .ok idx))
      : s.addToBlockIndex ctx.H block.toPureBlockHeader = (s', idx) := by
    cases same
    rfl
  have fresh (added : s.addToBlockIndex ctx.H block.toPureBlockHeader = (s', idx))
      (unknown : s.find (block.getHash ctx.H) = none)
      : idx = s.newEntry ctx.H block.toPureBlockHeader
        ∧ idx.hash = block.getHash ctx.H
        ∧ s'.mapBlockIndex = idx :: s.mapBlockIndex
        ∧ s'.nStatus = Function.update s.nStatus idx.hash BLOCK_VALID_TREE := by
    rcases addToBlockIndex_cases ctx.H s block.toPureBlockHeader
      with ⟨other, found, _⟩ | ⟨_, entry, map, nStatus, _⟩
    · cases unknown.symm.trans found
    rw [added] at entry map nStatus
    have hash := s.hash_newEntry ctx.H block.toPureBlockHeader
    rw [← entry] at hash map
    exact ⟨entry, hash, map, hash ▸ nStatus⟩
  simp only [Pqcoin.acceptBlockHeader] at accepted
  split at accepted
  · rename_i genesis
    have result := added accepted
    cases known : s.find (block.getHash ctx.H) with
    | some other =>
      rcases addToBlockIndex_cases ctx.H s block.toPureBlockHeader
        with ⟨entry, found, same⟩ | ⟨unknown, _⟩
      · cases known.symm.trans found
        cases result.symm.trans same
        exact .inl ⟨rfl, rfl, .inr ((s.find_eq_some.mp known).2.trans genesis)⟩
      · cases known.symm.trans unknown
    | none =>
      obtain ⟨_, hash, map, nStatus⟩ := fresh result known
      exact .inr ⟨rfl, hash, map, nStatus, .inl (hash.trans genesis)⟩
  · split at accepted
    · rename_i found
      split at accepted
      · cases accepted
      rename_i unfailed
      cases accepted
      exact .inl ⟨rfl, found, .inl unfailed⟩
    · rename_i unknown
      split at accepted
      · cases accepted
      rename_i prev checked
      split at accepted
      · obtain ⟨entry, hash, map, nStatus⟩ := fresh (added accepted) unknown
        have found := (checkNewHeader_ok.mp checked).2.1
        refine .inr ⟨unknown, hash, map, nStatus, .inr ⟨prev, (s.find_eq_some.mp found).1, ?_⟩⟩
        rw [entry, newEntry, found]
        rfl
      · split at accepted <;> cases accepted

theorem acceptBlockHeader_error {ctx block failure}
    (refused : Pqcoin.acceptBlockHeader ctx s block = (s', .error failure))
    : s' = s
      ∨ ∃ failedit prev, failedit ∈ prev.path ∧ prev ∈ s.mapBlockIndex ∧ s.FailedValid failedit
        ∧ s' = s.markFailedChildren failedit prev := by
  simp only [Pqcoin.acceptBlockHeader] at refused
  split at refused
  · cases refused
  split at refused
  · split at refused
    · cases refused
      exact .inl rfl
    · cases refused
  · split at refused
    · cases refused
      exact .inl rfl
    rename_i prev checked
    split at refused
    · cases refused
    rename_i failedit found
    split at refused
    · cases refused
      exact .inl rfl
    rename_i flagged
    cases refused
    have known := (s.find_eq_some.mp (checkNewHeader_ok.mp checked).2.1).1
    exact .inr ⟨failedit, prev, (mem_path_of_failedAncestor found).1, known, flagged, rfl⟩

theorem mem_acceptBlockHeader {ctx block}
    (accepted : Pqcoin.acceptBlockHeader ctx s block = (s', .ok idx))
    : idx ∈ s'.mapBlockIndex := by
  rcases acceptBlockHeader_ok accepted with ⟨rfl, found, _⟩ | ⟨_, _, map, _⟩
  · exact (s'.find_eq_some.mp found).1
  rw [map]
  exact mem_cons_self

end Marks

end HeaderState

end Pqcoin
