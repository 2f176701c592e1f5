import Pqcoin.Retarget.State

/-! Runs of the retarget update over blocks that extend the active chain one at a time, and
what a restart of the process does to them.
-/

namespace Pqcoin

open List Option RetargetState

-- Runs

/-- A delivered block that became the active tip: its index entry and its merge-mining
proof.
-/
structure Connected where
  index : BlockIndex
  auxpow : Option AuxPow
  deriving DecidableEq

def Extends : BlockIndex → List Connected → Prop
  | _, [] => True
  | tip, block :: rest => block.index.pprev = some tip ∧ Extends block.index rest

/-- One call of `ProcessNewBlock` after the other. -/
def recordBlocks (ctx : RetargetContext) : List Connected → RetargetState → Option RetargetState
  | [], r => some r
  | block :: rest, r =>
    (r.recordBlock ctx block.index block.auxpow).bind (recordBlocks ctx rest)

def advances (ctx : RetargetContext) : List Connected → RetargetGlobals → Option RetargetGlobals
  | [], g => some g
  | block :: rest, g =>
    (g.advance ctx block.index block.auxpow).bind (advances ctx rest)

theorem nHeight_of_pprev {index tip : BlockIndex} (above : index.pprev = some tip)
    : index.nHeight = tip.nHeight + 1 := by
  cases index with
  | root hash header => cases above
  | child pprev hash header =>
    cases above
    rfl

theorem Extends.split {tip : BlockIndex} {before after} (chain : Extends tip (before ++ after))
    : Extends tip before
      ∧ ∃ last, Extends last after ∧ last.nHeight = tip.nHeight + before.length := by
  induction before generalizing tip with
  | nil => exact ⟨trivial, tip, chain, rfl⟩
  | cons block rest ih =>
    obtain ⟨first, last, follows, height⟩ := ih chain.2
    refine ⟨⟨chain.1, first⟩, last, follows, ?_⟩
    rw [height, nHeight_of_pprev chain.1, length_cons]
    omega

section Runs

variable (ctx : RetargetContext)

theorem recordBlocks_append (before after r)
    : recordBlocks ctx (before ++ after) r
      = (recordBlocks ctx before r).bind (recordBlocks ctx after) := by
  induction before generalizing r with
  | nil => rfl
  | cons block rest ih =>
    simp only [cons_append, recordBlocks, bind_assoc]
    exact congrArg _ (funext ih)

/-- In memory a run with complete pairs never fails, and it keeps them. -/
theorem advances_isSome (blocks) {g} (paired : g.Paired)
    : ∃ g', advances ctx blocks g = some g' ∧ g'.Paired := by
  induction blocks generalizing g with
  | nil => exact ⟨g, rfl, paired⟩
  | cons block rest ih =>
    obtain ⟨next, stepped⟩ := paired.advance_isSome ctx block.index block.auxpow
    obtain ⟨g', reached, kept⟩ := ih (paired.advance stepped)
    exact ⟨g', by rw [advances, stepped]; exact reached, kept⟩

/-- On mirrored files a run of `ProcessNewBlock` is the run in memory. -/
theorem recordBlocks_mirror (blocks) {g} (paired : g.Paired)
    : recordBlocks ctx blocks (mirror g) = (advances ctx blocks g).map mirror := by
  induction blocks generalizing g with
  | nil => rfl
  | cons block rest ih =>
    obtain ⟨next, stepped⟩ := paired.advance_isSome ctx block.index block.auxpow
    rw [recordBlocks, advances, recordBlock_mirror paired, stepped]
    exact ih (paired.advance stepped)

/-- A run from a new data directory mirrors the run in memory, from its first block on. -/
theorem recordBlocks_eq_advances {genesis : BlockIndex} (start : genesis.nHeight = 0) {blocks}
    (chain : Extends genesis blocks) (nonempty : blocks ≠ [])
    : recordBlocks ctx blocks .fresh = (advances ctx blocks .cleared).map mirror := by
  rw [← recordBlocks_mirror ctx blocks RetargetGlobals.Paired.cleared]
  cases blocks with
  | nil => exact absurd rfl nonempty
  | cons block rest =>
    have first : block.index.nHeight = 1 := by rw [nHeight_of_pprev chain.1, start]
    rw [recordBlocks, recordBlock_fresh first, recordBlocks]

theorem recordBlocks_fresh {genesis} (start : genesis.nHeight = 0) {blocks}
    (chain : Extends genesis blocks) (nonempty : blocks ≠ [])
    : ∃ g, recordBlocks ctx blocks .fresh = some (mirror g) ∧ g.Paired := by
  obtain ⟨g, reached, paired⟩ := advances_isSome ctx blocks RetargetGlobals.Paired.cleared
  refine ⟨g, ?_, paired⟩
  rw [recordBlocks_eq_advances ctx start chain nonempty, reached, map_some]

end Runs

-- Restarts

/-- What a later retarget depends on: the counts, the recorded counts and the last targets. -/
def observed (r : RetargetState)
    : BitVec 32 × BitVec 32 × List (BitVec 32) × List (BitVec 32)
      × Option (BitVec 32) × Option (BitVec 32) :=
  (r.count1, r.count2, r.ltc_block_counts, r.btc_block_counts, r.ltc_nBits.getLast?,
    r.btc_nBits.getLast?)

theorem ltc_block_counts_countBlock (auxpow) (r : RetargetState)
    : (r.countBlock auxpow).ltc_block_counts = r.ltc_block_counts := by
  obtain ⟨count1, count2, counted⟩ := r.toRetargetGlobals.countBlock_eq auxpow
  simp only [countBlock, writeCounts, counted]

theorem ltc_block_counts_reloadCounts {ctx} {nHeight}
    {r loaded : RetargetState} (reload : r.reloadCounts ctx nHeight = some loaded)
    : loaded.ltc_block_counts = r.ltc_block_counts := by
  rw [reloadCounts] at reload
  split at reload
  · simp only [bind_eq_bind, bind_eq_some_iff] at reload
    obtain ⟨_, _, _, _, result⟩ := reload
    cases result
    rfl
  · cases reload
    rfl

theorem block_counts_recordTargets {ctx} {tip}
    {r closed : RetargetState} (recorded : r.recordTargets ctx tip = some closed)
    : closed.ltc_block_counts = r.ltc_block_counts
      ∧ closed.btc_block_counts = r.btc_block_counts := by
  obtain ⟨targets, _, rfl⟩ := map_eq_some_iff.mp recorded
  split <;> exact ⟨rfl, rfl⟩

/-- A restart in state `r` cannot be observed at any retarget height of the blocks that
follow.
-/
def Transparent (ctx : RetargetContext) (r : RetargetState) (after : List Connected) : Prop :=
  ∀ earlier block later, after = earlier ++ block :: later
    → ctx.Retargets block.index.nHeight
    → (recordBlocks ctx (earlier ++ [block]) r.restart).map observed
      = (recordBlocks ctx (earlier ++ [block]) r).map observed

/-- No period has been recorded, and no count is lost: the next height reloads the counts, or
there is nothing to reload.
-/
def RestartHarmless (ctx : RetargetContext) (r : RetargetState) (nextHeight : Nat) : Prop :=
  r.ltc_block_counts = []
  ∧ (ctx.Retargets nextHeight → r.count1 = 0 ∧ r.count2 = 0)

section Restart

variable {ctx : RetargetContext}

/-- Without a recorded period, all vectors are empty. -/
theorem RetargetGlobals.Paired.eq_of_empty {g : RetargetGlobals} (paired : g.Paired)
    (empty : g.ltc_block_counts = [])
    : g = ⟨g.count1, g.count2, [], [], [], []⟩ := by
  obtain ⟨btcCounts, ltcTargets, btcTargets⟩ := paired
  rw [empty, length_nil, length_eq_zero_iff] at btcCounts ltcTargets btcTargets
  cases g
  simp_all

/-- At an ordinary height after the first, a new process finds its counts in the files. -/
theorem recordBlock_restart {g : RetargetGlobals} (paired : g.Paired)
    (empty : g.ltc_block_counts = []) {tip} (later : tip.nHeight ≠ 1)
    (ordinary : ¬ ctx.Retargets tip.nHeight) (auxpow)
    : (mirror g).restart.recordBlock ctx tip auxpow
      = (mirror g).recordBlock ctx tip auxpow := by
  have reloaded : (mirror g).restart.reloadCounts ctx tip.nHeight = some (mirror g) := by
    rw [paired.eq_of_empty empty]
    exact if_pos ⟨later, ordinary, rfl, rfl⟩
  rw [recordBlock, recordBlock, reloaded, reloadCounts_mirror]

theorem transparent_of_harmless {g : RetargetGlobals} (paired : g.Paired) {tip}
    (later : tip.nHeight ≠ 0) {after} (chain : Extends tip after)
    (harmless : RestartHarmless ctx (mirror g) (tip.nHeight + 1))
    : Transparent ctx (mirror g) after := by
  obtain ⟨empty, counts⟩ := harmless
  have vectors := paired.eq_of_empty empty
  intro earlier block rest split _
  -- the first block leads both runs to one state
  have first {next : Connected} (above : next.index.pprev = some tip)
      : (mirror g).restart.recordBlock ctx next.index next.auxpow
        = (mirror g).recordBlock ctx next.index next.auxpow := by
    have height := nHeight_of_pprev above
    by_cases ends : ctx.Retargets next.index.nHeight
    · rw [height] at ends
      obtain ⟨none1, none2⟩ := counts ends
      rw [vectors, show g.count1 = 0 from none1, show g.count2 = 0 from none2]
      rfl
    · exact recordBlock_restart paired empty (by omega) ends next.auxpow
  subst split
  cases earlier with
  | nil => simp only [nil_append, recordBlocks, first chain.1]
  | cons next earlier => simp only [cons_append, recordBlocks, first chain.1]

theorem ltc_block_counts_of_ordinary {r r'} {blocks}
    (ordinary : ∀ block ∈ blocks, ¬ ctx.Retargets block.index.nHeight)
    (run : recordBlocks ctx blocks r = some r')
    : r'.ltc_block_counts = r.ltc_block_counts := by
  induction blocks generalizing r with
  | nil =>
    cases run
    rfl
  | cons block rest ih =>
    obtain ⟨next, stepped, rest⟩ := bind_eq_some_iff.mp run
    rw [ih (fun later mem => ordinary later (mem_cons_of_mem _ mem)) rest]
    rcases recordBlock_cases stepped with ⟨_, loaded, reload, rfl⟩ | ⟨ends, _⟩
    · rw [ltc_block_counts_countBlock, ltc_block_counts_reloadCounts reload]
    · exact absurd ends (ordinary block (mem_cons_self ..))

theorem block_counts_of_retarget {r r' : RetargetState} {tip}
    {auxpow : Option AuxPow} (ends : ctx.Retargets tip.nHeight)
    (stepped : r.recordBlock ctx tip auxpow = some r')
    : r'.ltc_block_counts = r.ltc_block_counts ++ [(r.toRetargetGlobals.countBlock auxpow).count1]
      ∧ r'.btc_block_counts = (r.reloadBlockCounts tip.nHeight).btc_block_counts
        ++ [(r.toRetargetGlobals.countBlock auxpow).count2] := by
  rcases recordBlock_cases stepped with ⟨ordinary, _⟩ | ⟨_, closed, recorded, rfl⟩
  · exact absurd ends ordinary
  obtain ⟨ltc, btc⟩ := block_counts_recordTargets recorded
  obtain ⟨count1, count2, counted⟩ := r.toRetargetGlobals.countBlock_eq auxpow
  have closing : closed.resetCounts.ltc_block_counts = closed.ltc_block_counts
      ∧ closed.resetCounts.btc_block_counts = closed.btc_block_counts := ⟨rfl, rfl⟩
  rw [closing.1, closing.2, ltc, btc]
  simp only [recordCounts, RetargetGlobals.pushCounts, countBlock, writeCounts,
    reloadBlockCounts, counted]
  split_ifs <;> exact ⟨rfl, rfl⟩

theorem recordBlocks_concat {blocks block r r'}
    (run : recordBlocks ctx (blocks ++ [block]) r = some r')
    : ∃ middle, recordBlocks ctx blocks r = some middle
      ∧ middle.recordBlock ctx block.index block.auxpow = some r' := by
  rw [recordBlocks_append, bind_eq_some_iff] at run
  obtain ⟨middle, reached, last⟩ := run
  obtain ⟨result, stepped, same⟩ := bind_eq_some_iff.mp last
  cases same
  exact ⟨middle, reached, stepped⟩

/-- Counting tells states with different counts apart. -/
theorem counts_of_countBlock {g : RetargetGlobals} {auxpow}
    (same1 : (RetargetGlobals.cleared.countBlock auxpow).count1 = (g.countBlock auxpow).count1)
    (same2 : (RetargetGlobals.cleared.countBlock auxpow).count2 = (g.countBlock auxpow).count2)
    : g.count1 = 0 ∧ g.count2 = 0 := by
  simp only [RetargetGlobals.countBlock, RetargetGlobals.cleared] at same1 same2
  split_ifs at same1 same2 <;> grind

theorem harmless_of_transparent {g : RetargetGlobals} (paired : g.Paired) {tip after}
    (chain : Extends tip after) (transparent : Transparent ctx (mirror g) after) {block}
    (mem : block ∈ after) (ends : ctx.Retargets block.index.nHeight)
    : RestartHarmless ctx (mirror g) (tip.nHeight + 1) := by
  obtain ⟨earlier, first, later, split, ordinary, firstEnds⟩ :
      ∃ earlier first later, after = earlier ++ first :: later
        ∧ (∀ block ∈ earlier, ¬ ctx.Retargets block.index.nHeight)
        ∧ ctx.Retargets first.index.nHeight := by
    cases found : after.find? (fun block => ctx.Retargets block.index.nHeight) with
    | none => exact absurd ends (by simpa using find?_eq_none.mp found block mem)
    | some first =>
      obtain ⟨ends, earlier, later, split, ordinary⟩ := find?_eq_some_iff_append.mp found
      exact ⟨earlier, first, later, split, by simpa using ordinary, by simpa using ends⟩
  obtain ⟨g', reached, _⟩ := advances_isSome ctx (earlier ++ [first]) paired
  have continued : recordBlocks ctx (earlier ++ [first]) (mirror g) = some (mirror g') := by
    rw [recordBlocks_mirror ctx _ paired, reached]
    rfl
  have same := transparent earlier first later split firstEnds
  rw [continued, map_some, map_eq_some_iff] at same
  obtain ⟨restarted, run, alike⟩ := same
  simp only [observed, Prod.mk.injEq] at alike
  obtain ⟨_, _, ltc, btc, _⟩ := alike
  obtain ⟨left, toLeft, leftStep⟩ := recordBlocks_concat run
  obtain ⟨right, toRight, rightStep⟩ := recordBlocks_concat continued
  obtain ⟨leftLtc, leftBtc⟩ := block_counts_of_retarget firstEnds leftStep
  obtain ⟨rightLtc, rightBtc⟩ := block_counts_of_retarget firstEnds rightStep
  have leftEmpty : left.ltc_block_counts = [] := ltc_block_counts_of_ordinary ordinary toLeft
  have rightKept := ltc_block_counts_of_ordinary ordinary toRight
  rw [leftLtc, rightLtc, leftEmpty, rightKept] at ltc
  rw [leftBtc, rightBtc] at btc
  obtain ⟨empty, count1⟩ := append_inj' ltc rfl
  obtain ⟨_, count2⟩ := append_inj' btc rfl
  refine ⟨empty.symm, fun endsNext => ?_⟩
  -- the next block is the first retarget, so nothing was counted in between
  subst split
  cases earlier with
  | nil =>
    cases toLeft
    cases toRight
    exact counts_of_countBlock (head_eq_of_cons_eq count1) (head_eq_of_cons_eq count2)
  | cons next earlier =>
    rw [← nHeight_of_pprev chain.1] at endsNext
    exact absurd endsNext (ordinary next (mem_cons_self ..))

end Restart

/-- A restart is transparent exactly when no retarget height follows, or when no period has
been recorded yet and the next block does not itself close one with counts to reload.
-/
theorem restart_transparent_iff (ctx : RetargetContext) (genesis : BlockIndex)
    (start : genesis.nHeight = 0) (before after : List Connected)
    (chain : Extends genesis (before ++ after)) (r : RetargetState)
    (reached : recordBlocks ctx before .fresh = some r)
    : Transparent ctx r after
      ↔ (∀ block ∈ after, ¬ ctx.Retargets block.index.nHeight)
        ∨ RestartHarmless ctx r (before.length + 1) := by
  obtain ⟨first, tip, follows, height⟩ := chain.split
  rw [start, Nat.zero_add] at height
  cases before with
  | nil =>
    cases reached
    exact ⟨fun _ => .inr ⟨rfl, fun _ => ⟨rfl, rfl⟩⟩, fun _ _ _ _ _ _ => rfl⟩
  | cons block rest =>
    obtain ⟨g, mirrored, paired⟩ := recordBlocks_fresh ctx start first (cons_ne_nil _ _)
    cases reached.symm.trans mirrored
    rw [← height]
    constructor
    · intro transparent
      by_contra harmful
      push Not at harmful
      obtain ⟨⟨later, mem, ends⟩, harmful⟩ := harmful
      exact harmful (harmless_of_transparent paired follows transparent mem ends)
    · rintro (quiet | harmless)
      · rintro earlier later rest rfl ends
        exact absurd ends (quiet later (by simp))
      · refine transparent_of_harmless paired ?_ follows harmless
        rw [height]
        exact Nat.succ_ne_zero _

def mainRetarget : RetargetContext where
  chainparams := mainParams 0
  modulation _ _ _ _ := (1000, 1000)
  positive _ := by rw [mainParams_interval]; decide

theorem mainRetarget_retargets (nHeight) : mainRetarget.Retargets nHeight ↔ nHeight % 2016 = 0 := by
  have interval : (mainRetarget.consensus nHeight).difficultyAdjustmentInterval = 2016 :=
    mainParams_interval 0 _
  rw [RetargetContext.Retargets, interval, Int.tmod_eq_emod_of_nonneg (by omega)]
  omega

def plainChain : Nat → BlockIndex
  | 0 => .root 0 ⟨1, 0, 0, 0, 0, 0⟩
  | n + 1 => .child (plainChain n) (BitVec.ofNat 256 (n + 1)) ⟨1, 0, 0, 0, 0, 0⟩

def plainBlocks (height count : Nat) : List Connected :=
  (List.range' (height + 1) count).map (fun n => ⟨plainChain n, none⟩)

theorem nHeight_plainChain (n) : (plainChain n).nHeight = n := by
  induction n with
  | zero => rfl
  | succ n ih => rw [plainChain, BlockIndex.nHeight, ih]

theorem plainBlocks_extends (height count)
    : Extends (plainChain height) (plainBlocks height count) := by
  induction count generalizing height with
  | zero => trivial
  | succ count ih => exact ⟨rfl, ih (height + 1)⟩

theorem plainBlocks_succ (count)
    : plainBlocks 0 (count + 1) = plainBlocks 0 count ++ [⟨plainChain (count + 1), none⟩] := by
  rw [plainBlocks, range'_concat, map_append, plainBlocks, map_singleton]
  simp [Nat.add_comm]

/-- The rest of the first period after a restart at height `1`. -/
theorem restart_transparent_iff_first
    : Transparent mainRetarget (mirror ⟨1, 0, [], [], [], []⟩) (plainBlocks 1 2015) := by
  have chain : Extends (plainChain 0) (plainBlocks 0 1 ++ plainBlocks 1 2015) :=
    ⟨rfl, plainBlocks_extends 1 2015⟩
  refine (restart_transparent_iff mainRetarget (plainChain 0) rfl (plainBlocks 0 1) _ chain _
    rfl).mpr (.inr ⟨rfl, fun ends => ?_⟩)
  rw [mainRetarget_retargets] at ends
  exact absurd ends (by decide)

/-- On the main network a restart after the first period, at height `2016`, is seen at height
`4032`.
-/
theorem restart_forgets_period
    : ∃ r, recordBlocks mainRetarget (plainBlocks 0 2016) .fresh = some r
      ∧ ¬ Transparent mainRetarget r (plainBlocks 2016 2016) := by
  have ends : mainRetarget.Retargets (plainChain 2016).nHeight := by
    rw [nHeight_plainChain, mainRetarget_retargets]
  have later : (⟨plainChain 4032, none⟩ : Connected) ∈ plainBlocks 2016 2016 :=
    mem_map.mpr ⟨4032, mem_range'_1.mpr (by omega), rfl⟩
  have endsLater : mainRetarget.Retargets (plainChain 4032).nHeight := by
    rw [nHeight_plainChain, mainRetarget_retargets]
  obtain ⟨g, reached, paired⟩ := recordBlocks_fresh mainRetarget (nHeight_plainChain 0)
    (plainBlocks_extends 0 2016) (by simp [plainBlocks])
  refine ⟨mirror g, reached, fun transparent => ?_⟩
  obtain ⟨empty, _⟩ := harmless_of_transparent paired (plainBlocks_extends 2016 2016) transparent
    later endsLater
  -- yet the last block before the restart recorded a period
  rw [plainBlocks_succ] at reached
  obtain ⟨middle, _, stepped⟩ := recordBlocks_concat reached
  rw [(block_counts_of_retarget ends stepped).1] at empty
  simp at empty

end Pqcoin
