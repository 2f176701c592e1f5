import Pqcoin.Mining.Templates

/-! Which of the vectors `ltc_nBits` and `btc_nBits` a call takes the last entry of, and when
they have one. Taking the last entry of an empty vector is undefined.
-/

namespace Pqcoin

/-- The vectors that a call takes the last entry of, as they are at that moment. -/
abbrev Reads := List (List (BitVec 32))

/-- No vector is empty when its last entry is taken. -/
def Reads.Defined (reads : Reads) : Prop := ∀ nBits ∈ reads, nBits ≠ []

namespace Reads

@[simp] theorem defined_nil : Defined [] := nofun

@[simp] theorem defined_cons {nBits : List (BitVec 32)} {reads : Reads}
    : Defined (nBits :: reads) ↔ nBits ≠ [] ∧ Defined reads :=
  List.forall_mem_cons

@[simp] theorem defined_append {left right}
    : Defined (left ++ right) ↔ Defined left ∧ Defined right :=
  List.forall_mem_append

end Reads

-- Work queries

/-- `GetNextWorkRequired` gets to `CalculatePqcoinNextWorkRequired_new`. -/
def AsksForRetarget (pindexLast : BlockIndex) (pblock : PureBlockHeader) (params : Params) : Prop :=
  let nHeight : Int := pindexLast.nHeight
  let interval : Int := if nHeight ≥ 145000 then 1 else params.difficultyAdjustmentInterval
  let blockstogoback := if nHeight + 1 ≠ interval then interval else interval - 1
  let nHeightFirst := nHeight - blockstogoback
  ¬ AllowDigishieldMinDifficultyForBlock pindexLast pblock params
  ∧ nHeight ≠ 0
  ∧ interval ≠ 0
  ∧ (nHeight + 1).tmod interval = 0
  ∧ 0 ≤ nHeightFirst
  ∧ (pindexLast.getAncestor nHeightFirst.toNat).isSome = true

instance (pindexLast : BlockIndex) (pblock : PureBlockHeader) (params : Params)
    : Decidable (AsksForRetarget pindexLast pblock params) :=
  inferInstanceAs (Decidable (_ ∧ _ ∧ _ ∧ _ ∧ _ ∧ _))

def workReads (ltc_nBits : List (BitVec 32)) (pindexLast : BlockIndex) (pblock : PureBlockHeader)
    (params : Params)
    : Reads :=
  if AsksForRetarget pindexLast pblock params then [ltc_nBits] else []

section Work

variable {pindexLast : BlockIndex} {pblock : PureBlockHeader} {params : Params}

theorem workReads_defined_iff {ltc_nBits}
    : (workReads ltc_nBits pindexLast pblock params).Defined
      ↔ (AsksForRetarget pindexLast pblock params → ltc_nBits ≠ []) := by
  rw [workReads]
  split <;> simp [*]

theorem workReads_of_answer {ltc_nBits}
    (answered : getNextWorkRequired ltc_nBits pindexLast pblock params ≠ none)
    : (workReads ltc_nBits pindexLast pblock params).Defined := by
  rw [workReads_defined_iff]
  rintro ⟨regular, above, some, ends, low, found⟩ rfl
  obtain ⟨first, found⟩ := Option.isSome_iff_exists.mp found
  simp only [getNextWorkRequired, if_neg regular, if_neg above, if_neg some,
    if_neg (not_not.mpr ends), if_neg (not_lt.mpr low), found] at answered
  exact answered rfl

end Work

-- CreateNewBlock

/-- The vector has an entry, or its file has one. -/
def RetargetState.LtcRecorded (r : RetargetState) : Prop :=
  r.ltc_nBits ≠ [] ∨ r.files.ltcNbitsTxt ≠ []

/-- The same for the Bitcoin vector. -/
def RetargetState.BtcRecorded (r : RetargetState) : Prop :=
  r.btc_nBits ≠ [] ∨ r.files.btcNbitsTxt ≠ []

section Fill

variable {ctx : RetargetContext} {nHeight : Nat} {r : RetargetState}

theorem ltc_nBits_initNBits
    : (r.initNBits ctx nHeight).ltc_nBits ≠ [] ↔ nHeight ≤ 2016 ∨ r.LtcRecorded := by
  simp only [RetargetState.initNBits, RetargetState.LtcRecorded]
  grind

/-- Above height 2016 the Bitcoin vector is left empty once the other one is filled. -/
theorem btc_nBits_initNBits (filled : (r.initNBits ctx nHeight).ltc_nBits ≠ [])
    : (r.initNBits ctx nHeight).btc_nBits ≠ [] ↔ nHeight ≤ 2016 ∨ r.btc_nBits ≠ [] := by
  simp only [RetargetState.initNBits] at filled ⊢
  grind

theorem initNBits_unchanged
    : (r.initNBits ctx nHeight).files = r.files
      ∧ (r.initNBits ctx nHeight).ltc_block_counts = r.ltc_block_counts := by
  simp only [RetargetState.initNBits]
  grind

theorem initNBits_recorded
    : (r.initNBits ctx nHeight).LtcRecorded ∧ (r.initNBits ctx nHeight).BtcRecorded
      ↔ nHeight ≤ 2016 ∨ (r.LtcRecorded ∧ r.BtcRecorded) := by
  simp only [RetargetState.initNBits, RetargetState.LtcRecorded, RetargetState.BtcRecorded]
  grind

theorem fillNBits_filled
    : r.fillNBits.ltc_nBits ≠ [] ∧ r.fillNBits.btc_nBits ≠ []
      ↔ r.ltc_block_counts.length < 4 ∨ (r.LtcRecorded ∧ r.BtcRecorded) := by
  simp only [RetargetState.fillNBits, RetargetState.LtcRecorded, RetargetState.BtcRecorded]
  grind

end Fill

section Create

variable (ctx : MiningContext) (env : TemplateEnvironment)

/-- The header that `UpdateTime` is given. -/
def templateHeader : PureBlockHeader :=
  ⟨ctx.nChainId <<< 16 ||| 4, env.tip.hash, 0, templateTime env, 0, 0⟩

def templateSubsidy : Option Int :=
  getPqcoinBlockSubsidy ctx.generateMTRandom (env.tip.nHeight + 1 : Nat)
    (ctx.subsidyParams (env.tip.nHeight + 1)) env.tip.hash

/-- The network asks for the next target in `UpdateTime`. -/
def AsksForWork : Prop :=
  (ctx.consensus (env.tip.nHeight + 1)).fPowAllowMinDifficultyBlocks = true

instance : Decidable (AsksForWork ctx env) := inferInstanceAs (Decidable (_ = _))

/-- What `UpdateTime` gets. -/
def askedWork (r : RetargetState) : Option (BitVec 32) :=
  getNextWorkRequired r.ltc_nBits env.tip (templateHeader ctx env)
    (ctx.consensus (env.tip.nHeight + 1))

/-- What `CreateNewBlock` reads: for `UpdateTime`, and then for the target of the template. -/
def createReads (r : RetargetState) : Reads :=
  let target := [(r.initNBits ctx.toRetargetContext (env.tip.nHeight + 1)).ltc_nBits]
  if templateSubsidy ctx env = none then []
  else if AsksForWork ctx env then
    workReads r.ltc_nBits env.tip (templateHeader ctx env)
        (ctx.consensus (env.tip.nHeight + 1))
      ++ if askedWork ctx env r = none then [] else target
  else target

/-- The vectors as `CreateNewBlock` needs them. Above height 2016 it takes what was recorded. -/
def CreateFilled (r : RetargetState) : Prop :=
  templateSubsidy ctx env ≠ none
    → (AsksForWork ctx env
        → AsksForRetarget env.tip (templateHeader ctx env)
          (ctx.consensus (env.tip.nHeight + 1))
        → r.ltc_nBits ≠ [])
      ∧ ((AsksForWork ctx env → askedWork ctx env r ≠ none)
        → env.tip.nHeight + 1 ≤ 2016 ∨ r.LtcRecorded)

variable {ctx env}

theorem createReads_defined_iff {r}
    : (createReads ctx env r).Defined ↔ CreateFilled ctx env r := by
  have target := @ltc_nBits_initNBits ctx.toRetargetContext (env.tip.nHeight + 1) r
  simp only [createReads, CreateFilled, ← target]
  split_ifs with unpaid asks unanswered
  all_goals simp_all [workReads_defined_iff]

theorem createNewBlock_cases {scriptPubKey r after result}
    (ran : createNewBlock ctx env scriptPubKey r = some (after, result))
    : (AsksForWork ctx env → askedWork ctx env r ≠ none)
      ∧ after = r.initNBits ctx.toRetargetContext (env.tip.nHeight + 1)
      ∧ after.ltc_nBits ≠ [] := by
  simp only [createNewBlock] at ran
  split at ran
  · cases ran
  split at ran
  · cases ran
  rename_i work asked
  have answered : AsksForWork ctx env → askedWork ctx env r ≠ none := by
    intro asks unanswered
    rw [AsksForWork] at asks
    rw [if_pos asks] at asked
    exact absurd (asked.symm.trans unanswered) nofun
  split at ran
  · cases ran
  rename_i nBits last
  have filled : (r.initNBits ctx.toRetargetContext (env.tip.nHeight + 1)).ltc_nBits ≠ [] := by
    intro empty
    rw [empty] at last
    cases last
  split at ran
  · cases ran
    exact ⟨answered, rfl, filled⟩
  · cases ran
    exact ⟨answered, rfl, filled⟩

theorem createReads_of_ran {scriptPubKey r after result}
    (ran : createNewBlock ctx env scriptPubKey r = some (after, result))
    : (createReads ctx env r).Defined := by
  obtain ⟨answered, rfl, filled⟩ := createNewBlock_cases ran
  have work (asks) := workReads_of_answer (answered asks)
  rw [createReads]
  split_ifs with unpaid asks
  all_goals simp_all

end Create

-- Templates

section Refresh

variable {K : Type} (ctx : MiningContext) (env : TemplateEnvironment)

def Creator.NeedsTemplate (required : Bool) (key : K) (creator : Creator K) : Prop :=
  ((required && (creator.curBlocks key).isNone) || creator.isOutdated env) = true

instance (required : Bool) (key : K) (creator : Creator K)
    : Decidable (creator.NeedsTemplate env required key) :=
  inferInstanceAs (Decidable (_ = _))

def refreshReads (required : Bool) (key : K) (state : CreatorState K) : Reads :=
  if state.creator.NeedsTemplate env required key then createReads ctx env state.retarget
  else []

variable {ctx env} {required : Bool} {key : K} {scriptPubKey : Script}
  {state after : CreatorState K}

theorem refreshReads_defined_iff
    : (refreshReads ctx env required key state).Defined
      ↔ (state.creator.NeedsTemplate env required key → CreateFilled ctx env state.retarget) := by
  rw [refreshReads, ← createReads_defined_iff]
  split <;> simp [*]

theorem retarget_dropObsolete : (state.dropObsolete env).retarget = state.retarget := by
  rw [CreatorState.dropObsolete]
  split <;> rfl

variable [DecidableEq K]

def refreshed (ctx : MiningContext) (env : TemplateEnvironment) (required : Bool) (key : K)
    (scriptPubKey : Script) (state : CreatorState K)
    : Option (Block × RetargetState) :=
  match state.refresh ctx env required key scriptPubKey with
  | some (after, .ok (some num)) =>
    (after.store.vNewBlockTemplate num).map (fun block => (block, after.retarget))
  | _ => none

theorem retarget_refresh {result}
    (ran : state.refresh ctx env required key scriptPubKey = some (after, result))
    : (state.creator.NeedsTemplate env required key
        → after.retarget
            = state.retarget.initNBits ctx.toRetargetContext (env.tip.nHeight + 1)
          ∧ after.retarget.ltc_nBits ≠ [])
      ∧ (¬ state.creator.NeedsTemplate env required key → after.retarget = state.retarget) := by
  simp only [CreatorState.refresh] at ran
  split at ran
  · rename_i needs
    refine ⟨fun _ => ?_, fun idle => absurd needs idle⟩
    rw [retarget_dropObsolete] at ran
    split at ran
    · cases ran
    · rename_i made
      cases ran
      exact (createNewBlock_cases made).2
    · rename_i made
      cases ran
      exact (createNewBlock_cases made).2
  · rename_i idle
    cases ran
    exact ⟨fun needs => absurd needs idle, fun _ => rfl⟩

theorem refresh_of_refreshed {block r}
    (served : refreshed ctx env required key scriptPubKey state = some (block, r))
    : ∃ after num,
        state.refresh ctx env required key scriptPubKey = some (after, .ok (some num))
        ∧ after.store.vNewBlockTemplate num = some block
        ∧ after.retarget = r := by
  rw [refreshed] at served
  split at served
  · rename_i after num ran
    obtain ⟨_, owned, paired⟩ := Option.map_eq_some_iff.mp served
    cases paired
    exact ⟨after, num, ran, owned, rfl⟩
  · cases served

theorem retarget_refreshed {block r}
    (served : refreshed ctx env required key scriptPubKey state = some (block, r))
    : (state.creator.NeedsTemplate env required key
        → r = state.retarget.initNBits ctx.toRetargetContext (env.tip.nHeight + 1)
          ∧ r.ltc_nBits ≠ [])
      ∧ (¬ state.creator.NeedsTemplate env required key → r = state.retarget) := by
  obtain ⟨after, num, ran, _, rfl⟩ := refresh_of_refreshed served
  exact retarget_refresh ran

theorem refreshReads_of_ran {made}
    (ran : state.refresh ctx env required key scriptPubKey = some made)
    : (refreshReads ctx env required key state).Defined := by
  rw [refreshReads]
  split
  · rename_i needs
    rw [Creator.NeedsTemplate] at needs
    simp only [CreatorState.refresh, needs, if_true, retarget_dropObsolete] at ran
    split at ran
    · cases ran
    all_goals
      rename_i made
      exact createReads_of_ran made
  · exact Reads.defined_nil

/-- A call that has refreshed its template reads what it needs to serve it. -/
theorem servedReads_of_ran {pblock} {serving : Block → RetargetState → Reads}
    (ran : state.refresh ctx env required key scriptPubKey = some (after, pblock))
    (serves : ∀ num block, pblock = .ok (some num)
      → after.store.vNewBlockTemplate num = some block → (serving block after.retarget).Defined)
    : Reads.Defined (refreshReads ctx env required key state
      ++ match refreshed ctx env required key scriptPubKey state with
        | some (block, r) => serving block r
        | none => []) := by
  refine Reads.defined_append.mpr ⟨refreshReads_of_ran ran, ?_⟩
  split
  · rename_i served
    obtain ⟨_, num, again, owned, rfl⟩ := refresh_of_refreshed served
    cases ran.symm.trans again
    exact serves num _ rfl owned
  · exact Reads.defined_nil

end Refresh

/-- The vectors as the RPC needs them to serve a template. -/
def RpcFilled (needs : Prop) (nHeight : Nat) (r : RetargetState) : Prop :=
  r.ltc_block_counts.length < 4 ∨ (needs ∧ nHeight ≤ 2016) ∨ (r.LtcRecorded ∧ r.BtcRecorded)

/-- The vectors as the log for datagrams needs them. Above height 2016 nothing loads the
Bitcoin vector.
-/
def DatagramFilled (needs : Prop) (nHeight : Nat) (r : RetargetState) : Prop :=
  (needs ∧ nHeight ≤ 2016) ∨ ((needs ∨ r.ltc_nBits ≠ []) ∧ r.btc_nBits ≠ [])

section Serve

variable {K : Type} [DecidableEq K] {ctx : MiningContext} {env : TemplateEnvironment}
  {required : Bool} {key : K} {scriptPubKey : Script} {state : CreatorState K} {block : Block}
  {r : RetargetState}
  (served : refreshed ctx env required key scriptPubKey state = some (block, r))

include served

theorem rpcFilled_iff
    : r.fillNBits.ltc_nBits ≠ [] ∧ r.fillNBits.btc_nBits ≠ []
      ↔ RpcFilled (state.creator.NeedsTemplate env required key) (env.tip.nHeight + 1)
        state.retarget := by
  obtain ⟨made, kept⟩ := retarget_refreshed served
  rw [fillNBits_filled, RpcFilled]
  by_cases needs : state.creator.NeedsTemplate env required key
  · rw [(made needs).1, initNBits_unchanged.2, initNBits_recorded]
    simp only [needs, true_and]
  · rw [kept needs]
    simp only [needs, false_and, false_or]

theorem datagramFilled_iff
    : r.ltc_nBits ≠ [] ∧ r.btc_nBits ≠ []
      ↔ DatagramFilled (state.creator.NeedsTemplate env required key) (env.tip.nHeight + 1)
        state.retarget := by
  obtain ⟨made, kept⟩ := retarget_refreshed served
  rw [DatagramFilled]
  by_cases needs : state.creator.NeedsTemplate env required key
  · obtain ⟨rfl, filled⟩ := made needs
    rw [btc_nBits_initNBits filled]
    simp only [needs, filled, ne_eq, not_false_eq_true, true_and, true_or]
  · rw [kept needs]
    simp only [needs, false_and, false_or]

end Serve

theorem servedBits_filled {r : RetargetState} {id nbits} (served : r.servedBits id = some nbits)
    : Reads.Defined [r.ltc_nBits, r.btc_nBits] := by
  rw [RetargetState.servedBits] at served
  split at served
  · simp only [Reads.defined_cons, Reads.defined_nil, and_true]
    constructor <;> rintro empty <;> simp_all
  · cases served

-- Blocks

section Blocks

variable (ctx : RetargetContext) (tip : BlockIndex) (auxpow : Option AuxPow) (r : RetargetState)

def RetargetState.closePeriod : RetargetState :=
  ((r.countBlock auxpow).reloadBlockCounts tip.nHeight).recordCounts

/-- What `ProcessNewBlock` reads. `CalculatecoinNextWorkRequired_only_aux` gets to the targets
only if it finds four counts in both vectors; the log reads both vectors in the end.
-/
def blockReads : Reads :=
  if ctx.Retargets tip.nHeight then
    let counted := r.closePeriod tip auxpow
    let computed : Reads :=
      if 4 ≤ counted.ltc_block_counts.length ∧ 4 ≤ counted.btc_block_counts.length then
        [counted.reloadNBits.btc_nBits, counted.reloadNBits.ltc_nBits]
      else []
    let logged : Reads :=
      match counted.recordTargets ctx tip with
      | none => []
      | some closed => [closed.ltc_nBits, closed.btc_nBits]
    computed ++ logged
  else []

/-- The vectors as `ProcessNewBlock` needs them. -/
def BlockFilled : Prop :=
  ctx.Retargets tip.nHeight
    → 3 ≤ r.ltc_block_counts.length
    → 3 ≤ (r.reloadBlockCounts tip.nHeight).btc_block_counts.length
    → r.LtcRecorded ∧ r.BtcRecorded

variable {ctx tip auxpow r}

theorem closePeriod_eq
    : (r.closePeriod tip auxpow).ltc_block_counts.length = r.ltc_block_counts.length + 1
      ∧ (r.closePeriod tip auxpow).btc_block_counts.length
          = (r.reloadBlockCounts tip.nHeight).btc_block_counts.length + 1
      ∧ (r.closePeriod tip auxpow).ltc_nBits = r.ltc_nBits
      ∧ (r.closePeriod tip auxpow).btc_nBits = r.btc_nBits
      ∧ (r.closePeriod tip auxpow).files.ltcNbitsTxt = r.files.ltcNbitsTxt
      ∧ (r.closePeriod tip auxpow).files.btcNbitsTxt = r.files.btcNbitsTxt := by
  obtain ⟨count1, count2, counted⟩ := r.toRetargetGlobals.countBlock_eq auxpow
  simp only [RetargetState.closePeriod, RetargetState.countBlock, counted,
    RetargetState.writeCounts, RetargetState.recordCounts, RetargetGlobals.pushCounts,
    List.length_append, List.length_singleton, RetargetState.reloadBlockCounts]
  split_ifs <;> simp

theorem reloadNBits_filled
    : (r.closePeriod tip auxpow).reloadNBits.btc_nBits ≠ []
        ∧ (r.closePeriod tip auxpow).reloadNBits.ltc_nBits ≠ []
      ↔ r.LtcRecorded ∧ r.BtcRecorded := by
  obtain ⟨_, _, ltc, btc, ltcTxt, btcTxt⟩ := @closePeriod_eq tip auxpow r
  simp only [RetargetState.reloadNBits, RetargetState.LtcRecorded, RetargetState.BtcRecorded,
    ltc, btc, ltcTxt, btcTxt]
  grind

/-- A retarget appends to both vectors. -/
theorem recordTargets_filled {closed} (recorded : r.recordTargets ctx tip = some closed)
    : closed.ltc_nBits ≠ [] ∧ closed.btc_nBits ≠ [] := by
  obtain ⟨targets, _, rfl⟩ := Option.map_eq_some_iff.mp recorded
  simp [RetargetState.recordNBits, RetargetGlobals.pushNBits]

theorem blockReads_defined_iff
    : (blockReads ctx tip auxpow r).Defined ↔ BlockFilled ctx tip r := by
  have logged : Reads.Defined (match (r.closePeriod tip auxpow).recordTargets ctx tip with
      | none => []
      | some closed => [closed.ltc_nBits, closed.btc_nBits]) := by
    split
    · exact Reads.defined_nil
    rename_i recorded
    simp [recordTargets_filled recorded]
  obtain ⟨ltcCounts, btcCounts, _⟩ := @closePeriod_eq tip auxpow r
  simp only [blockReads, BlockFilled, ltcCounts, btcCounts, ← @reloadNBits_filled tip auxpow r]
  split
  · rename_i ends
    simp only [ends, Reads.defined_append, logged, and_true, true_implies]
    split
    · rename_i enough
      simp only [Reads.defined_cons, Reads.defined_nil, and_true]
      exact ⟨fun filled _ _ => filled, fun filled => filled (by omega) (by omega)⟩
    · rename_i few
      exact iff_of_true Reads.defined_nil fun ltc btc => absurd ⟨by omega, by omega⟩ few
  · rename_i continues
    exact iff_of_true Reads.defined_nil fun ends => absurd ends continues

theorem blockReads_of_ran {after} (ran : r.recordBlock ctx tip auxpow = some after)
    : (blockReads ctx tip auxpow r).Defined := by
  rcases RetargetState.recordBlock_cases ran with ⟨continues, -⟩ | ⟨ends, closed, recorded, -⟩
  · rw [blockReads, if_neg continues]
    exact Reads.defined_nil
  obtain ⟨targets, computed, -⟩ := Option.map_eq_some_iff.mp recorded
  obtain ⟨ltcCounts, -⟩ := @closePeriod_eq tip auxpow r
  rw [blockReads_defined_iff, BlockFilled, ← @reloadNBits_filled tip auxpow]
  intro _ ltc btc
  rw [RetargetState.closePeriod] at ltcCounts ⊢
  rw [if_pos (by omega), RetargetGlobals.periodTargets] at computed
  split at computed
  · simp only [RetargetContext.nextTargets, Option.bind_eq_bind, Option.bind_eq_some_iff]
      at computed
    obtain ⟨_, -, _, -, _, -, btcLast, btcFound, ltcLast, ltcFound, -⟩ := computed
    constructor <;> rintro empty <;> simp_all
  · rename_i few
    exact absurd (show 4 ≤ _ from ltcCounts ▸ Nat.succ_le_succ ltc) few

end Blocks

end Pqcoin
