import Pqcoin.Mining.AuxSubmit
import Pqcoin.Mining.VectorReads
import Pqcoin.Retarget.Restart

/-! Runs of the functions that create templates and take submissions for them, and the work
that a template is served with against the work that it is checked for.
-/

namespace Pqcoin

open Option

-- Runs

/-- A call on the templates, or anything else that changes the retarget state. The proof of
`submit` has been deserialized; `submitBytes` copies it from a payload.
-/
inductive MiningCall where
  | createauxblock (env : TemplateEnvironment) (scriptPubKey : Script) (id : BitVec 32)
  | createDatagram (env : TemplateEnvironment) (scriptPubKey : Script) (id : BitVec 32)
  | getauxblock (env : TemplateEnvironment) (scriptPubKey : Script)
  | submit (hash : Uint256) (auxpow : AuxPow)
  | submitBytes (nChainIndex : BitVec 32) (hashHex auxpowHex : List Byte)
  | elsewhere (retarget : RetargetState)

def Block.setAuxpow (block : Block) (auxpow : AuxPow) : Block :=
  { block with
    auxpow := some auxpow
    nVersion := block.nVersion ||| PureBlockHeader.VERSION_AUXPOW }

/-- The submitting functions that deserialize a proof; an unknown hash is thrown back. -/
def TemplateStore.submit (hash : Uint256) (auxpow : AuxPow) (store : TemplateStore)
    : Option TemplateStore :=
  match store.mapNewBlock hash with
  | none => some store
  | some num =>
    (store.vNewBlockTemplate num).map (fun block => store.put num (block.setAuxpow auxpow))

namespace MiningState

variable (ctx : MiningContext)

def call (state : MiningState) : MiningCall → Option MiningState
  | .createauxblock env scriptPubKey id =>
    (newAuxMiningCreateBlock ctx env scriptPubKey id state).map Prod.fst
  | .createDatagram env scriptPubKey id =>
    (newAuxMiningCreateDatagram ctx env scriptPubKey id state).map Prod.fst
  | .getauxblock env scriptPubKey =>
    (getauxblockbip22 ctx env scriptPubKey state).map Prod.fst
  | .submit hash auxpow =>
    (state.store.submit hash auxpow).map (fun store => { state with store := store })
  | .submitBytes nChainIndex hashHex auxpowHex =>
    match cmxSubmitAuxblock nChainIndex hashHex auxpowHex state.store with
    | .error _ => none
    | .ok submission => some { state with store := submission.store }
  | .elsewhere retarget => some { state with retarget := retarget }

def run : MiningState → List MiningCall → Option MiningState
  | state, [] => some state
  | state, first :: rest =>
    match state.call ctx first with
    | none => none
    | some next => next.run rest

end MiningState

-- What happens to the templates

namespace TemplateStore

/-- Every owned template has been created, with the version of a merge-mined block. -/
def Sound (nChainId : BitVec 32) (store : TemplateStore) : Prop :=
  ∀ num block, store.vNewBlockTemplate num = some block
    → num < store.created ∧ block.nVersion = mergedVersion nChainId

/-- What calls do to a sound store: it stays sound, numbers are not used again, and a template
keeps its header until it is freed.
-/
structure Evolves (nChainId : BitVec 32) (before after : TemplateStore) : Prop where
  sound : before.Sound nChainId → after.Sound nChainId
  created : before.created ≤ after.created
  keeps : before.Sound nChainId → ∀ num block, num < before.created
    → after.vNewBlockTemplate num = some block
    → ∃ earlier, before.vNewBlockTemplate num = some earlier
      ∧ block.toPureBlockHeader = earlier.toPureBlockHeader

namespace Evolves

variable {nChainId : BitVec 32} {first second third : TemplateStore}

theorem refl (store) : Evolves nChainId store store :=
  ⟨id, Nat.le_refl _, fun _ _ block _ owned => ⟨block, owned, rfl⟩⟩

theorem trans (left : Evolves nChainId first second) (right : Evolves nChainId second third)
    : Evolves nChainId first third := by
  refine ⟨fun sound => right.sound (left.sound sound), Nat.le_trans left.created right.created, ?_⟩
  intro sound num block created owned
  obtain ⟨middle, ownedMiddle, same⟩ := right.keeps (left.sound sound) num block
    (Nat.lt_of_lt_of_le created left.created) owned
  obtain ⟨earlier, ownedEarlier, sameEarlier⟩ := left.keeps sound num middle created ownedMiddle
  exact ⟨earlier, ownedEarlier, same.trans sameEarlier⟩

theorem clear (store) : Evolves nChainId store store.clear where
  sound _ num block owned := by cases owned
  created := Nat.le_refl _
  keeps _ num block _ owned := by cases owned

theorem add (H) {block} (version : block.nVersion = mergedVersion nChainId) (store)
    : Evolves nChainId store (store.add H block) where
  sound sound num other owned := by
    simp only [TemplateStore.add] at owned ⊢
    split_ifs at owned with latest
    · cases owned
      exact ⟨by omega, version⟩
    · obtain ⟨created, merged⟩ := sound num other owned
      exact ⟨by omega, merged⟩
  created := Nat.le_succ _
  keeps _ num other created owned := by
    simp only [TemplateStore.add] at owned
    rw [if_neg (by omega)] at owned
    exact ⟨other, owned, rfl⟩

theorem put {store num block written} (owned : store.vNewBlockTemplate num = some block)
    (same : store.Sound nChainId → written.toPureBlockHeader = block.toPureBlockHeader)
    : Evolves nChainId store (store.put num written) where
  sound sound other found holds := by
    simp only [TemplateStore.put] at holds
    split_ifs at holds with target
    · cases holds
      subst target
      obtain ⟨created, version⟩ := sound other block owned
      rw [same sound]
      exact ⟨created, version⟩
    · exact sound other found holds
  created := Nat.le_refl _
  keeps sound other found _ holds := by
    simp only [TemplateStore.put] at holds
    split_ifs at holds with target
    · cases holds
      subst target
      exact ⟨block, owned, same sound⟩
    · exact ⟨found, holds, rfl⟩

end Evolves

end TemplateStore

section Evolution

variable {ctx : MiningContext} {env : TemplateEnvironment} {scriptPubKey : Script}

theorem nVersion_createNewBlock {r after block}
    (ran : createNewBlock ctx env scriptPubKey r = some (after, .ok block))
    : block.nVersion = ctx.nChainId <<< 16 ||| 4 := by
  simp only [createNewBlock] at ran
  split at ran
  · cases ran
  split at ran
  · cases ran
  split at ran
  · cases ran
  split at ran
  · cases ran
  cases ran
  rfl

theorem nVersion_finaliseBlock (H tip nExtraNonce) {block}
    (version : block.nVersion = ctx.nChainId <<< 16 ||| 4)
    : (finaliseBlock H tip nExtraNonce block).nVersion = mergedVersion ctx.nChainId := by
  rw [finaliseBlock, version, BitVec.or_assoc, mergedVersion]
  rfl

theorem evolves_refresh {K : Type} [DecidableEq K] {required : Bool} {key : K}
    {state after : CreatorState K} {result : Except TemplateError (Option Nat)}
    (ran : state.refresh ctx env required key scriptPubKey = some (after, result))
    : TemplateStore.Evolves ctx.nChainId state.store after.store := by
  have dropped : TemplateStore.Evolves ctx.nChainId state.store
      (state.dropObsolete env).store := by
    rw [CreatorState.dropObsolete]
    split
    · exact .refl _
    · exact .clear _
  simp only [CreatorState.refresh] at ran
  split at ran
  · split at ran
    · cases ran
    · cases ran
      exact dropped
    · rename_i made
      cases ran
      exact dropped.trans (.add _ (nVersion_finaliseBlock _ _ _ (nVersion_createNewBlock made)) _)
  · cases ran
    exact .refl _

theorem of_served {α : Type} {pblock : Except TemplateError (Option Nat)}
    {serve : Nat → Option (RetargetState × Except TemplateError α)} {state after : MiningState}
    {served : Except TemplateError α}
    (ran : (match pblock with
        | .error error => some (state, .error error)
        | .ok pblock => pblock.bind (fun num => (serve num).bind (fun answer =>
          some ({ state with retarget := answer.1 }, answer.2))))
      = some (after, served))
    : (∃ retarget, after = { state with retarget })
      ∧ ∀ answer, served = .ok answer
        → ∃ num retarget, serve num = some (retarget, .ok answer) := by
  cases pblock with
  | error error =>
    cases ran
    exact ⟨⟨_, rfl⟩, nofun⟩
  | ok pblock =>
    obtain ⟨num, -, ⟨retarget, result⟩, found, ran⟩ := by
      simpa only [bind_eq_some_iff] using ran
    cases ran
    refine ⟨⟨_, rfl⟩, ?_⟩
    rintro answer rfl
    exact ⟨num, retarget, found⟩

theorem evolves_newAuxMiningCreateBlock {state after id served}
    (ran : newAuxMiningCreateBlock ctx env scriptPubKey id state = some (after, served))
    : TemplateStore.Evolves ctx.nChainId state.store after.store := by
  obtain ⟨⟨middle, pblock⟩, refreshed, ran⟩ := bind_eq_some_iff.mp ran
  obtain ⟨⟨_, rfl⟩, -⟩ := of_served ran
  exact evolves_refresh refreshed

theorem evolves_getauxblockbip22 {state after : MiningState} {served : Served}
    (ran : getauxblockbip22 ctx env scriptPubKey state = some (after, served))
    : TemplateStore.Evolves ctx.nChainId state.store after.store := by
  simp only [getauxblockbip22, bind_eq_bind, bind_eq_some_iff] at ran
  obtain ⟨⟨middle, pblock⟩, refreshed, ran⟩ := ran
  have evolves := evolves_refresh refreshed
  cases pblock with
  | error error =>
    cases ran
    exact evolves
  | ok pblock =>
    obtain ⟨num, -, block, -, ran⟩ := by
      simpa only [bind_eq_some_iff] using ran
    split at ran
    · cases ran
      exact evolves
    obtain ⟨template, -, ran⟩ := bind_eq_some_iff.mp ran
    cases ran
    exact evolves

theorem evolves_submit {hash auxpow store after} (ran : store.submit hash auxpow = some after)
    : TemplateStore.Evolves ctx.nChainId store after := by
  rw [TemplateStore.submit] at ran
  split at ran
  · cases ran
    exact .refl _
  obtain ⟨block, owned, rfl⟩ := map_eq_some_iff.mp ran
  refine .put owned (fun sound => ?_)
  have flagged : block.nVersion ||| PureBlockHeader.VERSION_AUXPOW = block.nVersion := by
    rw [(sound _ block owned).2, mergedVersion, BitVec.or_assoc]
    rfl
  simp only [Block.setAuxpow, flagged]

theorem evolves_cmxSubmitAuxblock {nChainIndex hashHex auxpowHex store submission}
    (ran : cmxSubmitAuxblock nChainIndex hashHex auxpowHex store = .ok submission)
    : TemplateStore.Evolves ctx.nChainId store submission.store := by
  rw [cmxSubmitAuxblock] at ran
  split at ran
  · cases ran
    exact .refl _
  split at ran
  · cases ran
  rename_i block owned
  split at ran
  · cases ran
    exact .refl _
  rw [attachAuxPow] at ran
  split at ran
  · cases ran
  cases ran
  exact .put owned (fun _ => rfl)

theorem evolves_call {state after : MiningState} {call} (ran : state.call ctx call = some after)
    : TemplateStore.Evolves ctx.nChainId state.store after.store := by
  cases call with
  | createauxblock env scriptPubKey id =>
    obtain ⟨⟨_, served⟩, created, rfl⟩ := map_eq_some_iff.mp ran
    exact evolves_newAuxMiningCreateBlock created
  | createDatagram env scriptPubKey id =>
    obtain ⟨⟨_, served⟩, created, rfl⟩ := map_eq_some_iff.mp ran
    obtain ⟨⟨middle, pblock⟩, refreshed, created⟩ := bind_eq_some_iff.mp created
    obtain ⟨⟨_, rfl⟩, -⟩ := of_served created
    exact evolves_refresh refreshed
  | getauxblock env scriptPubKey =>
    obtain ⟨⟨_, served⟩, created, rfl⟩ := map_eq_some_iff.mp ran
    exact evolves_getauxblockbip22 created
  | submit hash auxpow =>
    obtain ⟨store, submitted, rfl⟩ := map_eq_some_iff.mp ran
    exact evolves_submit submitted
  | submitBytes nChainIndex hashHex auxpowHex =>
    rw [MiningState.call] at ran
    split at ran
    · cases ran
    rename_i submission submitted
    cases ran
    exact evolves_cmxSubmitAuxblock submitted
  | elsewhere retarget =>
    cases ran
    exact .refl _

theorem evolves_run {state after : MiningState} {calls} (ran : state.run ctx calls = some after)
    : TemplateStore.Evolves ctx.nChainId state.store after.store := by
  induction calls generalizing state with
  | nil =>
    cases ran
    exact .refl _
  | cons first rest ih =>
    rw [MiningState.run] at ran
    split at ran
    · cases ran
    rename_i next called
    exact (evolves_call called).trans (ih ran)

end Evolution

-- Served and checked targets

/-- The version of the parents that a miner submits: Bitcoin for `2`, Litecoin otherwise. -/
def parentVersion (id : BitVec 32) : BitVec 32 := if id = 2 then 0x20000000 else 0x10000000

def parentWork (H : Hashing) (id : BitVec 32) (auxpow : AuxPow) : Uint256 :=
  if id = 2 then auxpow.getParentBlockHash H else auxpow.getParentBlockPoWHash H

def decodedTarget (nBits : BitVec 32) : Nat := (BaseUint.setCompact nBits).target.toNat

/-- Parents of either chain can have any work. -/
def Hashing.ReachesAll (H : Hashing) : Prop :=
  ∀ id work, ∃ auxpow : AuxPow, auxpow.parentBlock.nVersion = parentVersion id
    ∧ auxpow.BranchMatches H ∧ parentWork H id auxpow = work

namespace MiningState

variable (ctx : MiningContext) (env : TemplateEnvironment) (scriptPubKey : Script)
  (state : MiningState)

/-- The target of the template that `createauxblock` answers with: the last Litecoin entry where
it makes one, and what the template in `curBlocks` was made with where it does not.
-/
def templateBits : Option (BitVec 32) :=
  let scriptID := ctx.digests.hash160 scriptPubKey
  if state.rpc.NeedsTemplate env true scriptID then
    (state.retarget.initNBits ctx.toRetargetContext (env.tip.nHeight + 1)).ltc_nBits.getLast?
  else ((state.rpc.curBlocks scriptID).bind state.store.vNewBlockTemplate).map (fun b => b.nBits)

/-- The vectors that `createauxblock` serves from. -/
def servedVectors : RetargetState :=
  if state.rpc.NeedsTemplate env true (ctx.digests.hash160 scriptPubKey) then
    (state.retarget.initNBits ctx.toRetargetContext (env.tip.nHeight + 1)).fillNBits
  else state.retarget.fillNBits

end MiningState

theorem nbits_auxTemplate {H block nbits pindexPrev template}
    (made : auxTemplate H block nbits pindexPrev = some template)
    : template.nbits = nbits := by
  simp only [auxTemplate, bind_eq_bind, bind_eq_some_iff] at made
  obtain ⟨coinbase, -, output, -, tip, -, made⟩ := made
  cases made
  rfl

theorem nBits_createNewBlock {ctx env scriptPubKey r after block}
    (ran : createNewBlock ctx env scriptPubKey r = some (after, .ok block))
    : after.ltc_nBits.getLast? = some block.nBits := by
  simp only [createNewBlock] at ran
  split at ran
  · cases ran
  split at ran
  · cases ran
  split at ran
  · cases ran
  rename_i last
  split at ran
  · cases ran
  cases ran
  exact last

theorem nBits_refresh {K : Type} [DecidableEq K] {ctx env key scriptPubKey num}
    {state after : CreatorState K}
    (ran : state.refresh ctx env true key scriptPubKey = some (after, .ok (some num)))
    : (after.store.vNewBlockTemplate num).map (fun block => block.nBits)
      = if state.creator.NeedsTemplate env true key then after.retarget.ltc_nBits.getLast?
        else ((state.creator.curBlocks key).bind state.store.vNewBlockTemplate).map
          (fun block => block.nBits) := by
  simp only [CreatorState.refresh, ← Creator.NeedsTemplate.eq_def] at ran
  split at ran
  · rename_i needs
    rw [if_pos needs]
    split at ran
    · cases ran
    · cases ran
    · rename_i made
      cases ran
      simp only [CreatorState.save, TemplateStore.add, if_true, map_some]
      exact (nBits_createNewBlock made).symm
  · rename_i idle
    obtain ⟨rfl, pointer⟩ := by simpa using ran
    rw [if_neg idle, pointer]
    rfl

/-- What an answer of `createauxblock` says about its template and the target served with it. -/
theorem served_of_newAuxMiningCreateBlock {ctx env scriptPubKey id state after num template}
    (ran : newAuxMiningCreateBlock ctx env scriptPubKey id state
      = some (after, .ok (num, template)))
    : (id = 1 ∨ id = 2)
      ∧ (state.servedVectors ctx env scriptPubKey).servedBits id = some template.nbits
      ∧ ∃ block, after.store.vNewBlockTemplate num = some block
        ∧ invalidBits block.nBits = false
        ∧ state.templateBits ctx env scriptPubKey = some block.nBits := by
  simp only [newAuxMiningCreateBlock, bind_eq_bind, bind_eq_some_iff] at ran
  obtain ⟨⟨middle, pblock⟩, refreshed, ran⟩ := ran
  obtain ⟨needed, kept⟩ := retarget_refresh refreshed
  cases pblock with
  | error error => cases ran
  | ok pblock =>
    obtain ⟨found, rfl, ⟨retarget, answer⟩, served, ran⟩ := by
      simpa only [bind_eq_some_iff] using ran
    cases ran
    simp only [serveTemplate, bind_eq_bind, bind_eq_some_iff] at served
    obtain ⟨block, owned, served⟩ := served
    split at served
    · cases served
    rename_i known
    obtain ⟨nbits, bits, served⟩ := bind_eq_some_iff.mp served
    split at served
    · cases served
    rename_i valid
    obtain ⟨answer, made, served⟩ := bind_eq_some_iff.mp served
    cases served
    have template := nBits_refresh refreshed
    rw [owned, map_some] at template
    rw [nbits_auxTemplate made, MiningState.servedVectors, MiningState.templateBits]
    refine ⟨by tauto, ?_, block, owned, by simpa using valid, ?_⟩
    · split
      · rename_i needs
        rw [← (needed needs).1]
        exact bits
      · rename_i idle
        rw [kept idle] at bits
        exact bits
    · rw [template]
      split
      · rename_i needs
        rw [(needed needs).1]
      · rfl

theorem admitsHash_iff_of_valid {nBits : BitVec 32} (valid : invalidBits nBits = false)
    (hash params)
    : AdmitsHash hash nBits params
      ↔ decodedTarget nBits ≤ params.powLimit.toNat ∧ hash.toNat ≤ decodedTarget nBits := by
  simp only [invalidBits, Bool.or_eq_false_iff] at valid
  obtain ⟨⟨nonneg, fits⟩, nonzero⟩ := valid
  have pos : 0 < decodedTarget nBits := by
    by_contra zero
    rw [← Bool.not_eq_true, BaseUint.equalTo_iff] at nonzero
    exact nonzero (by simpa [decodedTarget] using zero)
  rw [AdmitsHash, BaseUint.compactValue_of_setCompact nBits nonneg fits, ← decodedTarget]
  omega

section Submitted

variable {ctx : MiningContext} {files : RetargetFiles} {calls later : List MiningCall}
  {state after final : MiningState} {env : TemplateEnvironment} {scriptPubKey : Script}
  {id : BitVec 32} {num : Nat} {template : AuxTemplate} {block : Block} {auxpow : AuxPow}

theorem checkAuxPowProofOfWork_of_merged (merged : block.nVersion = mergedVersion ctx.nChainId)
    (branch : auxpow.BranchMatches ctx.digests.toHashing) (nHeight)
    : checkAuxPowProofOfWork ctx.digests.toHashing
        { block.toBlockHeader with auxpow := some auxpow } (ctx.consensus nHeight) = true
      ↔ (auxpow.parentBlock.nVersion = 0x20000000
        → AdmitsHash (auxpow.getParentBlockHash ctx.digests.toHashing) block.nBits
          (ctx.consensus nHeight)) := by
  have chainId : (ctx.consensus nHeight).nAuxpowChainId = ctx.nChainId :=
    ctx.sameChainId _
  have encodable : (ctx.consensus nHeight).ChainIdEncodable :=
    chainIdEncodable_of_small (by rw [chainId]; exact ctx.smallChainId)
  have allowed : ChainIdAllowed block.toPureBlockHeader (ctx.consensus nHeight) :=
    allowed_mergedVersion encodable (by rw [chainId, merged])
  rw [checkAuxPowProofOfWork_some rfl]
  exact ⟨fun accepted => accepted.2.2.2,
    fun work => ⟨allowed, isAuxpow_mergedVersion merged, branch, work⟩⟩

/-- No target admits every hash. -/
theorem decodedTarget_lt (nBits) : decodedTarget nBits < 2 ^ 256 - 1 := by
  rw [decodedTarget, BaseUint.toNat_setCompact, compactMagnitude]
  split
  · have mantissa := compactMantissa_lt nBits
    exact Nat.lt_of_le_of_lt ((Nat.mod_le _ _).trans (Nat.div_le_self _ _)) (by omega)
  · -- the lowest byte is zero
    obtain ⟨k, exponent⟩ : ∃ k, compactExponent nBits - 3 = k + 1 :=
      Nat.exists_eq_add_one.mpr (by omega)
    rw [exponent, Nat.pow_succ, ← Nat.mul_assoc]
    omega

variable (reached : (MiningState.start files).run ctx calls = some state)
  (answered : newAuxMiningCreateBlock ctx env scriptPubKey id state
    = some (after, .ok (num, template)))
  (continued : after.run ctx later = some final)
  (owned : final.store.vNewBlockTemplate num = some block)

include reached answered continued owned

/-- Whatever happens before the submission, a template that has been answered with keeps its
version and its valid target.
-/
theorem template_of_run
    : block.nVersion = mergedVersion ctx.nChainId
      ∧ invalidBits block.nBits = false
      ∧ state.templateBits ctx env scriptPubKey = some block.nBits := by
  obtain ⟨-, -, answeredBlock, answeredOwned, valid⟩ := served_of_newAuxMiningCreateBlock answered
  have sound : after.store.Sound ctx.nChainId :=
    (evolves_newAuxMiningCreateBlock answered).sound ((evolves_run reached).sound nofun)
  obtain ⟨fresh, version⟩ := sound num answeredBlock answeredOwned
  obtain ⟨earlier, earlierOwned, same⟩ :=
    (evolves_run continued).keeps sound num block fresh owned
  obtain rfl : answeredBlock = earlier := Option.some.inj (answeredOwned.symm.trans earlierOwned)
  rw [same]
  exact ⟨version, valid⟩

/-- For a template that `createauxblock` has answered with, and whatever happens before the
submission: the parents of the miner's chain, with branches that fit, are accepted exactly when
their work is within the served target, if the miner is Bitcoin's, the target of the template
is within the limit, and the last Bitcoin entry decodes to the same. Where parents can have any
work, only then; so never for a Litecoin miner, whose parents are not checked.
-/
theorem acceptedAsServed_iff (nHeight : Nat)
    : let agrees := ∀ auxpow : AuxPow, auxpow.parentBlock.nVersion = parentVersion id
        → auxpow.BranchMatches ctx.digests.toHashing
        → (checkAuxPowProofOfWork ctx.digests.toHashing
            { block.toBlockHeader with auxpow := some auxpow } (ctx.consensus nHeight) = true
          ↔ (parentWork ctx.digests.toHashing id auxpow).toNat
            ≤ decodedTarget template.nbits)
      let sameTarget := id = 2
        ∧ ∃ own ∈ state.templateBits ctx env scriptPubKey,
          ∃ btc ∈ (state.servedVectors ctx env scriptPubKey).btc_nBits.getLast?,
          decodedTarget own ≤ (ctx.consensus nHeight).powLimit.toNat
            ∧ decodedTarget btc = decodedTarget own
      (sameTarget → agrees)
        ∧ (ctx.digests.toHashing.ReachesAll → agrees → sameTarget) := by
  obtain ⟨known, served, -⟩ := served_of_newAuxMiningCreateBlock answered
  obtain ⟨merged, valid, own⟩ := template_of_run reached answered continued owned
  have accepted (auxpow : AuxPow) (branch : auxpow.BranchMatches ctx.digests.toHashing) :=
    checkAuxPowProofOfWork_of_merged merged branch nHeight
  intro agrees sameTarget
  rcases known with rfl | rfl
  · refine ⟨fun ⟨bitcoin, _⟩ => absurd bitcoin (by decide), fun reaches agree => ?_⟩
    obtain ⟨auxpow, version, branch, work⟩ := reaches 1 (-1)
    have unchecked := (accepted auxpow branch).mpr
      fun bitcoin => absurd (version.symm.trans bitcoin) (by decide)
    have within := (agree auxpow version branch).mp unchecked
    rw [work] at within
    exact absurd (decodedTarget_lt template.nbits) (Nat.not_lt.mpr within)
  have last : (state.servedVectors ctx env scriptPubKey).btc_nBits.getLast?
      = some template.nbits := by
    rw [RetargetState.servedBits] at served
    split at served
    · rename_i btc
      rw [btc]
      simpa using served
    · cases served
  simp only [sameTarget, own, last, mem_some_iff, exists_eq_left', true_and]
  have checked (auxpow : AuxPow) (version : auxpow.parentBlock.nVersion = parentVersion 2)
      (branch : auxpow.BranchMatches ctx.digests.toHashing) := by
    have iff := accepted auxpow branch
    rw [admitsHash_iff_of_valid valid] at iff
    exact iff.trans (forall_prop_of_true version)
  constructor
  · intro same auxpow version branch
    rw [checked auxpow version branch, same.2]
    exact and_iff_right same.1
  · intro reaches agree
    have zero : decodedTarget block.nBits ≤ (ctx.consensus nHeight).powLimit.toNat := by
      obtain ⟨auxpow, version, branch, work⟩ := reaches 2 0
      have within := (agree auxpow version branch).mpr (by rw [work]; exact Nat.zero_le _)
      exact ((checked auxpow version branch).mp within).1
    have works (work : Uint256)
        : work.toNat ≤ decodedTarget block.nBits ↔ work.toNat ≤ decodedTarget template.nbits := by
      obtain ⟨auxpow, version, branch, rfl⟩ := reaches 2 work
      have both := agree auxpow version branch
      rw [checked auxpow version branch] at both
      exact (and_iff_right zero).symm.trans both
    have target (nBits) : (BitVec.ofNat 256 (decodedTarget nBits)).toNat = decodedTarget nBits := by
      rw [BitVec.toNat_ofNat, Nat.mod_eq_of_lt (by have := decodedTarget_lt nBits; omega)]
    have below := works (BitVec.ofNat 256 (decodedTarget template.nbits))
    have above := works (BitVec.ofNat 256 (decodedTarget block.nBits))
    rw [target] at below above
    exact ⟨zero, Nat.le_antisymm (below.mpr (Nat.le_refl _)) (above.mp (Nat.le_refl _))⟩

end Submitted

-- The first template of the main network

/-- The main network under a hash that reads the Merkle root of a header back. -/
def mainMining : MiningContext where
  toRetargetContext := mainRetarget
  digests := { zeroDigests with toHashing := rootHashing }
  generateMTRandom _ _ := 0
  subsidyParams _ := ⟨420000, true⟩
  nChainId := 0x62
  sameChainId := mainParams_chainId 0
  smallChainId := by decide

/-- A tip at height `0` and an empty mempool. -/
def genesisEnvironment : TemplateEnvironment where
  tip := .root 0 ⟨4, 0, 0, 0, 0, 0⟩
  time := 0
  nTransactionsUpdated := 0
  adjustedTime := 0
  selected := []
  nFees := 0
  commitment := []
  testBlockValidity _ := none

def noRetargetFiles : RetargetFiles := ⟨none, none, [], [], [], []⟩

/-- A retarget has left a target for Bitcoin parents that is lower than the other one. -/
def lowerBtcTarget : MiningCall :=
  .elsewhere ⟨{ RetargetGlobals.cleared with
    ltc_nBits := [0x207fffff], btc_nBits := [0x1d00ffff] }, noRetargetFiles⟩

/-- The first template after some calls: it is served with `served`, and has `nBits`. -/
structure FirstTemplate (calls : List MiningCall) (id nBits served : BitVec 32)
    (state after : MiningState) (template : AuxTemplate) (block : Block)
    : Prop where
  reached : (MiningState.start noRetargetFiles).run mainMining calls = some state
  answered : newAuxMiningCreateBlock mainMining genesisEnvironment [] id state
    = some (after, .ok (0, template))
  owned : after.store.vNewBlockTemplate 0 = some block
  bits : template.nbits = served
  own : block.nBits = nBits

theorem FirstTemplate.merged {calls id nBits served state after template block}
    (first : FirstTemplate calls id nBits served state after template block)
    : block.nVersion = mergedVersion mainMining.nChainId :=
  have untouched : after.run mainMining [] = some after := rfl
  (template_of_run first.reached first.answered untouched first.owned).1

theorem firstTemplate_litecoin
    : ∃ state after template block,
        FirstTemplate [] 1 0x207fffff 0x207fffff state after template block := by
  refine ⟨_, _, _, _, rfl, rfl, rfl, ?_, ?_⟩
  all_goals rfl

theorem firstTemplate_bitcoin
    : ∃ state after template block,
        FirstTemplate [lowerBtcTarget] 2 0x207fffff 0x1d00ffff state after template block := by
  refine ⟨_, _, _, _, rfl, rfl, rfl, ?_, ?_⟩
  all_goals rfl

/-- A proof with an empty branch, whose parent has the given work under `rootHashing`. -/
def workAuxPow (nVersion : BitVec 32) (work : Uint256) : AuxPow :=
  { plainAuxPow nVersion with
    hashBlock := work, parentBlock := ⟨nVersion, 0, work, 0, 0, 0⟩ }

theorem workAuxPow_branchMatches (H nVersion work)
    : (workAuxPow nVersion work).BranchMatches H := rfl

theorem parentHash_workAuxPow (nVersion work)
    : (workAuxPow nVersion work).getParentBlockHash mainMining.digests.toHashing = work :=
  getHash_rootHashing _

theorem parentWork_workAuxPow (id nVersion work)
    : parentWork mainMining.digests.toHashing id (workAuxPow nVersion work) = work := by
  rw [parentWork]
  split <;> exact getHash_rootHashing _

def AcceptedWith (block : Block) (nVersion : BitVec 32) (work : Uint256) : Prop :=
  checkAuxPowProofOfWork mainMining.digests.toHashing
    { block.toBlockHeader with auxpow := some (workAuxPow nVersion work) }
    (mainMining.consensus 1) = true

/-- A Bitcoin miner is served the target of the template itself, `0x207fffff`. -/
theorem acceptedAsServed_first
    : ∃ state after template block,
        FirstTemplate [] 2 0x207fffff 0x207fffff state after template block
        ∧ ∀ auxpow : AuxPow, auxpow.parentBlock.nVersion = parentVersion 2
          → auxpow.BranchMatches rootHashing
          → (checkAuxPowProofOfWork rootHashing
              { block.toBlockHeader with auxpow := some auxpow } (mainMining.consensus 1) = true
            ↔ (parentWork rootHashing 2 auxpow).toNat ≤ decodedTarget template.nbits) := by
  obtain ⟨state, after, template, block, first⟩ : ∃ state after template block,
      FirstTemplate [] 2 0x207fffff 0x207fffff state after template block := by
    refine ⟨_, _, _, _, rfl, rfl, rfl, ?_, ?_⟩
    all_goals rfl
  have untouched : after.run mainMining [] = some after := rfl
  refine ⟨state, after, template, block, first,
    (acceptedAsServed_iff first.reached first.answered untouched first.owned 1).1 ?_⟩
  cases first.reached
  exact ⟨rfl, 0x207fffff, rfl, 0x207fffff, rfl, by decide, rfl⟩

/-- A Litecoin parent with the largest possible hash is accepted; and so is a Bitcoin parent
whose hash lies between the target that was served and that of the template.
-/
theorem accepted_above_served
    : (∃ state after template block,
        FirstTemplate [] 1 0x207fffff 0x207fffff state after template block
        ∧ AcceptedWith block 0x10000000 (-1)
        ∧ decodedTarget template.nbits
          < (parentWork mainMining.digests.toHashing 1 (workAuxPow 0x10000000 (-1))).toNat)
      ∧ ∃ state after template block,
        FirstTemplate [lowerBtcTarget] 2 0x207fffff 0x1d00ffff state after template block
        ∧ AcceptedWith block 0x20000000 (BitVec.twoPow 256 254)
        ∧ decodedTarget template.nbits
          < (parentWork mainMining.digests.toHashing 2
            (workAuxPow 0x20000000 (BitVec.twoPow 256 254))).toNat := by
  constructor
  · obtain ⟨state, after, template, block, first⟩ := firstTemplate_litecoin
    refine ⟨state, after, template, block, first, ?_, ?_⟩
    · refine (checkAuxPowProofOfWork_of_merged first.merged
        (workAuxPow_branchMatches _ _ _) 1).mpr (fun bitcoin => ?_)
      cases bitcoin
    · rw [first.bits, parentWork_workAuxPow]
      decide
  · obtain ⟨state, after, template, block, first⟩ := firstTemplate_bitcoin
    refine ⟨state, after, template, block, first, ?_, ?_⟩
    · refine (checkAuxPowProofOfWork_of_merged first.merged
        (workAuxPow_branchMatches _ _ _) 1).mpr (fun _ => ?_)
      rw [parentHash_workAuxPow, first.own]
      decide
    · rw [first.bits, parentWork_workAuxPow]
      decide

end Pqcoin
