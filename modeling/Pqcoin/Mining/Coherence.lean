import Pqcoin.Mining.AuxWork

/-! The shared cache of templates at one tip: which hashes are still listed and which pointers
still refer to an owned template, while the three creating functions are called in any order.
-/

namespace Pqcoin

open Option TemplateStore

-- What the cache holds

namespace TemplateStore

def Owns (store : TemplateStore) (num : Nat) : Prop :=
  (store.vNewBlockTemplate num).isSome = true

def Lists (store : TemplateStore) (hash : Uint256) : Prop :=
  (store.mapNewBlock hash).isSome = true

/-- The store is sound, and the hash of every owned template is a key. -/
structure Kept (ctx : MiningContext) (store : TemplateStore) : Prop where
  sound : store.Sound ctx.nChainId
  listed : ∀ num block, store.vNewBlockTemplate num = some block
    → store.Lists (block.getHash ctx.digests.toHashing)

variable {ctx : MiningContext} {store : TemplateStore}

theorem owns_add {H block num}
    : (store.add H block).Owns num ↔ num = store.created ∨ store.Owns num := by
  simp only [Owns, add]
  split_ifs with latest <;> simp [latest]

theorem lists_add {H block hash}
    : (store.add H block).Lists hash ↔ hash = block.getHash H ∨ store.Lists hash := by
  simp only [Lists, add]
  split_ifs with same <;> simp [same]

theorem not_owns_clear {num} : ¬ store.clear.Owns num := nofun

theorem not_lists_clear {hash} : ¬ store.clear.Lists hash := nofun

theorem owns_put {num block other} (owned : store.Owns other)
    : (store.put num block).Owns other := by
  simp only [Owns, put] at owned ⊢
  split_ifs
  · rfl
  · exact owned

section

variable (kept : store.Kept ctx)

include kept

theorem Kept.clear : store.clear.Kept ctx where
  sound := (Evolves.clear store).sound kept.sound
  listed _ _ owned := by cases owned

theorem Kept.add {block} (version : block.nVersion = mergedVersion ctx.nChainId)
    : (store.add ctx.digests.toHashing block).Kept ctx where
  sound := (Evolves.add _ version store).sound kept.sound
  listed num other owned := by
    rw [lists_add]
    simp only [TemplateStore.add] at owned
    split_ifs at owned
    · cases owned
      exact .inl rfl
    · exact .inr (kept.listed num other owned)

theorem Kept.put {num block written} (owned : store.vNewBlockTemplate num = some block)
    (same : written.toPureBlockHeader = block.toPureBlockHeader)
    : (store.put num written).Kept ctx where
  sound := (Evolves.put owned (fun _ => same)).sound kept.sound
  listed other found holds := by
    simp only [TemplateStore.put] at holds
    split_ifs at holds
    · cases holds
      rw [PureBlockHeader.getHash, same]
      exact kept.listed num block owned
    · exact kept.listed other found holds

theorem Kept.created_of_owns {num} (owned : store.Owns num) : num < store.created := by
  obtain ⟨block, found⟩ := isSome_iff_exists.mp owned
  exact (kept.sound num block found).1

end

end TemplateStore

-- What refreshing does

section Drop

variable {K : Type} {ctx : MiningContext} {env : TemplateEnvironment} {state : CreatorState K}

theorem created_dropObsolete (state : CreatorState K)
    : (state.dropObsolete env).store.created = state.store.created := by
  rw [CreatorState.dropObsolete]
  split <;> rfl

theorem dropObsolete_of_seen (seen : state.creator.pindexPrev = some env.tip)
    : state.dropObsolete env = state :=
  if_pos seen

theorem dropObsolete_of_unseen (unseen : state.creator.pindexPrev ≠ some env.tip)
    : (state.dropObsolete env).store = state.store.clear
      ∧ ∀ key, (state.dropObsolete env).creator.curBlocks key = none := by
  rw [CreatorState.dropObsolete, if_neg unseen]
  exact ⟨rfl, fun _ => rfl⟩

theorem kept_dropObsolete (kept : state.store.Kept ctx)
    : (state.dropObsolete env).store.Kept ctx := by
  by_cases seen : state.creator.pindexPrev = some env.tip
  · rwa [dropObsolete_of_seen seen]
  rw [(dropObsolete_of_unseen seen).1]
  exact kept.clear

end Drop

section Refresh

variable {K : Type} [DecidableEq K] {ctx : MiningContext} {env : TemplateEnvironment} {key : K}

/-- How refreshing ends: with the template at hand, with an exception, or with a new template.
The last two drop everything when the function has not seen the tip.
-/
inductive Refreshed (ctx : MiningContext) (env : TemplateEnvironment) (key : K)
    (state : CreatorState K)
    : CreatorState K → Except TemplateError (Option Nat) → Prop
  | current (seen : state.creator.pindexPrev = some env.tip)
    : Refreshed ctx env key state state (.ok (state.creator.curBlocks key))
  | failed (retarget : RetargetState) (error : TemplateError)
    : Refreshed ctx env key state { state.dropObsolete env with retarget := retarget }
        (.error error)
  | made (retarget : RetargetState) (block : Block)
      (version : block.nVersion = ctx.nChainId <<< 16 ||| 4)
    : Refreshed ctx env key state
        (({ state.dropObsolete env with retarget := retarget }).save ctx env key block)
        (.ok (some state.store.created))

theorem refreshed_of_ran {required scriptPubKey state after result}
    (ran : state.refresh ctx env required key scriptPubKey = some (after, result))
    : Refreshed ctx env key state after result := by
  simp only [CreatorState.refresh] at ran
  split at ran
  · split at ran
    · cases ran
    · cases ran
      exact .failed _ _
    · rename_i block made
      cases ran
      rw [created_dropObsolete]
      exact .made _ block (nVersion_createNewBlock made)
  · rename_i fresh
    cases ran
    simp only [Creator.isOutdated, Bool.or_eq_true, not_or, bne_iff_ne, ne_eq, not_not] at fresh
    exact .current fresh.2.1

namespace Refreshed

variable {state after : CreatorState K} {result : Except TemplateError (Option Nat)}

section

variable (refreshed : Refreshed ctx env key state after result)

include refreshed

theorem kept (kept : state.store.Kept ctx) : after.store.Kept ctx := by
  cases refreshed with
  | current seen => exact kept
  | failed retarget error => exact kept_dropObsolete kept
  | made retarget block version =>
    exact (kept_dropObsolete kept).add (nVersion_finaliseBlock _ _ _ version)

/-- A function that has seen the tip takes nothing from the cache. -/
theorem grows (seen : state.creator.pindexPrev = some env.tip)
    : (∀ num, state.store.Owns num → after.store.Owns num)
      ∧ ∀ hash, state.store.Lists hash → after.store.Lists hash := by
  cases refreshed with
  | current _ => exact ⟨fun _ owned => owned, fun _ listed => listed⟩
  | failed retarget error =>
    rw [dropObsolete_of_seen seen]
    exact ⟨fun _ owned => owned, fun _ listed => listed⟩
  | made retarget block version =>
    rw [dropObsolete_of_seen seen]
    exact ⟨fun _ owned => owns_add.mpr (.inr owned), fun _ listed => lists_add.mpr (.inr listed)⟩

/-- A function that has not seen the tip leaves at most the template that it makes. -/
theorem drops (unseen : state.creator.pindexPrev ≠ some env.tip)
    : (∀ num, after.store.Owns num → num = state.store.created)
      ∧ ∀ hash, after.store.Lists hash → ∃ block,
        after.store.vNewBlockTemplate state.store.created = some block
        ∧ hash = block.getHash ctx.digests.toHashing := by
  cases refreshed with
  | current seen => exact absurd seen unseen
  | failed retarget error =>
    simp only [(dropObsolete_of_unseen unseen).1]
    exact ⟨fun _ owned => absurd owned not_owns_clear,
      fun _ listed => absurd listed not_lists_clear⟩
  | made retarget block version =>
    simp only [CreatorState.save, (dropObsolete_of_unseen unseen).1, owns_add,
      lists_add, not_owns_clear, not_lists_clear,
      or_false]
    exact ⟨fun _ latest => latest, fun _ same => ⟨_, if_pos rfl, same⟩⟩

/-- The pointers of the function itself refer to owned templates. -/
theorem own (owned : ∀ key num, state.creator.curBlocks key = some num → state.store.Owns num)
    : ∀ key num, after.creator.curBlocks key = some num → after.store.Owns num := by
  have dropped : ∀ key num, (state.dropObsolete env).creator.curBlocks key = some num
      → (state.dropObsolete env).store.Owns num := by
    by_cases seen : state.creator.pindexPrev = some env.tip
    · rwa [dropObsolete_of_seen seen]
    · simp [(dropObsolete_of_unseen seen).2]
  cases refreshed with
  | current seen => exact owned
  | failed retarget error => exact dropped
  | made retarget block version =>
    intro other num pointer
    simp only [CreatorState.save, owns_add] at pointer ⊢
    split_ifs at pointer
    · exact .inl (Option.some.inj pointer).symm
    · exact .inr (dropped other num pointer)

end

end Refreshed

end Refresh

-- What a call does

section Calls

variable {ctx : MiningContext} {env : TemplateEnvironment} {scriptPubKey : Script}
  {state after : MiningState}

def answeredHash (result : Option (MiningState × Served)) : Option Uint256 :=
  match result with
  | some (_, .ok (_, template)) => some template.hash
  | _ => none

def MiningState.answer (ctx : MiningContext) (state : MiningState)
    : MiningCall → Option Uint256
  | .createauxblock env scriptPubKey id =>
    answeredHash (newAuxMiningCreateBlock ctx env scriptPubKey id state)
  | .createDatagram env scriptPubKey id =>
    match newAuxMiningCreateDatagram ctx env scriptPubKey id state with
    | some (_, .ok (_, hash, _)) => some hash
    | _ => none
  | .getauxblock env scriptPubKey =>
    answeredHash (getauxblockbip22 ctx env scriptPubKey state)
  | _ => none

def AnswersOwned (ctx : MiningContext) (store : TemplateStore) (answer : Option Uint256)
    : Prop :=
  ∀ hash ∈ answer, ∃ num block, store.vNewBlockTemplate num = some block
    ∧ hash = block.getHash ctx.digests.toHashing

theorem hash_auxTemplate {H block nbits pindexPrev template}
    (made : auxTemplate H block nbits pindexPrev = some template)
    : template.hash = block.getHash H := by
  simp only [auxTemplate, bind_eq_bind, bind_eq_some_iff] at made
  obtain ⟨coinbase, -, output, -, tip, -, made⟩ := made
  cases made
  rfl

theorem hash_serveTemplate {id pindexPrev store num answered r r' template}
    (served : serveTemplate ctx id pindexPrev store num r
      = some (r', .ok (answered, template)))
    : ∃ block, store.vNewBlockTemplate num = some block
      ∧ template.hash = block.getHash ctx.digests.toHashing := by
  simp only [serveTemplate, bind_eq_bind, bind_eq_some_iff] at served
  obtain ⟨block, owned, served⟩ := served
  split at served
  · cases served
  obtain ⟨nbits, -, served⟩ := bind_eq_some_iff.mp served
  split at served
  · cases served
  obtain ⟨made, template, served⟩ := bind_eq_some_iff.mp served
  cases served
  exact ⟨block, owned, hash_auxTemplate template⟩

theorem hash_serveDatagram {id nbits store num answered r r' hash}
    (served : serveDatagram ctx id store num r = some (r', .ok (answered, hash, nbits)))
    : ∃ block, store.vNewBlockTemplate num = some block
      ∧ hash = block.getHash ctx.digests.toHashing := by
  simp only [serveDatagram, bind_eq_bind, bind_eq_some_iff] at served
  obtain ⟨block, owned, served⟩ := served
  split at served
  · cases served
  obtain ⟨bits, -, served⟩ := bind_eq_some_iff.mp served
  cases served
  exact ⟨block, owned, rfl⟩

theorem refreshed_createauxblock {id}
    (ran : state.call ctx (.createauxblock env scriptPubKey id) = some after)
    : ∃ middle pblock, Refreshed ctx env (ctx.digests.hash160 scriptPubKey)
        ⟨state.rpc, state.store, state.hashPrevBlock, state.retarget⟩ middle pblock
      ∧ after.rpc = middle.creator ∧ after.datagram = state.datagram
      ∧ after.store = middle.store
      ∧ AnswersOwned ctx after.store
          (state.answer ctx (.createauxblock env scriptPubKey id)) := by
  obtain ⟨⟨_, served⟩, created, rfl⟩ := map_eq_some_iff.mp ran
  rw [MiningState.answer, created]
  obtain ⟨⟨middle, pblock⟩, refreshed, created⟩ := bind_eq_some_iff.mp created
  obtain ⟨⟨_, rfl⟩, answers⟩ := of_served created
  refine ⟨middle, pblock, refreshed_of_ran refreshed, rfl, rfl, rfl, fun hash mem => ?_⟩
  rcases served with error | answer <;> cases mem
  obtain ⟨num, _, answered⟩ := answers _ rfl
  exact ⟨num, hash_serveTemplate answered⟩

theorem refreshed_createDatagram {id}
    (ran : state.call ctx (.createDatagram env scriptPubKey id) = some after)
    : ∃ middle pblock, Refreshed ctx env (ctx.digests.hash160 scriptPubKey)
        ⟨state.datagram, state.store, state.hashPrevBlock, state.retarget⟩ middle pblock
      ∧ after.rpc = state.rpc ∧ after.datagram = middle.creator
      ∧ after.store = middle.store
      ∧ AnswersOwned ctx after.store
          (state.answer ctx (.createDatagram env scriptPubKey id)) := by
  obtain ⟨⟨_, served⟩, created, rfl⟩ := map_eq_some_iff.mp ran
  rw [MiningState.answer, created]
  obtain ⟨⟨middle, pblock⟩, refreshed, created⟩ := bind_eq_some_iff.mp created
  obtain ⟨⟨_, rfl⟩, answers⟩ := of_served created
  refine ⟨middle, pblock, refreshed_of_ran refreshed, rfl, rfl, rfl, fun hash mem => ?_⟩
  rcases served with error | answer <;> cases mem
  obtain ⟨num, _, answered⟩ := answers _ rfl
  exact ⟨num, hash_serveDatagram answered⟩

theorem refreshed_getauxblock (ran : state.call ctx (.getauxblock env scriptPubKey) = some after)
    : ∃ middle pblock, Refreshed ctx env ()
        ⟨state.bip22, state.store, state.hashPrevBlock, state.retarget⟩ middle pblock
      ∧ after.rpc = state.rpc ∧ after.datagram = state.datagram
      ∧ after.store = middle.store
      ∧ AnswersOwned ctx after.store (state.answer ctx (.getauxblock env scriptPubKey)) := by
  obtain ⟨⟨_, served⟩, created, rfl⟩ := map_eq_some_iff.mp ran
  rw [MiningState.answer, created]
  obtain ⟨⟨middle, pblock⟩, refreshed, created⟩ := bind_eq_some_iff.mp created
  refine ⟨middle, pblock, refreshed_of_ran refreshed, ?_⟩
  cases pblock with
  | error error =>
    cases created
    exact ⟨rfl, rfl, rfl, nofun⟩
  | ok pblock =>
    obtain ⟨num, -, block, owned, created⟩ := by
      simpa only [bind_eq_bind, bind_eq_some_iff] using created
    split at created
    · cases created
      exact ⟨rfl, rfl, rfl, nofun⟩
    obtain ⟨template, made, created⟩ := bind_eq_some_iff.mp created
    cases created
    refine ⟨rfl, rfl, rfl, ?_⟩
    intro hash mem
    cases mem
    exact ⟨num, block, owned, hash_auxTemplate made⟩

/-- A submission leaves the pointers and the keys alone. -/
structure LeavesCache (ctx : MiningContext) (state after : MiningState) : Prop where
  rpc : after.rpc = state.rpc
  datagram : after.datagram = state.datagram
  owns : ∀ num, state.store.Owns num → after.store.Owns num
  lists : after.store.mapNewBlock = state.store.mapNewBlock
  kept : state.store.Kept ctx → after.store.Kept ctx

theorem LeavesCache.put {num block written} (owned : state.store.vNewBlockTemplate num = some block)
    (same : state.store.Sound ctx.nChainId
      → written.toPureBlockHeader = block.toPureBlockHeader)
    : LeavesCache ctx state { state with store := state.store.put num written } :=
  ⟨rfl, rfl, fun _ => owns_put, rfl, fun kept => kept.put owned (same kept.sound)⟩

theorem flagged_of_sound {store : TemplateStore} {num block}
    (sound : store.Sound ctx.nChainId) (owned : store.vNewBlockTemplate num = some block)
    : block.nVersion ||| PureBlockHeader.VERSION_AUXPOW = block.nVersion := by
  rw [(sound num block owned).2, mergedVersion, BitVec.or_assoc]
  rfl

theorem leavesCache_submit {hash : Uint256} {auxpow}
    (ran : state.call ctx (.submit hash auxpow) = some after)
    : LeavesCache ctx state after := by
  obtain ⟨store, submitted, rfl⟩ := map_eq_some_iff.mp ran
  rw [TemplateStore.submit] at submitted
  split at submitted
  · cases submitted
    exact ⟨rfl, rfl, fun _ owned => owned, rfl, id⟩
  obtain ⟨block, owned, rfl⟩ := map_eq_some_iff.mp submitted
  refine .put owned (fun sound => ?_)
  rw [Block.setAuxpow, flagged_of_sound sound owned]

theorem leavesCache_submitBytes {nChainIndex hashHex auxpowHex}
    (ran : state.call ctx (.submitBytes nChainIndex hashHex auxpowHex) = some after)
    : LeavesCache ctx state after := by
  rw [MiningState.call] at ran
  split at ran
  · cases ran
  rename_i submission submitted
  cases ran
  rw [cmxSubmitAuxblock] at submitted
  split at submitted
  · cases submitted
    exact ⟨rfl, rfl, fun _ owned => owned, rfl, id⟩
  split at submitted
  · cases submitted
  rename_i block owned
  split at submitted
  · cases submitted
    exact ⟨rfl, rfl, fun _ owned => owned, rfl, id⟩
  rw [attachAuxPow] at submitted
  split at submitted
  · cases submitted
  cases submitted
  exact .put owned (fun _ => rfl)

theorem leavesCache_elsewhere {retarget} (ran : state.call ctx (.elsewhere retarget) = some after)
    : LeavesCache ctx state after := by
  cases ran
  exact ⟨rfl, rfl, fun _ owned => owned, rfl, id⟩

theorem kept_call {call} (ran : state.call ctx call = some after) (kept : state.store.Kept ctx)
    : after.store.Kept ctx := by
  cases call with
  | createauxblock env scriptPubKey id =>
    obtain ⟨middle, pblock, refreshed, -, -, store, -⟩ := refreshed_createauxblock ran
    rw [store]
    exact refreshed.kept kept
  | createDatagram env scriptPubKey id =>
    obtain ⟨middle, pblock, refreshed, -, -, store, -⟩ := refreshed_createDatagram ran
    rw [store]
    exact refreshed.kept kept
  | getauxblock env scriptPubKey =>
    obtain ⟨middle, pblock, refreshed, -, -, store, -⟩ := refreshed_getauxblock ran
    rw [store]
    exact refreshed.kept kept
  | submit hash auxpow => exact (leavesCache_submit ran).kept kept
  | submitBytes nChainIndex hashHex auxpowHex => exact (leavesCache_submitBytes ran).kept kept
  | elsewhere retarget => exact (leavesCache_elsewhere ran).kept kept

theorem kept_of_run {calls} (ran : state.run ctx calls = some after) (kept : state.store.Kept ctx)
    : after.store.Kept ctx := by
  induction calls generalizing state with
  | nil =>
    cases ran
    exact kept
  | cons first rest ih =>
    rw [MiningState.run] at ran
    split at ran
    · cases ran
    rename_i next called
    exact ih ran (kept_call called kept)

end Calls

-- Calls at one tip

/-- The function does not empty the cache, or there is nothing in it to lose: no pointer of the
others, and no hash that has been returned.
-/
def Creator.Spares {K : Type} (tip : BlockIndex) (others : Nat → Prop) (given : List Uint256)
    (creator : Creator K)
    : Prop :=
  creator.pindexPrev = some tip ∨ ((∀ num, ¬ others num) ∧ given = [])

/-- The pointers in `curBlocks`. -/
def Creator.Keeps {K : Type} (creator : Creator K) (num : Nat) : Prop :=
  ∃ key, creator.curBlocks key = some num

namespace Refreshed

variable {K : Type} [DecidableEq K] {ctx : MiningContext} {env : TemplateEnvironment} {key : K}
  {state after : CreatorState K} {result : Except TemplateError (Option Nat)}
  {others : Nat → Prop} {given : List Uint256}

/-- A function that spares the cache leaves the others their pointers and their hashes. -/
theorem spares (refreshed : Refreshed ctx env key state after result)
    (spares : state.creator.Spares env.tip others given)
    (owned : ∀ num, others num → state.store.Owns num)
    (listed : ∀ hash ∈ given, state.store.Lists hash)
    : (∀ num, others num → after.store.Owns num)
      ∧ ∀ hash ∈ given, after.store.Lists hash := by
  rcases spares with seen | ⟨alone, rfl⟩
  · have grows := refreshed.grows seen
    exact ⟨fun num other => grows.1 num (owned num other),
      fun hash mem => grows.2 hash (listed hash mem)⟩
  · exact ⟨fun num other => absurd other (alone num), nofun⟩

/-- A function that does not spare the cache can leave everything in order only if what has
been returned is the hash of the template that it makes.
-/
theorem spoils (refreshed : Refreshed ctx env key state after result)
    (unspared : ¬ state.creator.Spares env.tip others given) (kept : state.store.Kept ctx)
    (owned : ∀ num, others num → state.store.Owns num)
    (ownedAfter : ∀ num, others num → after.store.Owns num)
    (listedAfter : ∀ hash ∈ given, after.store.Lists hash)
    : given ≠ [] ∧ ∀ hash ∈ given, ∃ block,
      after.store.vNewBlockTemplate state.store.created = some block
      ∧ hash = block.getHash ctx.digests.toHashing := by
  rw [Creator.Spares, not_or] at unspared
  obtain ⟨unseen, lost⟩ := unspared
  have drops := refreshed.drops unseen
  have alone : ∀ num, ¬ others num := by
    intro num other
    have latest := drops.1 num (ownedAfter num other)
    have earlier := kept.created_of_owns (owned num other)
    omega
  exact ⟨fun none => lost ⟨alone, none⟩, fun hash mem => drops.2 hash (listedAfter hash mem)⟩

end Refreshed

namespace MiningState

/-- Both `curBlocks` refer to owned templates, and every returned hash is a key. -/
structure Coherent (state : MiningState) (given : List Uint256) : Prop where
  rpc : ∀ num, state.rpc.Keeps num → state.store.Owns num
  datagram : ∀ num, state.datagram.Keeps num → state.store.Owns num
  given : ∀ hash ∈ given, state.store.Lists hash

def Spares (tip : BlockIndex) (given : List Uint256) (state : MiningState) : MiningCall → Prop
  | .createauxblock .. => state.rpc.Spares tip state.datagram.Keeps given
  | .createDatagram .. => state.datagram.Spares tip state.rpc.Keeps given
  | .getauxblock .. =>
    state.bip22.Spares tip (fun num => state.rpc.Keeps num ∨ state.datagram.Keeps num)
      given
  | _ => True

end MiningState

def MiningCall.AtTip (tip : BlockIndex) : MiningCall → Prop
  | .createauxblock env .. => env.tip = tip
  | .createDatagram env .. => env.tip = tip
  | .getauxblock env .. => env.tip = tip
  | _ => True

section Coherence

variable {ctx : MiningContext} {state after : MiningState} {tip : BlockIndex}
  {call : MiningCall} {given : List Uint256}

theorem listed_append {store} (kept : store.Kept ctx)
    (listed : ∀ hash ∈ given, store.Lists hash) {answer}
    (answers : AnswersOwned ctx store answer)
    : ∀ hash ∈ given ++ answer.toList, store.Lists hash := by
  intro hash mem
  rcases List.mem_append.mp mem with earlier | latest
  · exact listed hash earlier
  obtain ⟨num, block, owned, rfl⟩ := answers hash (mem_toList.mp latest)
  exact kept.listed num block owned

theorem LeavesCache.coherent (leaves : LeavesCache ctx state after)
    (coherent : state.Coherent given)
    : after.Coherent (given ++ []) := by
  rw [List.append_nil]
  refine ⟨?_, ?_, ?_⟩
  · rw [leaves.rpc]
    exact fun num keeps => leaves.owns num (coherent.rpc num keeps)
  · rw [leaves.datagram]
    exact fun num keeps => leaves.owns num (coherent.datagram num keeps)
  · intro hash mem
    rw [TemplateStore.Lists, leaves.lists]
    exact coherent.given hash mem

theorem coherent_call (kept : state.store.Kept ctx) (coherent : state.Coherent given)
    (atTip : call.AtTip tip) (spares : state.Spares tip given call)
    (ran : state.call ctx call = some after)
    : after.Coherent (given ++ (state.answer ctx call).toList) := by
  have keptAfter := kept_call ran kept
  cases call with
  | createauxblock env scriptPubKey id =>
    cases atTip
    obtain ⟨middle, pblock, refreshed, rpc, datagram, store, answers⟩ :=
      refreshed_createauxblock ran
    obtain ⟨others, listed⟩ := refreshed.spares spares coherent.datagram coherent.given
    rw [← store] at others listed
    refine ⟨?_, by rwa [datagram], listed_append keptAfter listed answers⟩
    rintro num ⟨key, pointer⟩
    rw [rpc] at pointer
    rw [store]
    exact refreshed.own (fun key num pointer => coherent.rpc num ⟨key, pointer⟩) key num
      pointer
  | createDatagram env scriptPubKey id =>
    cases atTip
    obtain ⟨middle, pblock, refreshed, rpc, datagram, store, answers⟩ :=
      refreshed_createDatagram ran
    obtain ⟨others, listed⟩ := refreshed.spares spares coherent.rpc coherent.given
    rw [← store] at others listed
    refine ⟨by rwa [rpc], ?_, listed_append keptAfter listed answers⟩
    rintro num ⟨key, pointer⟩
    rw [datagram] at pointer
    rw [store]
    exact refreshed.own (fun key num pointer => coherent.datagram num ⟨key, pointer⟩) key
      num pointer
  | getauxblock env scriptPubKey =>
    cases atTip
    obtain ⟨middle, pblock, refreshed, rpc, datagram, store, answers⟩ := refreshed_getauxblock ran
    obtain ⟨others, listed⟩ := refreshed.spares spares
      (fun num other => other.elim (coherent.rpc num) (coherent.datagram num))
      coherent.given
    rw [← store] at others listed
    refine ⟨?_, ?_, listed_append keptAfter listed answers⟩
    · rw [rpc]
      exact fun num keeps => others num (.inl keeps)
    · rw [datagram]
      exact fun num keeps => others num (.inr keeps)
  | submit hash auxpow => exact (leavesCache_submit ran).coherent coherent
  | submitBytes nChainIndex hashHex auxpowHex =>
    exact (leavesCache_submitBytes ran).coherent coherent
  | elsewhere retarget => exact (leavesCache_elsewhere ran).coherent coherent

theorem spoiled_call (kept : state.store.Kept ctx) (coherent : state.Coherent given)
    (atTip : call.AtTip tip) (unspared : ¬ state.Spares tip given call)
    (ran : state.call ctx call = some after)
    (still : after.Coherent (given ++ (state.answer ctx call).toList))
    : given ≠ [] ∧ ∀ hash ∈ given, ∃ block,
      after.store.vNewBlockTemplate state.store.created = some block
      ∧ hash = block.getHash ctx.digests.toHashing := by
  have listed : ∀ hash ∈ given, after.store.Lists hash :=
    fun hash mem => still.given hash (List.mem_append_left _ mem)
  cases call with
  | createauxblock env scriptPubKey id =>
    cases atTip
    obtain ⟨middle, pblock, refreshed, -, datagram, store, -⟩ := refreshed_createauxblock ran
    have others := still.datagram
    rw [datagram] at others
    rw [store] at others listed ⊢
    exact refreshed.spoils unspared kept coherent.datagram others listed
  | createDatagram env scriptPubKey id =>
    cases atTip
    obtain ⟨middle, pblock, refreshed, rpc, -, store, -⟩ := refreshed_createDatagram ran
    have others := still.rpc
    rw [rpc] at others
    rw [store] at others listed ⊢
    exact refreshed.spoils unspared kept coherent.rpc others listed
  | getauxblock env scriptPubKey =>
    cases atTip
    obtain ⟨middle, pblock, refreshed, rpc, datagram, store, -⟩ := refreshed_getauxblock ran
    have others := fun num keeps => Or.elim keeps (still.rpc num) (still.datagram num)
    rw [rpc, datagram] at others
    rw [store] at others listed ⊢
    exact refreshed.spoils unspared kept
      (fun num other => other.elim (coherent.rpc num) (coherent.datagram num))
      others listed
  | submit hash auxpow | submitBytes nChainIndex hashHex auxpowHex
  | elsewhere retarget => exact absurd trivial unspared

/-- What can be reached while the tip stays, by calls that spare the cache, with the hashes that
have been returned on the way.
-/
inductive Stretch (ctx : MiningContext) (tip : BlockIndex) (start : MiningState)
    : MiningState → List Uint256 → Prop
  | start : Stretch ctx tip start start []
  | call {state next : MiningState} {given : List Uint256} {call : MiningCall}
      (before : Stretch ctx tip start state given) (atTip : call.AtTip tip)
      (spares : state.Spares tip given call) (ran : state.call ctx call = some next)
    : Stretch ctx tip start next (given ++ (state.answer ctx call).toList)

theorem Stretch.coherent {start} (kept : start.store.Kept ctx) (coherent : start.Coherent [])
    (stretch : Stretch ctx tip start state given)
    : state.store.Kept ctx ∧ state.Coherent given := by
  induction stretch with
  | start => exact ⟨kept, coherent⟩
  | call before atTip spares ran ih =>
    exact ⟨kept_call ran ih.1, coherent_call ih.1 ih.2 atTip spares ran⟩

/-- From a state that some calls have led to and that is coherent: while the tip stays, calls
that spare the cache leave it coherent. A call that does not spare it spoils it, unless what
has been returned so far is the hash of the very template that it makes.
-/
theorem templates_coherent {files : RetargetFiles} {calls : List MiningCall}
    {start : MiningState} (reached : (MiningState.start files).run ctx calls = some start)
    (coherent : start.Coherent []) (stretch : Stretch ctx tip start state given)
    : state.Coherent given
      ∧ ∀ call next, call.AtTip tip → ¬ state.Spares tip given call
        → state.call ctx call = some next
        → next.Coherent (given ++ (state.answer ctx call).toList)
        → given ≠ [] ∧ ∀ hash ∈ given, ∃ block,
          next.store.vNewBlockTemplate state.store.created = some block
          ∧ hash = block.getHash ctx.digests.toHashing := by
  have empty : (MiningState.start files).store.Kept ctx :=
    ⟨fun _ _ owned => (by cases owned), fun _ _ owned => (by cases owned)⟩
  obtain ⟨kept, holds⟩ := stretch.coherent (kept_of_run reached empty) coherent
  exact ⟨holds, fun call next atTip unspared ran still =>
    spoiled_call kept holds atTip unspared ran still⟩

end Coherence

/-- A new process has nothing to lose. -/
theorem coherent_start (files) : (MiningState.start files).Coherent [] where
  rpc := by
    rintro num ⟨key, pointer⟩
    cases pointer
  datagram := by
    rintro num ⟨key, pointer⟩
    cases pointer
  given := nofun

/-- The RPC alone, called twice. -/
theorem templates_coherent_rpc
    : ∃ state given,
      Stretch mainMining genesisEnvironment.tip (MiningState.start noRetargetFiles) state given
      ∧ given.length = 2
      ∧ state.Coherent given := by
  obtain ⟨first, ran, seen, answered⟩ : ∃ first,
      (MiningState.start noRetargetFiles).call mainMining
        (.createauxblock genesisEnvironment [] 1) = some first
      ∧ first.rpc.pindexPrev = some genesisEnvironment.tip
      ∧ ((MiningState.start noRetargetFiles).answer mainMining
        (.createauxblock genesisEnvironment [] 1)).isSome = true := by
    refine ⟨_, rfl, ?_, ?_⟩
    all_goals rfl
  obtain ⟨second, again, answeredAgain⟩ : ∃ second,
      first.call mainMining (.createauxblock genesisEnvironment [] 1) = some second
      ∧ (first.answer mainMining (.createauxblock genesisEnvironment [] 1)).isSome = true := by
    cases ran
    refine ⟨_, rfl, ?_⟩
    rfl
  have atTip : (MiningCall.createauxblock genesisEnvironment [] 1).AtTip genesisEnvironment.tip :=
    rfl
  have alone : (MiningState.start noRetargetFiles).Spares genesisEnvironment.tip []
      (.createauxblock genesisEnvironment [] 1) :=
    .inr ⟨fun num keeps => absurd keeps.choose_spec nofun, rfl⟩
  have once := Stretch.call .start atTip alone ran
  have spares (given : List Uint256) : first.Spares genesisEnvironment.tip given
      (.createauxblock genesisEnvironment [] 1) := .inl seen
  have twice := Stretch.call once atTip (spares _) again
  have untouched : (MiningState.start noRetargetFiles).run mainMining []
      = some (MiningState.start noRetargetFiles) := rfl
  refine ⟨_, _, twice, ?_, (templates_coherent untouched (coherent_start _) twice).1⟩
  obtain ⟨hash, one⟩ := isSome_iff_exists.mp answered
  obtain ⟨other, two⟩ := isSome_iff_exists.mp answeredAgain
  rw [one, two]
  rfl

/-- `createauxblock` and then `getauxblock`, at one tip: the hash that the first returned is no
longer a key, its pointer dangles, and its next call follows it.
-/
theorem getauxblock_spoils_templates
    : ∃ first second hash num,
      (MiningState.start noRetargetFiles).call mainMining
        (.createauxblock genesisEnvironment [] 1) = some first
      ∧ (MiningState.start noRetargetFiles).answer mainMining
        (.createauxblock genesisEnvironment [] 1) = some hash
      ∧ first.call mainMining (.getauxblock genesisEnvironment [1]) = some second
      ∧ ¬ second.store.Lists hash
      ∧ second.rpc.Keeps num ∧ ¬ second.store.Owns num
      ∧ second.call mainMining (.createauxblock genesisEnvironment [] 1) = none := by
  refine ⟨_, _, _, 0, rfl, rfl, rfl, nofun, ⟨0, ?_⟩, nofun, ?_⟩
  all_goals rfl

end Pqcoin
