import Pqcoin.Mining.AuxWork

/-! Runs of a node over restarts, blocks, templates and work queries, in which no vector of
targets may be empty when its last entry is taken.
-/

namespace Pqcoin

open Option Reads
open RetargetGlobals (advance cleared periodTargets)

-- Runs of the node

/-- What happens to a node. `generate` is the loop of `generateBlocks` for one template;
`processNewBlock` is given the active tip that it ends with.
-/
inductive NodeCall where
  | restart
  | processNewBlock (tip : BlockIndex) (auxpow : Option AuxPow)
  | createauxblock (env : TemplateEnvironment) (scriptPubKey : Script) (id : BitVec 32)
  | createDatagram (env : TemplateEnvironment) (scriptPubKey : Script) (id : BitVec 32)
  | getauxblock (env : TemplateEnvironment) (scriptPubKey : Script)
  | generate (env : TemplateEnvironment) (scriptPubKey : Script)
  | getNextWorkRequired (pindexLast : BlockIndex) (pblock : PureBlockHeader) (params : Params)

namespace MiningState

def asRpc (state : MiningState) : CreatorState Uint160 :=
  ⟨state.rpc, state.store, state.hashPrevBlock, state.retarget⟩

def asDatagram (state : MiningState) : CreatorState Uint160 :=
  ⟨state.datagram, state.store, state.hashPrevBlock, state.retarget⟩

/-- What `getauxblockbip22` works on. -/
def asBip22 (state : MiningState) : CreatorState Unit :=
  ⟨state.bip22, state.store, state.hashPrevBlock, state.retarget⟩

variable (ctx : MiningContext)

def after (state : MiningState) : NodeCall → Option MiningState
  | .restart => some (.start state.retarget.files)
  | .processNewBlock tip auxpow =>
    (state.retarget.recordBlock ctx.toRetargetContext tip auxpow).map
      (fun retarget => { state with retarget := retarget })
  | .createauxblock env scriptPubKey id =>
    (newAuxMiningCreateBlock ctx env scriptPubKey id state).map Prod.fst
  | .createDatagram env scriptPubKey id =>
    (newAuxMiningCreateDatagram ctx env scriptPubKey id state).map Prod.fst
  | .getauxblock env scriptPubKey =>
    (getauxblockbip22 ctx env scriptPubKey state).map Prod.fst
  | .generate env scriptPubKey =>
    (createNewBlock ctx env scriptPubKey state.retarget).map
      (fun made => { state with retarget := made.1 })
  | .getNextWorkRequired pindexLast pblock params =>
    (Pqcoin.getNextWorkRequired state.retarget.ltc_nBits pindexLast pblock params).map
      (fun _ => state)

def reads (state : MiningState) : NodeCall → Reads
  | .restart => []
  | .processNewBlock tip auxpow =>
    blockReads ctx.toRetargetContext tip auxpow state.retarget
  | .createauxblock env scriptPubKey id =>
    let scriptID := ctx.digests.hash160 scriptPubKey
    refreshReads ctx env true scriptID state.asRpc
      ++ match refreshed ctx env true scriptID scriptPubKey state.asRpc with
        | some (_, r) =>
          if id = 1 ∨ id = 2 then [r.fillNBits.ltc_nBits, r.fillNBits.btc_nBits] else []
        | none => []
  | .createDatagram env scriptPubKey _ =>
    let scriptID := ctx.digests.hash160 scriptPubKey
    refreshReads ctx env true scriptID state.asDatagram
      ++ match refreshed ctx env true scriptID scriptPubKey state.asDatagram with
        | some (block, r) =>
          if invalidBits block.nBits then [] else [r.ltc_nBits, r.btc_nBits]
        | none => []
  | .getauxblock env _ => refreshReads ctx env false () state.asBip22
  | .generate env scriptPubKey =>
    createReads ctx env state.retarget
      ++ match createNewBlock ctx env scriptPubKey state.retarget with
        | some (r, .ok _) => [r.ltc_nBits]
        | _ => []
  | .getNextWorkRequired pindexLast pblock params =>
    workReads state.retarget.ltc_nBits pindexLast pblock params

def Filled (state : MiningState) : NodeCall → Prop
  | .restart => True
  | .processNewBlock tip _ => BlockFilled ctx.toRetargetContext tip state.retarget
  | .createauxblock env scriptPubKey id =>
    let scriptID := ctx.digests.hash160 scriptPubKey
    let needs := state.rpc.NeedsTemplate env true scriptID
    (needs → CreateFilled ctx env state.retarget)
      ∧ (id = 1 ∨ id = 2
        → (refreshed ctx env true scriptID scriptPubKey state.asRpc).isSome
        → RpcFilled needs (env.tip.nHeight + 1) state.retarget)
  | .createDatagram env scriptPubKey _ =>
    let scriptID := ctx.digests.hash160 scriptPubKey
    let needs := state.datagram.NeedsTemplate env true scriptID
    (needs → CreateFilled ctx env state.retarget)
      ∧ ((refreshed ctx env true scriptID scriptPubKey state.asDatagram).any
          (fun served => !invalidBits served.1.nBits)
        → DatagramFilled needs (env.tip.nHeight + 1) state.retarget)
  | .getauxblock env _ =>
    state.bip22.NeedsTemplate env false () → CreateFilled ctx env state.retarget
  | .generate env _ => CreateFilled ctx env state.retarget
  | .getNextWorkRequired pindexLast pblock params =>
    AsksForRetarget pindexLast pblock params → state.retarget.ltc_nBits ≠ []

variable {ctx} {state : MiningState}

theorem reads_defined_iff (call)
    : (state.reads ctx call).Defined ↔ state.Filled ctx call := by
  cases call with
  | restart => exact iff_of_true defined_nil trivial
  | processNewBlock tip auxpow => exact blockReads_defined_iff
  | createauxblock env scriptPubKey id =>
    simp only [reads, Filled, defined_append, refreshReads_defined_iff]
    refine and_congr Iff.rfl ?_
    cases served : refreshed ctx env true (ctx.digests.hash160 scriptPubKey)
        scriptPubKey state.asRpc with
    | none => simp
    | some pair =>
      have filled := rpcFilled_iff served
      simp only [asRpc] at filled
      simp only [← filled, isSome_some, true_implies]
      by_cases known : id = 1 ∨ id = 2
      · simp only [if_pos known, defined_cons, defined_nil, and_true]
        exact ⟨fun read _ => read, fun read => read known⟩
      · rw [if_neg known]
        exact iff_of_true defined_nil fun asked => absurd asked known
  | createDatagram env scriptPubKey id =>
    simp only [reads, Filled, defined_append, refreshReads_defined_iff]
    refine and_congr Iff.rfl ?_
    cases served : refreshed ctx env true (ctx.digests.hash160 scriptPubKey)
        scriptPubKey state.asDatagram with
    | none => simp
    | some pair =>
      have filled := datagramFilled_iff served
      simp only [asDatagram] at filled
      simp only [← filled, any_some]
      split <;> simp [*]
  | getauxblock env scriptPubKey => exact refreshReads_defined_iff
  | generate env scriptPubKey =>
    simp only [reads, Filled, defined_append, createReads_defined_iff]
    refine and_iff_left ?_
    split
    · rename_i made
      simp [(createNewBlock_cases made).2.2]
    · exact defined_nil
  | getNextWorkRequired pindexLast pblock params => exact workReads_defined_iff

/-- A call that reads an empty vector has no outcome. -/
theorem reads_of_after {call next} (ran : state.after ctx call = some next)
    : (state.reads ctx call).Defined := by
  cases call with
  | restart => exact defined_nil
  | processNewBlock tip auxpow =>
    obtain ⟨_, ran, -⟩ := map_eq_some_iff.mp ran
    exact blockReads_of_ran ran
  | createauxblock env scriptPubKey id =>
    obtain ⟨_, ran, -⟩ := map_eq_some_iff.mp ran
    obtain ⟨⟨after, pblock⟩, made, ran⟩ := bind_eq_some_iff.mp ran
    refine servedReads_of_ran made fun num block found owned => ?_
    subst found
    simp only [serveTemplate, owned, bind_eq_bind, bind_some, bind_eq_some_iff] at ran
    obtain ⟨_, ran, -⟩ := ran
    split
    · rw [if_neg (by tauto)] at ran
      obtain ⟨nbits, served, -⟩ := bind_eq_some_iff.mp ran
      exact servedBits_filled served
    · exact defined_nil
  | createDatagram env scriptPubKey id =>
    obtain ⟨_, ran, -⟩ := map_eq_some_iff.mp ran
    obtain ⟨⟨after, pblock⟩, made, ran⟩ := bind_eq_some_iff.mp ran
    refine servedReads_of_ran made fun num block found owned => ?_
    subst found
    simp only [serveDatagram, owned, bind_eq_bind, bind_some, bind_eq_some_iff] at ran
    obtain ⟨_, ran, -⟩ := ran
    split
    · exact defined_nil
    · rename_i known
      rw [if_neg known] at ran
      obtain ⟨nbits, served, -⟩ := bind_eq_some_iff.mp ran
      exact servedBits_filled served
  | getauxblock env scriptPubKey =>
    obtain ⟨_, ran, -⟩ := map_eq_some_iff.mp ran
    obtain ⟨_, made, -⟩ := bind_eq_some_iff.mp ran
    exact refreshReads_of_ran made
  | generate env scriptPubKey =>
    obtain ⟨made, ran, -⟩ := map_eq_some_iff.mp ran
    refine defined_append.mpr ⟨createReads_of_ran ran, ?_⟩
    split
    · rename_i made
      simp [(createNewBlock_cases made).2.2]
    · exact defined_nil
  | getNextWorkRequired pindexLast pblock params =>
    obtain ⟨_, ran, -⟩ := map_eq_some_iff.mp ran
    exact workReads_of_answer (by simp [ran])

variable (ctx)

/-- In a whole run no vector is empty when its last entry is taken. -/
def ReadsDefined : MiningState → List NodeCall → Prop
  | _, [] => True
  | state, call :: rest =>
    (state.reads ctx call).Defined
      ∧ ∀ next, state.after ctx call = some next → next.ReadsDefined rest

/-- In a whole run every call finds the vectors as it needs them. -/
def AlwaysFilled : MiningState → List NodeCall → Prop
  | _, [] => True
  | state, call :: rest =>
    state.Filled ctx call
      ∧ ∀ next, state.after ctx call = some next → next.AlwaysFilled rest

end MiningState

/-- No run of a node reads an empty vector exactly if each of its calls finds the vectors as it
needs them.
-/
theorem reads_defined_throughout_iff (ctx : MiningContext) (state : MiningState)
    (calls : List NodeCall)
    : state.ReadsDefined ctx calls ↔ state.AlwaysFilled ctx calls := by
  induction calls generalizing state with
  | nil => exact Iff.rfl
  | cons call rest ih =>
    refine and_congr (MiningState.reads_defined_iff call) ?_
    exact forall_congr' fun next => imp_congr_right fun _ => ih next

-- A restart on the test network

/-- `auxpowConsensus` of `CTestNetParams`, which is in force from height `0` on. The network sets
no `initPowDifficulty`.
-/
def testConsensus : Params where
  hashGenesisBlock := 0
  BIP65Height := 1854705
  BIP66Height := 708658
  powLimit := BitVec.ofNat 256 (2 ^ 255 - 1)
  initPowDifficulty := 0
  fPowAllowMinDifficultyBlocks := true
  nPowTargetSpacing := 60
  nPowTargetTimespan := 60
  nAuxpowChainId := 0x0062
  fStrictChainId := false
  fAllowLegacyBlocks := false
  nHeightEffective := 0

theorem getConsensus_testConsensus (nTargetHeight)
    : ChainParams.getConsensus ⟨testConsensus, .nil, .nil, []⟩ nTargetHeight = testConsensus := by
  rw [ChainParams.getConsensus, ConsensusTree.getConsensus]
  split_ifs <;> rfl

def testMining : MiningContext where
  chainparams := ⟨testConsensus, .nil, .nil, []⟩
  modulation := mainRetarget.modulation
  positive _ := by rw [getConsensus_testConsensus]; decide
  digests := mainMining.digests
  generateMTRandom _ _ := 0
  subsidyParams _ := ⟨100000, true⟩
  nChainId := 0x62
  sameChainId _ := by rw [getConsensus_testConsensus]; rfl
  smallChainId := mainMining.smallChainId

/-- After a restart at height 1, `createauxblock` asks for the next target before it has loaded
the vector that the target is taken from.
-/
theorem createauxblock_reads_empty_vector
    : ¬ (MiningState.start noRetargetFiles).ReadsDefined testMining
        [.processNewBlock (plainChain 1) none, .restart,
          .createauxblock { genesisEnvironment with tip := plainChain 1 } [] 1] := by
  rintro ⟨_, restarted⟩
  obtain ⟨_, called⟩ := restarted _ rfl
  obtain ⟨read, _⟩ := called _ rfl
  rw [MiningState.reads_defined_iff] at read
  exact (read.1 rfl nofun).1 rfl (by decide +kernel) rfl

end Pqcoin
