import Pqcoin.Consensus.AuxPow
import Pqcoin.Consensus.Merkle
import Pqcoin.Consensus.Subsidy
import Pqcoin.Keys.PubKey
import Pqcoin.Retarget.NextWork
import Pqcoin.Retarget.State
import Pqcoin.Script.Num

/-! Block templates for merge-mining: `CreateNewBlock`, and the three functions that keep
templates in the cache they share. Undefined behaviour is `none`: a dangling or null pointer,
the last entry of an empty vector, a shift by too much.
-/

namespace Pqcoin

open Script

-- CreateNewBlock

/-- The network that templates are made for. All its parameter sets have one chain
identifier, which survives the upper half of a version.
-/
structure MiningContext extends RetargetContext where
  digests : Digests
  generateMTRandom : Nat → Int → Int
  subsidyParams : Nat → SubsidyParams
  nChainId : BitVec 32
  sameChainId : ∀ nHeight, (chainparams.getConsensus nHeight).nAuxpowChainId = nChainId
  smallChainId : nChainId.toNat < 2 ^ 15

/-- What the node answers while a template is made: the tip, the clocks, the counter of the
mempool, the transactions selected from it with their fees, the outputs of the witness
commitment, and what `TestBlockValidity` has against a block.
-/
structure TemplateEnvironment where
  tip : BlockIndex
  time : BitVec 64
  nTransactionsUpdated : BitVec 32
  adjustedTime : Int
  selected : List Transaction
  nFees : Amount
  commitment : List TxOut
  testBlockValidity : Block → Option String

/-- What `createauxblock` and its relatives throw. -/
inductive TemplateError where
  | testBlockValidityFailed (message : String)
  | wrongId
  | invalidBits
  deriving DecidableEq

/-- `what()`. -/
def TemplateError.message : TemplateError → String
  | .testBlockValidityFailed message => "CreateNewBlock: TestBlockValidity failed: " ++ message
  | .wrongId => "wrong id"
  | .invalidBits => "invalid difficulty bits in block"

/-- The part of `CreateNewBlock` that fills the vectors of targets. Above height 2016 the
second test looks at the Litecoin vector once more.
-/
def RetargetState.initNBits (ctx : RetargetContext) (nHeight : Nat) (r : RetargetState)
    : RetargetState :=
  if nHeight > 2016 then
    let r := if r.ltc_nBits = [] then { r with ltc_nBits := r.files.ltcNbitsTxt } else r
    if r.ltc_nBits = [] then { r with btc_nBits := r.files.btcNbitsTxt } else r
  else
    let init := compactOf (ctx.consensus nHeight).initPowDifficulty
    let r := if r.ltc_nBits = [] then { r with ltc_nBits := [init] } else r
    if r.btc_nBits = [] then { r with btc_nBits := [init] } else r

/-- `UpdateTime`: the time of a new header, which had the adjusted time before. -/
def templateTime (env : TemplateEnvironment) : BitVec 32 :=
  let nTime := BitVec.ofInt 32 env.adjustedTime
  let nNewTime := max (env.tip.getMedianTimePast + 1) env.adjustedTime
  if (nTime.toNat : Int) < nNewTime then BitVec.ofInt 32 nNewTime else nTime

def templateCoinbase (env : TemplateEnvironment) (scriptSig scriptPubKey : Script) (subsidy : Int)
    : Transaction where
  nVersion := 1
  vin := [⟨⟨0, 0xffffffff⟩, scriptSig, 0xffffffff, []⟩]
  vout := ⟨env.nFees + BitVec.ofInt 64 subsidy, scriptPubKey⟩ :: env.commitment
  nLockTime := 0

/-- `CreateNewBlock`. The vectors of targets are filled even where it throws. Networks with
minimum-difficulty blocks ask for the next target first, and drop the answer.
-/
def createNewBlock (ctx : MiningContext) (env : TemplateEnvironment) (scriptPubKey : Script)
    (r : RetargetState)
    : Option (RetargetState × Except TemplateError Block) :=
  let nHeight := env.tip.nHeight + 1
  let consensus := ctx.consensus nHeight
  let header : PureBlockHeader :=
    ⟨ctx.nChainId <<< 16 ||| 4, env.tip.hash, 0, templateTime env, 0, 0⟩
  match getPqcoinBlockSubsidy ctx.generateMTRandom nHeight (ctx.subsidyParams nHeight)
      env.tip.hash with
  | none => none
  | some subsidy =>
    let asked :=
      if consensus.fPowAllowMinDifficultyBlocks then
        getNextWorkRequired r.ltc_nBits env.tip header consensus
      else some 0
    match asked with
    | none => none
    | some _ =>
      let r := r.initNBits ctx.toRetargetContext nHeight
      match r.ltc_nBits.getLast? with
      | none => none
      | some nBits =>
        let coinbase := templateCoinbase env (pushInt64 nHeight ++ [OP_0]) scriptPubKey subsidy
        let block : Block :=
          {
            toPureBlockHeader := { header with nBits := nBits }
            auxpow := none
            vtx := coinbase :: env.selected
            fChecked := false
          }
        match env.testBlockValidity block with
        | some message => some (r, .error (.testBlockValidityFailed message))
        | none => some (r, .ok block)

-- The cache

/-- The templates that the creating and the submitting functions share. A template has a
number, which stands for its address; `vNewBlockTemplate` owns the templates that have not
been freed.
-/
structure TemplateStore where
  mapNewBlock : Uint256 → Option Nat
  vNewBlockTemplate : Nat → Option Block
  created : Nat

namespace TemplateStore

def empty : TemplateStore := ⟨fun _ => none, fun _ => none, 0⟩

/-- `mapNewBlock.clear()` and `vNewBlockTemplate.clear()`. -/
def clear (store : TemplateStore) : TemplateStore := { empty with created := store.created }

def add (H : Hashing) (block : Block) (store : TemplateStore) : TemplateStore where
  mapNewBlock hash := if hash = block.getHash H then some store.created else store.mapNewBlock hash
  vNewBlockTemplate num :=
    if num = store.created then some block else store.vNewBlockTemplate num
  created := store.created + 1

def put (num : Nat) (block : Block) (store : TemplateStore) : TemplateStore :=
  { store with
    vNewBlockTemplate := fun other =>
      if other = num then some block else store.vNewBlockTemplate other }

end TemplateStore

/-- The static variables of a creating function; `curBlocks` has one entry for each payout
script, or a single one.
-/
structure Creator (K : Type) where
  nTransactionsUpdatedLast : BitVec 32
  pindexPrev : Option BlockIndex
  nStart : BitVec 64
  curBlocks : K → Option Nat
  nExtraNonce : BitVec 32

def Creator.initial (K : Type) : Creator K := ⟨0, none, 0, fun _ => none, 0⟩

/-- Everything that template creation reads and writes; `hashPrevBlock` is the static variable
of `IncrementExtraNonce`.
-/
structure MiningState where
  rpc : Creator Uint160
  datagram : Creator Uint160
  bip22 : Creator Unit
  store : TemplateStore
  hashPrevBlock : Uint256
  retarget : RetargetState

def MiningState.start (files : RetargetFiles) : MiningState :=
  ⟨.initial _, .initial _, .initial _, .empty, 0, ⟨.cleared, files⟩⟩

-- Creating functions

/-- `IncrementExtraNonce` on the number: it restarts at another previous block. -/
def incrementExtraNonce (hashPrevBlock : Uint256) (block : Block) (nExtraNonce : BitVec 32)
    : BitVec 32 :=
  (if hashPrevBlock ≠ block.hashPrevBlock then 0 else nExtraNonce) + 1

/-- `IncrementExtraNonce` on the block, and `SetAuxpowFlag(true)`. -/
def finaliseBlock (H : Hashing) (tip : BlockIndex) (nExtraNonce : BitVec 32) (block : Block)
    : Block :=
  let scriptSig := pushInt64 (tip.nHeight + 1) ++ pushData (serializeNum nExtraNonce.toNat)
  let vtx := block.vtx.modifyHead (fun coinbase =>
    { coinbase with vin := coinbase.vin.modifyHead (fun txin =>
        { txin with scriptSig := scriptSig }) })
  { block with
    vtx := vtx
    hashMerkleRoot := (blockMerkleRoot H vtx).1
    nVersion := block.nVersion ||| PureBlockHeader.VERSION_AUXPOW }

section Create

variable {K : Type} [DecidableEq K] (ctx : MiningContext) (env : TemplateEnvironment)

def Creator.isOutdated (creator : Creator K) : Bool :=
  creator.pindexPrev != some env.tip
    || (env.nTransactionsUpdated != creator.nTransactionsUpdatedLast
      && decide (60 < (env.time - creator.nStart).toNat))

/-- What a creating function works on: its own variables and the shared ones. -/
structure CreatorState (K : Type) where
  creator : Creator K
  store : TemplateStore
  hashPrevBlock : Uint256
  retarget : RetargetState

/-- "Clear old blocks since they're obsolete now." The templates of the other functions go
too.
-/
def CreatorState.dropObsolete (state : CreatorState K) : CreatorState K :=
  if state.creator.pindexPrev = some env.tip then state
  else
    { state with
      creator := { state.creator with curBlocks := fun _ => none }
      store := state.store.clear }

def CreatorState.save (key : K) (block : Block) (state : CreatorState K) : CreatorState K :=
  let nExtraNonce := incrementExtraNonce state.hashPrevBlock block state.creator.nExtraNonce
  let block := finaliseBlock ctx.digests.toHashing env.tip nExtraNonce block
  {
    state with
    creator :=
      {
        nTransactionsUpdatedLast := env.nTransactionsUpdated
        pindexPrev := some env.tip
        nStart := env.time
        curBlocks := fun other =>
          if other = key then some state.store.created else state.creator.curBlocks other
        nExtraNonce := nExtraNonce
      }
    store := state.store.add ctx.digests.toHashing block
    hashPrevBlock := block.hashPrevBlock
  }

/-- The part that the creating functions have in common: a new template, unless the one in
`curBlocks` is still good. `required` says that a template must be made where there is none.
-/
def CreatorState.refresh (required : Bool) (key : K) (scriptPubKey : Script)
    (state : CreatorState K)
    : Option (CreatorState K × Except TemplateError (Option Nat)) :=
  let pblock := state.creator.curBlocks key
  if (required && pblock.isNone) || state.creator.isOutdated env then
    let state := state.dropObsolete env
    match createNewBlock ctx env scriptPubKey state.retarget with
    | none => none
    | some (retarget, .error error) => some ({ state with retarget := retarget }, .error error)
    | some (retarget, .ok block) =>
      some (({ state with retarget := retarget }).save ctx env key block,
        .ok (some state.store.created))
  else some (state, .ok pblock)

end Create

/-- What the creating functions answer. -/
structure AuxTemplate where
  hash : Uint256
  chainid : BitVec 32
  previousblockhash : Uint256
  coinbasevalue : Amount
  nbits : BitVec 32
  height : Nat
  target : BaseUint

/-- The answer for a template; there is none without an output in the coinbase. -/
def auxTemplate (H : Hashing) (block : Block) (nbits : BitVec 32) (pindexPrev : Option BlockIndex)
    : Option AuxTemplate := do
  let coinbase ← block.vtx.head?
  let output ← coinbase.vout.head?
  let tip ← pindexPrev
  return {
    hash := block.getHash H
    chainid := block.getChainId
    previousblockhash := block.hashPrevBlock
    coinbasevalue := output.nValue
    nbits := nbits
    height := tip.nHeight + 1
    target := (BaseUint.setCompact block.nBits).target
  }

/-- `fNegative || fOverflow || target == 0`. -/
def invalidBits (nBits : BitVec 32) : Bool :=
  let compact := BaseUint.setCompact nBits
  compact.fNegative || compact.fOverflow || compact.target.equalTo 0

/-- The vectors are filled again before they are read: from the files once four periods have
been counted, with a fixed target before.
-/
def RetargetState.fillNBits (r : RetargetState) : RetargetState :=
  if r.ltc_block_counts.length ≥ 4 then
    let r := if r.ltc_nBits = [] then { r with ltc_nBits := r.files.ltcNbitsTxt } else r
    if r.btc_nBits = [] then { r with btc_nBits := r.files.btcNbitsTxt } else r
  else
    let limit := compactOf (BitVec.ofNat 256 (2 ^ 255 - 1))
    let r := if r.ltc_nBits = [] then { r with ltc_nBits := [limit] } else r
    if r.btc_nBits = [] then { r with btc_nBits := [limit] } else r

/-- The entry that is served for a miner: Bitcoin for `2`, Litecoin otherwise. The log takes
the last entry of both vectors.
-/
def RetargetState.servedBits (r : RetargetState) (id : BitVec 32) : Option (BitVec 32) :=
  match r.ltc_nBits.getLast?, r.btc_nBits.getLast? with
  | some ltc, some btc => some (if id = 2 then btc else ltc)
  | _, _ => none

section Served

variable (ctx : MiningContext) (env : TemplateEnvironment)

/-- An answer with the number of its template. -/
abbrev Served := Except TemplateError (Nat × AuxTemplate)

/-- The end of `newAuxMiningCreateBlock` for a template, behind the RPC. -/
def serveTemplate (id : BitVec 32) (pindexPrev : Option BlockIndex) (store : TemplateStore)
    (num : Nat) (r : RetargetState)
    : Option (RetargetState × Served) := do
  let block ← store.vNewBlockTemplate num
  if id ≠ 1 ∧ id ≠ 2 then return (r, .error .wrongId)
  else
    let r := r.fillNBits
    let nbits ← r.servedBits id
    if invalidBits block.nBits then return (r, .error .invalidBits)
    else
      let template ← auxTemplate ctx.digests.toHashing block nbits pindexPrev
      return (r, .ok (num, template))

def newAuxMiningCreateBlock (scriptPubKey : Script) (id : BitVec 32) (state : MiningState)
    : Option (MiningState × Served) := do
  let scriptID := ctx.digests.hash160 scriptPubKey
  let (after, pblock) ← CreatorState.refresh ctx env true scriptID scriptPubKey
    ⟨state.rpc, state.store, state.hashPrevBlock, state.retarget⟩
  let state :=
    { state with
      rpc := after.creator, store := after.store, hashPrevBlock := after.hashPrevBlock,
      retarget := after.retarget }
  match pblock with
  | .error error => return (state, .error error)
  | .ok pblock =>
    let num ← pblock
    let (retarget, served) ← serveTemplate ctx id after.creator.pindexPrev after.store
      num after.retarget
    return ({ state with retarget := retarget }, served)

/-- The end of `newAuxMiningCreateBlock` for datagrams: the log reads both vectors before they
are filled.
-/
def serveDatagram (id : BitVec 32) (store : TemplateStore) (num : Nat) (r : RetargetState)
    : Option (RetargetState × Except TemplateError (Nat × Uint256 × BitVec 32)) := do
  let block ← store.vNewBlockTemplate num
  if invalidBits block.nBits then return (r, .error .invalidBits)
  else
    let nbits ← r.servedBits id
    return (r, .ok (num, block.getHash ctx.digests.toHashing, nbits))

def newAuxMiningCreateDatagram (scriptPubKey : Script) (id : BitVec 32) (state : MiningState)
    : Option (MiningState × Except TemplateError (Nat × Uint256 × BitVec 32)) := do
  let scriptID := ctx.digests.hash160 scriptPubKey
  let (after, pblock) ← CreatorState.refresh ctx env true scriptID scriptPubKey
    ⟨state.datagram, state.store, state.hashPrevBlock, state.retarget⟩
  let state :=
    { state with
      datagram := after.creator, store := after.store, hashPrevBlock := after.hashPrevBlock,
      retarget := after.retarget }
  match pblock with
  | .error error => return (state, .error error)
  | .ok pblock =>
    let num ← pblock
    let (retarget, served) ← serveDatagram ctx id after.store num after.retarget
    return ({ state with retarget := retarget }, served)

/-- The creating half of `getauxblockbip22`, which serves the target of the template. -/
def getauxblockbip22 (scriptPubKey : Script) (state : MiningState)
    : Option (MiningState × Served) := do
  let (after, pblock) ← CreatorState.refresh ctx env false () scriptPubKey
    ⟨state.bip22, state.store, state.hashPrevBlock, state.retarget⟩
  let state :=
    { state with
      bip22 := after.creator, store := after.store, hashPrevBlock := after.hashPrevBlock,
      retarget := after.retarget }
  match pblock with
  | .error error => return (state, .error error)
  | .ok pblock =>
    let num ← pblock
    let block ← after.store.vNewBlockTemplate num
    if invalidBits block.nBits then return (state, .error .invalidBits)
    else
      let template ← auxTemplate ctx.digests.toHashing block block.nBits
        after.creator.pindexPrev
      return (state, .ok (num, template))

end Served

end Pqcoin
