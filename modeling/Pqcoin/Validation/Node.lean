import Pqcoin.Retarget.Restart
import Pqcoin.Validation.Headers

/-! The state of a node and the calls that `ProcessNewBlock` makes on it: `AcceptBlock`,
`ActivateBestChain`, and then the retarget update.
-/

namespace Pqcoin

open List

-- The node

/-- What block processing reads besides the node. `ContextualCheckBlock` and `ConnectBlock`
are kept as their verdicts on a block in its place in the chain, and `address` orders index
entries as pointers.
-/
structure NodeContext extends RetargetContext where
  H : Hashing
  fCheckpointsEnabled : Bool
  contextualCheckBlock : Block → Option BlockIndex → Except Failure Unit
  connectBlock : Block → BlockIndex → Except Failure Unit
  address : Uint256 → Nat

def NodeContext.toHeaderContext (ctx : NodeContext) (nAdjustedTime : Int) : HeaderContext :=
  ⟨ctx.H, ctx.chainparams, ctx.fCheckpointsEnabled, nAdjustedTime, ctx.address⟩

/-- The globals of block processing. The counters of an index entry are kept by its hash, the
block files hold what `WriteBlockToDisk` stored, and `tip` is that of `chainActive`.
-/
structure Node extends HeaderState where
  nTx : Uint256 → BitVec 32
  nChainTx : Uint256 → BitVec 32
  nSequenceId : Uint256 → BitVec 32
  nBlockSequenceId : BitVec 32
  setBlockIndexCandidates : List BlockIndex
  mapBlocksUnlinked : List (BlockIndex × BlockIndex)
  blockFiles : Uint256 → Option Block
  tip : BlockIndex
  retarget : RetargetState

/-- The arguments of a call of `ProcessNewBlock`, and the time of the call. -/
structure Delivery where
  block : Block
  fForceProcessing : Bool
  nAdjustedTime : Int

/-- What `ProcessNewBlock` returns, with its output parameter. -/
structure Reply where
  ret : Bool
  fNewBlock : Bool
  deriving DecidableEq

/-- How a step towards the best chain ends. -/
inductive Progress where
  | stopped
  | advanced (fInvalidFound : Bool)
  deriving DecidableEq

namespace Node

variable (ctx : NodeContext) (node : Node)

/-- `CBlockIndexWorkComparator`: less work, then a later arrival, then a higher address. -/
def worse (pa pb : BlockIndex) : Bool :=
  let ida := (node.nSequenceId pa.hash).toInt
  let idb := (node.nSequenceId pb.hash).toInt
  if pa.nChainWork.gt pb.nChainWork then false
  else if pb.nChainWork.gt pa.nChainWork then true
  else if ida < idb then false
  else if idb < ida then true
  else decide (ctx.address pb.hash < ctx.address pa.hash)

def HaveData (idx : BlockIndex) : Prop :=
  node.nStatus idx.hash &&& BLOCK_HAVE_DATA ≠ 0

instance (node : Node) (idx : BlockIndex) : Decidable (node.HaveData idx) :=
  inferInstanceAs (Decidable (_ ≠ _))

def Contains (idx : BlockIndex) : Prop :=
  node.tip.ancestor idx.nHeight = some idx

instance (node : Node) (idx : BlockIndex) : Decidable (node.Contains idx) :=
  inferInstanceAs (Decidable (_ = _))

def setFlag (node : Node) (idx : BlockIndex) (flag : BitVec 32) : Node :=
  { node with toHeaderState := node.toHeaderState.setFlag idx flag }

def raiseValidity (node : Node) (idx : BlockIndex) (nUpTo : BitVec 32) : Node :=
  { node with toHeaderState := node.toHeaderState.raiseValidity idx nUpTo }

def dropCandidate (idx : BlockIndex) : Node :=
  { node with setBlockIndexCandidates := node.setBlockIndexCandidates.erase idx }

-- AcceptBlock

/-- Blocks this far above the tip are not processed unless they were requested. -/
def MIN_BLOCKS_TO_KEEP : Nat := 1440

/-- The turn of one entry of the queue: it gets its `nChainTx` and its sequence number, and is
a candidate unless it is worse than the tip.
-/
def link (pindex : BlockIndex) (node : Node) : Node :=
  let before := (pindex.pprev.map (fun pprev => node.nChainTx pprev.hash)).getD 0
  let linked : Node :=
    {
      node with
      nChainTx := Function.update node.nChainTx pindex.hash (before + node.nTx pindex.hash)
      nSequenceId := Function.update node.nSequenceId pindex.hash node.nBlockSequenceId
      nBlockSequenceId := node.nBlockSequenceId + 1
    }
  if linked.worse ctx pindex linked.tip then linked
  else
    { linked with setBlockIndexCandidates := linked.setBlockIndexCandidates.insert pindex }

/-- `mapBlocksUnlinked.equal_range`, which keeps the order of insertion. -/
def waitingFor (pindex : BlockIndex) : List (BlockIndex × BlockIndex) :=
  (node.mapBlocksUnlinked.filter (fun entry => entry.1 == pindex)).reverse

/-- The rest of `mapBlocksUnlinked`. -/
def notWaitingFor (pindex : BlockIndex) : List (BlockIndex × BlockIndex) :=
  node.mapBlocksUnlinked.filter (fun entry => !(entry.1 == pindex))

theorem mem_waitingFor {node : Node} {pindex entry}
    : entry ∈ node.waitingFor pindex ↔ entry ∈ node.mapBlocksUnlinked ∧ entry.1 = pindex := by
  rw [waitingFor, mem_reverse, mem_filter, beq_iff_eq]

theorem length_waitingFor (pindex)
    : (node.waitingFor pindex).length + (node.notWaitingFor pindex).length
      = node.mapBlocksUnlinked.length := by
  rw [waitingFor, length_reverse]
  exact (length_eq_length_filter_add _).symm

/-- The loop of `ReceivedBlockTransactions` over the entries that can now be connected. -/
def linkLoop (ctx : NodeContext) : List BlockIndex → Node → Node
  | [], node => node
  | pindex :: queue, node =>
    linkLoop ctx (queue ++ (node.waitingFor pindex).map Prod.snd)
      { node.link ctx pindex with mapBlocksUnlinked := node.notWaitingFor pindex }
termination_by queue node => queue.length + node.mapBlocksUnlinked.length
decreasing_by
  have all := length_waitingFor node pindex
  simp only [length_append, length_map, length_cons]
  omega

/-- The block is on disk, without its `fChecked`, and its entry knows that. -/
def storeBlock (block : Block) (pindexNew : BlockIndex) (node : Node) : Node :=
  let stored : Node :=
    {
      node with
      nTx := Function.update node.nTx pindexNew.hash (BitVec.ofNat 32 block.vtx.length)
      nChainTx := Function.update node.nChainTx pindexNew.hash 0
      blockFiles :=
        Function.update node.blockFiles pindexNew.hash (some { block with fChecked := false })
    }
  (stored.setFlag pindexNew BLOCK_HAVE_DATA).raiseValidity pindexNew BLOCK_VALID_TRANSACTIONS

def receivedBlockTransactions (block : Block) (pindexNew : BlockIndex) (node : Node)
    : Node :=
  let received := node.storeBlock block pindexNew
  match pindexNew.pprev with
  | none => linkLoop ctx [pindexNew] received
  | some pprev =>
    if received.nChainTx pprev.hash ≠ 0 then linkLoop ctx [pindexNew] received
    else if received.IsValid pprev BLOCK_VALID_TREE then
      { received with mapBlocksUnlinked := (pprev, pindexNew) :: received.mapBlocksUnlinked }
    else received

/-- The node after its header was accepted. A new entry starts with its counters at zero. -/
def enterHeader (headers : HeaderState) (pindex : BlockIndex) (node : Node) : Node :=
  let start (counter : Uint256 → BitVec 32) :=
    if (node.find pindex.hash).isSome then counter else Function.update counter pindex.hash 0
  {
    node with
    toHeaderState := headers
    nTx := start node.nTx
    nChainTx := start node.nChainTx
    nSequenceId := start node.nSequenceId
  }

theorem nChainTx_enterHeader (headers pindex) (node : Node) {hash} (apart : hash ≠ pindex.hash)
    : (node.enterHeader headers pindex).nChainTx hash = node.nChainTx hash := by
  simp only [enterHeader]
  split
  · rfl
  · exact Function.update_of_ne apart ..

/-- An unrequested block is processed if it is new, has more work than the tip and is not too
far ahead.
-/
def Wanted (fRequested : Bool) (pindex : BlockIndex) : Prop :=
  fRequested = false
    → node.nTx pindex.hash = 0
      ∧ pindex.nChainWork.gt node.tip.nChainWork
      ∧ pindex.nHeight ≤ node.tip.nHeight + MIN_BLOCKS_TO_KEEP

instance (node : Node) (fRequested : Bool) (pindex : BlockIndex)
    : Decidable (node.Wanted fRequested pindex) :=
  inferInstanceAs (Decidable (_ → _))

/-- `AcceptBlock`; the flag is `*fNewBlock`. -/
def acceptBlock (sent : Delivery) (block : Block) (node : Node)
    : Node × Bool × Except Failure Unit :=
  match acceptBlockHeader (ctx.toHeaderContext sent.nAdjustedTime) node.toHeaderState
      block.toBlockHeader with
  | (headers, .error failure) => ({ node with toHeaderState := headers }, false, .error failure)
  | (headers, .ok pindex) =>
    let node := node.enterHeader headers pindex
    if node.HaveData pindex then (node, false, .ok ())
    else if ¬ node.Wanted sent.fForceProcessing pindex then (node, false, .ok ())
    else
      let checked := do
        let _ ← checkBlock ctx.H ctx.chainparams true true block
        ctx.contextualCheckBlock block pindex.pprev
      match checked with
      | .error .assertion => (node, true, .error .assertion)
      | .error (.rejected rejection) =>
        let marked :=
          if rejection.corruptionPossible then node
          else node.setFlag pindex BLOCK_FAILED_VALID
        (marked, true, .error (.rejected rejection))
      | .ok _ => (node.receivedBlockTransactions ctx block pindex, true, .ok ())

-- FindMostWorkChain

def lastInOrder (ctx : NodeContext) (node : Node) : List BlockIndex → Option BlockIndex
  | [] => none
  | idx :: rest =>
    match lastInOrder ctx node rest with
    | none => some idx
    | some best => if node.worse ctx idx best then some best else some idx

/-- The walk from a candidate down to the active chain: the first entry that has failed or
whose block is missing. There is no answer where the assertion on `nChainTx` fails.
-/
def firstUnusable (node : Node) : BlockIndex → Option (Option BlockIndex)
  | .root hash header =>
    let pindexTest := BlockIndex.root hash header
    if node.Contains pindexTest then some none
    else if node.Failed pindexTest ∨ ¬ node.HaveData pindexTest then some (some pindexTest)
    else some none
  | .child pprev hash header =>
    let pindexTest := BlockIndex.child pprev hash header
    if node.Contains pindexTest then some none
    else if node.nChainTx hash = 0 then none
    else if node.Failed pindexTest ∨ ¬ node.HaveData pindexTest then some (some pindexTest)
    else firstUnusable node pprev

/-- "Remove the entire chain from the set": the walk from a candidate down to the unusable
entry. Above a failed entry the rest is marked, above a missing one it waits again.
-/
def discard (fFailedChain : Bool) (pindexTest : BlockIndex) (node : Node) : BlockIndex → Node
  | .root hash header => node.dropCandidate (.root hash header)
  | .child pprev hash header =>
    let pindexFailed := BlockIndex.child pprev hash header
    if pindexFailed = pindexTest then node.dropCandidate pindexFailed
    else
      let marked :=
        if fFailedChain then node.setFlag pindexFailed BLOCK_FAILED_CHILD
        else { node with mapBlocksUnlinked := (pprev, pindexFailed) :: node.mapBlocksUnlinked }
      discard fFailedChain pindexTest (marked.dropCandidate pindexFailed) pprev

theorem mem_of_lastInOrder {ctx} {node : Node} {candidates}
    {best} (last : node.lastInOrder ctx candidates = some best)
    : best ∈ candidates := by
  induction candidates generalizing best with
  | nil => cases last
  | cons idx rest ih =>
    rw [lastInOrder] at last
    split at last
    · cases last
      exact mem_cons_self
    rename_i other found
    split at last
    · cases last
      exact mem_cons_of_mem _ (ih found)
    · cases last
      exact mem_cons_self

theorem candidates_discard_sublist (fFailedChain pindexTest) (node : Node) (pindexFailed)
    : (node.discard fFailedChain pindexTest pindexFailed).setBlockIndexCandidates.Sublist
      (node.setBlockIndexCandidates.erase pindexFailed) := by
  induction pindexFailed generalizing node with
  | root hash header => exact .refl _
  | child pprev hash header ih =>
    rw [discard]
    split
    · exact .refl _
    refine (ih _).trans ((erase_sublist).trans ?_)
    split <;> exact .refl _

def findMostWorkChain (ctx : NodeContext) (node : Node)
    : Option (Node × Option BlockIndex) :=
  match _last : node.lastInOrder ctx node.setBlockIndexCandidates with
  | none => some (node, none)
  | some pindexNew =>
    match node.firstUnusable pindexNew with
    | none => none
    | some none => some (node, some pindexNew)
    | some (some pindexTest) =>
      findMostWorkChain ctx (node.discard (node.Failed pindexTest) pindexTest pindexNew)
termination_by node.setBlockIndexCandidates.length
decreasing_by
  have fewer := (candidates_discard_sublist (node.Failed pindexTest) pindexTest node
    pindexNew).length_le
  have mem := mem_of_lastInOrder _last
  rw [length_erase_of_mem mem] at fewer
  have nonempty := length_pos_of_mem mem
  omega

-- ActivateBestChain

def findForkFrom (node : Node) : BlockIndex → Option BlockIndex
  | .root hash header =>
    if node.Contains (.root hash header) then some (.root hash header) else none
  | .child pprev hash header =>
    if node.Contains (.child pprev hash header) then some (.child pprev hash header)
    else findForkFrom node pprev

def findFork (pindex : BlockIndex) : Option BlockIndex :=
  if pindex.nHeight > node.tip.nHeight then
    (pindex.getAncestor node.tip.nHeight).bind node.findForkFrom
  else node.findForkFrom pindex

/-- `DisconnectTip` down to the fork: where the walk ends, and whether it got there. A root
has no undo data and cannot be disconnected.
-/
def disconnectTo (pindexFork : Option BlockIndex) : BlockIndex → BlockIndex × Bool
  | .root hash header =>
    (.root hash header, decide (some (BlockIndex.root hash header) = pindexFork))
  | .child pprev hash header =>
    if some (BlockIndex.child pprev hash header) = pindexFork then
      (.child pprev hash header, true)
    else disconnectTo pindexFork pprev

/-- The entries to connect, lowest first. The source takes them in batches of 32. -/
def toConnect (nHeight : Nat) : BlockIndex → List BlockIndex
  | .root hash header => if nHeight = 0 then [] else [.root hash header]
  | .child pprev hash header =>
    if pprev.nHeight + 1 = nHeight then []
    else toConnect nHeight pprev ++ [.child pprev hash header]

def invalidBlockFound (rejection : Rejection) (pindex : BlockIndex) (node : Node) : Node :=
  if rejection.corruptionPossible then node
  else
    let failed := (node.setFlag pindex BLOCK_FAILED_VALID).dropCandidate pindex
    { failed with gFailedBlocks := failed.gFailedBlocks.insert pindex }

def pruneBlockIndexCandidates : Node :=
  {
    node with
    setBlockIndexCandidates :=
      node.setBlockIndexCandidates.filter (fun idx => !(node.worse ctx idx node.tip))
  }

/-- A valid block is connected: `ConnectBlock` raises its validity, `UpdateTip` makes it the
tip, and the candidates are pruned.
-/
def connectTip (pindexNew : BlockIndex) (node : Node) : Node :=
  let raised := node.raiseValidity pindexNew BLOCK_VALID_SCRIPTS
  { raised with tip := pindexNew }.pruneBlockIndexCandidates ctx

/-- The block that `ConnectTip` connects: `pblock` when it is given, has the hash of the best
entry and that is the one to connect, and what is on disk otherwise.
-/
def blockToConnect (H : Hashing) (pblock : Option Block)
    (pindexMostWork pindexConnect : BlockIndex) (node : Node)
    : Option Block :=
  match pblock with
  | none => node.blockFiles pindexConnect.hash
  | some block =>
    if pindexConnect = pindexMostWork ∧ block.getHash H = pindexMostWork.hash then some block
    else node.blockFiles pindexConnect.hash

def connectLoop (ctx : NodeContext) (pblock : Option Block)
    (pindexMostWork pindexOldTip : BlockIndex)
    : List BlockIndex → Node → Option (Node × Progress)
  | [], node => some (node, .advanced false)
  | pindexConnect :: rest, node =>
    if pindexConnect.pprev ≠ some node.tip then none
    else
      match node.blockToConnect ctx.H pblock pindexMostWork pindexConnect with
      | none => some (node, .stopped)
      | some block =>
        match ctx.connectBlock block pindexConnect with
        | .error .assertion => none
        | .error (.rejected rejection) =>
          some (node.invalidBlockFound rejection pindexConnect, .advanced true)
        | .ok _ =>
          let connected := node.connectTip ctx pindexConnect
          if connected.setBlockIndexCandidates = [] then none
          else if connected.tip.nChainWork.gt pindexOldTip.nChainWork then
            some (connected, .advanced false)
          else connectLoop ctx pblock pindexMostWork pindexOldTip rest connected

def activateBestChainStep (pblock : Option Block) (pindexMostWork : BlockIndex) (node : Node)
    : Option (Node × Progress) :=
  let pindexFork := node.findFork pindexMostWork
  match disconnectTo pindexFork node.tip with
  | (tip, false) => some ({ node with tip := tip }, .stopped)
  | (tip, true) =>
    connectLoop ctx pblock pindexMostWork node.tip (toConnect tip.nHeight pindexMostWork)
      { node with tip := tip }

def mostWorkChain (cached : Option BlockIndex) (node : Node)
    : Option (Node × Option BlockIndex) :=
  if cached.isSome then some (node, cached) else node.findMostWorkChain ctx

def activateBestChain (ctx : NodeContext) (pblock : Option Block)
    : Nat → Option BlockIndex → Node → Option (Node × Bool)
  | 0, _, _ => none
  | rounds + 1, cached, node =>
    match node.mostWorkChain ctx cached with
    | none => none
    | some (node, none) => some (node, true)
    | some (node, some best) =>
      if best = node.tip then some (node, true)
      else
        match node.activateBestChainStep ctx pblock best with
        | none => none
        | some (node, .stopped) => some (node, false)
        | some (node, .advanced fInvalidFound) =>
          let pindexMostWork := if fInvalidFound then none else some best
          if pindexMostWork = some node.tip then some (node, true)
          else activateBestChain ctx pblock rounds pindexMostWork node

-- ProcessNewBlock

/-- `ProcessNewBlock`, with at most `rounds` rounds of `ActivateBestChain`. There is no result
where an assertion fails, the retarget update reads past its data or the rounds run out.
-/
def processNewBlock (rounds : Nat) (sent : Delivery) (node : Node)
    : Option (Node × Reply) :=
  match checkBlock ctx.H ctx.chainparams true true sent.block with
  | .error .assertion => none
  | .error (.rejected _) => some (node, ⟨false, false⟩)
  | .ok block =>
    match node.acceptBlock ctx sent block with
    | (_, _, .error .assertion) => none
    | (node, fNewBlock, .error (.rejected _)) => some (node, ⟨false, fNewBlock⟩)
    | (node, fNewBlock, .ok _) => do
        let (node, activated) ← node.activateBestChain ctx (some block) rounds none
        if activated then
          let retarget ← node.retarget.recordBlock ctx.toRetargetContext node.tip block.auxpow
          return ({ node with retarget := retarget }, ⟨true, fNewBlock⟩)
        else return (node, ⟨false, fNewBlock⟩)

end Node

end Pqcoin
