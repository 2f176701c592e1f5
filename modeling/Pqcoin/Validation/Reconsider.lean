import Pqcoin.Validation.Node

/-! `InvalidateBlock` and `ResetBlockFailureFlags`, and the calls that change the block index
and the active chain, in any order.
-/

namespace Pqcoin

def HeaderState.recordFailed (s : HeaderState) (idx : BlockIndex) : HeaderState :=
  { s with gFailedBlocks := s.gFailedBlocks.insert idx }

-- InvalidateBlock

namespace Node

variable (ctx : NodeContext) (pindex : BlockIndex) (node : Node)

/-- `DisconnectTip` while `chainActive.Contains(pindex)`: where the walk ends, and whether it
got that far. A root has no undo data and cannot be disconnected.
-/
def disconnectBelow (pindex : BlockIndex) : BlockIndex → BlockIndex × Bool
  | .root hash header =>
    let tip := BlockIndex.root hash header
    (tip, decide (tip.ancestor pindex.nHeight ≠ some pindex))
  | .child pprev hash header =>
    let tip := BlockIndex.child pprev hash header
    if tip.ancestor pindex.nHeight = some pindex then disconnectBelow pindex pprev
    else (tip, true)

/-- "Mark the blocks we just disconnected as descendants invalid": the walk from
`invalidWalkTip` down to `pindex`.
-/
def markDisconnected (pindex : BlockIndex) (node : Node) : BlockIndex → Node
  | .root _ _ => node
  | .child pprev hash header =>
    let invalidWalkTip := BlockIndex.child pprev hash header
    if invalidWalkTip = pindex then node
    else
      markDisconnected pindex
        ((node.setFlag invalidWalkTip BLOCK_FAILED_CHILD).dropCandidate invalidWalkTip) pprev

def readdCandidate (idx : BlockIndex) : Node :=
  if node.IsValid idx BLOCK_VALID_TRANSACTIONS ∧ node.nChainTx idx.hash ≠ 0
      ∧ node.worse ctx idx node.tip = false then
    {
      node with
      setBlockIndexCandidates := node.setBlockIndexCandidates.insert idx
      gFailedBlocks := node.gFailedBlocks.erase idx
    }
  else node

/-- The active chain ends at `tip`; what was disconnected above `pindex` is marked. -/
def disconnectBranch (tip : BlockIndex) (node : Node) : Node :=
  let disconnected : Node := { node with tip := tip }
  if node.Contains pindex then disconnected.markDisconnected pindex node.tip else disconnected

def markInvalid : Node :=
  let failed := (node.setFlag pindex BLOCK_FAILED_VALID).dropCandidate pindex
  { failed with toHeaderState := failed.toHeaderState.recordFailed pindex }

def invalidateBlock : Node × Bool :=
  match disconnectBelow pindex node.tip with
  | (tip, false) => ({ node with tip := tip }, false)
  | (tip, true) =>
    let marked := (node.disconnectBranch pindex tip).markInvalid pindex
    (marked.mapBlockIndex.foldl (readdCandidate ctx) marked, true)

-- ResetBlockFailureFlags

def clearFailure (idx : BlockIndex) : Node :=
  {
    node with
    toHeaderState :=
      node.toHeaderState.setStatus idx (node.nStatus idx.hash &&& ~~~BLOCK_FAILED_MASK)
  }

/-- "Remove the invalidity flag from this block and all its descendants": one round of the
loop.
-/
def resetEntry (idx : BlockIndex)
    : Node :=
  if ¬ node.IsValid idx BLOCK_VALID_TRANSACTIONS
      ∧ idx.getAncestor pindex.nHeight = some pindex then
    let cleared := node.clearFailure idx
    if cleared.IsValid idx BLOCK_VALID_TRANSACTIONS ∧ cleared.nChainTx idx.hash ≠ 0
        ∧ cleared.worse ctx cleared.tip idx = true then
      { cleared with setBlockIndexCandidates := cleared.setBlockIndexCandidates.insert idx }
    else cleared
  else node

/-- "Remove the invalidity flag from all ancestors too." -/
def clearAncestors (node : Node) : BlockIndex → Node
  | .root hash header =>
    let pindex := BlockIndex.root hash header
    if node.Failed pindex then node.clearFailure pindex else node
  | .child pprev hash header =>
    let pindex := BlockIndex.child pprev hash header
    clearAncestors (if node.Failed pindex then node.clearFailure pindex else node) pprev

def resetBlockFailureFlags : Node :=
  (node.mapBlockIndex.foldl (resetEntry ctx pindex) node).clearAncestors pindex

end Node

-- Calls

/-- A call on the block index or on the active chain. Blocks are invalidated and reconsidered
by their hash, and an unknown hash is refused.
-/
inductive ChainCall where
  | acceptBlockHeader (nAdjustedTime : Int) (header : BlockHeader)
  | acceptBlock (sent : Delivery)
  | activateBestChain (pblock : Option Block) (rounds : Nat)
  | invalidateBlock (hash : Uint256)
  | resetBlockFailureFlags (hash : Uint256)

namespace Node

variable (ctx : NodeContext)

/-- The node after a call. There is none where an assertion fails or the rounds run out. -/
def perform (node : Node) : ChainCall → Option Node
  | .acceptBlockHeader nAdjustedTime header =>
    match Pqcoin.acceptBlockHeader (ctx.toHeaderContext nAdjustedTime) node.toHeaderState
        header with
    | (_, .error .assertion) => none
    | (headers, .error (.rejected _)) => some { node with toHeaderState := headers }
    | (headers, .ok pindex) => some (node.enterHeader headers pindex)
  | .acceptBlock sent =>
    match node.acceptBlock ctx sent sent.block with
    | (_, _, .error .assertion) => none
    | (after, _, .error (.rejected _)) => some after
    | (after, _, .ok _) => some after
  | .activateBestChain pblock rounds =>
    (node.activateBestChain ctx pblock rounds none).map Prod.fst
  | .invalidateBlock hash =>
    match node.find hash with
    | none => some node
    | some pindex => some (node.invalidateBlock ctx pindex).1
  | .resetBlockFailureFlags hash =>
    match node.find hash with
    | none => some node
    | some pindex => some (node.resetBlockFailureFlags ctx pindex)

def performAll : Node → List ChainCall → Option Node
  | node, [] => some node
  | node, call :: rest =>
    match node.perform ctx call with
    | none => none
    | some next => performAll next rest

/-- A property of the nodes that a run goes through. -/
def Always (P : Node → Prop) : Node → List ChainCall → Prop
  | node, [] => P node
  | node, call :: rest =>
    P node ∧ ∀ next, node.perform ctx call = some next → Always P next rest

def Throughout (Allowed : Node → ChainCall → Prop) : Node → List ChainCall → Prop
  | _, [] => True
  | node, call :: rest =>
    Allowed node call
      ∧ ∀ next, node.perform ctx call = some next → Throughout Allowed next rest

structure AtGenesis (node : Node) : Prop where
  index : node.mapBlockIndex = [node.tip]
  root : node.tip.pprev = none
  hash : node.tip.hash = (ctx.chainparams.getConsensus 0).hashGenesisBlock
  valid : node.IsValid node.tip BLOCK_VALID_TRANSACTIONS
  data : node.HaveData node.tip
  counted : node.nChainTx node.tip.hash = node.nTx node.tip.hash
  nonempty : node.nTx node.tip.hash ≠ 0
  candidates : node.setBlockIndexCandidates = [node.tip]
  unlinked : node.mapBlocksUnlinked = []
  records : node.gFailedBlocks = []

variable {ctx} {Invariant P : Node → Prop} {Allowed : Node → ChainCall → Prop}

theorem invariant_of_performAll {start node} {calls}
    (step : ∀ {node next} {call}, Invariant node → Allowed node call
      → node.perform ctx call = some next → Invariant next)
    (holds : Invariant start) (allowed : start.Throughout ctx Allowed calls)
    (ran : start.performAll ctx calls = some node)
    : Invariant node := by
  induction calls generalizing start with
  | nil =>
    cases ran
    exact holds
  | cons call rest ih =>
    rw [performAll] at ran
    split at ran
    · cases ran
    rename_i next performed
    exact ih (step holds allowed.1 performed) (allowed.2 next performed) ran

theorem always_iff_throughout {start} {calls}
    (step : ∀ {node next} {call}, Invariant node
      → node.perform ctx call = some next → Invariant next)
    (exact : ∀ {node} (call : ChainCall), Invariant node → P node
      → (Allowed node call ↔ ∀ next, node.perform ctx call = some next → P next))
    (holds : Invariant start) (property : P start)
    : start.Always ctx P calls ↔ start.Throughout ctx Allowed calls := by
  induction calls generalizing start with
  | nil => exact iff_of_true property trivial
  | cons call rest ih =>
    have allowed := exact call holds property
    constructor
    · intro always
      have now : ∀ next, start.perform ctx call = some next → P next := by
        intro next ran
        have later := always.2 next ran
        cases rest with
        | nil => exact later
        | cons _ _ => exact later.1
      refine ⟨allowed.mpr now, fun next ran => ?_⟩
      exact (ih (step holds ran) (now next ran)).mp (always.2 next ran)
    · intro throughout
      refine ⟨property, fun next ran => ?_⟩
      have now := allowed.mp throughout.1 next ran
      exact (ih (step holds ran) now).mpr (throughout.2 next ran)

end Node

end Pqcoin
