import Mathlib.Data.BitVec
import Mathlib.Data.Fintype.EquivFin
import Mathlib.Data.List.MinMax
import Pqcoin.Retarget.NextWork
import Pqcoin.Validation.CheckBlock

/-! Acceptance of headers into the block index, `AcceptBlockHeader` of `validation.cpp`, and
whether it enforces the required target.
-/

namespace Pqcoin

open Checks List

-- The index

def BLOCK_VALID_TREE : BitVec 32 := 2
def BLOCK_VALID_TRANSACTIONS : BitVec 32 := 3
def BLOCK_VALID_SCRIPTS : BitVec 32 := 5
def BLOCK_VALID_MASK : BitVec 32 := 7
def BLOCK_HAVE_DATA : BitVec 32 := 8
def BLOCK_FAILED_VALID : BitVec 32 := 32
def BLOCK_FAILED_CHILD : BitVec 32 := 64
def BLOCK_FAILED_MASK : BitVec 32 := BLOCK_FAILED_VALID ||| BLOCK_FAILED_CHILD

/-- `mapBlockIndex`, the `nStatus` of its entries and `gFailedBlocks`. The map has one entry
for a hash, so a hash stands for the address of its entry.
-/
structure HeaderState where
  mapBlockIndex : List BlockIndex
  nStatus : Uint256 → BitVec 32
  gFailedBlocks : List BlockIndex
  distinct : (mapBlockIndex.map BlockIndex.hash).Nodup

namespace HeaderState

variable (s : HeaderState)

def find (s : HeaderState) (hash : Uint256) : Option BlockIndex :=
  s.mapBlockIndex.find? (fun idx => idx.hash == hash)

theorem find_eq_some {hash idx}
    : s.find hash = some idx ↔ idx ∈ s.mapBlockIndex ∧ idx.hash = hash := by
  constructor
  · intro found
    exact ⟨mem_of_find?_eq_some found, by simpa using find?_some found⟩
  · rintro ⟨mem, rfl⟩
    cases found : s.find idx.hash with
    | none => exact absurd (by simpa using find?_eq_none.mp found idx mem) not_false
    | some other =>
      have same : other.hash = idx.hash := by simpa using find?_some found
      rw [inj_on_of_nodup_map s.distinct (mem_of_find?_eq_some found) mem same]

theorem find_eq_none {hash} : s.find hash = none ↔ hash ∉ s.mapBlockIndex.map BlockIndex.hash := by
  simp [find]

def Failed (idx : BlockIndex) : Prop :=
  s.nStatus idx.hash &&& BLOCK_FAILED_MASK ≠ 0

instance (s : HeaderState) (idx : BlockIndex) : Decidable (s.Failed idx) :=
  inferInstanceAs (Decidable (_ ≠ _))

def IsValid (idx : BlockIndex) (nUpTo : BitVec 32) : Prop :=
  ¬ s.Failed idx ∧ nUpTo ≤ s.nStatus idx.hash &&& BLOCK_VALID_MASK

instance (s : HeaderState) (idx : BlockIndex) (nUpTo : BitVec 32)
    : Decidable (s.IsValid idx nUpTo) :=
  inferInstanceAs (Decidable (_ ∧ _))

def setStatus (idx : BlockIndex) (nStatus : BitVec 32) : HeaderState :=
  { s with nStatus := Function.update s.nStatus idx.hash nStatus }

@[simp] theorem nStatus_setStatus (idx : BlockIndex) (nStatus : BitVec 32)
    : (s.setStatus idx nStatus).nStatus idx.hash = nStatus :=
  Function.update_self ..

def setFlag (idx : BlockIndex) (flag : BitVec 32) : HeaderState :=
  s.setStatus idx (s.nStatus idx.hash ||| flag)

def raiseValidity (idx : BlockIndex) (nUpTo : BitVec 32) : HeaderState :=
  if s.Failed idx then s
  else if s.nStatus idx.hash &&& BLOCK_VALID_MASK < nUpTo then
    s.setStatus idx (s.nStatus idx.hash &&& ~~~BLOCK_VALID_MASK ||| nUpTo)
  else s

theorem and_setFlag (idx flag mask)
    : (s.setFlag idx flag).nStatus idx.hash &&& mask
      = s.nStatus idx.hash &&& mask ||| flag &&& mask := by
  rw [setFlag, nStatus_setStatus, BitVec.and_or_distrib_right]

/-- Raising the validity leaves the other flags alone. -/
theorem and_raiseValidity (idx) {nUpTo mask}
    (apart : ~~~BLOCK_VALID_MASK &&& mask = mask) (level : nUpTo &&& mask = 0)
    : (s.raiseValidity idx nUpTo).nStatus idx.hash &&& mask
      = s.nStatus idx.hash &&& mask := by
  rw [raiseValidity]
  split_ifs
  · rfl
  · rw [nStatus_setStatus, BitVec.and_or_distrib_right, BitVec.and_assoc, apart, level]
    exact BitVec.or_zero
  · rfl

theorem find_raiseValidity (idx nUpTo hash)
    : (s.raiseValidity idx nUpTo).find hash = s.find hash := by
  rw [raiseValidity]
  split_ifs <;> rfl

/-- The entry of a new header: below its `hashPrevBlock` when that is known. -/
def newEntry (H : Hashing) (s : HeaderState) (block : PureBlockHeader) : BlockIndex :=
  match s.find block.hashPrevBlock with
  | some pprev => .child pprev (block.getHash H) block
  | none => .root (block.getHash H) block

theorem hash_newEntry (H) (s : HeaderState) (block)
    : (s.newEntry H block).hash = block.getHash H := by
  rw [newEntry]
  split <;> rfl

/-- `AddToBlockIndex`. A new entry starts without flags and is raised to
`BLOCK_VALID_TREE`.
-/
def addToBlockIndex (H : Hashing) (s : HeaderState) (block : PureBlockHeader)
    : HeaderState × BlockIndex :=
  match known : s.find (block.getHash H) with
  | some idx => (s, idx)
  | none =>
    (
      {
        s with
        mapBlockIndex := s.newEntry H block :: s.mapBlockIndex
        nStatus := Function.update s.nStatus (block.getHash H) BLOCK_VALID_TREE
        distinct := by
          rw [map_cons, nodup_cons, hash_newEntry]
          exact ⟨s.find_eq_none.mp known, s.distinct⟩
      },
      s.newEntry H block
    )

theorem addToBlockIndex_of_fresh {H} {s : HeaderState} {block}
    (fresh : s.find (block.getHash H) = none)
    : (s.addToBlockIndex H block).2 = s.newEntry H block := by
  rw [addToBlockIndex]
  split
  · rename_i idx known
    rw [fresh] at known
    cases known
  · rfl

/-- The new entry is found again, without any flag. -/
theorem find_addToBlockIndex {H} {s : HeaderState} {block} (fresh : s.find (block.getHash H) = none)
    : (s.addToBlockIndex H block).1.find (block.getHash H) = some (s.newEntry H block)
      ∧ (s.addToBlockIndex H block).1.nStatus (block.getHash H) = BLOCK_VALID_TREE := by
  rw [addToBlockIndex]
  split
  · rename_i idx known
    rw [fresh] at known
    cases known
  · refine ⟨?_, Function.update_self ..⟩
    rw [find_eq_some]
    exact ⟨mem_cons_self, hash_newEntry H s block⟩

end HeaderState

-- AcceptBlockHeader

/-- What header acceptance reads besides the index: the hash functions, `Params()`,
`fCheckpointsEnabled` and `GetAdjustedTime()`; `address` orders index entries as pointers.
-/
structure HeaderContext where
  H : Hashing
  chainparams : ChainParams
  fCheckpointsEnabled : Bool
  nAdjustedTime : Int
  address : Uint256 → Nat

/-- `Checkpoints::GetLastCheckpoint`: the highest checkpoint whose block is known. -/
def HeaderState.getLastCheckpoint (s : HeaderState) (checkpoints : List (Nat × Uint256))
    : Option BlockIndex :=
  checkpoints.reverse.findSome? (fun checkpoint => s.find checkpoint.2)

def checkIndexAgainstCheckpoint (ctx : HeaderContext) (s : HeaderState) (pindexPrev : BlockIndex)
    : Except Failure Unit :=
  require
    (pindexPrev.hash = (ctx.chainparams.getConsensus 0).hashGenesisBlock
      ∨ ∀ pcheckpoint ∈ s.getLastCheckpoint ctx.chainparams.checkpoints,
        ¬ pindexPrev.nHeight + 1 < pcheckpoint.nHeight)
    (.rejected ⟨100, 0, "", false, ""⟩)

def ChainParams.nextConsensus (chainparams : ChainParams) (pindexPrev : BlockIndex) : Params :=
  chainparams.getConsensus (BitVec.ofNat 32 (pindexPrev.nHeight + 1))

/-- The version is old where `BIP66Height` or `BIP65Height` has passed. -/
def IsOutdated (nHeight : Nat) (params : Params) (block : PureBlockHeader) : Prop :=
  (block.getBaseVersion < 3 ∧ params.BIP66Height ≤ nHeight)
  ∨ (block.getBaseVersion < 4 ∧ params.BIP65Height ≤ nHeight)

instance (nHeight : Nat) (params : Params) (block : PureBlockHeader)
    : Decidable (IsOutdated nHeight params block) :=
  inferInstanceAs (Decidable (_ ∨ _))

/-- `ContextualCheckBlockHeader`. The comparison of `nBits` with `GetNextWorkRequired` is
commented out in the source.
-/
def contextualCheckBlockHeader (ctx : HeaderContext) (pindexPrev : BlockIndex)
    (block : PureBlockHeader)
    : Except Failure Unit := do
  let consensusParams := ctx.chainparams.nextConsensus pindexPrev
  let version := hexDigits 8 (BitVec.ofInt 32 block.getBaseVersion).toNat
  require (¬ (consensusParams.fAllowLegacyBlocks = false ∧ block.isLegacy))
    (invalid 100 "late-legacy-block")
  require (¬ block.getBlockTime ≤ pindexPrev.getMedianTimePast)
    (.rejected ⟨0, REJECT_INVALID, "time-too-old", false, "block's timestamp is too early"⟩)
  require (¬ block.getBlockTime > ctx.nAdjustedTime + 2 * 60 * 60)
    (.rejected ⟨0, REJECT_INVALID, "time-too-new", false, "block timestamp too far in the future"⟩)
  require (¬ IsOutdated (pindexPrev.nHeight + 1) consensusParams block)
    (.rejected ⟨0, REJECT_OBSOLETE, "bad-version(0x" ++ version ++ ")", false,
      "rejected nVersion=0x" ++ version ++ " block"⟩)

/-- The checks of an unknown header, up to the contextual ones; its previous block is
returned.
-/
def checkNewHeader (ctx : HeaderContext) (s : HeaderState) (block : BlockHeader)
    : Except Failure BlockIndex := do
  checkBlockHeader ctx.H ctx.chainparams true block
  match s.find block.hashPrevBlock with
  | none => .error (.rejected ⟨10, 0, "bad-prevblk", false, ""⟩)
  | some pindexPrev => do
      require (¬ s.Failed pindexPrev) (invalid 100 "bad-prevblk")
      if ctx.fCheckpointsEnabled then checkIndexAgainstCheckpoint ctx s pindexPrev
      contextualCheckBlockHeader ctx pindexPrev block.toPureBlockHeader
      return pindexPrev

namespace HeaderState

/-- The first of `gFailedBlocks`, a set of pointers, that `pindexPrev` descends from; blocks whose
scripts were checked are not looked at.
-/
def failedAncestor (ctx : HeaderContext) (s : HeaderState) (pindexPrev : BlockIndex)
    : Option BlockIndex :=
  if s.IsValid pindexPrev BLOCK_VALID_SCRIPTS then none
  else
    (s.gFailedBlocks.filter (fun failedit =>
      pindexPrev.getAncestor failedit.nHeight == some failedit)).argmin
        (fun failedit => ctx.address failedit.hash)

/-- The walk that marks `pindexPrev` and its ancestors below `failedit`, which is one of
them.
-/
def markFailedChildren (failedit : BlockIndex) (s : HeaderState) : BlockIndex → HeaderState
  | .root _ _ => s
  | .child pprev hash header =>
    if BlockIndex.child pprev hash header = failedit then s
    else
      markFailedChildren failedit (s.setFlag (.child pprev hash header) BLOCK_FAILED_CHILD) pprev

end HeaderState

def acceptBlockHeader (ctx : HeaderContext) (s : HeaderState) (block : BlockHeader)
    : HeaderState × Except Failure BlockIndex :=
  let hash := block.getHash ctx.H
  let add := (s.addToBlockIndex ctx.H block.toPureBlockHeader).map id .ok
  if hash = (ctx.chainparams.getConsensus 0).hashGenesisBlock then add
  else
    match s.find hash with
    | some pindex =>
      if s.Failed pindex then (s, .error (.rejected ⟨0, 0, "duplicate", false, ""⟩))
      else (s, .ok pindex)
    | none =>
      match checkNewHeader ctx s block with
      | .error failure => (s, .error failure)
      | .ok pindexPrev =>
        match s.failedAncestor ctx pindexPrev with
        | none => add
        | some failedit =>
          if s.nStatus failedit.hash &&& BLOCK_FAILED_VALID = 0 then
            (s, .error .assertion)
          else
            (s.markFailedChildren failedit pindexPrev, .error (invalid 100 "bad-prevblk"))

-- What is added

section Adds

variable {ctx : HeaderContext} {s : HeaderState} {prev : BlockIndex} {block : BlockHeader}

section

variable (other : block.getHash ctx.H ≠ (ctx.chainparams.getConsensus 0).hashGenesisBlock)

include other

theorem acceptBlockHeader_known {idx}
    (found : s.find (block.getHash ctx.H) = some idx) (unfailed : ¬ s.Failed idx)
    : acceptBlockHeader ctx s block = (s, .ok idx) := by
  simp only [acceptBlockHeader, if_neg other, found, if_neg unfailed]

theorem acceptBlockHeader_new (fresh : s.find (block.getHash ctx.H) = none)
    (checked : checkNewHeader ctx s block = .ok prev)
    (unrejected : s.failedAncestor ctx prev = none)
    : acceptBlockHeader ctx s block
      = ((s.addToBlockIndex ctx.H block.toPureBlockHeader).1,
          .ok (s.newEntry ctx.H block.toPureBlockHeader)) := by
  simp only [acceptBlockHeader, if_neg other, fresh, checked, unrejected, Prod.map, id,
    HeaderState.addToBlockIndex_of_fresh fresh]

end

def Adds (ctx : HeaderContext) (s : HeaderState) (prev : BlockIndex) (block : BlockHeader)
    : Prop :=
  block.getHash ctx.H ≠ (ctx.chainparams.getConsensus 0).hashGenesisBlock
  ∧ s.find (block.getHash ctx.H) = none
  ∧ ∃ after idx, acceptBlockHeader ctx s block = (after, .ok idx)
    ∧ idx.pprev = some prev

theorem checkNewHeader_ok
    : checkNewHeader ctx s block = .ok prev
      ↔ checkBlockHeader ctx.H ctx.chainparams true block = .ok ()
        ∧ s.find block.hashPrevBlock = some prev
        ∧ ¬ s.Failed prev
        ∧ (ctx.fCheckpointsEnabled → checkIndexAgainstCheckpoint ctx s prev = .ok ())
        ∧ contextualCheckBlockHeader ctx prev block.toPureBlockHeader = .ok () := by
  rw [checkNewHeader, then_ok]
  cases found : s.find block.hashPrevBlock with
  | none => simp
  | some pindexPrev =>
    cases enabled : ctx.fCheckpointsEnabled with
    | true =>
      simp only [if_true, then_ok, require_ok, pure, Except.pure]
      grind
    | false =>
      simp only [Bool.false_eq_true, if_false, then_ok, require_ok, pure, Except.pure]
      grind

theorem adds_iff
    : Adds ctx s prev block
      ↔ block.getHash ctx.H ≠ (ctx.chainparams.getConsensus 0).hashGenesisBlock
        ∧ s.find (block.getHash ctx.H) = none
        ∧ checkNewHeader ctx s block = .ok prev
        ∧ s.failedAncestor ctx prev = none := by
  rw [Adds]
  refine and_congr_right fun other => and_congr_right fun fresh => ?_
  rw [acceptBlockHeader, if_neg other]
  simp only [fresh]
  cases checked : checkNewHeader ctx s block with
  | error failure => simp
  | ok pindexPrev =>
    have found := (checkNewHeader_ok.mp checked).2.1
    have entry : (s.newEntry ctx.H block.toPureBlockHeader).pprev = some pindexPrev := by
      rw [HeaderState.newEntry, found]
      rfl
    cases rejected : s.failedAncestor ctx pindexPrev with
    | some failedit =>
      grind
    | none =>
      simp only [rejected, Prod.map, HeaderState.addToBlockIndex_of_fresh fresh,
        Prod.mk.injEq, Except.ok.injEq]
      constructor
      · rintro ⟨after, idx, ⟨_, rfl⟩, above⟩
        have same : pindexPrev = prev := Option.some.inj (entry.symm.trans above)
        exact ⟨same, same ▸ rejected⟩
      · rintro ⟨rfl, _⟩
        exact ⟨_, _, ⟨rfl, rfl⟩, entry⟩

-- Where the target is enforced

/-- Some header can be added on top of `prev`: no flag, checkpoint or failed ancestor stands
against it, the time window is not empty, and there is a hash left.
-/
structure Extendable (ctx : HeaderContext) (s : HeaderState) (prev : BlockIndex)
    : Prop where
  unfailed : ¬ s.Failed prev
  checkpoint : ctx.fCheckpointsEnabled → checkIndexAgainstCheckpoint ctx s prev = .ok ()
  window : ∃ nTime : BitVec 32, prev.getMedianTimePast < nTime.toNat
    ∧ (nTime.toNat : Int) ≤ ctx.nAdjustedTime + 2 * 60 * 60
  unrejected : s.failedAncestor ctx prev = none
  fresh : ∃ hash, hash ≠ (ctx.chainparams.getConsensus 0).hashGenesisBlock
    ∧ s.find hash = none

theorem Extendable.of_adds (added : Adds ctx s prev block) : Extendable ctx s prev := by
  obtain ⟨other, fresh, checked, unrejected⟩ := adds_iff.mp added
  obtain ⟨_, _, unfailed, checkpoint, contextual⟩ := checkNewHeader_ok.mp checked
  simp only [contextualCheckBlockHeader, then_ok, require_ok] at contextual
  obtain ⟨_, young, due, _⟩ := contextual
  exact ⟨unfailed, checkpoint, ⟨block.nTime, not_le.mp young, not_lt.mp due⟩, unrejected,
    ⟨_, other, fresh⟩⟩

/-- A merge-mined header on top of `prev` whose parent header has version `1`. -/
def childOf (ctx : HeaderContext) (prev : BlockIndex) (nTime nBits : BitVec 32)
    (hashMerkleRoot : Uint256)
    : BlockHeader :=
  {
    mergedChild (ctx.chainparams.getConsensus 0) (plainAuxPow 1) nBits hashMerkleRoot with
    hashPrevBlock := prev.hash
    nTime := nTime
  }

/-- The chain identifier leaves the sign bit of a version word alone, as `0x0062` does. -/
def ChainParams.SmallChainId (chainparams : ChainParams) : Prop :=
  (chainparams.getConsensus 0).nAuxpowChainId.toNat < 2 ^ 15

instance (chainparams : ChainParams) : Decidable chainparams.SmallChainId :=
  inferInstanceAs (Decidable (_ < _))

theorem Hashing.CollisionFree.surjective {H} (collisionFree : H.CollisionFree)
    (header : PureBlockHeader)
    : Function.Surjective (fun root => ({ header with hashMerkleRoot := root }).getHash H) :=
  have : Finite Uint256 := .of_equiv (Fin (2 ^ 256)) BitVec.equivFin.symm.toEquiv
  Finite.surjective_of_injective (collisionFree header)

/-- Nothing that is checked depends on the target of such a header. -/
theorem childOf_checked (small : ctx.chainparams.SmallChainId) (known : prev ∈ s.mapBlockIndex)
    (extendable : Extendable ctx s prev) {nTime} (young : prev.getMedianTimePast < nTime.toNat)
    (due : (nTime.toNat : Int) ≤ ctx.nAdjustedTime + 2 * 60 * 60) (nBits) (hashMerkleRoot)
    : checkNewHeader ctx s (childOf ctx prev nTime nBits hashMerkleRoot)
      = .ok prev := by
  refine checkNewHeader_ok.mpr ⟨?_, s.find_eq_some.mpr ⟨known, rfl⟩, extendable.unfailed,
    extendable.checkpoint, ?_⟩
  · rw [checkBlockHeader, require_ok]
    intro _
    exact (checkAuxPowProofOfWork_some rfl).mpr
      ⟨allowed_mergedVersion (chainIdEncodable_of_small small) rfl, isAuxpow_mergedVersion rfl,
        plainAuxPow_branchMatches ctx.H 1, fun bitcoin => absurd bitcoin (by decide)⟩
  · have flag : (childOf ctx prev nTime nBits hashMerkleRoot).isAuxpow = true :=
      isAuxpow_mergedVersion rfl
    have base : (childOf ctx prev nTime nBits hashMerkleRoot).getBaseVersion = 4 :=
      getBaseVersion_mergedVersion small rfl
    simp only [contextualCheckBlockHeader, then_ok, require_ok, IsOutdated, base,
      isLegacy_of_isAuxpow flag]
    exact ⟨by simp, not_le.mpr young, not_lt.mpr due, by simp⟩

end Adds

/-- The required target is enforced on top of a block exactly when no header can be added
there at all.
-/
theorem difficulty_enforced_iff (ctx : HeaderContext) (collisionFree : ctx.H.CollisionFree)
    (small : ctx.chainparams.SmallChainId) (ltc_nBits : List (BitVec 32)) (s : HeaderState)
    (prev : BlockIndex) (known : prev ∈ s.mapBlockIndex)
    : (∀ block : BlockHeader, Adds ctx s prev block
        → getNextWorkRequired ltc_nBits prev block.toPureBlockHeader
            (ctx.chainparams.nextConsensus prev)
          = some block.nBits)
      ↔ ¬ Extendable ctx s prev := by
  constructor
  · intro enforced extendable
    obtain ⟨nTime, young, due⟩ := extendable.window
    obtain ⟨hash, other, fresh⟩ := extendable.fresh
    -- the required target depends on the time alone, so a header can miss it
    obtain ⟨nBits, missed⟩ : ∃ nBits, getNextWorkRequired ltc_nBits prev
        (childOf ctx prev nTime 0 0).toPureBlockHeader (ctx.chainparams.nextConsensus prev)
        ≠ some nBits := by
      by_contra every
      push Not at every
      have same := (every 0).symm.trans (every 1)
      exact absurd (Option.some.inj same) (by decide)
    -- and its Merkle root can be chosen such that its hash is the free one
    obtain ⟨root, rfl⟩ :=
      collisionFree.surjective (childOf ctx prev nTime nBits 0).toPureBlockHeader hash
    have added : Adds ctx s prev (childOf ctx prev nTime nBits root) :=
      adds_iff.mpr ⟨other, fresh,
        childOf_checked small known extendable young due nBits root, extendable.unrejected⟩
    exact missed ((getNextWorkRequired_congr rfl ltc_nBits prev _).trans (enforced _ added))
  · intro closed block added
    exact absurd (Extendable.of_adds added) closed

def genesisIndex : BlockIndex := .root 0 ⟨1, 0, 0, 0, 0x207fffff, 0⟩

def genesisState : HeaderState where
  mapBlockIndex := [genesisIndex]
  nStatus _ := BLOCK_VALID_SCRIPTS
  gFailedBlocks := []
  distinct := nodup_singleton _

/-- The main network at time zero, with a hash that reads the Merkle root back. -/
def mainContext : HeaderContext := ⟨rootHashing, mainParams 0, true, 0, BitVec.toNat⟩

theorem genesisState_extendable : Extendable mainContext genesisState genesisIndex where
  unfailed := by decide
  checkpoint _ := rfl
  window := ⟨1, by decide, by decide⟩
  unrejected := by decide
  fresh := ⟨1, by decide, by decide⟩

/-- The genesis block can be extended, so its target is not enforced. -/
theorem difficulty_enforced_iff_genesis
    : ¬ ∀ block : BlockHeader, Adds mainContext genesisState genesisIndex block
        → getNextWorkRequired [] genesisIndex block.toPureBlockHeader
            (mainContext.chainparams.nextConsensus genesisIndex)
          = some block.nBits := by
  rw [difficulty_enforced_iff mainContext rootHashing_collisionFree (by decide) [] genesisState
    genesisIndex (by decide), not_not]
  exact genesisState_extendable

/-- On the main network's genesis block a header with a zero target is added, where the
easiest one is required.
-/
theorem added_below_difficulty
    : Adds mainContext genesisState genesisIndex (childOf mainContext genesisIndex 1 0 1)
      ∧ (childOf mainContext genesisIndex 1 0 1).nBits = 0
      ∧ getNextWorkRequired [] genesisIndex
          (childOf mainContext genesisIndex 1 0 1).toPureBlockHeader
          (mainContext.chainparams.nextConsensus genesisIndex)
        = some 0x207fffff := by
  have hash : (childOf mainContext genesisIndex 1 0 1).getHash mainContext.H = 1 :=
    getHash_rootHashing _
  refine ⟨adds_iff.mpr ⟨by rw [hash]; decide, by rw [hash]; decide, ?_, by decide⟩, rfl, ?_⟩
  · exact childOf_checked (by decide) (by decide) genesisState_extendable (by decide)
      (by decide) 0 1
  · decide

end Pqcoin
