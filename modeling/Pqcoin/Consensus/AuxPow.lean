import Pqcoin.Primitives.Block

/-! Proof-of-work acceptance of a header, with or without a merge-mining proof. -/

namespace Pqcoin

open BaseUint
open BaseUint (setCompact)
open PureBlockHeader (getBaseVersion getChainId getHash isAuxpow isLegacy serialize)

variable (H : Hashing) (params : Params) (auxpow : AuxPow)

-- CheckProofOfWork

def checkProofOfWork (hash : Uint256) (nBits : BitVec 32) (params : Params) : Bool :=
  let bnTarget := BaseUint.setCompact nBits
  if bnTarget.fNegative || bnTarget.target.equalTo 0 || bnTarget.fOverflow
      || bnTarget.target.gt (uintToArith256 params.powLimit) then
    false
  else if (uintToArith256 hash).gt bnTarget.target then
    false
  else true

/-- The number that `nBits` denotes is a positive target within the limit, and the hash
does not exceed it.
-/
def AdmitsHash (hash : Uint256) (nBits : BitVec 32) (params : Params) : Prop :=
  0 < compactValue nBits
  ∧ compactValue nBits ≤ params.powLimit.toNat
  ∧ hash.toNat ≤ compactValue nBits

instance (hash : Uint256) (nBits : BitVec 32) (params : Params)
    : Decidable (AdmitsHash hash nBits params) :=
  inferInstanceAs (Decidable (_ ∧ _ ∧ _))

/-- A denoted number between `1` and the 256-bit range is stored without a flag. -/
theorem setCompact_of_positive {nBits} (pos : 0 < compactValue nBits)
    (fits : compactValue nBits < 2 ^ 256)
    : (setCompact nBits).fNegative = false
      ∧ (setCompact nBits).fOverflow = false := by
  have sign : nBits.getLsbD 23 = false := by
    by_contra negative
    rw [compactValue, if_pos (by simpa using negative)] at pos
    omega
  rw [compactValue, sign, if_neg (by decide)] at fits
  constructor
  · rw [← Bool.not_eq_true, setCompact_fNegative, sign]
    simp
  · rw [← Bool.not_eq_true, setCompact_fOverflow]
    omega

theorem checkProofOfWork_iff (hash nBits params)
    : checkProofOfWork hash nBits params = true ↔ AdmitsHash hash nBits params := by
  have limit := params.powLimit.isLt
  have accepted : checkProofOfWork hash nBits params = true
      ↔ (setCompact nBits).fNegative = false
        ∧ (setCompact nBits).fOverflow = false
        ∧ 0 < (setCompact nBits).target.toNat
        ∧ (setCompact nBits).target.toNat ≤ params.powLimit.toNat
        ∧ hash.toNat ≤ (setCompact nBits).target.toNat := by
    simp only [checkProofOfWork]
    split <;> rename_i range <;> simp at range ⊢ <;> grind
  rw [accepted, AdmitsHash]
  constructor
  · rintro ⟨nonneg, fits, pos, inLimit, admitted⟩
    rw [compactValue_of_setCompact nBits nonneg fits]
    omega
  · rintro ⟨pos, inLimit, admitted⟩
    obtain ⟨nonneg, fits⟩ := setCompact_of_positive pos (by omega)
    rw [compactValue_of_setCompact nBits nonneg fits] at pos inLimit admitted
    exact ⟨nonneg, fits, by omega, by omega, by omega⟩

-- CheckAuxPowProofOfWork

/-- `CheckAuxPowProofOfWork`. Both parent branches test for the version `0x20000000`, so the
second one is never entered.
-/
def checkAuxPowProofOfWork (block : BlockHeader) (params : Params) : Bool :=
  if !block.isLegacy && params.fStrictChainId
      && block.getChainId != params.nAuxpowChainId then
    false
  else
    match block.auxpow with
    | none =>
      if block.isAuxpow then false
      else if !checkProofOfWork (block.getPoWHash H) block.nBits params then false
      else true
    | some auxpow =>
      if !block.isAuxpow then false
      else if !auxpow.check H (block.getHash H) block.getChainId params then false
      else if auxpow.parentBlock.nVersion = 0x20000000 then
        if !checkProofOfWork (auxpow.getParentBlockHash H) block.nBits params then false
        else true
      else if auxpow.parentBlock.nVersion = 0x20000000 then
        if !checkProofOfWork (auxpow.getParentBlockHash H) block.nBits params then false
        else true
      else true

/-- The first test passes: a legacy version, no strict chain identifiers, or our own one. -/
def ChainIdAllowed (header : PureBlockHeader) (params : Params) : Prop :=
  header.isLegacy = true ∨ params.fStrictChainId = false
  ∨ header.getChainId = params.nAuxpowChainId

/-- The stored `hashBlock` leads to the parent's Merkle root. -/
def AuxPow.BranchMatches : Prop :=
  AuxPow.checkMerkleBranch H auxpow.hashBlock auxpow.vMerkleBranch 0
    = auxpow.parentBlock.hashMerkleRoot

/-- What acceptance of a header without a merge-mining proof amounts to. -/
theorem checkAuxPowProofOfWork_none {H block params} (absent : block.auxpow = none)
    : checkAuxPowProofOfWork H block params = true
      ↔ ChainIdAllowed block.toPureBlockHeader params
        ∧ block.isAuxpow = false
        ∧ AdmitsHash (block.getPoWHash H) block.nBits params := by
  rw [← checkProofOfWork_iff, checkAuxPowProofOfWork, absent, ChainIdAllowed]
  grind

theorem checkAuxPowProofOfWork_some {H block params auxpow} (present : block.auxpow = some auxpow)
    : checkAuxPowProofOfWork H block params = true
      ↔ ChainIdAllowed block.toPureBlockHeader params
        ∧ block.isAuxpow = true
        ∧ auxpow.BranchMatches H
        ∧ (auxpow.parentBlock.nVersion = 0x20000000
          → AdmitsHash (auxpow.getParentBlockHash H) block.nBits params) := by
  rw [← checkProofOfWork_iff, checkAuxPowProofOfWork, present, ChainIdAllowed, AuxPow.BranchMatches]
  simp only [AuxPow.check]
  grind

-- Which versions a merge-mined header may have

/-- The chain identifier survives the upper half of a version word, or is not compared. -/
def Params.ChainIdEncodable : Prop :=
  params.fStrictChainId = false
  ∨ (params.nAuxpowChainId <<< 16).sshiftRight 16 = params.nAuxpowChainId

/-- `SetBaseVersion(4, nChainId)` followed by `SetAuxpowFlag(true)`. -/
def mergedVersion (nChainId : BitVec 32) : BitVec 32 := nChainId <<< 16 ||| 0x104

/-- Only the upper half of a version decides its chain identifier. -/
theorem sshiftRight_mergedVersion (nChainId)
    : (mergedVersion nChainId).sshiftRight 16 = (nChainId <<< 16).sshiftRight 16 := by
  have low (k) (high : 16 ≤ k) : (0x104#32).getLsbD k = false := by
    have small : 0x104 < 2 ^ k :=
      Nat.lt_of_lt_of_le (by decide) (Nat.pow_le_pow_right (by decide) high)
    rw [BitVec.getLsbD_ofNat, Nat.testBit_lt_two_pow small, Bool.and_false]
  have top : (0x104#32).msb = false := by decide
  apply BitVec.eq_of_getLsbD_eq
  intro i inside
  simp [BitVec.getLsbD_sshiftRight, mergedVersion, BitVec.msb_or, low (16 + i) (by omega), top]

/-- A chain identifier read from a version survives being written back. -/
theorem shiftLeft_sshiftRight (nVersion : BitVec 32)
    : (nVersion.sshiftRight 16 <<< 16).sshiftRight 16 = nVersion.sshiftRight 16 := by
  apply BitVec.eq_of_getLsbD_eq
  intro i inside
  simp only [BitVec.getLsbD_sshiftRight, BitVec.getLsbD_shiftLeft, BitVec.msb_eq_getLsbD_last]
  grind

theorem isLegacy_of_isAuxpow {header : PureBlockHeader} (flag : header.isAuxpow = true)
    : header.isLegacy = false := by
  rw [isLegacy, Bool.or_eq_false_iff, Bool.and_eq_false_iff]
  refine ⟨?_, .inl ?_⟩
  all_goals
    rw [beq_eq_false_iff_ne]
    intro version
    rw [isAuxpow, version] at flag
    exact absurd flag (by decide)

/-- A merge-mined header passes the first test under some version exactly when the chain
identifier can be encoded; `mergedVersion` is then such a version.
-/
theorem chainIdEncodable_of_allowed {header : PureBlockHeader} {params}
    (flag : header.isAuxpow = true) (allowed : ChainIdAllowed header params)
    : params.ChainIdEncodable := by
  rcases allowed with legacy | relaxed | own
  · rw [isLegacy_of_isAuxpow flag] at legacy
    cases legacy
  · exact .inl relaxed
  · right
    rw [← own, getChainId, shiftLeft_sshiftRight]

theorem isAuxpow_mergedVersion {header : PureBlockHeader} {nChainId}
    (version : header.nVersion = mergedVersion nChainId)
    : header.isAuxpow = true := by
  rw [isAuxpow, version, bne_iff_ne]
  intro zero
  have bit := congrArg (BitVec.getLsbD · 8) zero
  simp [mergedVersion, PureBlockHeader.VERSION_AUXPOW] at bit

theorem allowed_mergedVersion {header params} (encodable : params.ChainIdEncodable)
    (version : header.nVersion = mergedVersion params.nAuxpowChainId)
    : ChainIdAllowed header params := by
  rcases encodable with relaxed | encoded
  · exact .inr (.inl relaxed)
  right; right
  rw [getChainId, version, sshiftRight_mergedVersion, encoded]

/-- With a chain identifier below the sign bit, the version is a positive number. -/
theorem toNat_mergedVersion {nChainId} (small : nChainId.toNat < 2 ^ 15)
    : (mergedVersion nChainId).toNat = nChainId.toNat * 2 ^ 16 + 0x104 := by
  rw [mergedVersion, BitVec.toNat_or, BitVec.toNat_shiftLeft, Nat.shiftLeft_eq,
    Nat.mod_eq_of_lt (by omega), ← Nat.shiftLeft_eq]
  exact (Nat.shiftLeft_add_eq_or_of_lt (by decide : 0x104 < 2 ^ 16) _).symm

theorem getBaseVersion_mergedVersion {header : PureBlockHeader} {nChainId}
    (small : nChainId.toNat < 2 ^ 15) (version : header.nVersion = mergedVersion nChainId)
    : header.getBaseVersion = 4 := by
  have value := toNat_mergedVersion small
  have modulus : PureBlockHeader.VERSION_AUXPOW.toInt = 256 := by decide
  rw [getBaseVersion, version, modulus,
    BitVec.toInt_eq_toNat_of_lt (by omega), value, Int.tmod_eq_emod_of_nonneg (by omega)]
  omega

theorem chainIdEncodable_of_small {params : Params} (small : params.nAuxpowChainId.toNat < 2 ^ 15)
    : params.ChainIdEncodable := by
  right
  have value : (params.nAuxpowChainId <<< 16).toNat = params.nAuxpowChainId.toNat * 2 ^ 16 := by
    rw [BitVec.toNat_shiftLeft, Nat.shiftLeft_eq, Nat.mod_eq_of_lt (by omega)]
  have sign : (params.nAuxpowChainId <<< 16).msb = false := by
    rw [BitVec.msb_eq_decide, value, decide_eq_false_iff_not]
    omega
  rw [BitVec.sshiftRight_eq_of_msb_false sign]
  apply BitVec.eq_of_toNat_eq
  rw [BitVec.toNat_ushiftRight, value, Nat.shiftRight_eq_div_pow, Nat.mul_div_cancel _ (by decide)]

-- One proof, how many blocks

/-- Headers that differ in their Merkle root alone have different hashes. This is as much of
collision freedom as a function into 256 bits can have on that field.
-/
def Hashing.CollisionFree : Prop :=
  ∀ header : PureBlockHeader,
    Function.Injective (fun root => ({ header with hashMerkleRoot := root }).getHash H)

/-- Some header is accepted with this merge-mining proof: its branch fits its parent, the
chain identifier has an encoding, and, for a parent of version `0x20000000`, some target
within the limit admits the parent's hash.
-/
def AuxPow.Attachable : Prop :=
  auxpow.BranchMatches H
  ∧ params.ChainIdEncodable
  ∧ (auxpow.parentBlock.nVersion = 0x20000000
    → ∃ nBits, AdmitsHash (auxpow.getParentBlockHash H) nBits params)

def mergedChild (nBits : BitVec 32) (hashMerkleRoot : Uint256)
    : BlockHeader where
  nVersion := mergedVersion params.nAuxpowChainId
  hashPrevBlock := 0
  hashMerkleRoot := hashMerkleRoot
  nTime := 0
  nBits := nBits
  nNonce := 0
  auxpow := some auxpow

theorem mergedChild_accepted {H : Hashing} {params auxpow} (nBits)
    (hashMerkleRoot) (encodable : params.ChainIdEncodable)
    (branch : auxpow.BranchMatches H) (work : auxpow.parentBlock.nVersion = 0x20000000
      → AdmitsHash (auxpow.getParentBlockHash H) nBits params)
    : checkAuxPowProofOfWork H (mergedChild params auxpow nBits hashMerkleRoot) params
      = true :=
  (checkAuxPowProofOfWork_some rfl).mpr
    ⟨allowed_mergedVersion encodable rfl, isAuxpow_mergedVersion rfl, branch, work⟩

theorem attachable_of_accepted {H params auxpow block} (present : block.auxpow = some auxpow)
    (accepted : checkAuxPowProofOfWork H block params = true)
    : auxpow.Attachable H params := by
  obtain ⟨allowed, flag, branch, work⟩ := (checkAuxPowProofOfWork_some present).mp accepted
  exact ⟨branch, chainIdEncodable_of_allowed flag allowed, fun parent => ⟨_, work parent⟩⟩

/-- A merge-mining proof commits to one block exactly when no block is accepted with it: the
child's hash is never compared, so a proof that fits one child fits every other.
-/
theorem auxPow_commits_iff (collisionFree : H.CollisionFree) (params : Params) (auxpow : AuxPow)
    : (∀ left right : BlockHeader,
        left.auxpow = some auxpow → right.auxpow = some auxpow
        → checkAuxPowProofOfWork H left params = true
        → checkAuxPowProofOfWork H right params = true
        → left.getHash H = right.getHash H)
      ↔ ¬ auxpow.Attachable H params := by
  constructor
  · rintro commits ⟨branch, encodable, admitted⟩
    obtain ⟨nBits, work⟩ : ∃ nBits, auxpow.parentBlock.nVersion = 0x20000000
        → AdmitsHash (auxpow.getParentBlockHash H) nBits params := by
      by_cases parent : auxpow.parentBlock.nVersion = 0x20000000
      · obtain ⟨nBits, work⟩ := admitted parent
        exact ⟨nBits, fun _ => work⟩
      · exact ⟨0, fun bitcoin => absurd bitcoin parent⟩
    have accepted (root) := mergedChild_accepted nBits root encodable branch work
    have same := commits _ _ rfl rfl (accepted 0) (accepted 1)
    have roots : (0 : Uint256) = 1 :=
      collisionFree (mergedChild params auxpow nBits 0).toPureBlockHeader same
    exact absurd roots (by decide)
  · intro detached left right present _ accepted
    exact absurd (attachable_of_accepted present accepted) detached

def rootHashing : Hashing where
  hash256 bytes := BitVec.ofNat 256 (Radix.value ((bytes.drop 36).take 32))
  scrypt bytes := BitVec.ofNat 256 (Radix.value ((bytes.drop 36).take 32))

theorem getHash_rootHashing (header : PureBlockHeader)
    : header.getHash rootHashing = header.hashMerkleRoot := by
  have root : (header.serialize.drop 36).take 32 = bytesLE 32 header.hashMerkleRoot := by
    simp [serialize, List.drop_append, List.take_append]
  simp [getHash, rootHashing, root, value_bytesLE]

theorem rootHashing_collisionFree : rootHashing.CollisionFree := by
  intro header left right same
  simpa only [getHash_rootHashing] using same

/-- A merge-mining proof with an empty branch, whose parent has the given version and a zero
Merkle root.
-/
def plainAuxPow (nVersion : BitVec 32) : AuxPow where
  tx := ⟨1, [], [], 0⟩
  hashBlock := 0
  vMerkleBranch := []
  nIndex := 0
  vChainMerkleBranch := []
  nChainIndex := 0
  parentBlock := ⟨nVersion, 0, 0, 0, 0, 0⟩

theorem plainAuxPow_branchMatches (nVersion) : (plainAuxPow nVersion).BranchMatches H := rfl

/-- A Bitcoin parent commits to no block. -/
theorem auxPow_commits_iff_bitcoin
    : ¬ ∀ left right : BlockHeader,
        left.auxpow = some (plainAuxPow 0x20000000)
        → right.auxpow = some (plainAuxPow 0x20000000)
        → checkAuxPowProofOfWork rootHashing left (mainConsensus 0) = true
        → checkAuxPowProofOfWork rootHashing right (mainConsensus 0) = true
        → left.getHash rootHashing = right.getHash rootHashing := by
  rw [auxPow_commits_iff rootHashing rootHashing_collisionFree, not_not]
  refine ⟨plainAuxPow_branchMatches _ _, .inr (by decide), fun _ => ⟨0x207fffff, ?_⟩⟩
  rw [AuxPow.getParentBlockHash, getHash_rootHashing]
  decide

/-- Two children of the main network with one proof of a Bitcoin parent: both are accepted,
and their hashes differ.
-/
theorem auxPow_attached_twice
    : (mergedChild (mainConsensus 0) (plainAuxPow 0x20000000) 0x207fffff 0).auxpow
        = (mergedChild (mainConsensus 0) (plainAuxPow 0x20000000) 0x207fffff 1).auxpow
      ∧ checkAuxPowProofOfWork rootHashing
          (mergedChild (mainConsensus 0) (plainAuxPow 0x20000000) 0x207fffff 0)
          (mainConsensus 0) = true
      ∧ checkAuxPowProofOfWork rootHashing
          (mergedChild (mainConsensus 0) (plainAuxPow 0x20000000) 0x207fffff 1)
          (mainConsensus 0) = true
      ∧ (mergedChild (mainConsensus 0) (plainAuxPow 0x20000000) 0x207fffff 0).getHash rootHashing
        ≠ (mergedChild (mainConsensus 0) (plainAuxPow 0x20000000) 0x207fffff 1).getHash
          rootHashing := by
  have work : AdmitsHash ((plainAuxPow 0x20000000).getParentBlockHash rootHashing) 0x207fffff
      (mainConsensus 0) := by
    rw [AuxPow.getParentBlockHash, getHash_rootHashing]
    decide
  have accepted (root) := mergedChild_accepted 0x207fffff root
    (.inr (by decide)) (plainAuxPow_branchMatches rootHashing 0x20000000) (fun _ => work)
  refine ⟨rfl, accepted 0, accepted 1, ?_⟩
  rw [getHash_rootHashing, getHash_rootHashing]
  decide

-- What the parent commits to

/-- The Merkle root of the merge-mined chains: `CheckMerkleBranch` of the block hash at
`nChainIndex`.
-/
def AuxPow.chainMerkleRoot (hashAuxBlock : Uint256) : Uint256 :=
  AuxPow.checkMerkleBranch H hashAuxBlock auxpow.vChainMerkleBranch auxpow.nChainIndex

/-- The script of the first input contains the root's bytes, most significant first. -/
def Transaction.CoinbaseContains (tx : Transaction) (root : Uint256) : Prop :=
  ∃ txin, tx.vin.head? = some txin ∧ (bytesLE 32 root).reverse <:+: txin.scriptSig

/-- The proof belongs to a foreign parent: its transaction is the first one of the parent
block, and commits to the merge-mined block.
-/
structure AuxPow.Anchored (hashAuxBlock : Uint256) (nChainId : BitVec 32)
    : Prop where
  foreignParent : auxpow.parentBlock.getChainId ≠ nChainId
  inParent :
    AuxPow.checkMerkleBranch H (auxpow.tx.getHash H) auxpow.vMerkleBranch 0
      = auxpow.parentBlock.hashMerkleRoot
  committed : auxpow.tx.CoinbaseContains (auxpow.chainMerkleRoot H hashAuxBlock)

/-- `check` reads `hashBlock`, `vMerkleBranch` and the parent's Merkle root. The proofs with given
values there are anchored whenever `check` accepts them, whatever their other fields, exactly if
it accepts none: with the transaction left open, nothing ties it to the parent.
-/
theorem check_anchors_iff (nChainId : BitVec 32) (block : BlockHeader) (hashBlock : Uint256)
    (vMerkleBranch : List Uint256) (hashMerkleRoot : Uint256)
    : (∀ auxpow : AuxPow,
        auxpow.hashBlock = hashBlock → auxpow.vMerkleBranch = vMerkleBranch
        → auxpow.parentBlock.hashMerkleRoot = hashMerkleRoot
        → auxpow.check H (block.getHash H) nChainId params = true
        → auxpow.Anchored H (block.getHash H) nChainId)
      ↔ AuxPow.checkMerkleBranch H hashBlock vMerkleBranch 0 ≠ hashMerkleRoot := by
  constructor
  · intro anchors fits
    -- a transaction without inputs has no script to commit in
    have anchored := anchors
      { plainAuxPow 0 with
        hashBlock := hashBlock
        vMerkleBranch := vMerkleBranch
        parentBlock := ⟨0, 0, hashMerkleRoot, 0, 0, 0⟩ }
      rfl rfl rfl (beq_iff_eq.mpr fits)
    obtain ⟨txin, first, -⟩ := anchored.committed
    cases first
  · rintro detached auxpow rfl rfl rfl accepted
    exact absurd (beq_iff_eq.mp accepted) detached

/-- A proof whose parent has our own chain identifier and whose transaction has no input is
accepted on the main network.
-/
theorem check_without_anchor
    : (mainConsensus 0).fStrictChainId = true
      ∧ (plainAuxPow 0x620000).check rootHashing
        ((mergedChild (mainConsensus 0) (plainAuxPow 0x620000) 0x207fffff 0).getHash rootHashing)
        (mainConsensus 0).nAuxpowChainId (mainConsensus 0) = true
      ∧ (plainAuxPow 0x620000).parentBlock.getChainId = (mainConsensus 0).nAuxpowChainId
      ∧ (plainAuxPow 0x620000).tx.vin = []
      ∧ ¬ (plainAuxPow 0x620000).Anchored rootHashing
        ((mergedChild (mainConsensus 0) (plainAuxPow 0x620000) 0x207fffff 0).getHash rootHashing)
        (mainConsensus 0).nAuxpowChainId := by
  refine ⟨rfl, rfl, by decide, rfl, fun anchored => ?_⟩
  exact anchored.foreignParent (by decide)

-- No block without work

/-- The hash that carries a header's work: its own scrypt hash, or that of its parent, which
is double SHA-256 for a Bitcoin parent (version `0x20000000`) and scrypt for the others.
-/
def workHash (block : BlockHeader) : Uint256 :=
  match block.auxpow with
  | none => block.getPoWHash H
  | some auxpow =>
    if auxpow.parentBlock.nVersion = 0x20000000 then auxpow.getParentBlockHash H
    else auxpow.getParentBlockPoWHash H

theorem admitsHash_of_none {H block params} (absent : block.auxpow = none)
    (accepted : checkAuxPowProofOfWork H block params = true)
    : AdmitsHash (workHash H block) block.nBits params := by
  rw [workHash, absent]
  exact ((checkAuxPowProofOfWork_none absent).mp accepted).2.2

/-- Acceptance implies work for the headers without a proof and for those with a Bitcoin
parent; for any other parent version it does so only if no merge-mined header is accepted
at all.
-/
theorem accepted_has_work_iff (parentVersion : Option (BitVec 32))
    : (∀ block : BlockHeader,
        block.auxpow.map (fun auxpow => auxpow.parentBlock.nVersion) = parentVersion
        → checkAuxPowProofOfWork H block params = true
        → AdmitsHash (workHash H block) block.nBits params)
      ↔ parentVersion = none ∨ parentVersion = some 0x20000000
        ∨ ¬ params.ChainIdEncodable := by
  constructor
  · intro works
    cases parentVersion with
    | none => exact .inl rfl
    | some nVersion =>
      by_cases bitcoin : nVersion = 0x20000000
      · exact .inr (.inl (by rw [bitcoin]))
      refine .inr (.inr fun encodable => ?_)
      -- a zero target admits no hash, yet nothing looks at it
      have accepted := mergedChild_accepted 0 0 encodable
        (plainAuxPow_branchMatches H nVersion) (fun parent => absurd parent bitcoin)
      have pos : 0 < compactValue 0 := (works _ rfl accepted).1
      exact absurd pos (by decide)
  · rintro (absent | bitcoin | detached) block version accepted
    · exact admitsHash_of_none (by simpa [absent] using version) accepted
    · obtain ⟨auxpow, present, parent⟩ := Option.map_eq_some_iff.mp (version.trans bitcoin)
      simp only [workHash, present, parent, if_true]
      exact ((checkAuxPowProofOfWork_some present).mp accepted).2.2.2 parent
    · cases present : block.auxpow with
      | none => exact admitsHash_of_none present accepted
      | some auxpow => exact absurd (attachable_of_accepted present accepted).2.1 detached

/-- A main-network header with a zero target is accepted under a parent of version `1`. -/
theorem accepted_without_work
    : checkAuxPowProofOfWork rootHashing (mergedChild (mainConsensus 0) (plainAuxPow 1) 0 0)
        (mainConsensus 0) = true
      ∧ ¬ AdmitsHash (workHash rootHashing (mergedChild (mainConsensus 0) (plainAuxPow 1) 0 0))
        (mergedChild (mainConsensus 0) (plainAuxPow 1) 0 0).nBits (mainConsensus 0) :=
  ⟨mergedChild_accepted 0 0 (.inr (by decide)) (plainAuxPow_branchMatches rootHashing 1)
      (fun parent => absurd parent (by decide)),
    fun work => absurd work.1 (by decide)⟩

end Pqcoin
