import Pqcoin.Consensus.AuxPow
import Pqcoin.Consensus.Merkle
import Pqcoin.Lib.Checks
import Pqcoin.Lib.Folds
import Pqcoin.Primitives.Script

/-! The context-free block checks of `validation.cpp`, and what they say about the signature
operations of the blocks that pass, which are counted in 32 bits.
-/

namespace Pqcoin

open Checks Script

def WITNESS_SCALE_FACTOR : Nat := 4

/-- `CCoinsViewCache::GetOutputFor`, on inputs that are available. -/
abbrev CoinsView := OutPoint → TxOut

/-- The two script flags that the counts read. `CountWitnessSigOps` asserts that witnesses
are only counted together with pay-to-script-hash.
-/
structure SigOpFlags where
  p2sh : Bool
  witness : Bool
  nested : witness = true → p2sh = true

namespace Transaction

-- Counters

def getLegacySigOpCount (tx : Transaction) : BitVec 32 :=
  let nSigOps := tx.vin.foldl
    (fun nSigOps txin => nSigOps + Script.getSigOpCount false txin.scriptSig) 0
  tx.vout.foldl
    (fun nSigOps txout => nSigOps + Script.getSigOpCount false txout.scriptPubKey) nSigOps

def p2shSigOpCount (inputs : CoinsView) (txin : TxIn) : BitVec 32 :=
  let prevout := inputs txin.prevout
  if Script.isPayToScriptHash prevout.scriptPubKey then
    Script.getSigOpCountOf prevout.scriptPubKey txin.scriptSig
  else 0

def getP2SHSigOpCount (inputs : CoinsView) (tx : Transaction) : BitVec 32 :=
  if tx.isCoinBase then 0
  else tx.vin.foldl (fun nSigOps txin => nSigOps + p2shSigOpCount inputs txin) 0

def witnessSigOps (witversion : Nat) (witprogram : List Byte) (witness : List (List Byte))
    : BitVec 32 :=
  if witversion = 0 then
    if witprogram.length = 20 then 1
    else if witprogram.length = 32 then
      match witness.getLast? with
      | none => 0
      | some subscript => Script.getSigOpCount true subscript
    else 0
  else 0

def countWitnessSigOps (flags : SigOpFlags) (inputs : CoinsView) (txin : TxIn) : BitVec 32 :=
  let scriptPubKey := (inputs txin.prevout).scriptPubKey
  if !flags.witness then 0
  else match Script.isWitnessProgram scriptPubKey with
    | some (version, program) => witnessSigOps version program txin.scriptWitness
    | none =>
      if Script.isPayToScriptHash scriptPubKey then
        match (Script.lastPush txin.scriptSig []).bind Script.isWitnessProgram with
        | some (version, program) => witnessSigOps version program txin.scriptWitness
        | none => 0
      else 0

/-- `GetTransactionSigOpCost`: each product is taken in 32 bits, and only their sum in 64. -/
def getTransactionSigOpCost (flags : SigOpFlags) (inputs : CoinsView) (tx : Transaction)
    : BitVec 64 :=
  let nSigOps := (getLegacySigOpCount tx * BitVec.ofNat 32 WITNESS_SCALE_FACTOR).setWidth 64
  if tx.isCoinBase then nSigOps
  else
    let nSigOps :=
      if flags.p2sh then
        nSigOps
          + (getP2SHSigOpCount inputs tx * BitVec.ofNat 32 WITNESS_SCALE_FACTOR).setWidth 64
      else nSigOps
    tx.vin.foldl
      (fun nSigOps txin => nSigOps + (countWitnessSigOps flags inputs txin).setWidth 64) nSigOps

-- Counts

/-- The legacy signature operations of a transaction, as an unbounded number. -/
def legacySigOps (tx : Transaction) : Nat :=
  (tx.vin.map (fun txin => Script.sigOps false txin.scriptSig)).sum
    + (tx.vout.map (fun txout => Script.sigOps false txout.scriptPubKey)).sum

theorem toNat_getLegacySigOpCount (tx)
    : (getLegacySigOpCount tx).toNat = legacySigOps tx % 2 ^ 32 := by
  rw [getLegacySigOpCount,
    Folds.toNat_foldl_add (fun txout : TxOut =>
      Script.toNat_getSigOpCount false txout.scriptPubKey),
    Folds.toNat_foldl_add (fun txin : TxIn => Script.toNat_getSigOpCount false txin.scriptSig)]
  simp [legacySigOps]

/-- The cost of a coinbase is its legacy count, scaled modulo `2 ^ 32`. -/
theorem toNat_getTransactionSigOpCost {tx} (coinBase : tx.isCoinBase = true) (flags inputs)
    : (getTransactionSigOpCost flags inputs tx).toNat
      = WITNESS_SCALE_FACTOR * legacySigOps tx % 2 ^ 32 := by
  simp only [getTransactionSigOpCost, coinBase, if_true, BitVec.toNat_setWidth,
    BitVec.toNat_mul, BitVec.toNat_ofNat, toNat_getLegacySigOpCount, WITNESS_SCALE_FACTOR]
  omega

end Transaction

variable (H : Hashing) (block : Block) (chainparams : ChainParams)

-- Rejections

def REJECT_INVALID : BitVec 32 := 0x10
def REJECT_OBSOLETE : BitVec 32 := 0x11
def REJECT_NONSTANDARD : BitVec 32 := 0x40
/-- An invalid `CValidationState`: what `DoS` has recorded in it. -/
structure Rejection where
  nDoS : Nat
  chRejectCode : BitVec 32
  strRejectReason : String
  corruptionPossible : Bool
  strDebugMessage : String
  deriving DecidableEq

/-- How a check ends when it does not pass. -/
inductive Failure where
  | rejected (rejection : Rejection)
  | assertion
  deriving DecidableEq

def invalid (nDoS : Nat) (strRejectReason : String) : Failure :=
  .rejected ⟨nDoS, REJECT_INVALID, strRejectReason, false, ""⟩

def invalidBlock (strRejectReason : String) (corruptionPossible : Bool) (strDebugMessage : String)
    : Failure :=
  .rejected ⟨100, REJECT_INVALID, strRejectReason, corruptionPossible, strDebugMessage⟩

/-- The last `count` hexadecimal digits, most significant first. -/
def hexDigits (count value : Nat) : String :=
  String.ofList
    ((List.range count).map (fun i => Nat.digitChar (value / 16 ^ (count - 1 - i) % 16)))

def getHex (hash : Uint256) : String := hexDigits 64 hash.toNat

-- CheckTransaction

def MAX_BLOCK_BASE_SIZE : Nat := 1000000

/-- The loop over the outputs, with its running `int64_t` total. -/
def checkOutputs (nValueOut : Amount) : List TxOut → Except Failure Unit
  | [] => .ok ()
  | txout :: rest => do
      require (¬ txout.nValue.toInt < 0) (invalid 100 "bad-txns-vout-negative")
      require (¬ txout.nValue.toInt > MAX_MONEY) (invalid 100 "bad-txns-vout-toolarge")
      require (MoneyRange (nValueOut + txout.nValue)) (invalid 100 "bad-txns-txouttotal-toolarge")
      checkOutputs (nValueOut + txout.nValue) rest

/-- The last check: the script length of a coinbase, the previous outputs of the others. -/
def checkInputs (tx : Transaction) : Except Failure Unit :=
  if tx.isCoinBase then
    forM (tx.vin.take 1) (fun txin =>
      require (¬ (txin.scriptSig.length < 2 ∨ txin.scriptSig.length > 100))
        (invalid 100 "bad-cb-length"))
  else
    forM tx.vin (fun txin =>
      require (¬ txin.prevout.isNull) (invalid 10 "bad-txns-prevout-null"))

def checkTransaction (fCheckDuplicateInputs : Bool) (tx : Transaction) : Except Failure Unit := do
  require (tx.vin ≠ []) (invalid 10 "bad-txns-vin-empty")
  require (tx.vout ≠ []) (invalid 10 "bad-txns-vout-empty")
  require ((tx.serialize false).length ≤ MAX_BLOCK_BASE_SIZE) (invalid 100 "bad-txns-oversize")
  checkOutputs 0 tx.vout
  require (fCheckDuplicateInputs → (tx.vin.map (fun txin => txin.prevout)).Nodup)
    (invalid 100 "bad-txns-inputs-duplicate")
  checkInputs tx

-- CheckBlock

def MAX_BLOCK_SIGOPS_COST : Nat := 80000

/-- `CBlockHeader::SerializationOp`; a header with the auxpow flag asserts its proof. -/
def BlockHeader.serialize (fAllowWitness : Bool) (header : BlockHeader)
    : Except Failure (List Byte) :=
  if header.isAuxpow then
    match header.auxpow with
    | none => .error .assertion
    | some auxpow => .ok (header.toPureBlockHeader.serialize ++ auxpow.serialize fAllowWitness)
  else .ok header.toPureBlockHeader.serialize

/-- `CBlock::SerializationOp`. -/
def Block.serialize (fAllowWitness : Bool) (block : Block) : Except Failure (List Byte) := do
  let header ← block.toBlockHeader.serialize fAllowWitness
  return header ++ serializeVector (Transaction.serialize fAllowWitness) block.vtx

/-- `CheckBlockHeader`; the parameters are always those of height `0`. -/
def checkBlockHeader (fCheckPOW : Bool) (block : BlockHeader)
    : Except Failure Unit :=
  require (fCheckPOW → checkAuxPowProofOfWork H block (chainparams.getConsensus 0))
    (.rejected ⟨50, REJECT_INVALID, "high-hash", false, "proof of work failed"⟩)

def checkMerkleRoot : Except Failure Unit := do
  let (hashMerkleRoot2, mutated) := blockMerkleRoot H block.vtx
  require (block.hashMerkleRoot = hashMerkleRoot2)
    (invalidBlock "bad-txnmrklroot" true "hashMerkleRoot mismatch")
  require (¬ mutated) (invalidBlock "bad-txns-duplicate" true "duplicate transaction")

def checkSize : Except Failure Unit :=
  if block.vtx.isEmpty ∨ block.vtx.length > MAX_BLOCK_BASE_SIZE then
    .error (invalidBlock "bad-blk-length" false "size limits failed")
  else do
    let bytes ← block.serialize false
    require (bytes.length ≤ MAX_BLOCK_BASE_SIZE)
      (invalidBlock "bad-blk-length" false "size limits failed")

/-- "First transaction must be coinbase, the rest must not be". -/
def checkCoinBase (vtx : List Transaction) : Except Failure Unit := do
  require (vtx.head?.any Transaction.isCoinBase)
    (invalidBlock "bad-cb-missing" false "first tx is not coinbase")
  forM vtx.tail (fun tx =>
    require (¬ tx.isCoinBase) (invalidBlock "bad-cb-multiple" false "more than one coinbase"))

/-- A failed `CheckTransaction` is reported again through `state.Invalid`, which keeps the
score, the code and the reason, and names the transaction.
-/
def checkBlockTransaction (tx : Transaction) : Except Failure Unit :=
  (checkTransaction true tx).mapError fun
    | .assertion => .assertion
    | .rejected rejection =>
      .rejected
        {
          rejection with
          corruptionPossible := false
          strDebugMessage := "Transaction check failed (tx hash " ++ getHex (tx.getHash H)
            ++ ") " ++ rejection.strDebugMessage
        }

/-- Everything `CheckBlock` does before it counts the signature operations. -/
def checkBlockContents (fCheckPOW fCheckMerkleRoot : Bool) (block : Block)
    : Except Failure Unit := do
  checkBlockHeader H chainparams fCheckPOW block.toBlockHeader
  if fCheckMerkleRoot then checkMerkleRoot H block
  checkSize block
  checkCoinBase block.vtx
  forM block.vtx (checkBlockTransaction H)

/-- The `unsigned int` total of `CheckBlock`. -/
def blockSigOpCount (vtx : List Transaction) : BitVec 32 :=
  vtx.foldl (fun nSigOps tx => nSigOps + tx.getLegacySigOpCount) 0

def checkBlock (fCheckPOW fCheckMerkleRoot : Bool) (block : Block)
    : Except Failure Block :=
  if block.fChecked then .ok block
  else do
    checkBlockContents H chainparams fCheckPOW fCheckMerkleRoot block
    -- the product is still an unsigned int
    require ((blockSigOpCount block.vtx * BitVec.ofNat 32 WITNESS_SCALE_FACTOR).toNat
        ≤ MAX_BLOCK_SIGOPS_COST)
      (invalidBlock "bad-blk-sigops" false "out-of-bounds SigOpCount")
    return if fCheckPOW ∧ fCheckMerkleRoot then { block with fChecked := true } else block

-- The signature-operation limit

def blockSigOps (vtx : List Transaction) : Nat := (vtx.map Transaction.legacySigOps).sum

/-- The compared product is exact modulo `2 ^ 32`. -/
theorem toNat_blockSigOpCount (vtx)
    : (blockSigOpCount vtx * BitVec.ofNat 32 WITNESS_SCALE_FACTOR).toNat
      = WITNESS_SCALE_FACTOR * blockSigOps vtx % 2 ^ 32 := by
  have total : (blockSigOpCount vtx).toNat = blockSigOps vtx % 2 ^ 32 := by
    rw [blockSigOpCount, Folds.toNat_foldl_add Transaction.toNat_getLegacySigOpCount]
    simp [blockSigOps]
  rw [BitVec.toNat_mul, total, BitVec.toNat_ofNat, WITNESS_SCALE_FACTOR]
  omega

def Accepted (fCheckPOW fCheckMerkleRoot : Bool) (block : Block)
    : Prop :=
  ∃ checked, checkBlock H chainparams fCheckPOW fCheckMerkleRoot block = .ok checked

instance (fCheckPOW fCheckMerkleRoot : Bool) (block : Block)
    : Decidable (Accepted H chainparams fCheckPOW fCheckMerkleRoot block) :=
  match checked : checkBlock H chainparams fCheckPOW fCheckMerkleRoot block with
  | .ok block => isTrue ⟨block, checked⟩
  | .error _ => isFalse fun ⟨_, passed⟩ => nomatch checked.symm.trans passed

section Limit

variable {H : Hashing} {chainparams : ChainParams} {fCheckPOW fCheckMerkleRoot : Bool}

variable {block : Block}

/-- A block that was not checked before passes by its contents and by the wrapped product. -/
theorem accepted_of_unchecked (unchecked : block.fChecked = false)
    : Accepted H chainparams fCheckPOW fCheckMerkleRoot block
      ↔ checkBlockContents H chainparams fCheckPOW fCheckMerkleRoot block = .ok ()
        ∧ WITNESS_SCALE_FACTOR * blockSigOps block.vtx % 2 ^ 32 ≤ MAX_BLOCK_SIGOPS_COST := by
  rw [Accepted, checkBlock, unchecked, ← toNat_blockSigOpCount]
  simp [pure, Except.pure]

theorem checkBlock_cases {checked}
    (passed : checkBlock H chainparams fCheckPOW fCheckMerkleRoot block = .ok checked)
    : checked = block ∨ checked = { block with fChecked := true } := by
  rw [checkBlock] at passed
  split at passed
  · cases passed
    exact .inl rfl
  simp only [then_ok, pure, Except.pure, Except.ok.injEq] at passed
  rw [← passed.2.2]
  split
  · exact .inr rfl
  · exact .inl rfl

/-- A block as the node holds it: not checked yet, or returned by `CheckBlock`, which alone
sets `fChecked`.
-/
inductive Honest (H : Hashing) (chainparams : ChainParams) : Block → Prop where
  | unchecked {block : Block} (flag : block.fChecked = false) : Honest H chainparams block
  | checked {fCheckPOW fCheckMerkleRoot : Bool} {block checked : Block}
      (known : Honest H chainparams block)
      (passed : checkBlock H chainparams fCheckPOW fCheckMerkleRoot block = .ok checked)
      : Honest H chainparams checked

theorem Honest.of_checked {P : List Transaction → Prop}
    (passes : ∀ fCheckPOW fCheckMerkleRoot block, block.fChecked = false
      → Accepted H chainparams fCheckPOW fCheckMerkleRoot block → P block.vtx)
    {block} (honest : Honest H chainparams block) (flag : block.fChecked = true)
    : P block.vtx := by
  induction honest with
  | unchecked unset =>
    rw [unset] at flag
    cases flag
  | @checked fCheckPOW fCheckMerkleRoot block checked known passed ih =>
    have same : checked.vtx = block.vtx := by
      rcases checkBlock_cases passed with rfl | rfl <;> rfl
    rw [same]
    cases before : block.fChecked with
    | true => exact ih before
    | false => exact passes fCheckPOW fCheckMerkleRoot block before ⟨checked, passed⟩

theorem Honest.product_le (honest : Honest H chainparams block) (flag : block.fChecked = true)
    : WITNESS_SCALE_FACTOR * blockSigOps block.vtx % 2 ^ 32 ≤ MAX_BLOCK_SIGOPS_COST :=
  honest.of_checked
    (P := fun vtx => WITNESS_SCALE_FACTOR * blockSigOps vtx % 2 ^ 32 ≤ MAX_BLOCK_SIGOPS_COST)
    (fun _ _ _ unset accepted => ((accepted_of_unchecked unset).mp accepted).2) flag

theorem checkTransaction_of_block {tx} (passed : checkBlockTransaction H tx = .ok ())
    : checkTransaction true tx = .ok () := by
  rw [checkBlockTransaction] at passed
  cases result : checkTransaction true tx with
  | error failure =>
    rw [result] at passed
    cases passed
  | ok => rfl

theorem Honest.transactions (honest : Honest H chainparams block)
    (accepted : Accepted H chainparams fCheckPOW fCheckMerkleRoot block)
    : checkCoinBase block.vtx = .ok () ∧ ∀ tx ∈ block.vtx, checkTransaction true tx = .ok () := by
  have passes (fCheckPOW fCheckMerkleRoot) (block)
      (unset : block.fChecked = false)
      (accepted : Accepted H chainparams fCheckPOW fCheckMerkleRoot block)
      : checkCoinBase block.vtx = .ok ()
        ∧ ∀ tx ∈ block.vtx, checkTransaction true tx = .ok () := by
    have contents := ((accepted_of_unchecked unset).mp accepted).1
    have last : checkCoinBase block.vtx = .ok ()
        ∧ ∀ tx ∈ block.vtx, checkBlockTransaction H tx = .ok () := by
      cases fCheckMerkleRoot with
      | true =>
        simp only [checkBlockContents, if_true, then_ok, forM_ok] at contents
        exact contents.2.2.2
      | false =>
        simp only [checkBlockContents, Bool.false_eq_true, if_false, then_ok, forM_ok]
          at contents
        exact contents.2.2
    exact ⟨last.1, fun tx mem => checkTransaction_of_block (last.2 tx mem)⟩
  cases flag : block.fChecked with
  | false => exact passes _ _ block flag accepted
  | true =>
    exact honest.of_checked
      (P := fun vtx => checkCoinBase vtx = .ok ()
        ∧ ∀ tx ∈ vtx, checkTransaction true tx = .ok ())
      passes flag

end Limit

/-- A cost beyond the limit whose 32-bit remainder is within it. -/
def HiddenByWrap (cost : Nat) : Prop :=
  MAX_BLOCK_SIGOPS_COST < cost ∧ cost % 2 ^ 32 ≤ MAX_BLOCK_SIGOPS_COST

/-- The limit is enforced exactly on the blocks whose cost does not wrap to within it, and on
those that fail another check first.
-/
theorem sigOpLimit_enforced_iff (H : Hashing) (chainparams : ChainParams)
    (fCheckPOW fCheckMerkleRoot : Bool) (block : Block) (honest : Honest H chainparams block)
    : (Accepted H chainparams fCheckPOW fCheckMerkleRoot block
        → WITNESS_SCALE_FACTOR * blockSigOps block.vtx ≤ MAX_BLOCK_SIGOPS_COST)
      ↔ ¬ HiddenByWrap (WITNESS_SCALE_FACTOR * blockSigOps block.vtx)
        ∨ (block.fChecked = false
          ∧ checkBlockContents H chainparams fCheckPOW fCheckMerkleRoot block ≠ .ok ()) := by
  have within (cost) (wrapped : cost % 2 ^ 32 ≤ MAX_BLOCK_SIGOPS_COST)
      : cost ≤ MAX_BLOCK_SIGOPS_COST ↔ ¬ HiddenByWrap cost := by
    rw [HiddenByWrap]
    omega
  cases flag : block.fChecked with
  | true =>
    rw [within _ (honest.product_le flag)]
    simp [Accepted, checkBlock, flag]
  | false =>
    rw [accepted_of_unchecked flag, HiddenByWrap]
    by_cases passes : checkBlockContents H chainparams fCheckPOW fCheckMerkleRoot block = .ok ()
    · simp only [passes, true_and, ne_eq, not_true_eq_false, and_false, or_false]
      omega
    · simp [passes]

def zeroHashing : Hashing := ⟨fun _ => 0, fun _ => 0⟩

/-- A coinbase whose only output script repeats `OP_CHECKMULTISIG`. -/
def multisigCoinBase (count : Nat) : Transaction where
  nVersion := 1
  vin := [⟨⟨0, 0xffffffff⟩, [0, 0], 0, []⟩]
  vout := [⟨0, List.replicate count Script.OP_CHECKMULTISIG⟩]
  nLockTime := 0

def plainHeader : BlockHeader where
  nVersion := 0x00620004
  hashPrevBlock := 0
  hashMerkleRoot := 0
  nTime := 0
  nBits := 0x207fffff
  nNonce := 0
  auxpow := none

def multisigBlock (count : Nat) : Block := ⟨plainHeader, [multisigCoinBase count], false⟩

theorem legacySigOps_multisigCoinBase (count)
    : (multisigCoinBase count).legacySigOps = MAX_PUBKEYS_PER_MULTISIG * count := by
  have unlocking : sigOpSum false [0#8, 0#8] OP_INVALIDOPCODE = 0 := by
    rw [sigOpSum_of_some rfl, sigOpSum_of_some rfl, sigOpSum_of_none rfl]
    rfl
  simp [Transaction.legacySigOps, multisigCoinBase, unlocking, sigOps, sigOpSum_replicate]

theorem blockSigOps_multisigBlock (count)
    : blockSigOps (multisigBlock count).vtx = MAX_PUBKEYS_PER_MULTISIG * count := by
  simp [blockSigOps, multisigBlock, legacySigOps_multisigCoinBase]

theorem length_multisigCoinBase (count)
    : ((multisigCoinBase count).serialize false).length ≤ count + 100 := by
  have sizes (nSize) : (writeCompactSize nSize).length ≤ 9 := by
    rw [writeCompactSize]
    split_ifs <;> simp
  have input := sizes 2
  have output := sizes count
  have vector := sizes 1
  simp [Transaction.serialize, multisigCoinBase, serializeVector, serializeBytes, TxIn.serialize,
    OutPoint.serialize, TxOut.serialize]
  omega

theorem checkTransaction_multisigCoinBase {count} (small : count ≤ 900000)
    : checkTransaction true (multisigCoinBase count) = .ok () := by
  have bytes := length_multisigCoinBase count
  simp only [checkTransaction, then_ok, require_ok]
  refine ⟨by simp [multisigCoinBase], by simp [multisigCoinBase], ?_, ?_, ?_, rfl⟩
  · rw [MAX_BLOCK_BASE_SIZE]
    omega
  · simp [multisigCoinBase, checkOutputs, MoneyRange, MAX_MONEY]
  · simp [multisigCoinBase]

theorem plainHeader_accepted
    : checkAuxPowProofOfWork zeroHashing plainHeader ((mainParams 0).getConsensus 0) = true :=
  (checkAuxPowProofOfWork_none rfl).mpr ⟨.inr (.inr (by decide)), by decide, by decide⟩

/-- Up to a size far above the limit, nothing else is wrong with such a block. -/
theorem contents_multisigCoinBase {count} (small : count ≤ 900000)
    {chainparams} {header} (plain : header.isAuxpow = false) (root : header.hashMerkleRoot = 0)
    (work : checkAuxPowProofOfWork zeroHashing header (chainparams.getConsensus 0) = true)
    : checkBlockContents zeroHashing chainparams true true
        ⟨header, [multisigCoinBase count], false⟩
      = .ok () := by
  have bytes := length_multisigCoinBase count
  simp only [checkBlockContents, if_true, then_ok, forM_ok]
  refine ⟨?_, ?_, ?_, rfl, ?_⟩
  · rw [checkBlockHeader, require_ok]
    exact fun _ => work
  · rw [checkMerkleRoot, blockMerkleRoot, List.map_singleton, computeMerkleRoot_singleton]
    simp only [then_ok, require_ok]
    exact ⟨root, by simp⟩
  · have serialized : BlockHeader.serialize false header
        = .ok header.toPureBlockHeader.serialize := if_neg (by simp [plain])
    rw [checkSize, if_neg (by simp [MAX_BLOCK_BASE_SIZE]), Block.serialize, serialized, bind_ok]
    refine ⟨_, rfl, ?_⟩
    rw [require_ok, MAX_BLOCK_BASE_SIZE, List.length_append, serializeVector]
    simp [PureBlockHeader.serialize, writeCompactSize]
    omega
  · intro tx mem
    rw [List.mem_singleton.mp mem, checkBlockTransaction,
      checkTransaction_multisigCoinBase small]
    rfl

/-- A coinbase with `OP_CHECKMULTISIG` four times. -/
theorem sigOpLimit_enforced_iff_multisig
    : Accepted zeroHashing (mainParams 0) true true (multisigBlock 4)
      ∧ WITNESS_SCALE_FACTOR * blockSigOps (multisigBlock 4).vtx ≤ MAX_BLOCK_SIGOPS_COST := by
  have accepted : Accepted zeroHashing (mainParams 0) true true (multisigBlock 4) := by
    rw [accepted_of_unchecked rfl, blockSigOps_multisigBlock]
    exact ⟨contents_multisigCoinBase (by decide) rfl rfl plainHeader_accepted, by decide⟩
  have whole : ¬ HiddenByWrap (WITNESS_SCALE_FACTOR * blockSigOps (multisigBlock 4).vtx) := by
    rw [blockSigOps_multisigBlock]
    exact fun hidden => absurd hidden.1 (by decide)
  exact ⟨accepted, (sigOpLimit_enforced_iff _ _ _ _ _ (.unchecked rfl)).mpr (.inl whole) accepted⟩

/-- A block with `214749` bare multisignature checks is accepted: their cost of `4294980000`
leaves the remainder `12704`. Its coinbase passes the later cost check in the same way.
-/
theorem wrapping_block_accepted
    : Accepted zeroHashing (mainParams 0) true true (multisigBlock 214749)
      ∧ WITNESS_SCALE_FACTOR * blockSigOps (multisigBlock 214749).vtx = 4294980000
      ∧ MAX_BLOCK_SIGOPS_COST < 4294980000
      ∧ ∀ flags inputs,
        ((multisigCoinBase 214749).getTransactionSigOpCost flags inputs).toNat = 12704 := by
  have cost : WITNESS_SCALE_FACTOR * (MAX_PUBKEYS_PER_MULTISIG * 214749) = 4294980000 := rfl
  rw [blockSigOps_multisigBlock]
  refine ⟨?_, cost, by decide, fun flags inputs => ?_⟩
  · rw [accepted_of_unchecked rfl, blockSigOps_multisigBlock, cost]
    exact ⟨contents_multisigCoinBase (by decide) rfl rfl plainHeader_accepted, by decide⟩
  · rw [Transaction.toNat_getTransactionSigOpCost rfl, legacySigOps_multisigCoinBase, cost]
    decide

end Pqcoin
