import Pqcoin.Coins.Undo

/-! Disconnecting a block with the undo data of its connection gives back the coins before it. -/

namespace Pqcoin

open Checks Coins ConnectContext List

-- Entries of height zero

/-- Every entry has the height of a block, and one of height zero keeps an output that none of the
inputs spends. Undo data of height zero says that an entry had further outputs.
-/
def KeepsOutput (inputs : List OutPoint) (table : CoinsTable) : Prop :=
  ∀ txid, (coinsAt table txid).isPruned = false
    → (0 ≤ (coinsAt table txid).nHeight ∧ (coinsAt table txid).nHeight < 2 ^ 31)
      ∧ ((coinsAt table txid).nHeight = 0
        → ∃ nPos, (coinsAt table txid).isAvailable nPos = true
          ∧ ∀ out ∈ inputs, out.hash = txid → out.n.toNat ≠ nPos)

def Block.inputs (block : Block) : List OutPoint :=
  block.vtx.flatMap (fun tx => tx.vin.map (fun txin => txin.prevout))

section Keeps

variable {inputs : List OutPoint} {table after : CoinsTable} {prevout : OutPoint} {undo : TxInUndo}

section

variable (keeps : KeepsOutput inputs table) (spends : spendInput table prevout = .ok (undo, after))

include keeps spends

/-- An entry that is spent from has the height of a block. -/
theorem KeepsOutput.height
    : 0 ≤ (coinsAt table prevout.hash).nHeight ∧ (coinsAt table prevout.hash).nHeight < 2 ^ 31 := by
  obtain ⟨txout, found, -, -⟩ := spendInput_ok spends
  exact (keeps _ (isPruned_eq_false.mpr ⟨_, isAvailable_iff.mpr ⟨txout, found⟩⟩)).1

/-- An entry of height zero is not spent to its last output. -/
theorem KeepsOutput.unspent (mem : prevout ∈ inputs)
    (height : (coinsAt table prevout.hash).nHeight = 0)
    : ∃ nPos, (coinsAt after prevout.hash).isAvailable nPos = true
      ∧ ∀ out ∈ inputs, out.hash = prevout.hash → out.n.toNat ≠ nPos := by
  obtain ⟨txout, found, rfl, -⟩ := spendInput_ok spends
  have available := isAvailable_iff.mpr ⟨txout, found⟩
  obtain ⟨nPos, left, unused⟩ :=
    (keeps prevout.hash (isPruned_eq_false.mpr ⟨_, available⟩)).2 height
  refine ⟨nPos, ?_, unused⟩
  rw [Coins.isAvailable, unspent_putCoins, unspent_spend available,
    if_neg (unused prevout mem rfl).symm]
  exact left

theorem KeepsOutput.spend (mem : prevout ∈ inputs) : KeepsOutput inputs after := by
  intro txid unspent
  by_cases here : txid = prevout.hash
  · subst txid
    have same : (coinsAt after prevout.hash).nHeight = (coinsAt table prevout.hash).nHeight := by
      obtain ⟨txout, -, rfl, -⟩ := spendInput_ok spends
      have written := same_putCoins table prevout.hash
        ((coinsAt table prevout.hash).spend prevout.n.toNat).2
      rw [← (written.metadata (written.isPruned.trans unspent)).2.1, (metadata_spend _ _).2.1]
    rw [same]
    exact ⟨keeps.height spends, keeps.unspent spends mem⟩
  · obtain ⟨txout, -, rfl, -⟩ := spendInput_ok spends
    rw [coinsAt_putCoins_of_ne here] at unspent ⊢
    exact keeps txid unspent

end

end Keeps

-- Transactions

section Transactions

variable {H : Hashing} {nHeight : Int} {inputs : List OutPoint} {tx : Transaction}
  {table after restored : CoinsTable} {txundo : TxUndo}

theorem spendInputs_cons {txin vin} (spends : spendInputs table (txin :: vin) = .ok (txundo, after))
    : ∃ undo vprevout middle, txundo = undo :: vprevout
      ∧ spendInput table txin.prevout = .ok (undo, middle)
      ∧ spendInputs middle vin = .ok (vprevout, after) := by
  rw [spendInputs] at spends
  split at spends
  · cases spends
  rename_i undo middle first
  split at spends
  · cases spends
  rename_i vprevout last rest
  cases spends
  exact ⟨undo, vprevout, middle, rfl, first, rest⟩

theorem createCoins_ok (created : createCoins H tx nHeight table = .ok after)
    : (tx.isCoinBase = false → (coinsAt table (tx.getHash H)).isPruned = true)
      ∧ after = putCoins table (tx.getHash H) (Coins.fromTx tx nHeight) := by
  rw [createCoins] at created
  split at created
  · cases created
  rename_i absent
  cases created
  refine ⟨fun spends => ?_, rfl⟩
  simpa [spends] using absent

section

variable (updated : updateCoins H tx nHeight table = .ok (txundo, after))

include updated

theorem updateCoins_ok
    : ∃ middle,
        (if tx.isCoinBase then .ok ([], table) else spendInputs table tx.vin)
          = .ok (txundo, middle)
        ∧ (tx.isCoinBase = false → (coinsAt middle (tx.getHash H)).isPruned = true)
        ∧ after = putCoins middle (tx.getHash H) (Coins.fromTx tx nHeight) := by
  rw [updateCoins] at updated
  split at updated
  · cases updated
  rename_i undo middle spends
  obtain ⟨created, result, ⟨⟩⟩ := Checks.map_ok.mp updated
  exact ⟨middle, spends, createCoins_ok result⟩

end

end Transactions

-- Blocks

section Blocks

variable {ctx : ConnectContext} {pindex pprev : BlockIndex} {inputs : List OutPoint}

/-- The view is the same: unspent outputs, heights, coinbase flags, versions that are not negative,
and best block.
-/
structure ViewCache.Same (view restored : ViewCache) : Prop where
  coins : ∀ txid, (coinsAt view.table txid).Same (coinsAt restored.table txid)
  hashBlock : view.hashBlock = restored.hashBlock

end Blocks

-- A block that spends an entry

def lengthHashing : Hashing := ⟨fun bytes => BitVec.ofNat 256 bytes.length, fun _ => 0⟩

/-- A context in which scripts pass, coinbases mature at once and no deployment is active. -/
def openContext : ConnectContext where
  H := lengthHashing
  chainparams := mainParams 0
  BIP34Height := -1
  BIP34Hash := 0
  nCoinbaseMaturity _ := 0
  subsidyParams _ := ⟨100000, true⟩
  generateMTRandom _ _ := 1
  csvActive _ := false
  isWitnessEnabled _ := false
  fScriptChecks _ := true
  nScriptCheckThreads := 0
  scriptCheck _ _ _ _ := none
  formatMoney _ := ""
  writeFailure := none

def spendingTx : Transaction where
  nVersion := 1
  vin := [⟨⟨7, 0⟩, [], 0xffffffff, []⟩]
  vout := [⟨10, []⟩]
  nLockTime := 0

def spendingBlock : Block :=
  ⟨{ plainHeader with hashMerkleRoot := 64 }, [multisigCoinBase 0, spendingTx], false⟩

def rootIndex : BlockIndex := .root 5 plainHeader.toPureBlockHeader

def spendingIndex : BlockIndex := .child rootIndex 80 spendingBlock.toPureBlockHeader

end Pqcoin
