import Pqcoin.Coins.ConnectBlock
import Pqcoin.Primitives.Integers

/-! Undoing a transaction: what `ApplyTxInUndo` and the removal of outputs give back of the
coins before `UpdateCoins`, from undo data that has been written to a file and read again.
-/

namespace Pqcoin

open Coins List
open Coins (fromTx isPruned)

-- Undo data in a file

/-- `WriteVarInt` for an `int`. A negative number is at most `0x7F`, so that one byte is written. -/
def writeVarIntSigned (n : BitVec 32) : List Byte :=
  if n.msb then [n.setWidth 8 &&& 0x7F] else writeVarInt n.toNat

namespace TxInUndo

/-- `CTxInUndo::Serialize` up to the output, whose compressed form is left out. -/
def serialize (undo : TxInUndo) : List Byte :=
  let nHeight := BitVec.ofInt 32 undo.nHeight
  writeVarInt (nHeight * 2 + if undo.fCoinBase then 1 else 0).toNat
    ++ if 0 < nHeight then writeVarIntSigned undo.nVersion else []

/-- `CTxInUndo::Unserialize`, with the output that follows. -/
def unserialize (txout : TxOut) (is : List Byte) : Option TxInUndo := do
  let (nCode, is) ← readVarInt 32 0 is
  let (nVersion, _) ← if 0 < nCode / 2 then readVarInt 32 0 is else some (0, is)
  return ⟨txout, decide (nCode % 2 = 1), (nCode / 2 : Nat), BitVec.ofNat 32 nVersion⟩

/-- What is read back of undo data. -/
def stored (undo : TxInUndo) : Option TxInUndo := unserialize undo.txout undo.serialize

end TxInUndo

def BlockUndo.stored (undo : BlockUndo) : Option BlockUndo := undo.mapM (·.mapM TxInUndo.stored)

namespace Coins

/-- The second entry has the unspent outputs of the first and, if there are any, its metadata. A
negative version may be another one.
-/
structure Same (a b : Coins) : Prop where
  unspent : ∀ nPos, a.unspent nPos = b.unspent nPos
  metadata : a.isPruned = false
    → a.fCoinBase = b.fCoinBase ∧ a.nHeight = b.nHeight
      ∧ (a.nVersion.msb = false → a.nVersion = b.nVersion)

/-- Spent outputs are null ones, and the last output is not spent. -/
structure Tidy (coins : Coins) : Prop where
  nulls : ∀ txout ∈ coins.vout, txout.isNull = true → txout = TxOut.null
  ends : coins.vout.rdropWhile TxOut.isNull = coins.vout

variable {a b c coins : Coins}

theorem Same.refl (coins : Coins) : coins.Same coins :=
  ⟨fun _ => rfl, fun _ => ⟨rfl, rfl, fun _ => rfl⟩⟩

theorem Same.isPruned (same : a.Same b) : a.isPruned = b.isPruned := by
  rw [Bool.eq_iff_iff, isPruned_iff, isPruned_iff]
  simp only [same.unspent]

theorem Same.trans (first : a.Same b) (second : b.Same c) : a.Same c := by
  refine ⟨fun nPos => (first.unspent nPos).trans (second.unspent nPos), fun unspent => ?_⟩
  obtain ⟨coinBase, height, version⟩ := first.metadata unspent
  obtain ⟨coinBase', height', version'⟩ := second.metadata (first.isPruned.symm.trans unspent)
  refine ⟨coinBase.trans coinBase', height.trans height', fun pos => ?_⟩
  have kept := version pos
  exact kept.trans (version' (kept ▸ pos))

theorem same_of_pruned (one : a.isPruned = true) (other : b.isPruned = true) : a.Same b := by
  refine ⟨fun nPos => ?_, fun unspent => ?_⟩
  · rw [isPruned_iff.mp one, isPruned_iff.mp other]
  · rw [one] at unspent
    cases unspent

theorem same_cleanup (coins : Coins) : coins.Same coins.cleanup :=
  ⟨fun nPos => (unspent_cleanup coins nPos).symm, fun _ => ⟨rfl, rfl, fun _ => rfl⟩⟩

theorem tidy_clear : clear.Tidy := ⟨by simp [clear], rfl⟩

/-- Dropping spent outputs at the end makes an entry tidy if its spent outputs are null. -/
theorem tidy_cleanup (nulls : ∀ txout ∈ coins.vout, txout.isNull = true → txout = TxOut.null)
    : coins.cleanup.Tidy where
  nulls txout mem := by
    have parts : coins.cleanup.vout ++ coins.vout.rtakeWhile TxOut.isNull = coins.vout :=
      rdropWhile_append_rtakeWhile
    exact nulls txout (parts ▸ mem_append_left _ mem)
  ends := rdropWhile_idempotent _ _

/-- The last output of a tidy entry is available, so that its outputs reach no further than
those of an entry with the same unspent ones.
-/
theorem Tidy.length_le (tidy : a.Tidy) (same : ∀ nPos, a.unspent nPos = b.unspent nPos)
    : a.vout.length ≤ b.vout.length := by
  rcases eq_nil_or_concat' a.vout with empty | ⟨init, last, concat⟩
  · simp [empty]
  have alive : last.isNull = false := by
    have ends := tidy.ends
    rw [concat, rdropWhile_concat] at ends
    cases null : last.isNull with
    | false => rfl
    | true =>
      rw [null, if_pos rfl] at ends
      have parts : init.rdropWhile TxOut.isNull ++ init.rtakeWhile TxOut.isNull = init :=
        rdropWhile_append_rtakeWhile
      have lengths := congrArg List.length parts
      rw [ends] at lengths
      simp only [length_append, length_singleton] at lengths
      omega
  have found : a.unspent init.length = some last :=
    unspent_eq_some.mpr ⟨by rw [concat]; simp, alive⟩
  rw [same] at found
  have inside := (List.getElem?_eq_some_iff.mp (unspent_eq_some.mp found).1).1
  rw [concat]
  simpa using inside

theorem Tidy.spend (tidy : coins.Tidy) (nPos) : (coins.spend nPos).2.Tidy := by
  rw [Coins.spend]
  split
  · refine tidy_cleanup fun txout mem null => ?_
    rcases mem_or_eq_of_mem_set mem with before | rfl
    · exact tidy.nulls txout before null
    · rfl
  · exact tidy

end Coins

-- Maps

section Maps

variable {table restored : CoinsTable} {txid other : Uint256} {coins back : Coins}

theorem coinsAt_putCoins (table txid coins)
    : coinsAt (putCoins table txid coins) txid
      = if coins.isPruned then Coins.clear else coins.cleanup := by
  rw [coinsAt, putCoins, Function.update_self, counted]
  split <;> rfl

theorem coinsAt_putCoins_of_ne (different : other ≠ txid)
    : coinsAt (putCoins table txid coins) other = coinsAt table other := by
  rw [coinsAt, putCoins, Function.update_of_ne different, coinsAt]

theorem same_putCoins (table : CoinsTable) (txid) (coins : Coins)
    : coins.Same (coinsAt (putCoins table txid coins) txid) := by
  rw [coinsAt_putCoins]
  split
  · rename_i spent
    exact same_of_pruned spent rfl
  · exact coins.same_cleanup

theorem unspent_putCoins (table txid coins nPos)
    : (coinsAt (putCoins table txid coins) txid).unspent nPos = coins.unspent nPos :=
  ((same_putCoins table txid coins).unspent nPos).symm

theorem tidy_putCoins (nulls : ∀ txout ∈ coins.vout, txout.isNull = true → txout = TxOut.null)
    : (coinsAt (putCoins table txid coins) txid).Tidy := by
  rw [coinsAt_putCoins]
  split
  · exact tidy_clear
  · exact tidy_cleanup nulls

/-- A map with the same coins, in which tidy entries have stayed tidy. -/
structure Matches (table restored : CoinsTable) : Prop where
  same : ∀ txid, (coinsAt table txid).Same (coinsAt restored txid)
  tidy : ∀ txid, (coinsAt table txid).Tidy → (coinsAt restored txid).Tidy

theorem Matches.refl (table : CoinsTable) : Matches table table :=
  ⟨fun _ => Same.refl _, fun _ => id⟩

/-- A written entry is undone by writing back the same coins as before. -/
theorem Matches.undo (after : Matches (putCoins table txid coins) restored)
    (same : (coinsAt table txid).Same back)
    (nulls : (coinsAt table txid).Tidy
      → ∀ txout ∈ back.vout, txout.isNull = true → txout = TxOut.null)
    : Matches table (putCoins restored txid back) := by
  refine ⟨fun other => ?_, fun other tidy => ?_⟩
  · by_cases here : other = txid
    · subst other
      exact same.trans (same_putCoins restored txid back)
    · have kept := after.same other
      rwa [coinsAt_putCoins_of_ne here] at kept ⊢
  · by_cases here : other = txid
    · subst other
      exact tidy_putCoins (nulls tidy)
    have kept := after.tidy other
    rw [coinsAt_putCoins_of_ne here] at kept ⊢
    exact kept tidy

end Maps

-- Inputs

section Inputs

variable {table after restored : CoinsTable} {prevout : OutPoint} {undo : TxInUndo}

/-- `Spend` leaves an entry without outputs exactly when it was the last one. -/
theorem isEmpty_spend {coins : Coins} {nPos} (available : coins.isAvailable nPos = true)
    : (coins.spend nPos).2.vout.isEmpty = (coins.spend nPos).2.isPruned := by
  rw [Coins.spend, if_pos available, isPruned_cleanup, Bool.eq_iff_iff]
  simp [Coins.cleanup, Coins.isPruned]

theorem metadata_spend (coins : Coins) (nPos)
    : (coins.spend nPos).2.fCoinBase = coins.fCoinBase
      ∧ (coins.spend nPos).2.nHeight = coins.nHeight
      ∧ (coins.spend nPos).2.nVersion = coins.nVersion := by
  rw [Coins.spend]
  split <;> exact ⟨rfl, rfl, rfl⟩

/-- What a round of `UpdateCoins` does when the outpoint is available, as it then is. -/
theorem spendInput_ok (spends : spendInput table prevout = .ok (undo, after))
    : ∃ txout, unspentAt table prevout = some txout
      ∧ after = putCoins table prevout.hash ((coinsAt table prevout.hash).spend prevout.n.toNat).2
      ∧ undo = if ((coinsAt table prevout.hash).spend prevout.n.toNat).2.isPruned then
          ⟨txout, (coinsAt table prevout.hash).fCoinBase, (coinsAt table prevout.hash).nHeight,
            (coinsAt table prevout.hash).nVersion⟩
        else { txout } := by
  simp only [spendInput] at spends
  cases found : (coinsAt table prevout.hash).unspent prevout.n.toNat with
  | none =>
    rw [found] at spends
    cases spends
  | some txout =>
    rw [found] at spends
    have available := isAvailable_iff.mpr ⟨txout, found⟩
    obtain ⟨coinBase, height, version⟩ :=
      metadata_spend (coinsAt table prevout.hash) prevout.n.toNat
    rw [isEmpty_spend available, coinBase, height, version] at spends
    cases spends
    exact ⟨txout, found, rfl, rfl⟩

end Inputs

-- Outputs

section Outputs

variable {H : Hashing} {tx : Transaction} {nHeight : Int} {table after restored : CoinsTable}

/-- The outputs of a new entry are null, or spendable outputs of the transaction. -/
theorem mem_fromTx {txout} (mem : txout ∈ (fromTx tx nHeight).vout)
    : txout = TxOut.null ∨ (txout ∈ tx.vout ∧ txout.scriptPubKey.isUnspendable = false) := by
  have parts : (fromTx tx nHeight).vout ++ _ = _ := rdropWhile_append_rtakeWhile
  have before := parts ▸ mem_append_left _ mem
  obtain ⟨output, found, rfl⟩ := mem_map.mp before
  split
  · exact .inl rfl
  rename_i spendable
  exact .inr ⟨found, by simpa using spendable⟩

end Outputs

end Pqcoin
