import Mathlib.Data.List.DropRight
import Mathlib.Data.BitVec
import Mathlib.Data.Fintype.EquivFin
import Pqcoin.Script.Interpreter

/-! The unspent outputs of a transaction: `CCoins` of `coins.h`. -/

namespace Pqcoin

open Option

/-- There are finitely many txids. -/
noncomputable instance : Fintype Uint256 := .ofEquiv (Fin (2 ^ 256)) BitVec.equivFin.symm.toEquiv

/-- What `CTxOut::SetNull` leaves, and a default `CTxOut`. -/
def TxOut.null : TxOut := ⟨-1, []⟩

def TxOut.isNull (txout : TxOut) : Bool := txout.nValue == -1

@[simp] theorem TxOut.isNull_null : TxOut.null.isNull = true := rfl

/-- `CCoins`; the defaults are those of the empty constructor. -/
structure Coins where
  fCoinBase : Bool := false
  vout : List TxOut := []
  nHeight : Int := 0
  nVersion : BitVec 32 := 0
  deriving DecidableEq

namespace Coins

variable (coins : Coins)

def clear : Coins := {}

def cleanup : Coins := { coins with vout := coins.vout.rdropWhile TxOut.isNull }

def clearUnspendable : Coins :=
  cleanup
    {
      coins with
      vout := coins.vout.map (fun txout =>
        if Script.isUnspendable txout.scriptPubKey then TxOut.null else txout)
    }

def fromTx (tx : Transaction) (nHeightIn : Int) : Coins :=
  clearUnspendable ⟨tx.isCoinBase, tx.vout, nHeightIn, tx.nVersion⟩

def isPruned : Bool := coins.vout.all TxOut.isNull

def unspent (nPos : Nat) : Option TxOut :=
  coins.vout[nPos]?.filter (fun txout => !txout.isNull)

def isAvailable (nPos : Nat) : Bool := (coins.unspent nPos).isSome

/-- `CCoins::Spend`: what it returns, and the entry afterwards. -/
def spend (nPos : Nat) : Bool × Coins :=
  if coins.isAvailable nPos then
    (true, cleanup { coins with vout := coins.vout.set nPos TxOut.null })
  else (false, coins)

/-- `operator==`. -/
def equal (a b : Coins) : Bool := (a.isPruned && b.isPruned) || a == b

/-- What counts of an entry that is written back: nothing if it is fully spent. -/
def counted : Option Coins := if coins.isPruned then none else some coins.cleanup

-- Positions

/-- An entry is pruned exactly when no position has an unspent output. -/
theorem isPruned_iff {coins : Coins}
    : coins.isPruned = true ↔ ∀ nPos, coins.unspent nPos = none := by
  simp only [isPruned, List.all_eq_true, unspent, filter_eq_none_iff]
  constructor
  · intro spent nPos txout found
    simpa using spent txout (List.mem_of_getElem? found)
  · intro none txout mem
    obtain ⟨nPos, found⟩ := List.getElem?_of_mem mem
    simpa using none nPos txout found

/-- Dropping spent outputs at the end changes no unspent one. -/
@[simp] theorem unspent_cleanup (nPos : Nat) : coins.cleanup.unspent nPos = coins.unspent nPos := by
  obtain ⟨fCoinBase, vout, nHeight, nVersion⟩ := coins
  simp only [unspent, cleanup]
  induction vout using List.reverseRecOn with
  | nil => rfl
  | append_singleton vout last ih =>
    rw [List.rdropWhile_concat]
    split
    · rename_i spent
      rw [ih, List.getElem?_append]
      split
      · rfl
      rename_i beyond
      rw [List.getElem?_eq_none (by omega)]
      cases nPos - vout.length <;> simp [Option.filter, spent]
    · rfl

@[simp] theorem isPruned_cleanup : coins.cleanup.isPruned = coins.isPruned := by
  rw [Bool.eq_iff_iff, isPruned_iff, isPruned_iff]
  simp only [unspent_cleanup]

theorem isAvailable_iff {coins : Coins} {nPos}
    : coins.isAvailable nPos = true ↔ ∃ txout, coins.unspent nPos = some txout :=
  isSome_iff_exists

theorem isPruned_eq_false {coins : Coins}
    : coins.isPruned = false ↔ ∃ nPos, coins.isAvailable nPos = true := by
  rw [← Bool.not_eq_true, isPruned_iff]
  simp [isAvailable, isSome_iff_ne_none]

theorem unspent_eq_some {coins : Coins} {nPos} {txout}
    : coins.unspent nPos = some txout ↔ coins.vout[nPos]? = some txout ∧ txout.isNull = false := by
  simp [unspent, filter_eq_some_iff]

/-- Writing one position changes that position only. -/
theorem unspent_set {nPos} (inside : nPos < coins.vout.length) (txout) (other)
    : unspent { coins with vout := coins.vout.set nPos txout } other
      = if other = nPos then (some txout).filter (fun txout => !txout.isNull)
        else coins.unspent other := by
  simp only [unspent, List.getElem?_set]
  by_cases same : other = nPos
  · subst other
    rw [if_pos rfl, if_pos rfl, if_pos inside]
  · rw [if_neg same, if_neg (Ne.symm same)]

/-- Spending an output makes only that one unavailable. -/
theorem unspent_spend {coins : Coins} {nPos} (available : coins.isAvailable nPos = true) (other)
    : (coins.spend nPos).2.unspent other = if other = nPos then none else coins.unspent other := by
  obtain ⟨txout, found⟩ := isAvailable_iff.mp available
  have inside := (List.getElem?_eq_some_iff.mp (unspent_eq_some.mp found).1).1
  rw [spend, if_pos available, unspent_cleanup, unspent_set coins inside]
  rfl

end Coins

-- A map of coins

/-- A single map of coins, in which fully spent entries are absent. -/
abbrev CoinsTable := Uint256 → Option Coins

/-- The entry that is modified under a txid, empty if there is none. -/
def coinsAt (table : CoinsTable) (txid : Uint256) : Coins := (table txid).getD Coins.clear

def putCoins (table : CoinsTable) (txid : Uint256) (coins : Coins) : CoinsTable :=
  Function.update table txid coins.counted

end Pqcoin
