import Mathlib.Algebra.BigOperators.Group.Finset.Piecewise
import Mathlib.Algebra.Order.BigOperators.Group.Finset
import Pqcoin.Coins.Disconnect

/-! The value of unspent outputs, and what updating the coins by a transaction does to it. Totals
are unbounded integers.
-/

namespace Pqcoin

open Coins List

-- Entries

def TxOut.value (txout : TxOut) : Int := if txout.isNull then 0 else txout.nValue.toInt

namespace Coins

def value (coins : Coins) : Int := (coins.vout.map TxOut.value).sum

def NonNegative (coins : Coins) : Prop := ∀ txout ∈ coins.vout, 0 ≤ txout.value

variable {coins : Coins}

theorem value_of_isPruned (spent : coins.isPruned = true) : coins.value = 0 := by
  refine sum_eq_zero fun value mem => ?_
  obtain ⟨txout, found, rfl⟩ := mem_map.mp mem
  exact if_pos (all_eq_true.mp spent txout found)

theorem value_nonneg (nonneg : coins.NonNegative) : 0 ≤ coins.value := by
  refine sum_nonneg fun value mem => ?_
  obtain ⟨txout, found, rfl⟩ := mem_map.mp mem
  exact nonneg txout found

/-- Spent outputs at the end have no value. -/
@[simp] theorem value_cleanup (coins : Coins) : coins.cleanup.value = coins.value := by
  have parts : coins.cleanup.vout ++ coins.vout.rtakeWhile TxOut.isNull = coins.vout :=
    rdropWhile_append_rtakeWhile
  have dropped : ((coins.vout.rtakeWhile TxOut.isNull).map TxOut.value).sum = 0 := by
    refine sum_eq_zero fun value mem => ?_
    obtain ⟨txout, found, rfl⟩ := mem_map.mp mem
    exact if_pos (mem_rtakeWhile_imp found)
  rw [value, value, ← parts, map_append, sum_append, dropped, add_zero]

theorem NonNegative.cleanup (nonneg : coins.NonNegative) : coins.cleanup.NonNegative := by
  intro txout mem
  have parts : coins.cleanup.vout ++ coins.vout.rtakeWhile TxOut.isNull = coins.vout :=
    rdropWhile_append_rtakeWhile
  exact nonneg txout (parts ▸ mem_append_left _ mem)

/-- Clearing a position takes away its value. -/
theorem sum_set_null {vout : List TxOut} {nPos txout} (found : vout[nPos]? = some txout)
    : ((vout.set nPos TxOut.null).map TxOut.value).sum
      = (vout.map TxOut.value).sum - txout.value := by
  induction vout generalizing nPos with
  | nil => cases found
  | cons head rest ih =>
    cases nPos with
    | zero =>
      cases found
      simp only [set_cons_zero, map_cons, sum_cons]
      simp [TxOut.value]
    | succ nPos =>
      simp only [set_cons_succ, map_cons, sum_cons, ih found]
      omega

theorem value_spend {nPos : Nat} {txout} (unspent : coins.unspent nPos = some txout)
    : (coins.spend nPos).2.value = coins.value - txout.nValue.toInt := by
  obtain ⟨found, notNull⟩ := unspent_eq_some.mp unspent
  rw [spend, if_pos (isAvailable_iff.mpr ⟨txout, unspent⟩), value_cleanup, value,
    sum_set_null found, TxOut.value, if_neg (by simp [notNull]), value]

theorem NonNegative.spend (nonneg : coins.NonNegative) (nPos)
    : (coins.spend nPos).2.NonNegative := by
  rw [Coins.spend]
  split
  · refine NonNegative.cleanup fun txout mem => ?_
    rcases mem_or_eq_of_mem_set mem with before | rfl
    · exact nonneg txout before
    · exact le_refl 0
  · exact nonneg

/-- A new entry has no output of negative value if the transaction has none. -/
theorem nonNegative_fromTx {tx nHeight} (pos : ∀ txout ∈ tx.vout, 0 ≤ txout.nValue.toInt)
    : (fromTx tx nHeight).NonNegative := by
  intro txout mem
  rcases mem_fromTx mem with rfl | ⟨found, -⟩
  · exact le_refl 0
  rw [TxOut.value]
  split
  · exact le_refl 0
  · exact pos txout found

/-- A new entry has not more value than the outputs of the transaction together. -/
theorem value_fromTx_le {tx nHeight} (pos : ∀ txout ∈ tx.vout, 0 ≤ txout.nValue.toInt)
    : (fromTx tx nHeight).value ≤ (tx.vout.map (fun txout => txout.nValue.toInt)).sum := by
  rw [fromTx, clearUnspendable, value_cleanup, value, map_map]
  refine sum_le_sum fun txout mem => ?_
  have worth := pos txout mem
  simp only [Function.comp_apply]
  split
  · exact worth
  rw [TxOut.value]
  split
  · exact worth
  · exact le_refl _

end Coins

-- Maps

noncomputable def totalValue (table : CoinsTable) : Int := ∑ txid, (coinsAt table txid).value

def NonNegative (table : CoinsTable) : Prop := ∀ txid, (coinsAt table txid).NonNegative

section Maps

variable {table : CoinsTable} {txid : Uint256} {coins : Coins}

theorem value_putCoins (table txid coins)
    : (coinsAt (putCoins table txid coins) txid).value = coins.value := by
  rw [coinsAt_putCoins]
  split
  · rename_i spent
    rw [value_of_isPruned spent]
    rfl
  · exact coins.value_cleanup

/-- Writing an entry exchanges its value. -/
theorem totalValue_putCoins (table txid coins)
    : totalValue (putCoins table txid coins)
      = totalValue table - (coinsAt table txid).value + coins.value := by
  have others : ∑ other ∈ Finset.univ.erase txid, (coinsAt (putCoins table txid coins) other).value
      = ∑ other ∈ Finset.univ.erase txid, (coinsAt table other).value := by
    refine Finset.sum_congr rfl fun other mem => ?_
    rw [coinsAt_putCoins_of_ne (Finset.ne_of_mem_erase mem)]
  rw [totalValue, totalValue, ← Finset.add_sum_erase _ _ (Finset.mem_univ txid),
    ← Finset.add_sum_erase _ _ (Finset.mem_univ txid), others, value_putCoins]
  omega

theorem NonNegative.putCoins (nonneg : NonNegative table) (written : coins.NonNegative)
    : NonNegative (putCoins table txid coins) := by
  intro other
  by_cases here : other = txid
  · subst other
    rw [coinsAt_putCoins]
    split
    · exact fun txout mem => absurd mem (by simp [Coins.clear])
    · exact written.cleanup
  · rw [coinsAt_putCoins_of_ne here]
    exact nonneg other

theorem totalValue_nonneg (nonneg : NonNegative table) : 0 ≤ totalValue table :=
  Finset.sum_nonneg fun txid _ => value_nonneg (nonneg txid)

end Maps

-- Transactions

section Transactions

variable {H : Hashing} {nHeight : Int} {tx : Transaction} {table after : CoinsTable}
  {txundo : TxUndo}

def inputValues (table : CoinsTable) (vin : List TxIn) : List Int :=
  vin.map (fun txin => (getOutputFor table txin.prevout).nValue.toInt)

theorem totalValue_spendInput {prevout undo} (spends : spendInput table prevout = .ok (undo, after))
    : totalValue after = totalValue table - (getOutputFor table prevout).nValue.toInt
      ∧ (NonNegative table → NonNegative after)
      ∧ ∀ out txout, unspentAt after out = some txout → unspentAt table out = some txout := by
  obtain ⟨txout, found, rfl, -⟩ := spendInput_ok spends
  refine ⟨?_, fun nonneg => nonneg.putCoins ((nonneg _).spend _), ?_⟩
  · rw [totalValue_putCoins, value_spend found, getOutputFor, found, Option.getD_some]
    omega
  · intro out other
    rw [unspentAt, unspentAt]
    by_cases here : out.hash = prevout.hash
    · rw [here, unspent_putCoins,
        unspent_spend (isAvailable_iff.mpr ⟨txout, found⟩)]
      split
      · intro impossible
        cases impossible
      · exact id
    · rw [coinsAt_putCoins_of_ne here]
      exact id

theorem NonNegative.unspentAt (nonneg : NonNegative table) {out txout}
    (unspent : unspentAt table out = some txout)
    : 0 ≤ txout.nValue.toInt := by
  obtain ⟨found, notNull⟩ := unspent_eq_some.mp unspent
  have worth := nonneg out.hash txout (mem_of_getElem? found)
  rwa [TxOut.value, if_neg (by simp [notNull])] at worth

theorem unspentAt_spendInputs {vin} (spends : spendInputs table vin = .ok (txundo, after))
    : ∀ txin ∈ vin, ∃ txout, unspentAt table txin.prevout = some txout := by
  induction vin generalizing table txundo with
  | nil => simp
  | cons txin rest ih =>
    obtain ⟨undo, vprevout, middle, rfl, first, last⟩ := spendInputs_cons spends
    rw [forall_mem_cons]
    obtain ⟨txout, found, -⟩ := spendInput_ok first
    refine ⟨⟨txout, found⟩, fun other mem => ?_⟩
    obtain ⟨txout, later⟩ := ih last other mem
    exact ⟨txout, (totalValue_spendInput first).2.2 _ _ later⟩

theorem totalValue_spendInputs {vin} (spends : spendInputs table vin = .ok (txundo, after))
    : totalValue after = totalValue table - (inputValues table vin).sum
      ∧ (NonNegative table → NonNegative after) := by
  induction vin generalizing table txundo with
  | nil =>
    cases spends
    exact ⟨by simp [inputValues], id⟩
  | cons txin rest ih =>
    obtain ⟨undo, vprevout, middle, rfl, first, last⟩ := spendInputs_cons spends
    obtain ⟨spent, pos, unchanged⟩ := totalValue_spendInput first
    obtain ⟨total, kept⟩ := ih last
    have same : inputValues middle rest = inputValues table rest := by
      refine map_congr_left fun other mem => ?_
      obtain ⟨txout, later⟩ := unspentAt_spendInputs last other mem
      rw [getOutputFor, getOutputFor, later, unchanged _ _ later]
    refine ⟨?_, fun nonneg => kept (pos nonneg)⟩
    rw [total, spent, same, inputValues, inputValues, map_cons, sum_cons]
    omega

/-- Creating the outputs of a transaction adds at most their values to the total. -/
theorem totalValue_create (pos : ∀ txout ∈ tx.vout, 0 ≤ txout.nValue.toInt)
    (nonneg : NonNegative table) (txid)
    : totalValue (putCoins table txid (Coins.fromTx tx nHeight))
        ≤ totalValue table + (tx.vout.map (fun txout => txout.nValue.toInt)).sum
      ∧ NonNegative (putCoins table txid (Coins.fromTx tx nHeight)) := by
  have replaced := value_nonneg (nonneg txid)
  have created : (Coins.fromTx tx nHeight).value ≤ _ := value_fromTx_le pos
  refine ⟨?_, nonneg.putCoins (nonNegative_fromTx pos)⟩
  rw [totalValue_putCoins]
  omega

end Transactions

end Pqcoin
