import Pqcoin.Lib.Checks
import Pqcoin.Wallet.FeeEstimate
import Pqcoin.Wallet.SelectCoins

/-! Created transactions conserve value: what the passes of `CreateTransaction` do to the outputs
of the recipients, the change and the fee, in integers.
-/

namespace Pqcoin

open List SignedWord

-- Sums

def outputTotal (vout : List TxOut) : Int := (vout.map (·.nValue.toInt)).sum

def requestedTotal (vecSend : List Recipient) : Int := (vecSend.map (·.nAmount.toInt)).sum

def payingCount (vecSend : List Recipient) : Nat :=
  vecSend.countP (·.fSubtractFeeFromAmount)

def takenTotal (vecSend : List Recipient) (paid : List TxOut) : Int :=
  (List.zipWith (fun recipient txout =>
    if recipient.fSubtractFeeFromAmount then recipient.nAmount.toInt - txout.nValue.toInt else 0)
    vecSend paid).sum

/-- The output is that of the recipient, with the requested amount unless it pays the fee. -/
structure Recipient.PaidBy (recipient : Recipient) (txout : TxOut) : Prop where
  script : txout.scriptPubKey = recipient.scriptPubKey
  requested : recipient.fSubtractFeeFromAmount = false → txout.nValue = recipient.nAmount

section Conservation

variable {recipient : Recipient} {vecSend : List Recipient} {txout : TxOut} {paid : List TxOut}

@[simp] theorem outputTotal_cons
    : outputTotal (txout :: paid) = txout.nValue.toInt + outputTotal paid := by
  rw [outputTotal, map_cons, sum_cons, outputTotal]

@[simp] theorem requestedTotal_cons
    : requestedTotal (recipient :: vecSend)
      = recipient.nAmount.toInt + requestedTotal vecSend := by
  rw [requestedTotal, map_cons, sum_cons, requestedTotal]

@[simp] theorem takenTotal_cons
    : takenTotal (recipient :: vecSend) (txout :: paid)
      = (if recipient.fSubtractFeeFromAmount then
          recipient.nAmount.toInt - txout.nValue.toInt else 0)
        + takenTotal vecSend paid := by
  rw [takenTotal, zipWith_cons_cons, sum_cons, takenTotal]

theorem outputTotal_add_taken (pays : List.Forall₂ Recipient.PaidBy vecSend paid)
    : outputTotal paid + takenTotal vecSend paid = requestedTotal vecSend := by
  induction pays with
  | nil => rfl
  | @cons recipient txout vecSend paid first _ ih =>
    rw [outputTotal_cons, takenTotal_cons, requestedTotal_cons]
    split
    · omega
    rename_i receives
    rw [first.requested (by simpa using receives)]
    omega

/-- Nothing is taken where nobody pays the fee. -/
theorem takenTotal_of_payingCount (none : payingCount vecSend = 0) (paid)
    : takenTotal vecSend paid = 0 := by
  induction vecSend generalizing paid with
  | nil => rfl
  | cons recipient rest ih =>
    rw [payingCount, countP_cons] at none
    cases paid with
    | nil => rfl
    | cons txout paid =>
      have receives : recipient.fSubtractFeeFromAmount = false := by
        by_contra pays
        rw [if_pos (by simpa using pays)] at none
        omega
      rw [takenTotal_cons, receives, ih (by rw [payingCount]; omega) paid]
      rfl

-- Recipients

/-- The loop before the passes refuses negative amounts. -/
theorem sumRecipients_nonneg {nValue value count total}
    (ran : sumRecipients nValue count vecSend = .ok (value, total))
    : ∀ recipient ∈ vecSend, 0 ≤ recipient.nAmount.toInt := by
  induction vecSend generalizing nValue count with
  | nil => simp
  | cons first rest ih =>
    rw [sumRecipients] at ran
    split at ran
    · cases ran
    rename_i nonneg
    exact forall_mem_cons.mpr ⟨by omega, ih ran⟩

theorem requestedTotal_nonneg (nonneg : ∀ recipient ∈ vecSend, 0 ≤ recipient.nAmount.toInt)
    : 0 ≤ requestedTotal vecSend := by
  refine sum_nonneg fun value mem => ?_
  obtain ⟨recipient, listed, rfl⟩ := mem_map.mp mem
  exact nonneg recipient listed

theorem sumRecipients_spec {nValue value count total}
    (ran : sumRecipients nValue count vecSend = .ok (value, total)) (start : 0 ≤ nValue.toInt)
    (fits : nValue.toInt + requestedTotal vecSend < 2 ^ 63)
    : value.toInt = nValue.toInt + requestedTotal vecSend
      ∧ total = count + payingCount vecSend := by
  induction vecSend generalizing nValue count with
  | nil =>
    cases ran
    exact ⟨by simp [requestedTotal], rfl⟩
  | cons first rest ih =>
    have nonneg := forall_mem_cons.mp (sumRecipients_nonneg ran)
    have later := requestedTotal_nonneg nonneg.2
    rw [requestedTotal_cons] at fits ⊢
    have sum : (nValue + first.nAmount).toInt = nValue.toInt + first.nAmount.toInt :=
      toInt_add (by rw [Fits]; omega)
    rw [sumRecipients] at ran
    split at ran
    · cases ran
    obtain ⟨amount, counted⟩ := ih ran (by omega) (by omega)
    refine ⟨by omega, ?_⟩
    rw [counted, payingCount, payingCount, countP_cons]
    split <;> omega

/-- The share of a recipient in a fee: an equal part, and the remainder for the first. -/
def feeShare (fee : Int) (count : Nat) (fFirst : Bool) : Int :=
  fee / count + if fFirst then fee % count else 0

theorem feeShare_bounds {fee count} (nonneg : 0 ≤ fee) (some : 0 < count) (fFirst)
    : 0 ≤ feeShare fee count fFirst ∧ feeShare fee count fFirst ≤ fee := by
  have whole := Int.mul_ediv_add_emod fee count
  have part : 0 ≤ fee / count := Int.ediv_nonneg nonneg (Int.natCast_nonneg count)
  have rest : 0 ≤ fee % count := Int.emod_nonneg fee (by omega)
  have parts : fee / count ≤ count * (fee / count) := le_mul_of_one_le_left part (by omega)
  rw [feeShare]
  split <;> omega

section Recipients

variable {discardThreshold nFeeRet : Amount} {nSubtract : Nat} {fFirst : Bool}

/-- The words of a share denote it. -/
theorem toTxOut_paying (pays : recipient.fSubtractFeeFromAmount = true)
    (amount : MoneyRange recipient.nAmount) (fee : MoneyRange nFeeRet)
    (some : 0 < nSubtract) (few : nSubtract < 2 ^ 31)
    : (recipient.toTxOut nFeeRet nSubtract fFirst).nValue.toInt
      = recipient.nAmount.toInt - feeShare nFeeRet.toInt nSubtract fFirst := by
  have count : (BitVec.ofNat 64 nSubtract).toInt = nSubtract :=
    toInt_size (by omega)
  have part : (nFeeRet.sdiv (BitVec.ofNat 64 nSubtract)).toInt
      = nFeeRet.toInt / nSubtract := by
    rw [toInt_sdiv fee.1 (by omega), count]
  have rest : (nFeeRet.srem (BitVec.ofNat 64 nSubtract)).toInt
      = nFeeRet.toInt % nSubtract := by
    rw [BitVec.toInt_srem, count, Int.tmod_eq_emod_of_nonneg fee.1]
  have bounds := feeShare_bounds fee.1 some fFirst
  rw [MoneyRange, MAX_MONEY] at amount fee
  have share : (nFeeRet.sdiv (BitVec.ofNat 64 nSubtract)
      + if fFirst then nFeeRet.srem (BitVec.ofNat 64 nSubtract) else 0).toInt
      = feeShare nFeeRet.toInt nSubtract fFirst := by
    rw [feeShare] at bounds ⊢
    split <;> rename_i isFirst
    · rw [if_pos isFirst] at bounds
      rw [toInt_add (by rw [Fits, part, rest]; omega), part, rest]
    · rw [add_zero, part, add_zero]
  rw [Recipient.toTxOut]
  dsimp only
  rw [if_pos pays, toInt_sub (by rw [Fits, share]; omega), share]

section

variable (amounts : ∀ recipient ∈ vecSend, MoneyRange recipient.nAmount) (fee : MoneyRange nFeeRet)

include amounts fee

/-- The recipients' loop of a pass, by induction on the recipients; the first one that pays takes
the remainder.
-/
theorem recipientOutputs_spec (some : 0 < nSubtract ∨ payingCount vecSend = 0)
    (few : nSubtract < 2 ^ 31)
    (ran : recipientOutputs discardThreshold nFeeRet nSubtract fFirst vecSend
      = .ok paid)
    : List.Forall₂ Recipient.PaidBy vecSend paid
      ∧ (∀ txout ∈ paid, txout.isDust discardThreshold = false
        ∧ -MAX_MONEY ≤ txout.nValue.toInt ∧ txout.nValue.toInt ≤ MAX_MONEY)
      ∧ takenTotal vecSend paid
        = payingCount vecSend * (nFeeRet.toInt / nSubtract)
          + if fFirst ∧ 0 < payingCount vecSend then nFeeRet.toInt % nSubtract
            else 0 := by
  induction vecSend generalizing fFirst paid with
  | nil =>
    cases ran
    exact ⟨.nil, by simp, by simp [takenTotal, payingCount]⟩
  | cons recipient rest ih =>
    rw [forall_mem_cons] at amounts
    rw [recipientOutputs] at ran
    split at ran
    · cases ran
    rename_i clean
    obtain ⟨outputs, later, rfl⟩ := Checks.map_ok.mp ran
    have counted : payingCount (recipient :: rest)
        = payingCount rest + if recipient.fSubtractFeeFromAmount then 1 else 0 :=
      countP_cons
    obtain ⟨pays, bounds, taken⟩ := ih amounts.2 (by omega) later
    have script : (recipient.toTxOut nFeeRet nSubtract fFirst).scriptPubKey
        = recipient.scriptPubKey := rfl
    have amount := amounts.1
    rw [takenTotal_cons, counted, taken]
    rw [forall_mem_cons]
    cases paying : recipient.fSubtractFeeFromAmount with
    | false =>
      have exactly : (recipient.toTxOut nFeeRet nSubtract fFirst).nValue
          = recipient.nAmount := by
        rw [Recipient.toTxOut]
        dsimp only
        rw [paying]
        rfl
      rw [MoneyRange] at amount
      refine ⟨.cons ⟨script, fun _ => exactly⟩ pays, ⟨⟨by simpa using clean, ?_⟩, bounds⟩, ?_⟩
      · rw [exactly]
        rw [MAX_MONEY] at amount ⊢
        omega
      · simp
    | true =>
      have pos : 0 < nSubtract := by
        rw [counted, paying] at some
        simpa using some
      have value := @toTxOut_paying _ _ _ fFirst paying amount fee pos few
      have shared := feeShare_bounds fee.1 pos fFirst
      refine ⟨.cons ⟨script, fun receives => absurd receives (by simp [paying])⟩ pays,
        ⟨⟨by simpa using clean, ?_⟩, bounds⟩, ?_⟩
      · rw [value]
        rw [MoneyRange, MAX_MONEY] at amount fee
        rw [MAX_MONEY]
        omega
      · have first : (fFirst = true ∧ 0 < payingCount rest + 1) ↔ fFirst = true :=
          and_iff_left (Nat.succ_pos _)
        simp only [value, feeShare, if_true, first, Bool.not_true, Bool.and_false,
          Bool.false_eq_true, false_and, if_false, Nat.cast_add, Nat.cast_one]
        ring

theorem takenTotal_recipientOutputs (few : payingCount vecSend < 2 ^ 31)
    (ran : recipientOutputs discardThreshold nFeeRet (payingCount vecSend) true vecSend = .ok paid)
    : takenTotal vecSend paid = if 0 < payingCount vecSend then nFeeRet.toInt else 0 := by
  obtain ⟨-, -, taken⟩ := recipientOutputs_spec amounts fee (by omega) few ran
  rw [taken]
  by_cases paying : 0 < payingCount vecSend
  · rw [if_pos ⟨rfl, paying⟩, if_pos paying]
    exact Int.mul_ediv_add_emod nFeeRet.toInt (payingCount vecSend)
  · rw [if_neg (fun both => paying both.2), if_neg paying, Nat.eq_zero_of_not_pos paying]
    simp

end

theorem deductFromFirst_spec {changeDelta vout} (delta : MoneyRange changeDelta)
    (some : 0 < payingCount vecSend) (pays : List.Forall₂ Recipient.PaidBy vecSend paid)
    (bounds : ∀ txout ∈ paid, txout.isDust discardThreshold = false
      ∧ -MAX_MONEY ≤ txout.nValue.toInt ∧ txout.nValue.toInt ≤ MAX_MONEY)
    (ran : deductFromFirst discardThreshold changeDelta vecSend paid = .ok vout)
    : List.Forall₂ Recipient.PaidBy vecSend vout
      ∧ (∀ txout ∈ vout, txout.isDust discardThreshold = false)
      ∧ takenTotal vecSend vout = takenTotal vecSend paid + changeDelta.toInt := by
  induction pays generalizing vout with
  | nil => simp [payingCount] at some
  | @cons recipient txout rest paid first pays ih =>
    rw [forall_mem_cons] at bounds
    rw [deductFromFirst] at ran
    split at ran
    · rename_i paying
      dsimp only at ran
      split at ran
      · cases ran
      rename_i clean
      cases ran
      have value : (txout.nValue - changeDelta).toInt
          = txout.nValue.toInt - changeDelta.toInt := by
        have range := bounds.1.2
        rw [MAX_MONEY] at range
        rw [MoneyRange, MAX_MONEY] at delta
        exact toInt_sub (by rw [Fits]; omega)
      refine ⟨.cons ⟨first.script, fun receives => absurd receives (by simp [paying])⟩ pays,
        forall_mem_cons.mpr ⟨by simpa using clean, fun other mem =>
          (bounds.2 other mem).1⟩, ?_⟩
      rw [takenTotal_cons, takenTotal_cons, if_pos paying, if_pos paying, value]
      omega
    · rename_i receives
      obtain ⟨outputs, later, rfl⟩ := Checks.map_ok.mp ran
      have others : 0 < payingCount rest := by
        rw [payingCount, countP_cons, if_neg receives] at some
        exact some
      obtain ⟨remaining, clean, taken⟩ := ih others bounds.2 later
      refine ⟨.cons first remaining, forall_mem_cons.mpr ⟨bounds.1.1, clean⟩, ?_⟩
      rw [takenTotal_cons, takenTotal_cons, taken]
      omega

end Recipients

-- Change

/-- The outputs of a transaction: those of the recipients, and the change at its position. -/
def Placed (paid : List TxOut) (nChangePosInOut : BitVec 32) (vout : List TxOut)
    : Option TxOut → Prop
  | none => nChangePosInOut = NO_CHANGE ∧ vout = paid
  | some change =>
    nChangePosInOut ≠ NO_CHANGE ∧ nChangePosInOut.toNat ≤ paid.length
    ∧ vout = paid.insertIdx nChangePosInOut.toNat change

/-- Value is conserved: the inputs are the outputs and the fee, the recipients receive what was
requested or pay the fee and what the change was raised by, and no output is dust.
-/
structure Conserved (cfg : FeeSettings) (vecSend : List Recipient)
    (coins : List SelectedCoin) (vout : List TxOut) (nChangePosInOut : BitVec 32)
    (nFeeRet : Amount) (paid : List TxOut) (change : Option TxOut)
    : Prop where
  placed : Placed paid nChangePosInOut vout change
  pays : List.Forall₂ Recipient.PaidBy vecSend paid
  balanced : coinTotal coins = outputTotal vout + nFeeRet.toInt
  deducted
    : 0 < payingCount vecSend
      → ∃ raise : Int, takenTotal vecSend paid = nFeeRet.toInt + raise
        ∧ (raise = 0
          ∨ ∃ txout, change = some txout ∧ txout.nValue = cfg.discardThreshold
            ∧ 0 < coinTotal coins - requestedTotal vecSend
            ∧ raise = txout.nValue.toInt - (coinTotal coins - requestedTotal vecSend)
            ∧ 0 < raise)
  clean : ∀ txout ∈ vout, txout.isDust cfg.discardThreshold = false

variable {cfg : FeeSettings} {req : CreateRequest} {env : PassEnvironment}

theorem outputTotal_insertIdx {pos} (inside : pos ≤ paid.length) (change)
    : outputTotal (paid.insertIdx pos change) = change.nValue.toInt + outputTotal paid := by
  rw [← outputTotal_cons, outputTotal, ((perm_insertIdx change paid inside).map _).sum_eq,
    ← outputTotal]

theorem forall_mem_insertIdx {P : TxOut → Prop} {pos change} (inside : pos ≤ paid.length)
    : (∀ txout ∈ paid.insertIdx pos change, P txout) ↔ P change ∧ ∀ txout ∈ paid, P txout := by
  simp [mem_insertIdx inside, or_imp, forall_and]

theorem insertChange_spec {nChange nFeeRet newTxOut changed} (few : paid.length < 2 ^ 31)
    (ran : insertChange cfg req env paid nChange nFeeRet newTxOut = .ok changed)
    : (newTxOut.isDust cfg.discardThreshold = true
        ∧ changed = ⟨paid, NO_CHANGE, nFeeRet + nChange⟩)
      ∨ (newTxOut.isDust cfg.discardThreshold = false ∧ changed.nFeeRet = nFeeRet
        ∧ Placed paid changed.nChangePosInOut changed.vout (some newTxOut)) := by
  have last : NO_CHANGE.toNat = 2 ^ 32 - 1 := by decide
  rw [insertChange] at ran
  split at ran
  · rename_i dust
    cases ran
    exact .inl ⟨dust, rfl⟩
  rename_i clean
  refine .inr ⟨by simpa using clean, ?_⟩
  split at ran
  · cases ran
    have drawn : env.nRand % (paid.length + 1) ≤ paid.length :=
      Nat.lt_succ_iff.mp (Nat.mod_lt _ (Nat.succ_pos _))
    have word : (BitVec.ofNat 32 (env.nRand % (paid.length + 1))).toNat
        = env.nRand % (paid.length + 1) := by
      rw [BitVec.toNat_ofNat]
      exact Nat.mod_eq_of_lt (by omega)
    refine ⟨rfl,
      fun (same : BitVec.ofNat 32 (env.nRand % (paid.length + 1)) = NO_CHANGE) => ?_, ?_, ?_⟩
    · rw [same, last] at word
      omega
    · rw [word]
      exact drawn
    · rw [word]
  · rename_i asked
    split at ran
    · cases ran
    rename_i inside
    cases ran
    exact ⟨rfl, asked, Nat.le_of_not_lt inside, rfl⟩

/-- What a pass knows before it adds the change: the coins, and the outputs of the recipients for
a fee.
-/
structure Prepared (cfg : FeeSettings) (vecSend : List Recipient) (coins : List SelectedCoin)
    (nFeeRet : Amount) (paid : List TxOut)
    : Prop where
  threshold : MoneyRange cfg.discardThreshold
  fee : MoneyRange nFeeRet
  requested : 0 ≤ requestedTotal vecSend ∧ requestedTotal vecSend ≤ MAX_MONEY
  pays : List.Forall₂ Recipient.PaidBy vecSend paid
  bounds : ∀ txout ∈ paid, txout.isDust cfg.discardThreshold = false
    ∧ -MAX_MONEY ≤ txout.nValue.toInt ∧ txout.nValue.toInt ≤ MAX_MONEY
  taken : takenTotal vecSend paid = if 0 < payingCount vecSend then nFeeRet.toInt else 0
  few : vecSend.length < 2 ^ 31

/-- The value to select: the recipients' amounts, with the fee if none of them pays it. -/
def valueToSelect (vecSend : List Recipient) (nFeeRet : Amount) : Int :=
  requestedTotal vecSend + if 0 < payingCount vecSend then 0 else nFeeRet.toInt

variable {coins : List SelectedCoin} {nFeeRet nChange : Amount} {D : Digests}

theorem Prepared.spent (prepared : Prepared cfg vecSend coins nFeeRet paid)
    : outputTotal paid + nFeeRet.toInt = valueToSelect vecSend nFeeRet := by
  have split := outputTotal_add_taken prepared.pays
  rw [prepared.taken] at split
  rw [valueToSelect]
  split at split <;> rename_i paying
  · rw [if_pos paying]
    omega
  · rw [if_neg paying]
    omega

theorem lt_of_isDust {discardThreshold} (dust : txout.isDust discardThreshold = true)
    : txout.nValue.toInt < discardThreshold.toInt := by
  rw [TxOut.isDust, Bool.and_eq_true, decide_eq_true_eq] at dust
  exact dust.2

theorem isDust_of_threshold_le {discardThreshold}
    (enough : discardThreshold.toInt ≤ txout.nValue.toInt)
    : txout.isDust discardThreshold = false := by
  rw [TxOut.isDust, decide_eq_false (Int.not_lt.mpr enough), Bool.and_false]

theorem conserved_of_addChange (prepared : Prepared cfg req.vecSend coins nFeeRet paid)
    (left : nChange.toInt = coinTotal coins - valueToSelect req.vecSend nFeeRet)
    (nonneg : 0 ≤ nChange.toInt) {changed}
    (ran : addChange D cfg req env (payingCount req.vecSend) paid nChange nFeeRet
      = .ok changed)
    : ∃ outputs change, Conserved cfg req.vecSend coins changed.vout
        changed.nChangePosInOut changed.nFeeRet outputs change
      ∧ 0 ≤ changed.nFeeRet.toInt ∧ changed.nFeeRet.toInt ≤ 2 * MAX_MONEY := by
  have spent := prepared.spent
  have fee := prepared.fee
  have threshold := prepared.threshold
  have length := prepared.pays.length_eq
  have few := prepared.few
  have clean : ∀ txout ∈ paid, txout.isDust cfg.discardThreshold = false :=
    fun txout mem => (prepared.bounds txout mem).1
  have deducted : 0 < payingCount req.vecSend →
      takenTotal req.vecSend paid = nFeeRet.toInt + 0 := by
    intro paying
    rw [prepared.taken, if_pos paying, add_zero]
  rw [MoneyRange, MAX_MONEY] at fee threshold
  rw [MAX_MONEY]
  rw [addChange] at ran
  split at ran
  · rename_i pos
    split at ran
    · cases ran
    rename_i scriptChange _
    dsimp only at ran
    split at ran
    · rename_i dusty
      have below : nChange.toInt < cfg.discardThreshold.toInt := lt_of_isDust dusty.2
      have delta : (cfg.discardThreshold - nChange).toInt
          = cfg.discardThreshold.toInt - nChange.toInt :=
        toInt_sub (by rw [Fits]; omega)
      have raised : nChange + (cfg.discardThreshold - nChange)
          = cfg.discardThreshold := by ring
      split at ran
      · cases ran
      rename_i vout deduction
      have deltaRange : MoneyRange (cfg.discardThreshold - nChange) := by
        rw [MoneyRange, MAX_MONEY]
        omega
      obtain ⟨pays, voutClean, taken⟩ := deductFromFirst_spec deltaRange dusty.1
        prepared.pays prepared.bounds deduction
      have total := outputTotal_add_taken pays
      have before := outputTotal_add_taken prepared.pays
      rw [raised] at ran
      have enough : (TxOut.mk cfg.discardThreshold scriptChange).isDust
          cfg.discardThreshold = false := isDust_of_threshold_le le_rfl
      rcases insertChange_spec (by rw [← pays.length_eq]; exact few) ran with
        ⟨dust, -⟩ | ⟨-, sameFee, placed⟩
      · rw [enough] at dust
        cases dust
      refine ⟨vout, _, ⟨placed, pays, ?_, ?_, ?_⟩, by rw [sameFee]; omega⟩
      · rw [placed.2.2, outputTotal_insertIdx placed.2.1, sameFee]
        dsimp only
        omega
      · intro paying
        have owed := deducted paying
        rw [valueToSelect, if_pos paying] at left
        refine ⟨cfg.discardThreshold.toInt - nChange.toInt, by rw [sameFee]; omega,
          .inr ⟨_, rfl, rfl, by omega, by dsimp only; omega, by omega⟩⟩
      · rw [placed.2.2, forall_mem_insertIdx placed.2.1]
        exact ⟨enough, voutClean⟩
    · rename_i notRaised
      rcases insertChange_spec (by rw [← length]; exact few) ran with
        ⟨dust, rfl⟩ | ⟨kept, sameFee, placed⟩
      · have nobody : ¬ 0 < payingCount req.vecSend := fun paying => notRaised ⟨paying, dust⟩
        have below : nChange.toInt < cfg.discardThreshold.toInt := lt_of_isDust dust
        have sum : (nFeeRet + nChange).toInt = nFeeRet.toInt + nChange.toInt :=
          toInt_add (by rw [Fits]; omega)
        refine ⟨paid, none, ⟨⟨rfl, rfl⟩, prepared.pays, ?_, fun paying => absurd paying nobody,
          clean⟩, ?_⟩
        · dsimp only
          omega
        · dsimp only
          omega
      · refine ⟨paid, _, ⟨placed, prepared.pays, ?_, ?_, ?_⟩, by rw [sameFee]; omega⟩
        · rw [placed.2.2, outputTotal_insertIdx placed.2.1, sameFee]
          dsimp only
          omega
        · intro paying
          exact ⟨0, by rw [sameFee]; exact deducted paying, .inl rfl⟩
        · rw [placed.2.2, forall_mem_insertIdx placed.2.1]
          exact ⟨kept, clean⟩
  · cases ran
    refine ⟨paid, none, ⟨⟨rfl, rfl⟩, prepared.pays, by dsimp only; omega,
      fun paying => ⟨0, deducted paying, .inl rfl⟩, clean⟩, ?_⟩
    dsimp only
    omega

-- Fees

/-- The settings that set the size of change are amounts of money. -/
structure FeeSettings.InRange (cfg : FeeSettings) : Prop where
  discardThreshold : MoneyRange cfg.discardThreshold
  minTxFee : MoneyRange cfg.minTxFee.nSatoshisPerK

/-- The fees that the passes of the loop find to be needed. -/
def neededFees (D : Digests) (store : SigningStore) (cfg : FeeSettings)
    (req : CreateRequest) (env : CreateEnvironment) (nValue : Amount) (nSubtractFeeFromAmount : Nat)
    : Nat → Nat → Amount → List Amount
  | 0, _, _ => []
  | fuel + 1, pass, nFeeRet =>
    match preparePass D store cfg req env.nLockTime nValue nSubtractFeeFromAmount
        (env.passes pass) nFeeRet with
    | .error _ => []
    | .ok (nBytes, built) =>
      feeNeeded cfg req.coinControl built.txNew.vout nBytes
        :: match settleFee cfg req (env.passes pass) nSubtractFeeFromAmount nBytes
            built with
          | .ok (.again nFeeRet) => neededFees D store cfg req env nValue
              nSubtractFeeFromAmount fuel (pass + 1) nFeeRet
          | _ => []

theorem settleFee_cases {nSubtract nBytes built result nFeeNeeded}
    (needed : feeNeeded cfg req.coinControl built.txNew.vout nBytes = nFeeNeeded)
    (ran : settleFee cfg req env nSubtract nBytes built = .ok result)
    : result = .finished built
      ∨ (built.hasChange nSubtract = true
        ∧ nFeeNeeded.toInt < built.nFeeRet.toInt
        ∧ result = .finished (built.adjustChange (built.nFeeRet - nFeeNeeded)))
      ∨ (built.hasChange nSubtract = true
        ∧ built.nFeeRet.toInt < nFeeNeeded.toInt
        ∧ (∃ change, built.txNew.vout[built.nChangePosInOut.toNat]? = some change
          ∧ (cfg.discardThreshold + (nFeeNeeded - built.nFeeRet)).toInt
            ≤ change.nValue.toInt)
        ∧ result = .finished (built.adjustChange (-(nFeeNeeded - built.nFeeRet))))
      ∨ result = .again nFeeNeeded := by
  rw [settleFee, needed] at ran
  split at ran
  · cases ran
    exact .inl rfl
  dsimp only at ran
  split at ran
  · cases ran
  split at ran
  · split at ran
    · rename_i lower
      cases ran
      exact .inr (.inl ⟨lower.2, lower.1, rfl⟩)
    · cases ran
      exact .inl rfl
  · rename_i higher
    split at ran
    · rename_i room
      cases ran
      obtain ⟨change, found, enough⟩ := (Option.any_eq_true ..).mp room.2
      exact .inr (.inr (.inl ⟨room.1, by omega, ⟨change, found, of_decide_eq_true enough⟩, rfl⟩))
    · cases ran
      exact .inr (.inr (.inr rfl))

theorem modify_insertIdx {pos} (inside : pos ≤ paid.length) (change) (f : TxOut → TxOut)
    : (paid.insertIdx pos change).modify pos f
      = paid.insertIdx pos (f change) := by
  induction paid generalizing pos with
  | nil =>
    obtain rfl : pos = 0 := by simpa using inside
    rfl
  | cons txout rest ih =>
    cases pos with
    | zero => rfl
    | succ pos =>
      rw [insertIdx_succ_cons, modify_succ_cons, ih (by simpa using inside), insertIdx_succ_cons]

theorem Conserved.exists_change {vout pos change}
    (conserved : Conserved cfg vecSend coins vout pos nFeeRet paid change)
    (placed : pos ≠ NO_CHANGE)
    : ∃ txout, change = some txout := by
  cases change with
  | none => exact absurd conserved.placed.1 placed
  | some txout => exact ⟨txout, rfl⟩

theorem Conserved.adjustChange {built : Built} {txout diff nFeeNeeded}
    (conserved : Conserved cfg vecSend built.setCoins built.txNew.vout built.nChangePosInOut
      built.nFeeRet paid (some txout)) (nobody : payingCount vecSend = 0)
    (fee : (built.adjustChange diff).nFeeRet = nFeeNeeded)
    (moved : diff.toInt = built.nFeeRet.toInt - nFeeNeeded.toInt)
    (value : (txout.nValue + diff).toInt = txout.nValue.toInt + diff.toInt)
    (kept : (TxOut.mk (txout.nValue + diff) txout.scriptPubKey).isDust
      cfg.discardThreshold = false)
    : ∃ outputs changed, Conserved cfg vecSend (built.adjustChange diff).setCoins
        (built.adjustChange diff).txNew.vout
        (built.adjustChange diff).nChangePosInOut
        (built.adjustChange diff).nFeeRet outputs changed := by
  obtain ⟨pos, inside, outputs⟩ := conserved.placed
  have vout : (built.adjustChange diff).txNew.vout
      = paid.insertIdx built.nChangePosInOut.toNat
          ⟨txout.nValue + diff, txout.scriptPubKey⟩ := by
    rw [Built.adjustChange]
    dsimp only
    rw [outputs, modify_insertIdx inside]
  have balanced := conserved.balanced
  have members := conserved.clean
  rw [outputs, outputTotal_insertIdx inside] at balanced
  rw [outputs, forall_mem_insertIdx inside] at members
  refine ⟨paid, some ⟨txout.nValue + diff, txout.scriptPubKey⟩, ⟨pos, inside, vout⟩,
    conserved.pays, ?_, fun paying => absurd nobody (Nat.ne_of_gt paying), ?_⟩
  · rw [vout, outputTotal_insertIdx inside, fee]
    dsimp only [Built.adjustChange]
    omega
  · rw [vout, forall_mem_insertIdx inside]
    exact ⟨kept, members.2⟩

theorem isDust_of_le {discardThreshold value} (le : txout.nValue.toInt ≤ value.toInt)
    (clean : txout.isDust discardThreshold = false)
    : (TxOut.mk value txout.scriptPubKey).isDust discardThreshold = false := by
  rw [TxOut.isDust, Bool.and_eq_false_iff, decide_eq_false_iff_not] at clean ⊢
  exact clean.imp id fun enough => by dsimp only; omega

/-- A change among outputs that are not negative is less than the coins. -/
theorem Conserved.change_le {vout pos txout}
    (conserved : Conserved cfg vecSend coins vout pos nFeeRet paid (some txout))
    (nobody : payingCount vecSend = 0) (requested : 0 ≤ requestedTotal vecSend)
    : txout.nValue.toInt + nFeeRet.toInt ≤ coinTotal coins := by
  obtain ⟨-, inside, outputs⟩ := conserved.placed
  have balanced := conserved.balanced
  have total := outputTotal_add_taken conserved.pays
  rw [takenTotal_of_payingCount nobody] at total
  rw [outputs, outputTotal_insertIdx inside] at balanced
  omega

/-- What the end of a pass leaves of a transaction that conserves value. -/
def PassResult.Conserves (cfg : FeeSettings) (vecSend : List Recipient)
    (coins : List SelectedCoin) (vin : List TxIn)
    : PassResult → Prop
  | .finished built => built.setCoins = coins ∧ built.txNew.vin = vin
      ∧ ∃ outputs change, Conserved cfg vecSend built.setCoins built.txNew.vout
          built.nChangePosInOut built.nFeeRet outputs change
  | .again nFeeNeeded => MoneyRange nFeeNeeded

theorem conserved_of_settleFee {built : Built} {change nBytes result} (ranged : cfg.InRange)
    (needed : MoneyRange (feeNeeded cfg req.coinControl built.txNew.vout nBytes))
    (conserved : Conserved cfg req.vecSend built.setCoins built.txNew.vout
      built.nChangePosInOut built.nFeeRet paid change)
    (fee : 0 ≤ built.nFeeRet.toInt ∧ built.nFeeRet.toInt ≤ 2 * MAX_MONEY)
    (requested : 0 ≤ requestedTotal req.vecSend) (bounded : coinTotal built.setCoins < 2 ^ 63)
    (ran : settleFee cfg req env (payingCount req.vecSend) nBytes built = .ok result)
    : result.Conserves cfg req.vecSend built.setCoins built.txNew.vin := by
  have threshold := ranged.discardThreshold
  revert needed
  generalize asked : feeNeeded cfg req.coinControl built.txNew.vout nBytes = nFeeNeeded
  intro needed
  have range := needed
  rw [MoneyRange, MAX_MONEY] at range threshold
  rw [MAX_MONEY] at fee
  -- a change that is there to be adjusted
  have whose : built.hasChange (payingCount req.vecSend) = true →
      built.nChangePosInOut ≠ NO_CHANGE ∧ payingCount req.vecSend = 0 := by
    intro has
    rw [Built.hasChange, Bool.and_eq_true, bne_iff_ne, beq_iff_eq] at has
    exact has
  rcases settleFee_cases asked ran with rfl | ⟨has, lower, rfl⟩ | ⟨has, higher, room, rfl⟩ | rfl
  · exact ⟨rfl, rfl, paid, change, conserved⟩
  · obtain ⟨pos, nobody⟩ := whose has
    have moved : (built.nFeeRet - nFeeNeeded).toInt
        = built.nFeeRet.toInt - nFeeNeeded.toInt := toInt_sub (by rw [Fits]; omega)
    obtain ⟨txout, rfl⟩ := conserved.exists_change pos
    have value : (txout.nValue + (built.nFeeRet - nFeeNeeded)).toInt
        = txout.nValue.toInt + (built.nFeeRet - nFeeNeeded).toInt := by
      have below := conserved.change_le nobody requested
      have least := BitVec.le_toInt txout.nValue
      exact toInt_add (by rw [Fits]; omega)
    have clean := conserved.clean txout (by
      rw [conserved.placed.2.2]
      exact (mem_insertIdx conserved.placed.2.1).mpr (.inl rfl))
    exact ⟨rfl, rfl, conserved.adjustChange nobody (built.nFeeRet_lowered nFeeNeeded) moved value
      (isDust_of_le (by omega) clean)⟩
  · obtain ⟨pos, nobody⟩ := whose has
    have moved : (-(nFeeNeeded - built.nFeeRet)).toInt
        = built.nFeeRet.toInt - nFeeNeeded.toInt := by
      rw [neg_sub]
      exact toInt_sub (by rw [Fits]; omega)
    obtain ⟨txout, rfl⟩ := conserved.exists_change pos
    obtain ⟨found, same, enough⟩ := room
    rw [conserved.placed.2.2, List.getElem?_insertIdx_self,
      if_pos conserved.placed.2.1, Option.some.injEq] at same
    subst same
    have additional : (nFeeNeeded - built.nFeeRet).toInt
        = nFeeNeeded.toInt - built.nFeeRet.toInt := toInt_sub (by rw [Fits]; omega)
    rw [toInt_add (by rw [Fits]; omega), additional] at enough
    have most := BitVec.toInt_lt (x := txout.nValue)
    have value : (txout.nValue + -(nFeeNeeded - built.nFeeRet)).toInt
        = txout.nValue.toInt + (-(nFeeNeeded - built.nFeeRet)).toInt :=
      toInt_add (by rw [Fits]; omega)
    exact ⟨rfl, rfl, conserved.adjustChange nobody (built.nFeeRet_raised nFeeNeeded) moved value
      (isDust_of_threshold_le (by dsimp only; omega))⟩
  · exact needed

-- Passes

section Passes

variable {store : SigningStore} {nLockTime : BitVec 32} {nValue : Amount}
variable {nSubtract : Nat} {result : PassResult}

variable {ctx : SelectionContext} {selection : Option CoinSelection}
variable {available : AvailableCoins}

/-- `GetMinChange` leaves room above the values to select. -/
theorem FeeSettings.InRange.getMinChange (ranged : cfg.InRange)
    : 0 ≤ cfg.getMinChange.toInt ∧ cfg.getMinChange.toInt ≤ 3 * MAX_MONEY := by
  have threshold := ranged.discardThreshold
  have rate := ranged.minTxFee
  have two : MIN_CHANGE_FEE_MULTIPLIER.toInt = 2 := by decide
  rw [MoneyRange, MAX_MONEY] at threshold rate
  have double : (cfg.minTxFee.nSatoshisPerK * MIN_CHANGE_FEE_MULTIPLIER).toInt
      = cfg.minTxFee.nSatoshisPerK.toInt * 2 := by
    rw [toInt_mul (by rw [Fits, two]; omega), two]
  rw [FeeSettings.getMinChange, toInt_add (by rw [Fits, double]; omega), double, MAX_MONEY]
  omega

section

variable (ranged : cfg.InRange) (funded : Funded (coinPool ctx selection available))
  (amounts : ∀ recipient ∈ req.vecSend, 0 ≤ recipient.nAmount.toInt)
  (requested : requestedTotal req.vecSend ≤ MAX_MONEY) (few : req.vecSend.length < 2 ^ 31)
  (value : nValue.toInt = requestedTotal req.vecSend)

include ranged funded amounts requested few value

theorem conserved_of_createPass {draws}
    (selects : env.selectCoins = selectCoins cfg ctx selection available draws)
    (fee : MoneyRange nFeeRet) {nBytes built}
    (ran : preparePass D store cfg req nLockTime nValue (payingCount req.vecSend) env
      nFeeRet = .ok (nBytes, built))
    (needed : MoneyRange (feeNeeded cfg req.coinControl built.txNew.vout nBytes))
    (settled : settleFee cfg req env (payingCount req.vecSend) nBytes built
      = .ok result)
    : ∃ coins, coins.Subperm (coinPool ctx selection available)
      ∧ (coins.map (·.prevout)).Nodup
      ∧ result.Conserves cfg req.vecSend coins
          (coins.map (·.toTxIn cfg.fWalletRbf)) := by
  obtain ⟨outputs, setCoins, nValueIn, changed, _, paid, selected, added, -, -, rfl⟩ :=
    preparePass_cases ran
  have nonneg := requestedTotal_nonneg amounts
  have each : ∀ recipient ∈ req.vecSend, MoneyRange recipient.nAmount := by
    intro recipient mem
    have part : recipient.nAmount.toInt ≤ requestedTotal req.vecSend := by
      refine single_le_sum (fun amount listed => ?_) _ (mem_map_of_mem mem)
      obtain ⟨other, found, rfl⟩ := mem_map.mp listed
      exact amounts other found
    exact ⟨amounts recipient mem, part.trans requested⟩
  have fewPay : payingCount req.vecSend < 2 ^ 31 := Nat.lt_of_le_of_lt countP_le_length few
  obtain ⟨pays, bounds, -⟩ := recipientOutputs_spec each fee (by omega) fewPay paid
  have prepared : Prepared cfg req.vecSend setCoins nFeeRet outputs :=
    ⟨ranged.discardThreshold, fee, ⟨nonneg, requested⟩, pays, bounds,
      takenTotal_recipientOutputs each fee fewPay paid, few⟩
  have change := ranged.getMinChange
  have target : (if payingCount req.vecSend = 0 then nValue + nFeeRet else nValue).toInt
      = valueToSelect req.vecSend nFeeRet := by
    rw [MoneyRange, MAX_MONEY] at fee
    rw [MAX_MONEY] at requested
    rw [valueToSelect]
    split <;> rename_i nobody
    · rw [if_neg (by omega), toInt_add (by rw [Fits]; omega), value]
    · rw [if_pos (by omega), value, add_zero]
  have small : valueToSelect req.vecSend nFeeRet ≤ 2 * MAX_MONEY := by
    rw [MoneyRange] at fee
    rw [valueToSelect]
    split <;> omega
  rw [selects] at selected
  rw [MAX_MONEY] at small change
  obtain ⟨drawn, once, total, enough⟩ := selectCoins_spec funded change.1
    (by rw [target]; omega) selected
  have coins := funded.part drawn
  have bounded := coins.bounded
  rw [target] at enough
  have floor : 0 ≤ valueToSelect req.vecSend nFeeRet := by
    rw [valueToSelect]
    rw [MoneyRange] at fee
    split <;> omega
  have left : (nValueIn - if payingCount req.vecSend = 0 then nValue + nFeeRet
      else nValue).toInt = coinTotal setCoins - valueToSelect req.vecSend nFeeRet := by
    rw [toInt_sub (by rw [Fits, target, total]; omega), target, total]
  obtain ⟨paidOutputs, placed, conserved, feeBounds⟩ :=
    conserved_of_addChange prepared left (by omega) added
  exact ⟨setCoins, drawn, once,
    conserved_of_settleFee ranged needed conserved feeBounds nonneg bounded settled⟩

theorem conserved_of_createLoop {env : CreateEnvironment}
    (selects : ∀ pass, ∃ draws, (env.passes pass).selectCoins
      = selectCoins cfg ctx selection available draws)
    {fuel pass built} (fee : MoneyRange nFeeRet)
    (needed : ∀ nFeeNeeded ∈ neededFees D store cfg req env nValue
      (payingCount req.vecSend) fuel pass nFeeRet, MoneyRange nFeeNeeded)
    (ran : createLoop D store cfg req env nValue (payingCount req.vecSend) fuel pass
      nFeeRet = some (.ok built))
    : ∃ coins, coins.Subperm (coinPool ctx selection available)
      ∧ (coins.map (·.prevout)).Nodup
      ∧ PassResult.Conserves cfg req.vecSend coins
          (coins.map (·.toTxIn cfg.fWalletRbf)) (.finished built) := by
  induction fuel generalizing pass nFeeRet with
  | zero => cases ran
  | succ fuel ih =>
    obtain ⟨draws, selected⟩ := selects pass
    rw [createLoop] at ran
    split at ran
    · cases ran
    · rename_i finished
      cases ran
      obtain ⟨nBytes, prepared, found, settled⟩ := createPass_cases finished
      rw [neededFees, found, forall_mem_cons] at needed
      exact conserved_of_createPass ranged funded amounts requested few value selected fee found
        needed.1 settled
    · rename_i nFeeNeeded again
      obtain ⟨nBytes, prepared, found, settled⟩ := createPass_cases again
      rw [neededFees, found, forall_mem_cons, settled] at needed
      obtain ⟨_, -, -, next⟩ := conserved_of_createPass ranged funded amounts requested few value
        selected fee found needed.1 settled
      exact ih next needed.2 ran

end

-- Numbers of outputs

theorem length_recipientOutputs {discardThreshold fFirst}
    (ran : recipientOutputs discardThreshold nFeeRet nSubtract fFirst vecSend
      = .ok paid)
    : paid.length = vecSend.length := by
  induction vecSend generalizing fFirst paid with
  | nil =>
    cases ran
    rfl
  | cons recipient rest ih =>
    rw [recipientOutputs] at ran
    split at ran
    · cases ran
    obtain ⟨outputs, later, rfl⟩ := Checks.map_ok.mp ran
    rw [length_cons, ih later, length_cons]

theorem length_deductFromFirst {discardThreshold changeDelta vout}
    (ran : deductFromFirst discardThreshold changeDelta vecSend paid = .ok vout)
    : vout.length = paid.length := by
  induction vecSend generalizing paid vout with
  | nil =>
    cases ran
    rfl
  | cons recipient rest ih =>
    cases paid with
    | nil =>
      cases ran
      rfl
    | cons txout paid =>
      rw [deductFromFirst] at ran
      split at ran
      · dsimp only at ran
        split at ran
        · cases ran
        cases ran
        rfl
      · obtain ⟨outputs, later, rfl⟩ := Checks.map_ok.mp ran
        rw [length_cons, ih later, length_cons]

theorem length_insertChange {newTxOut changed}
    (ran : insertChange cfg req env paid nChange nFeeRet newTxOut = .ok changed)
    : paid.length ≤ changed.vout.length := by
  rw [insertChange] at ran
  split at ran
  · cases ran
    exact le_rfl
  split at ran
  · cases ran
    rw [length_insertIdx]
    split <;> omega
  split at ran
  · cases ran
  cases ran
  rw [length_insertIdx]
  split <;> omega

theorem length_addChange {changed}
    (ran : addChange D cfg req env nSubtract paid nChange nFeeRet
      = .ok changed)
    : paid.length ≤ changed.vout.length := by
  rw [addChange] at ran
  split at ran
  · split at ran
    · cases ran
    dsimp only at ran
    split at ran
    · split at ran
      · cases ran
      rename_i vout deducted
      rw [← length_deductFromFirst deducted]
      exact length_insertChange ran
    · exact length_insertChange ran
  · cases ran
    exact le_rfl

theorem length_of_createPass {built}
    (ran : createPass D store cfg req nLockTime nValue nSubtract env nFeeRet
      = .ok (.finished built))
    : req.vecSend.length ≤ built.txNew.vout.length := by
  obtain ⟨nBytes, prepared, found, settled⟩ := createPass_cases ran
  obtain ⟨outputs, setCoins, nValueIn, changed, _, paid, -, added, -, -, rfl⟩ :=
    preparePass_cases found
  have outputsLength := length_recipientOutputs paid
  have changedLength := length_addChange added
  obtain ⟨rfl | ⟨diff, rfl⟩, -⟩ := Built.settleFee_finished settled
  · dsimp only
    omega
  dsimp only [Built.adjustChange]
  rw [length_modify]
  omega

end Passes

-- CreateTransaction

section Create

variable {S : SignatureScheme} {C : Cipher} {store : SigningStore} {env : CreateEnvironment}
variable {ctx : SelectionContext} {selection : Option CoinSelection}
variable {available : AvailableCoins} {nValue : Amount}

/-- A transaction within the weight limit has few outputs. -/
theorem length_vout_le_weight (tx : Transaction) : tx.vout.length ≤ tx.getTransactionWeight := by
  have each : tx.vout.length ≤ (tx.vout.flatMap TxOut.serialize).length := by
    induction tx.vout with
    | nil => simp
    | cons txout rest ih =>
      rw [flatMap_cons, length_append, length_cons]
      have some : 0 < txout.serialize.length := by simp [TxOut.serialize]
      omega
  have outputs : (serializeVector TxOut.serialize tx.vout).length
      = (writeCompactSize tx.vout.length).length + (tx.vout.flatMap TxOut.serialize).length :=
    length_append
  rw [Transaction.getTransactionWeight_eq]
  split <;> omega

theorem prevouts_of_fillInputs {produce nIn vin filled spent}
    (ran : fillInputs produce nIn vin spent = some filled)
    : filled.map (·.prevout) = vin.map (·.prevout) := by
  induction spent generalizing nIn vin filled with
  | nil =>
    rw [fillInputs] at ran
    cases ran
    rfl
  | cons coin rest ih =>
    cases vin with
    | nil => cases ran
    | cons txin vin =>
      rw [fillInputs] at ran
      split at ran
      · cases ran
      obtain ⟨later, found, rfl⟩ := Option.map_eq_some_iff.mp ran
      rw [map_cons, map_cons, ih found]
      rfl

/-- Signing changes the inputs only, and keeps what they spend. -/
theorem signed_of_finishTransaction {sign built tx}
    (ran : finishTransaction S D C store cfg env sign built = .ok tx)
    : tx.vout = built.txNew.vout ∧ tx.vin.map (·.prevout) = built.txNew.vin.map (·.prevout)
      ∧ tx.getTransactionWeight < MAX_STANDARD_TX_WEIGHT := by
  rw [finishTransaction] at ran
  split at ran
  · cases ran
  rename_i signed result
  have kept : signed.vout = built.txNew.vout
      ∧ signed.vin.map (·.prevout) = built.txNew.vin.map (·.prevout) := by
    split at result
    · obtain ⟨vin, filled, rfl⟩ := Option.map_eq_some_iff.mp result
      exact ⟨rfl, prevouts_of_fillInputs filled⟩
    · cases result
      exact ⟨rfl, rfl⟩
  split at ran
  · cases ran
  rename_i light
  split at ran
  · cases ran
  cases ran
  exact ⟨kept.1, kept.2, Nat.lt_of_not_le light⟩

/-- Created transactions conserve value: from funded coins, with settings in the money range and
passes that find fees in it to be needed, for recipients whose amounts sum into it, whatever
`SelectCoins` draws.
-/
theorem createTransaction_conserves {sign : Bool} {fuel : Nat} {created : CreatedTransaction}
    (ranged : cfg.InRange)
    (needed : ∀ nValue nSubtractFeeFromAmount,
      sumRecipients 0 0 req.vecSend = .ok (nValue, nSubtractFeeFromAmount)
      → ∀ nFeeNeeded ∈ neededFees D store cfg req env nValue nSubtractFeeFromAmount
        fuel 0 0, MoneyRange nFeeNeeded)
    (funded : Funded (coinPool ctx selection available))
    (requested : 0 ≤ requestedTotal req.vecSend ∧ requestedTotal req.vecSend ≤ MAX_MONEY)
    (selects : ∀ pass, ∃ draws, (env.passes pass).selectCoins
      = selectCoins cfg ctx selection available draws)
    (ran : createTransaction S D C store cfg req env sign fuel = some (.ok created))
    : ∃ coins outputs change, created.tx.vin.map (·.prevout) = coins.map (·.prevout)
      ∧ (coins.map (·.prevout)).Nodup
      ∧ coins.Subperm (coinPool ctx selection available)
      ∧ Conserved cfg req.vecSend coins created.tx.vout created.nChangePosInOut
          created.nFeeRet outputs change := by
  rw [createTransaction] at ran
  split at ran
  · cases ran
  rename_i nValue nSubtractFeeFromAmount summed
  have fees := needed _ _ summed
  have amounts := sumRecipients_nonneg summed
  have zero : (0 : Amount).toInt = 0 := by decide
  obtain ⟨value, count⟩ := sumRecipients_spec summed (by omega) (by
    rw [MAX_MONEY] at requested
    omega)
  rw [zero, zero_add] at value
  rw [Nat.zero_add] at count
  subst count
  split at ran
  · cases ran
  split at ran
  · cases ran
  · cases ran
  · rename_i built looped
    obtain ⟨tx, finished, rfl⟩ := Checks.map_ok.mp (Option.some.inj ran)
    obtain ⟨vout, vin, light⟩ := signed_of_finishTransaction finished
    have few : req.vecSend.length < 2 ^ 31 := by
      obtain ⟨_, _, last⟩ := exists_createPass looped
      have recipients := length_of_createPass last
      have outputs := length_vout_le_weight tx
      rw [vout] at outputs
      rw [MAX_STANDARD_TX_WEIGHT] at light
      omega
    obtain ⟨coins, drawn, once, sameCoins, sameInputs, outputs, change, conserved⟩ :=
      conserved_of_createLoop ranged funded amounts requested.2 few value selects (by decide) fees
        looped
    rw [sameCoins] at conserved
    refine ⟨coins, outputs, change, ?_, once, drawn, ?_⟩
    · dsimp only
      rw [vin, sameInputs, map_map]
      rfl
    · dsimp only
      rw [vout]
      exact conserved

end Create

end Conservation

-- Payments with a fee

namespace FeePayment

open OneCoin (memory store cfg)
open SmallCoins (noFlips unlimited)

def recipient : Recipient := ⟨[0x51], 600000000, false⟩

/-- Coin control with a rate of its own. -/
def req (nFeeRate : Amount) : CreateRequest :=
  ⟨[recipient], NO_CHANGE, some ⟨.keyID 1, 0, true, ⟨nFeeRate⟩, .minimum⟩⟩

def coin (n : Nat) (nValue : Amount) : SelectedCoin :=
  ⟨⟨1, BitVec.ofNat 32 n⟩, ⟨nValue, OneCoin.script⟩, 6⟩

def env (selection : Option CoinSelection) (available : AvailableCoins) : CreateEnvironment where
  nLockTime := 0
  passes _ := ⟨selectCoins cfg unlimited selection available (fun _ => noFlips), none, 0,
    false,
    memory⟩
  choices := OneCoin.env.choices
  memory := memory
  tooLongChain _ := false

def payment (coins : List SelectedCoin) (nChange : Amount) : Transaction :=
  ⟨CURRENT_VERSION, coins.map (·.toTxIn false),
    [⟨nChange, getScriptForDestination (.keyID 1)⟩, ⟨600000000, [0x51]⟩], 0⟩

def listed (coins : List SelectedCoin) (once : (coins.map (·.prevout)).Nodup) : AvailableCoins where
  vCoins := coins.map (⟨·, true, true⟩)
  listedOnce := by simpa [map_map, Function.comp_def] using once

def threeCoins : AvailableCoins :=
  listed [coin 0 600000000, coin 1 20000000000, coin 2 30000000000] (by decide)

def hugeCoins : List SelectedCoin :=
  (List.range 19).map (coin · (BitVec.ofInt 64 MAX_MONEY))

/-- A rate of 25 coins: the first pass spends the coin of the requested amount and has nothing for
the fee, and the second one takes what is missing for its larger size from the change.
-/
theorem createTransaction_conserves_twoPasses
    : neededFees zeroDigests store cfg (req 2500000000) (env none threeCoins) 600000000 0
        3 0 0 = [5230000000, 5315000000]
      ∧ ∃ coins outputs change,
        (payment [coin 1 20000000000] 14085000000).vin.map (·.prevout) = coins.map (·.prevout)
        ∧ (coins.map (·.prevout)).Nodup
        ∧ coins.Subperm (coinPool unlimited none threeCoins)
        ∧ Conserved cfg (req 2500000000).vecSend coins
            (payment [coin 1 20000000000] 14085000000).vout 0 5315000000 outputs change := by
  have fees : neededFees zeroDigests store cfg (req 2500000000) (env none threeCoins)
      600000000 0 3 0 0 = [5230000000, 5315000000] := by decide +kernel
  have funded : Funded (coinPool unlimited none threeCoins) := by
    constructor <;> decide
  have ran : createTransaction oneKeyScheme zeroDigests plainCipher store cfg
      (req 2500000000) (env none threeCoins) false 3
      = some (.ok ⟨payment [coin 1 20000000000] 14085000000, 5315000000, 0⟩) := by
    decide +kernel
  have inRange : ∀ nFeeNeeded ∈ ([5230000000, 5315000000] : List Amount),
      MoneyRange nFeeNeeded := by
    simp only [forall_mem_cons, not_mem_nil, false_implies, implies_true, and_true]
    decide
  have summed : sumRecipients 0 0 (req 2500000000).vecSend = .ok (600000000, 0) := rfl
  refine ⟨fees, createTransaction_conserves ⟨by decide, by decide⟩ (fun nValue count same => ?_)
    funded (by decide) (fun _ => ⟨_, rfl⟩) ran⟩
  cases summed.symm.trans same
  rw [fees]
  exact inRange

/-- Nineteen coins of `MAX_MONEY`: their sum wraps, and the outputs are worth a small part of the
inputs.
-/
theorem huge_coins_lost
    : (0 ≤ requestedTotal (req 100000).vecSend
        ∧ requestedTotal (req 100000).vecSend ≤ MAX_MONEY)
      ∧ ∃ created, createTransaction oneKeyScheme zeroDigests plainCipher store cfg
            (req 100000) (env (some ⟨hugeCoins.map (·.prevout), by decide, false⟩)
              (listed hugeCoins (by decide))) false 1 = some (.ok created)
          ∧ created.tx.vin.map (·.prevout) = hugeCoins.map (·.prevout)
          ∧ coinTotal hugeCoins = 19 * MAX_MONEY
          ∧ outputTotal created.tx.vout + created.nFeeRet.toInt = 553255926290448384 := by
  refine ⟨by decide, ⟨payment hugeCoins 553255925686506184, 3942200, 0⟩, ?_, rfl, by decide,
    by decide⟩
  decide +kernel

end FeePayment

end Pqcoin
