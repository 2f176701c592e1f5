import Pqcoin.Coins.Value

/-! Connecting a block creates at most its subsidy, and no sum of amounts overflows on the way. -/

namespace Pqcoin

open Checks List SignedWord Tally

-- Sums over a transaction

def Transaction.outputSum (tx : Transaction) : Int :=
  (tx.vout.map (fun txout => txout.nValue.toInt)).sum

theorem fits_of_le {n} (nonneg : 0 ≤ n) (small : n < 2 ^ 63) : Fits 64 n := by
  rw [Fits]
  omega

section Sums

variable {ctx : ConnectContext} {tx : Transaction} {table : CoinsTable}

theorem addOutputs_ok {start result total vout} (exact : start.Exact total)
    (range : 0 ≤ total ∧ total ≤ MAX_MONEY) (added : addOutputs start vout = .ok result)
    : (∀ txout ∈ vout, 0 ≤ txout.nValue.toInt)
      ∧ result.Exact (total + (vout.map (fun txout => txout.nValue.toInt)).sum)
      ∧ total + (vout.map (fun txout => txout.nValue.toInt)).sum ≤ MAX_MONEY := by
  induction vout generalizing start total with
  | nil =>
    cases added
    simpa using ⟨exact, range.2⟩
  | cons txout rest ih =>
    simp only [addOutputs, then_ok, require_ok] at added
    obtain ⟨⟨money, sumRange⟩, later⟩ := added
    rw [MoneyRange, MAX_MONEY] at money
    have fits : Fits 64 (total + txout.nValue.toInt) := by
      refine fits_of_le (by omega) ?_
      rw [MAX_MONEY] at range
      omega
    have sum := exact.add (exact_of txout.nValue) fits
    rw [MoneyRange, sum.amount] at sumRange
    rw [forall_mem_cons, map_cons, sum_cons, ← add_assoc]
    obtain ⟨pos, exactRest, small⟩ := ih sum sumRange later
    exact ⟨⟨money.1, pos⟩, exactRest, small⟩

theorem getValueOut_ok {nValueOut} (added : tx.getValueOut = .ok nValueOut)
    : (∀ txout ∈ tx.vout, 0 ≤ txout.nValue.toInt)
      ∧ nValueOut.Exact tx.outputSum
      ∧ tx.outputSum ≤ MAX_MONEY := by
  have result := addOutputs_ok exact_zero (by decide) added
  rwa [zero_add] at result

theorem outputSum_nonneg (pos : ∀ txout ∈ tx.vout, 0 ≤ txout.nValue.toInt)
    : 0 ≤ tx.outputSum := by
  refine sum_nonneg fun value mem => ?_
  obtain ⟨txout, found, rfl⟩ := mem_map.mp mem
  exact pos txout found

theorem sumInputs_ok {nSpendHeight start result vin}
    (summed : ctx.sumInputs table nSpendHeight start vin = .ok result)
    : result
      = start.addAll (vin.map (fun txin => (getOutputFor table txin.prevout).nValue)) := by
  induction vin generalizing start with
  | nil =>
    cases summed
    rfl
  | cons txin rest ih =>
    simp only [ConnectContext.sumInputs, then_ok, require_ok] at summed
    exact ih summed.2.2

theorem checkTxInputs_ok {nSpendHeight sums} (spends : tx.isCoinBase = false)
    (checked : ctx.checkTxInputs table nSpendHeight tx = .ok sums)
    : ∃ nValueOut, tx.getValueOut = .ok nValueOut
      ∧ nValueOut.amount.toInt ≤ (getValueIn table tx).amount.toInt
      ∧ sums = [getValueIn table tx, nValueOut, (getValueIn table tx).sub nValueOut,
        (Tally.of 0).add ((getValueIn table tx).sub nValueOut)] := by
  simp only [ConnectContext.checkTxInputs, bind_ok, require_ok, pure, Except.pure,
    Except.ok.injEq, not_lt] at checked
  obtain ⟨_, -, nValueIn, summed, nValueOut, valueOut, _, enough, _, -, _, -, rfl⟩ := checked
  have same : nValueIn = getValueIn table tx := by
    rw [sumInputs_ok summed, getValueIn, if_neg (by simp [spends])]
  rw [← same]
  exact ⟨nValueOut, valueOut, enough, rfl⟩

end Sums

-- The loop over the transactions

section Loop

variable {ctx : ConnectContext} {pindex pprev : BlockIndex} {limit : Int}

open ConnectContext

/-- The fees so far are exact, what is left and the fees together are within a limit, and no
sum has overflowed.
-/
structure Balanced (limit : Int) (state : Connecting) : Prop where
  nonneg : NonNegative state.table
  fees : ∃ fees, state.nFees.Exact fees ∧ 0 ≤ fees ∧ totalValue state.table + fees ≤ limit
  sums : ∀ sum ∈ state.sums, sum.overflow = false

theorem exact_getValueIn {tx table after txundo} (spends : tx.isCoinBase = false)
    (spent : spendInputs table tx.vin = .ok (txundo, after)) (nonneg : NonNegative table)
    (small : totalValue table < 2 ^ 63)
    : (getValueIn table tx).Exact (inputValues table tx.vin).sum
      ∧ 0 ≤ (inputValues table tx.vin).sum
      ∧ totalValue after = totalValue table - (inputValues table tx.vin).sum := by
  obtain ⟨total, kept⟩ := totalValue_spendInputs spent
  have left := totalValue_nonneg (kept nonneg)
  have worth : ∀ txin ∈ tx.vin, 0 ≤ (getOutputFor table txin.prevout).nValue.toInt := by
    intro txin mem
    obtain ⟨txout, found⟩ := unspentAt_spendInputs spent txin mem
    rw [getOutputFor, found, Option.getD_some]
    exact nonneg.unspentAt found
  have sum : (tx.vin.map (fun txin => (getOutputFor table txin.prevout).nValue)).map BitVec.toInt
      = inputValues table tx.vin := by
    rw [map_map]
    rfl
  have exact := (@exact_zero 64).addAll (le_refl 0) (forall_mem_map.mpr worth) (by rw [sum]; omega)
  rw [sum, zero_add] at exact
  refine ⟨?_, sum_nonneg (forall_mem_map.mpr worth), total⟩
  rwa [getValueIn, if_neg (by simp [spends])]

/-- A transaction that is no coinbase moves value from the coins to the fees at most. -/
theorem Balanced.connectTx {tx state after txundo} (balanced : Balanced limit state)
    (small : limit < 2 ^ 63) (spends : tx.isCoinBase = false)
    (connected : ctx.connectTx pindex pprev tx state = .ok (txundo, after))
    : Balanced limit after := by
  obtain ⟨updated, -, spending⟩ := connectTx_ok connected
  obtain ⟨nValueOut, sums, valueOut, checked, feesAfter, sumsAfter⟩ := spending spends
  obtain ⟨nValueOut', valueOut', enough, rfl⟩ := checkTxInputs_ok spends checked
  obtain rfl : nValueOut = nValueOut' := Except.ok.inj (valueOut.symm.trans valueOut')
  obtain ⟨pos, exactOut, outSmall⟩ := getValueOut_ok valueOut
  have outNonneg := outputSum_nonneg pos
  obtain ⟨middle, spent, -, created⟩ := updateCoins_ok updated
  rw [if_neg (by simp [spends])] at spent
  obtain ⟨fees, exactFees, feesNonneg, within⟩ := balanced.fees
  obtain ⟨exactIn, inNonneg, total⟩ := exact_getValueIn spends spent balanced.nonneg (by omega)
  have middleNonneg := (totalValue_spendInputs spent).2 balanced.nonneg
  have left := totalValue_nonneg middleNonneg
  obtain ⟨grown, nonneg⟩ :=
    @totalValue_create pindex.nHeight _ _ pos middleNonneg (tx.getHash ctx.H)
  rw [← created] at grown nonneg
  rw [exactIn.amount, exactOut.amount] at enough
  have exactFee := exactIn.sub exactOut (fits_of_le (by omega) (by omega))
  have exactAll := exactFees.add exactFee (fits_of_le (by omega) (by omega))
  have exactOwn := exact_zero.add exactFee (fits_of_le (by omega) (by omega))
  rw [← feesAfter] at exactAll
  refine ⟨nonneg, ⟨_, exactAll, by omega, ?_⟩, ?_⟩
  · rw [← Transaction.outputSum] at grown
    omega
  · rw [sumsAfter]
    simp only [forall_mem_append, forall_mem_cons, not_mem_nil, false_implies,
      implies_true, and_true, exactIn.overflow, exactOut.overflow, exactFee.overflow,
      exactAll.overflow, exactOwn.overflow]
    exact balanced.sums

/-- What a transaction that is no coinbase keeps, the transactions of the loop keep, by
induction on them.
-/
theorem Balanced.connectLoop {vtx state after vtxundo} (balanced : Balanced limit state)
    (small : limit < 2 ^ 63) (spends : ∀ tx ∈ vtx, tx.isCoinBase = false)
    (connected : ctx.connectLoop pindex pprev vtx state = .ok (vtxundo, after))
    : Balanced limit after := by
  induction vtx generalizing state vtxundo with
  | nil =>
    cases connected
    exact balanced
  | cons tx rest ih =>
    obtain ⟨txundo, vtxundo, middle, rfl, first, last⟩ := connectLoop_cons connected
    obtain ⟨here, later⟩ := forall_mem_cons.mp spends
    exact ih (balanced.connectTx small here first) later last

theorem Balanced.coinbase {coinbase table after txundo} (nonneg : NonNegative table)
    (isCoinBase : coinbase.isCoinBase = true)
    (pos : ∀ txout ∈ coinbase.vout, 0 ≤ txout.nValue.toInt)
    (connected : ctx.connectTx pindex pprev coinbase { table } = .ok (txundo, after))
    : Balanced (totalValue table + coinbase.outputSum) after := by
  obtain ⟨updated, unchanged, -⟩ := connectTx_ok connected
  obtain ⟨middle, spent, -, created⟩ := updateCoins_ok updated
  rw [if_pos isCoinBase] at spent
  cases spent
  obtain ⟨fees, sums⟩ := unchanged isCoinBase
  obtain ⟨grown, stays⟩ :=
    @totalValue_create pindex.nHeight _ _ pos nonneg (coinbase.getHash ctx.H)
  rw [← created] at grown stays
  refine ⟨stays, ⟨0, ?_, le_refl 0, ?_⟩, ?_⟩
  · rw [fees]
    exact exact_zero
  · rw [add_zero]
    exact grown
  · rw [sums]
    simp

end Loop

-- The reward

section Reward

variable {ctx : ConnectContext} {pindex pprev : BlockIndex}

open ConnectContext

theorem totalValue_connectLoop {coinbase vtx table after vtxundo sums subsidy}
    (nonneg : NonNegative table) (pos : 0 ≤ subsidy)
    (room : totalValue table ≤ MAX_MONEY - subsidy) (isCoinBase : coinbase.isCoinBase = true)
    (spends : ∀ tx ∈ vtx, tx.isCoinBase = false)
    (defined : getPqcoinBlockSubsidy ctx.generateMTRandom pindex.nHeight
      (ctx.subsidyParams pindex.nHeight) pprev.hash = some subsidy)
    (connected : ctx.connectLoop pindex pprev (coinbase :: vtx) { table }
      = .ok (vtxundo, after))
    (checked : ctx.checkReward pindex pprev (coinbase :: vtx) after = .ok sums)
    : totalValue after.table ≤ totalValue table + subsidy
      ∧ ∀ sum ∈ after.sums ++ sums, sum.overflow = false := by
  simp only [checkReward, defined, bind_ok, require_ok, pure, Except.pure, Except.ok.injEq,
    not_lt] at checked
  obtain ⟨nValueOut, valueOut, _, enough, rfl⟩ := checked
  obtain ⟨values, exactOut, outSmall⟩ := getValueOut_ok valueOut
  have before := totalValue_nonneg nonneg
  obtain ⟨txundo, vtxundo, middle, rfl, first, last⟩ := connectLoop_cons connected
  rw [MAX_MONEY] at room outSmall
  have balanced := (Balanced.coinbase nonneg isCoinBase values first).connectLoop
    (by omega) spends last
  obtain ⟨fees, exactFees, feesNonneg, within⟩ := balanced.fees
  have left := totalValue_nonneg balanced.nonneg
  have exactSubsidy : (Tally.of (BitVec.ofInt 64 subsidy)).Exact subsidy :=
    ⟨BitVec.toInt_ofInt_eq_self (by decide) (by omega) (by omega), rfl⟩
  have exactReward := exactFees.add exactSubsidy (fits_of_le (by omega) (by omega))
  rw [exactOut.amount, exactReward.amount] at enough
  refine ⟨by omega, ?_⟩
  simp only [forall_mem_append, forall_mem_cons, not_mem_nil, false_implies,
    implies_true, and_true, exactReward.overflow, exactOut.overflow]
  exact balanced.sums

/-- No block that is connected creates more than its subsidy, and none of the sums on the way
overflows, where no unspent output has a negative value.
-/
theorem no_inflation (ctx : ConnectContext) (fJustCheck : Bool) (block : Block)
    (pindex : BlockIndex) (view : ViewCache) (connected : ConnectContext.Connected) (subsidy : Int)
    (drawn : ∀ seed range, 1 ≤ ctx.generateMTRandom seed range)
    (honest : Honest ctx.H ctx.chainparams block)
    (defined : getPqcoinBlockSubsidy ctx.generateMTRandom pindex.nHeight
      (ctx.subsidyParams pindex.nHeight) ((pindex.pprev.map BlockIndex.hash).getD 0)
        = some subsidy)
    (nonneg : NonNegative view.table) (room : totalValue view.table ≤ MAX_MONEY - subsidy)
    (accepted : ctx.connectBlock fJustCheck block pindex view = .ok connected)
    : totalValue connected.view.table ≤ totalValue view.table + subsidy
      ∧ ∀ sum ∈ connected.sums, sum.overflow = false := by
  have pos := subsidy_nonneg drawn defined
  obtain ⟨passed, -, outcome⟩ := connectBlock_ok accepted
  obtain ⟨coinBases, -⟩ := honest.transactions passed
  rcases outcome with ⟨unchanged, -, nothing⟩ | ⟨pprev, parent, connects⟩
  · rw [unchanged, nothing]
    exact ⟨by omega, by simp⟩
  rw [parent] at defined
  obtain ⟨-, vtxundo, state, sums, loop, reward, table, allSums, -⟩ :=
    connectTransactions_ok connects
  rw [table, allSums]
  cases vtx : block.vtx with
  | nil =>
    rw [vtx] at coinBases
    cases coinBases
  | cons coinbase rest =>
    rw [vtx] at coinBases loop reward
    simp only [checkCoinBase, then_ok, require_ok, forM_ok] at coinBases
    exact totalValue_connectLoop nonneg pos room coinBases.1
      (fun tx mem => by simpa using coinBases.2 tx mem) defined loop reward

end Reward

-- Blocks on small views

open ConnectContext

def emptyTable : CoinsTable := fun _ => none

theorem totalValue_emptyTable : totalValue emptyTable = 0 :=
  Finset.sum_eq_zero fun _ _ => rfl

theorem nonNegative_emptyTable : NonNegative emptyTable := by
  intro txid txout mem
  cases mem

def singleView (txid : Uint256) (nValue : Amount) : ViewCache :=
  ⟨putCoins emptyTable txid ⟨true, [⟨nValue, []⟩], 1, 1⟩, 5⟩

/-- The spending block on a view with what it spends. -/
theorem no_inflation_spending
    : ∃ connected, openContext.connectBlock false spendingBlock spendingIndex (singleView 7 10)
          = .ok connected
        ∧ totalValue connected.view.table ≤ totalValue (singleView 7 10).table + 1024 * COIN
        ∧ ∀ sum ∈ connected.sums, sum.overflow = false := by
  have connects : (openContext.connectBlock false spendingBlock spendingIndex
      (singleView 7 10)).toOption.isSome = true := by
    decide +kernel
  cases accepted : openContext.connectBlock false spendingBlock spendingIndex (singleView 7 10) with
  | error failure =>
    rw [accepted] at connects
    cases connects
  | ok connected =>
    refine ⟨connected, rfl, no_inflation openContext false spendingBlock spendingIndex
      (singleView 7 10) connected (1024 * COIN) (fun _ _ => le_refl 1) (.unchecked rfl)
      rfl (nonNegative_emptyTable.putCoins (forall_mem_singleton.mpr (by decide)))
      ?_ accepted⟩
    rw [singleView, totalValue_putCoins, totalValue_emptyTable]
    decide

/-- The context in which the block at height zero is the known one, so that the duplicate-txid
rule is not enforced above it.
-/
def knownContext : ConnectContext := { openContext with BIP34Height := 0, BIP34Hash := 5 }

def coinbaseBlock : Block :=
  ⟨{ plainHeader with hashMerkleRoot := 62 }, [multisigCoinBase 0], false⟩

def coinbaseIndex : BlockIndex := .child rootIndex 80 coinbaseBlock.toPureBlockHeader

/-- A coinbase that replaces an entry of negative value adds more than the subsidy. -/
theorem negative_entry_replaced
    : Honest lengthHashing knownContext.chainparams coinbaseBlock
      ∧ getPqcoinBlockSubsidy knownContext.generateMTRandom coinbaseIndex.nHeight
          (knownContext.subsidyParams coinbaseIndex.nHeight) rootIndex.hash
        = some (1024 * COIN)
      ∧ totalValue (singleView 62 (-2000 * 100000000)).table ≤ MAX_MONEY - 1024 * COIN
      ∧ ∃ connected,
          knownContext.connectBlock false coinbaseBlock coinbaseIndex
              (singleView 62 (-2000 * 100000000))
            = .ok connected
          ∧ ¬ totalValue connected.view.table
              ≤ totalValue (singleView 62 (-2000 * 100000000)).table + 1024 * COIN := by
  have value : totalValue (singleView 62 (-2000 * 100000000)).table = -2000 * COIN := by
    rw [singleView, totalValue_putCoins, totalValue_emptyTable]
    decide
  refine ⟨.unchecked rfl, by decide, ?_, ?_⟩
  · rw [value]
    decide
  have connects : (knownContext.connectBlock false coinbaseBlock coinbaseIndex
      (singleView 62 (-2000 * 100000000))).toOption.map (fun connected => connected.sums.length)
      = some 2 := by
    decide +kernel
  cases accepted : knownContext.connectBlock false coinbaseBlock coinbaseIndex
      (singleView 62 (-2000 * 100000000)) with
  | error failure =>
    rw [accepted] at connects
    cases connects
  | ok connected =>
    refine ⟨connected, rfl, ?_⟩
    rw [accepted] at connects
    rcases (connectBlock_ok accepted).2.2 with ⟨-, -, nothing⟩ | ⟨pprev, parent, transactions⟩
    · simp [nothing, Except.toOption] at connects
    obtain ⟨-, vtxundo, state, sums, loop, -, table, -⟩ := connectTransactions_ok transactions
    obtain ⟨txundo, rest, middle, rfl, first, last⟩ := connectLoop_cons loop
    cases last
    obtain ⟨start, nothing, -, created⟩ := updateCoins_ok (connectTx_ok first).1
    cases nothing
    have txid : (multisigCoinBase 0).getHash knownContext.H = 62 := by decide +kernel
    rw [table, created, txid, totalValue_putCoins, value]
    decide

end Pqcoin
