import Mathlib.Algebra.BigOperators.Group.List.Basic
import Mathlib.Algebra.Order.BigOperators.Group.List
import Mathlib.Data.List.Pairwise
import Pqcoin.Lib.Folds
import Pqcoin.Wallet.CreateTransaction

/-! `CWallet::SelectCoins`: the coins for a value, by several attempts that search a subset at
random. The value it reports is that of the coins it selects, and reaches the value asked for.
-/

namespace Pqcoin

open Function List SignedWord

-- Coins and choices

/-- `COutput`: a coin, whether the wallet can spend it, and whether it sent the transaction. -/
structure AvailableCoin where
  coin : SelectedCoin
  fSpendable : Bool
  fFromMe : Bool

structure AvailableCoins where
  vCoins : List AvailableCoin
  listedOnce : (vCoins.map (·.coin.prevout)).Nodup

structure CoinSelection where
  setSelected : List OutPoint
  selectedOnce : setSelected.Nodup
  fAllowOtherInputs : Bool

/-- What `SelectCoins` reads of the wallet and the node. -/
structure SelectionContext where
  mapWallet : OutPoint → Option SelectedCoin
  located : ∀ outpoint coin, mapWallet outpoint = some coin → coin.prevout = outpoint
  transactionWithinChainLimit : Uint256 → Nat → Bool
  bSpendZeroConfChange : Bool
  nMaxChainLength : Nat

/-- The random choices of an attempt: the shuffled coins, and the flips of each search by
repetition and position.
-/
structure AttemptDraws where
  shuffle : List AvailableCoin → List AvailableCoin
  permutes : ∀ vCoins, (shuffle vCoins).Perm vCoins
  flips : Nat → Nat → Bool
  laterFlips : Nat → Nat → Bool

def coinValue (coins : List SelectedCoin) : Amount := (coins.map (·.txout.nValue)).sum

/-- Coins as the members of a set: the second of two equal ones is not inserted. -/
def coinSet (coins : List SelectedCoin) : List SelectedCoin :=
  coins.pwFilter (fun first second => first.prevout ≠ second.prevout)

-- ApproximateBestSubset

structure SubsetSearch where
  nTotal : Amount
  vfIncluded : List Bool
  fReachedTarget : Bool
  vfBest : List Bool
  nBest : Amount

namespace SubsetSearch

def tryCoin (nTargetValue value : Amount) (i : Nat) (search : SubsetSearch) : SubsetSearch :=
  let nTotal := search.nTotal + value
  let vfIncluded := search.vfIncluded.set i true
  if nTargetValue.toInt ≤ nTotal.toInt then
    if nTotal.toInt < search.nBest.toInt then
      ⟨nTotal - value, vfIncluded.set i false, true, vfIncluded, nTotal⟩
    else ⟨nTotal - value, vfIncluded.set i false, true, search.vfBest, search.nBest⟩
  else ⟨nTotal, vfIncluded, search.fReachedTarget, search.vfBest, search.nBest⟩

/-- One pass over the coins from position `i` on; the first one follows the flips, and the second
takes what is not included.
-/
def passCoins (nTargetValue : Amount) (flips : Nat → Bool) (first : Bool)
    : List SelectedCoin → Nat → SubsetSearch → SubsetSearch
  | [], _, search => search
  | coin :: rest, i, search =>
    let chosen := if first then flips i else search.vfIncluded[i]? == some false
    passCoins nTargetValue flips first rest (i + 1)
      (if chosen then search.tryCoin nTargetValue coin.txout.nValue i else search)

def repetition (nTargetValue : Amount) (flips : Nat → Bool) (vValue : List SelectedCoin)
    (vfBest : List Bool) (nBest : Amount)
    : SubsetSearch :=
  let started : SubsetSearch := ⟨0, List.replicate vValue.length false, false, vfBest, nBest⟩
  let passed := passCoins nTargetValue flips true vValue 0 started
  if passed.fReachedTarget then passed
  else passCoins nTargetValue flips false vValue 0 passed

def repetitions (nTargetValue : Amount) (flips : Nat → Nat → Bool) (vValue : List SelectedCoin)
    : Nat → Nat → List Bool → Amount → List Bool × Amount
  | 0, _, vfBest, nBest => (vfBest, nBest)
  | left + 1, nRep, vfBest, nBest =>
    if nBest = nTargetValue then (vfBest, nBest)
    else
      let search := repetition nTargetValue (flips nRep) vValue vfBest nBest
      repetitions nTargetValue flips vValue left (nRep + 1) search.vfBest search.nBest

end SubsetSearch

variable (cfg : FeeSettings) (ctx : SelectionContext)

def approximateBestSubset (vValue : List SelectedCoin) (nTotalLower nTargetValue : Amount)
    (flips : Nat → Nat → Bool)
    : List Bool × Amount :=
  SubsetSearch.repetitions nTargetValue flips vValue 1000 0 (List.replicate vValue.length true)
    nTotalLower

-- SelectCoinsMinConf

def MIN_CHANGE_FEE_MULTIPLIER : Amount := 2

def FeeSettings.getMinChange : Amount :=
  cfg.discardThreshold + cfg.minTxFee.nSatoshisPerK * MIN_CHANGE_FEE_MULTIPLIER

structure AttemptLimits where
  nConfMine : Int
  nConfTheirs : Int
  nMaxAncestors : Nat

def AttemptLimits.admits (limits : AttemptLimits) (ctx : SelectionContext) (output : AvailableCoin)
    : Bool :=
  output.fSpendable
    && decide ((if output.fFromMe then limits.nConfMine else limits.nConfTheirs)
        ≤ output.coin.depth)
    && ctx.transactionWithinChainLimit output.coin.prevout.hash limits.nMaxAncestors

/-- The coins sorted by their value: those below the target with room for change, and the lowest
of the larger ones.
-/
structure SortedCoins where
  vValue : List SelectedCoin
  nTotalLower : Amount
  coinLowestLarger : Option SelectedCoin

def SortedCoins.lowestLarger (sorted : SortedCoins) : Amount :=
  match sorted.coinLowestLarger with
  | none => BitVec.intMax 64
  | some coin => coin.txout.nValue

def scanCoins (nTargetValue nMinChange : Amount)
    : List SelectedCoin → SortedCoins → SelectedCoin ⊕ SortedCoins
  | [], sorted => .inr sorted
  | coin :: rest, sorted =>
    let n := coin.txout.nValue
    if n = nTargetValue then .inl coin
    else if n.toInt < (nTargetValue + nMinChange).toInt then
      scanCoins nTargetValue nMinChange rest
        ⟨sorted.vValue ++ [coin], sorted.nTotalLower + n, sorted.coinLowestLarger⟩
    else if n.toInt < sorted.lowestLarger.toInt then
      scanCoins nTargetValue nMinChange rest ⟨sorted.vValue, sorted.nTotalLower, some coin⟩
    else scanCoins nTargetValue nMinChange rest sorted

def picked : List SelectedCoin → List Bool → List SelectedCoin
  | coin :: rest, flag :: flags =>
    if flag then coin :: picked rest flags else picked rest flags
  | _, _ => []

/-- `std::sort` by value, then `std::reverse`. -/
def byValueDescending (vValue : List SelectedCoin) : List SelectedCoin :=
  (vValue.mergeSort
    (fun first second => decide (first.txout.nValue.toInt ≤ second.txout.nValue.toInt))).reverse

/-- `vfBest` and `nBest`: a second search asks for room for change. -/
def bestSubset (nMinChange : Amount) (draws : AttemptDraws) (nTargetValue nTotalLower : Amount)
    (vValue : List SelectedCoin)
    : List Bool × Amount :=
  let first := approximateBestSubset vValue nTotalLower nTargetValue draws.flips
  if first.2 ≠ nTargetValue ∧ (nTargetValue + nMinChange).toInt ≤ nTotalLower.toInt then
    approximateBestSubset vValue nTotalLower (nTargetValue + nMinChange) draws.laterFlips
  else first

/-- The end of `SelectCoinsMinConf`: a subset of the smaller coins, or the next larger coin. -/
def solveSubset (nMinChange : Amount) (draws : AttemptDraws) (nTargetValue : Amount)
    (sorted : SortedCoins)
    : List SelectedCoin :=
  let vValue := byValueDescending sorted.vValue
  let best := bestSubset nMinChange draws nTargetValue sorted.nTotalLower vValue
  match sorted.coinLowestLarger with
  | none => picked vValue best.1
  | some larger =>
    if (best.2 ≠ nTargetValue ∧ best.2.toInt < (nTargetValue + nMinChange).toInt)
        ∨ larger.txout.nValue.toInt ≤ best.2.toInt then [larger]
    else picked vValue best.1

/-- `SelectCoinsMinConf`: `setCoinsRet` and `nValueRet`. -/
def selectCoinsMinConf (draws : AttemptDraws) (limits : AttemptLimits)
    (vCoins : List AvailableCoin) (nTargetValue : Amount)
    : Option (List SelectedCoin × Amount) :=
  let usable := ((draws.shuffle vCoins).filter (limits.admits ctx)).map (·.coin)
  let selected (coins : List SelectedCoin) := some (coinSet coins, coinValue coins)
  match scanCoins nTargetValue cfg.getMinChange usable ⟨[], 0, none⟩ with
  | .inl coin => selected [coin]
  | .inr sorted =>
    if sorted.nTotalLower = nTargetValue then selected sorted.vValue
    else if sorted.nTotalLower.toInt < nTargetValue.toInt then
      match sorted.coinLowestLarger with
      | none => none
      | some larger => selected [larger]
    else selected (solveSubset cfg.getMinChange draws nTargetValue sorted)

-- SelectCoins

/-- The attempts of `SelectCoins`, each with weaker limits than the one before. -/
def attempts : List AttemptLimits :=
  [⟨1, 6, 0⟩, ⟨1, 1, 0⟩]
    ++ if ctx.bSpendZeroConfChange then
      [⟨0, 1, 2⟩, ⟨0, 1, min 4 (ctx.nMaxChainLength / 3)⟩, ⟨0, 1, ctx.nMaxChainLength / 2⟩,
        ⟨0, 1, ctx.nMaxChainLength⟩]
        ++ if cfg.walletRejectLongChains then [] else [⟨0, 1, 2 ^ 64 - 1⟩]
    else []

/-- The first attempt that succeeds; `draws` are the random choices of each. -/
def firstAttempt (cfg : FeeSettings) (ctx : SelectionContext) (draws : Nat → AttemptDraws)
    (vCoins : List AvailableCoin) (nTargetValue : Amount)
    : List AttemptLimits → Nat → Option (List SelectedCoin × Amount)
  | [], _ => none
  | limits :: rest, attempt =>
    match selectCoinsMinConf cfg ctx (draws attempt) limits vCoins nTargetValue with
    | some selected => some selected
    | none => firstAttempt cfg ctx draws vCoins nTargetValue rest (attempt + 1)

def selectCoins (selection : Option CoinSelection) (available : AvailableCoins)
    (draws : Nat → AttemptDraws) (nTargetValue : Amount)
    : Option (List SelectedCoin × Amount) :=
  let setSelected := (selection.map CoinSelection.setSelected).getD []
  let fAllowOtherInputs := selection.any CoinSelection.fAllowOtherInputs
  if setSelected ≠ [] ∧ fAllowOtherInputs = false then
    let coins := (available.vCoins.filter (·.fSpendable)).map (·.coin)
    if nTargetValue.toInt ≤ (coinValue coins).toInt then some (coinSet coins, coinValue coins)
    else none
  else
    match setSelected.mapM ctx.mapWallet with
    | none => none
    | some preset =>
      let nValueFromPresetInputs := coinValue preset
      let vCoins := available.vCoins.filter
        (fun output => decide (output.coin.prevout ∉ preset.map (·.prevout)))
      let found :=
        if nTargetValue.toInt ≤ nValueFromPresetInputs.toInt then some ([], 0)
        else
          firstAttempt cfg ctx draws vCoins (nTargetValue - nValueFromPresetInputs)
            (attempts cfg ctx) 0
      found.map (fun (setCoinsRet, nValueRet) =>
        (coinSet (setCoinsRet ++ preset), nValueRet + nValueFromPresetInputs))

-- Values of coins

@[simp] theorem coinValue_nil : coinValue [] = 0 := rfl

@[simp] theorem coinValue_cons (coin : SelectedCoin) (coins : List SelectedCoin)
    : coinValue (coin :: coins) = coin.txout.nValue + coinValue coins := by
  rw [coinValue, map_cons, sum_cons, coinValue]

theorem coinValue_append (coins more)
    : coinValue (coins ++ more) = coinValue coins + coinValue more := by
  rw [coinValue, map_append, sum_append, coinValue, coinValue]

theorem coinSet_eq {coins} (once : (coins.map (·.prevout)).Nodup) : coinSet coins = coins :=
  pwFilter_eq_self.mpr (pairwise_map.mp once)

-- Subsets

theorem picked_sublist (vValue flags) : (picked vValue flags).Sublist vValue := by
  induction vValue generalizing flags with
  | nil => simp [picked]
  | cons coin rest ih =>
    cases flags with
    | nil => simp [picked]
    | cons flag flags =>
      rw [picked]
      split
      · exact (ih flags).cons_cons coin
      · exact (ih flags).cons coin

theorem picked_replicate (vValue flag)
    : picked vValue (replicate vValue.length flag) = if flag then vValue else [] := by
  induction vValue with
  | nil => cases flag <;> rfl
  | cons coin rest ih =>
    rw [length_cons, replicate_succ, picked, ih]
    cases flag <;> rfl

theorem coinValue_picked_set {vValue flags i coin} (found : vValue[i]? = some coin)
    (unmarked : flags[i]? = some false)
    : coinValue (picked vValue (flags.set i true))
      = coinValue (picked vValue flags) + coin.txout.nValue := by
  induction vValue generalizing flags i with
  | nil => simp at found
  | cons first rest ih =>
    cases flags with
    | nil => simp at unmarked
    | cons flag flags =>
      cases i with
      | zero =>
        obtain rfl : first = coin := by simpa using found
        obtain rfl : flag = false := by simpa using unmarked
        simp only [set_cons_zero, picked, if_true, Bool.false_eq_true, if_false, coinValue_cons]
        rw [add_comm]
      | succ i =>
        have step := @ih flags i (by simpa using found) (by simpa using unmarked)
        simp only [set_cons_succ, picked]
        split
        · rw [coinValue_cons, coinValue_cons, step, add_assoc]
        · exact step

namespace SubsetSearch

/-- The totals of a search are those of its marks, and the best subset reaches the target. -/
structure Sums (vValue : List SelectedCoin) (target : Amount) (search : SubsetSearch)
    : Prop where
  total : search.nTotal = coinValue (picked vValue search.vfIncluded)
  included : search.vfIncluded.length = vValue.length
  best : search.nBest = coinValue (picked vValue search.vfBest)
  enough : target.toInt ≤ search.nBest.toInt

variable {vValue : List SelectedCoin} {target : Amount} {search : SubsetSearch}

theorem Sums.tryCoin (sums : search.Sums vValue target) {i coin}
    (found : vValue[i]? = some coin) (unmarked : search.vfIncluded[i]? = some false)
    : (search.tryCoin target coin.txout.nValue i).Sums vValue target := by
  have more := coinValue_picked_set found unmarked
  have restored : (search.vfIncluded.set i true).set i false = search.vfIncluded := by
    obtain ⟨bound, value⟩ := List.getElem?_eq_some_iff.mp unmarked
    rw [set_set]
    simpa only [value] using set_getElem_self bound
  rw [SubsetSearch.tryCoin]
  split
  · rename_i reached
    rw [add_sub_cancel_right, restored]
    split
    · exact ⟨sums.total, sums.included, by rw [more, sums.total], reached⟩
    · exact ⟨sums.total, sums.included, sums.best, sums.enough⟩
  · exact ⟨by rw [more, sums.total], by rw [length_set, sums.included], sums.best, sums.enough⟩

theorem included_tryCoin {value i j} (different : i ≠ j)
    : (search.tryCoin target value i).vfIncluded[j]? = search.vfIncluded[j]? := by
  rw [tryCoin]
  split
  · split <;> rw [getElem?_set_ne different, getElem?_set_ne different]
  · rw [getElem?_set_ne different]

theorem Sums.passCoins {flips first rest i} (sums : search.Sums vValue target)
    (pos : vValue.drop i = rest)
    (clear : first = true → ∀ j, i ≤ j → j < vValue.length → search.vfIncluded[j]? = some false)
    : (passCoins target flips first rest i search).Sums vValue target := by
  induction rest generalizing i search with
  | nil => exact sums
  | cons coin rest ih =>
    have found : vValue[i]? = some coin := by
      rw [← List.head?_drop, pos, List.head?_cons]
    have inside : i < vValue.length := (List.getElem?_eq_some_iff.mp found).1
    have after : vValue.drop (i + 1) = rest := by
      rw [← drop_drop, pos, drop_one, tail_cons]
    rw [SubsetSearch.passCoins]
    by_cases chosen
        : (if first then flips i else search.vfIncluded[i]? == some false) = true
    · rw [if_pos chosen]
      have unmarked : search.vfIncluded[i]? = some false := by
        cases first with
        | true => exact clear rfl i (Nat.le_refl i) inside
        | false => simpa using chosen
      refine ih (sums.tryCoin found unmarked) after fun isFirst j later bound => ?_
      rw [included_tryCoin (by omega)]
      exact clear isFirst j (by omega) bound
    · rw [if_neg chosen]
      exact ih sums after fun isFirst j later bound => clear isFirst j (by omega) bound

theorem Sums.repetition {flips vfBest nBest} (best : nBest = coinValue (picked vValue vfBest))
    (enough : target.toInt ≤ nBest.toInt)
    : (repetition target flips vValue vfBest nBest).Sums vValue target := by
  have started : Sums vValue target
      ⟨0, replicate vValue.length false, false, vfBest, nBest⟩ := by
    refine ⟨?_, length_replicate, best, enough⟩
    rw [picked_replicate]
    rfl
  have passed : Sums vValue target (SubsetSearch.passCoins target flips true vValue 0
      ⟨0, replicate vValue.length false, false, vfBest, nBest⟩) :=
    started.passCoins rfl fun _ j _ bound => getElem?_replicate_of_lt bound
  rw [SubsetSearch.repetition]
  split
  · exact passed
  · exact passed.passCoins rfl (by simp)

theorem repetitions_spec {flips} (left) {nRep vfBest nBest}
    (best : nBest = coinValue (picked vValue vfBest)) (enough : target.toInt ≤ nBest.toInt)
    : (repetitions target flips vValue left nRep vfBest nBest).2
        = coinValue (picked vValue (repetitions target flips vValue left nRep vfBest nBest).1)
      ∧ target.toInt
        ≤ (repetitions target flips vValue left nRep vfBest nBest).2.toInt := by
  induction left generalizing nRep vfBest nBest with
  | zero => exact ⟨best, enough⟩
  | succ left ih =>
    rw [repetitions]
    split
    · exact ⟨best, enough⟩
    have sums : (repetition target (flips nRep) vValue vfBest nBest).Sums vValue
        target := Sums.repetition best enough
    exact ih sums.best sums.enough

end SubsetSearch

theorem approximateBestSubset_spec {vValue nTotalLower target} (flips : Nat → Nat → Bool)
    (total : nTotalLower = coinValue vValue) (enough : target.toInt ≤ nTotalLower.toInt)
    : (approximateBestSubset vValue nTotalLower target flips).2
        = coinValue (picked vValue (approximateBestSubset vValue nTotalLower target flips).1)
      ∧ target.toInt
        ≤ (approximateBestSubset vValue nTotalLower target flips).2.toInt := by
  refine SubsetSearch.repetitions_spec 1000 ?_ enough
  rw [picked_replicate]
  exact total

-- Attempts

structure SortedCoins.Of (target nMinChange : Amount) (seen : List SelectedCoin)
    (sorted : SortedCoins)
    : Prop where
  total : sorted.nTotalLower = coinValue sorted.vValue
  drawn : (sorted.vValue ++ sorted.coinLowestLarger.toList).Subperm seen
  larger : ∀ coin, sorted.coinLowestLarger = some coin →
    (target + nMinChange).toInt ≤ coin.txout.nValue.toInt

/-- What the loop over the coins ends with. -/
def Scanned (target nMinChange : Amount) (seen : List SelectedCoin)
    : SelectedCoin ⊕ SortedCoins → Prop
  | .inl coin => coin ∈ seen ∧ coin.txout.nValue = target
  | .inr sorted => sorted.Of target nMinChange seen

/-- The loop over the coins, by induction on those to come. -/
theorem scanCoins_spec {target nMinChange} (coins) {seen sorted}
    (before : sorted.Of target nMinChange seen)
    : Scanned target nMinChange (seen ++ coins)
        (scanCoins target nMinChange coins sorted) := by
  induction coins generalizing seen sorted with
  | nil =>
    rw [append_nil]
    exact before
  | cons coin rest ih =>
    have later : ∀ {next : SortedCoins}, next.Of target nMinChange (seen ++ [coin]) →
        Scanned target nMinChange (seen ++ coin :: rest)
          (scanCoins target nMinChange rest next) := by
      intro next of
      have step := ih of
      rwa [append_assoc, singleton_append] at step
    rw [scanCoins]
    split
    · rename_i value
      exact ⟨mem_append_right _ mem_cons_self, value⟩
    split
    · refine later ⟨?_, ?_, before.larger⟩
      · rw [coinValue_append, coinValue_cons, coinValue_nil, add_zero, before.total]
      · rw [append_assoc, singleton_append]
        have moved : (sorted.vValue ++ coin :: sorted.coinLowestLarger.toList).Perm
            (sorted.vValue ++ sorted.coinLowestLarger.toList ++ [coin]) := by
          rw [append_assoc]
          exact (perm_append_singleton coin _).symm.append_left _
        exact moved.subperm.trans ((subperm_append_right [coin]).mpr before.drawn)
    · rename_i large
      split
      · refine later ⟨before.total, ?_, ?_⟩
        · have dropped : sorted.vValue.Subperm seen :=
            (sublist_append_left ..).subperm.trans before.drawn
          exact (subperm_append_right [coin]).mpr dropped
        · intro larger same
          obtain rfl : coin = larger := Option.some.inj same
          omega
      · exact later ⟨before.total,
          before.drawn.trans (sublist_append_left ..).subperm, before.larger⟩

/-- Both searches end with a subset that reaches the target. -/
theorem bestSubset_spec {nMinChange target nTotalLower} (draws) {vValue}
    (total : nTotalLower = coinValue vValue) (enough : target.toInt ≤ nTotalLower.toInt)
    (room : target.toInt ≤ (target + nMinChange).toInt)
    : target.toInt
      ≤ (coinValue (picked vValue
          (bestSubset nMinChange draws target nTotalLower vValue).1)).toInt := by
  rw [bestSubset]
  split
  · rename_i again
    obtain ⟨value, reached⟩ := approximateBestSubset_spec draws.laterFlips total again.2
    rw [← value]
    exact room.trans reached
  · obtain ⟨value, reached⟩ := approximateBestSubset_spec draws.flips total enough
    rw [← value]
    exact reached

theorem solveSubset_spec {nMinChange target} (draws) {seen sorted}
    (of : sorted.Of target nMinChange seen) (enough : target.toInt ≤ sorted.nTotalLower.toInt)
    : (solveSubset nMinChange draws target sorted).Subperm seen
      ∧ (target.toInt ≤ (target + nMinChange).toInt
        → target.toInt
          ≤ (coinValue (solveSubset nMinChange draws target sorted)).toInt) := by
  have ordered : (byValueDescending sorted.vValue).Perm sorted.vValue :=
    (reverse_perm _).trans (mergeSort_perm ..)
  have total : sorted.nTotalLower = coinValue (byValueDescending sorted.vValue) := by
    rw [of.total]
    exact (ordered.map _).sum_eq.symm
  have lower := ordered.subperm.trans ((sublist_append_left ..).subperm.trans of.drawn)
  have subset : (picked (byValueDescending sorted.vValue) (bestSubset nMinChange draws target
      sorted.nTotalLower (byValueDescending sorted.vValue)).1).Subperm seen :=
    (picked_sublist ..).subperm.trans lower
  have reached := @bestSubset_spec nMinChange _ _ draws _ total enough
  rw [solveSubset]
  split
  · exact ⟨subset, reached⟩
  rename_i larger isLarger
  split
  · refine ⟨?_, fun room => ?_⟩
    · have listed : [larger].Sublist (sorted.vValue ++ sorted.coinLowestLarger.toList) := by
        rw [isLarger]
        exact sublist_append_right ..
      exact listed.subperm.trans of.drawn
    · rw [coinValue_cons, coinValue_nil, add_zero]
      exact room.trans (of.larger larger isLarger)
  · exact ⟨subset, reached⟩

theorem nodup_map_of_subperm {α β : Type} {f : α → β} {part whole : List α}
    (drawn : part.Subperm whole) (once : (whole.map f).Nodup)
    : (part.map f).Nodup := by
  obtain ⟨listed, same, inside⟩ := drawn
  exact (same.map f).nodup_iff.mp ((inside.map f).nodup once)

section Attempt

variable {cfg : FeeSettings} {ctx : SelectionContext} {draws : AttemptDraws}
  {limits : AttemptLimits} {vCoins : List AvailableCoin} {target : Amount}

def eligible (ctx : SelectionContext) (limits : AttemptLimits) (vCoins : List AvailableCoin)
    : List SelectedCoin :=
  (vCoins.filter (limits.admits ctx)).map (·.coin)

def Meets (target nMinChange : Amount) (pool coins : List SelectedCoin) (value : Amount)
    : Prop :=
  coins.Subperm pool ∧ value = coinValue coins
  ∧ (target.toInt ≤ (target + nMinChange).toInt → target.toInt ≤ value.toInt)

theorem eligible_subperm : (eligible ctx limits vCoins).Subperm (vCoins.map (·.coin)) :=
  (filter_sublist.map _).subperm

theorem eligible_shuffle
    : (eligible ctx limits (draws.shuffle vCoins)).Perm (eligible ctx limits vCoins) :=
  ((draws.permutes vCoins).filter _).map _

theorem selectCoinsMinConf_spec {coins : List SelectedCoin} {value : Amount}
    (once : (vCoins.map (·.coin.prevout)).Nodup)
    (ran : selectCoinsMinConf cfg ctx draws limits vCoins target
      = some (coins, value))
    : Meets target cfg.getMinChange (eligible ctx limits vCoins) coins value := by
  -- a selection of usable coins goes into the set as it is
  have settle : ∀ selected : List SelectedCoin,
      selected.Subperm (eligible ctx limits (draws.shuffle vCoins)) →
      (target.toInt ≤ (target + cfg.getMinChange).toInt
        → target.toInt ≤ (coinValue selected).toInt) →
      some (coinSet selected, coinValue selected) = some (coins, value) →
      Meets target cfg.getMinChange (eligible ctx limits vCoins) coins value := by
    intro selected usable reached same
    have drawn := usable.trans eligible_shuffle.subperm
    have distinct : (selected.map (·.prevout)).Nodup := by
      refine nodup_map_of_subperm (drawn.trans eligible_subperm) ?_
      simpa [map_map, comp_def] using once
    rw [coinSet_eq distinct] at same
    cases same
    exact ⟨drawn, rfl, reached⟩
  have scanned := @scanCoins_spec target cfg.getMinChange
    (eligible ctx limits (draws.shuffle vCoins)) [] ⟨[], 0, none⟩
    ⟨rfl, Subperm.refl _, by simp⟩
  rw [nil_append] at scanned
  rw [selectCoinsMinConf, ← eligible] at ran
  revert scanned ran
  cases scanCoins target cfg.getMinChange
      (eligible ctx limits (draws.shuffle vCoins)) ⟨[], 0, none⟩ with
  | inl coin =>
    intro ran scanned
    refine settle [coin] (singleton_subperm_iff.mpr scanned.1) ?_ ran
    rw [coinValue_cons, coinValue_nil, add_zero, scanned.2]
    exact fun _ => le_rfl
  | inr sorted =>
    intro ran scanned
    dsimp only at ran
    split at ran
    · rename_i same
      exact settle sorted.vValue ((sublist_append_left ..).subperm.trans scanned.drawn)
        (fun _ => by rw [← scanned.total, same]) ran
    split at ran
    · split at ran
      · cases ran
      rename_i larger isLarger
      refine settle [larger] (Subperm.trans ?_ scanned.drawn) ?_ ran
      · rw [isLarger]
        exact (sublist_append_right ..).subperm
      · rw [coinValue_cons, coinValue_nil, add_zero]
        exact fun room => room.trans (scanned.larger larger isLarger)
    · rename_i enough
      obtain ⟨drawn, reached⟩ := solveSubset_spec draws scanned (Int.not_lt.mp enough)
      exact settle _ drawn reached ran

theorem firstAttempt_spec {draws coins value limits attempt}
    (once : (vCoins.map (·.coin.prevout)).Nodup)
    (ran : firstAttempt cfg ctx draws vCoins target limits attempt
      = some (coins, value))
    : Meets target cfg.getMinChange (vCoins.map (·.coin)) coins value := by
  induction limits generalizing attempt with
  | nil => cases ran
  | cons first rest ih =>
    rw [firstAttempt] at ran
    split at ran
    · rename_i selected found
      cases ran
      obtain ⟨drawn, met⟩ := selectCoinsMinConf_spec once found
      exact ⟨drawn.trans eligible_subperm, met⟩
    · exact ih ran

end Attempt

-- Selections

def coinTotal (coins : List SelectedCoin) : Int := (coins.map (·.txout.nValue.toInt)).sum

def coinPool (ctx : SelectionContext) (selection : Option CoinSelection)
    (available : AvailableCoins)
    : List SelectedCoin :=
  let setSelected := (selection.map CoinSelection.setSelected).getD []
  if setSelected ≠ [] ∧ selection.any CoinSelection.fAllowOtherInputs = false then
    available.vCoins.map (·.coin)
  else
    (available.vCoins.filter (fun output => decide (output.coin.prevout ∉ setSelected))).map
      (·.coin)
      ++ setSelected.filterMap ctx.mapWallet

/-- Coins of values that are not negative, and whose sum is an amount. -/
structure Funded (coins : List SelectedCoin) : Prop where
  nonneg : ∀ coin ∈ coins, 0 ≤ coin.txout.nValue.toInt
  bounded : coinTotal coins < 2 ^ 63

theorem coinTotal_append (coins more)
    : coinTotal (coins ++ more) = coinTotal coins + coinTotal more := by
  rw [coinTotal, map_append, sum_append, coinTotal, coinTotal]

theorem coinTotal_nonneg {coins} (nonneg : ∀ coin ∈ coins, 0 ≤ coin.txout.nValue.toInt)
    : 0 ≤ coinTotal coins := by
  refine sum_nonneg fun value mem => ?_
  obtain ⟨coin, listed, rfl⟩ := mem_map.mp mem
  exact nonneg coin listed

theorem coinTotal_perm {coins others} (same : coins.Perm others)
    : coinTotal coins = coinTotal others :=
  (same.map _).sum_eq

theorem coinTotal_le {coins pool} (nonneg : ∀ coin ∈ pool, 0 ≤ coin.txout.nValue.toInt)
    (drawn : coins.Subperm pool)
    : coinTotal coins ≤ coinTotal pool := by
  obtain ⟨listed, same, inside⟩ := drawn
  obtain ⟨left, split⟩ := inside.exists_perm_append
  have rest : 0 ≤ coinTotal left := by
    refine coinTotal_nonneg fun coin mem => nonneg coin ?_
    exact split.mem_iff.mpr (mem_append_right _ mem)
  rw [coinTotal_perm split, coinTotal_append, coinTotal_perm same]
  omega

theorem Funded.part {coins pool} (funded : Funded pool) (drawn : coins.Subperm pool)
    : Funded coins :=
  ⟨fun coin mem => funded.nonneg coin (drawn.subset mem),
    (coinTotal_le funded.nonneg drawn).trans_lt funded.bounded⟩

theorem Funded.toInt_coinValue {coins} (funded : Funded coins)
    : (coinValue coins).toInt = coinTotal coins := by
  induction coins with
  | nil => rfl
  | cons coin rest ih =>
    have later := funded.part (sublist_cons_self coin rest).subperm
    have bounded := funded.bounded
    have first := funded.nonneg coin mem_cons_self
    have others := coinTotal_nonneg later.nonneg
    rw [coinTotal, map_cons, sum_cons, ← coinTotal] at bounded ⊢
    rw [coinValue_cons, toInt_add (by rw [Fits, ih later]; omega), ih later]

theorem scanCoins_none {target nMinChange} {coins} {sorted result : SortedCoins}
    (bounded : ∀ coin ∈ coins, coin.txout.nValue.toInt < (BitVec.intMax 64).toInt)
    (ran : scanCoins target nMinChange coins sorted = .inr result)
    (noneLarger : result.coinLowestLarger = none)
    : sorted.coinLowestLarger = none ∧ result.vValue = sorted.vValue ++ coins := by
  induction coins generalizing sorted with
  | nil =>
    cases ran
    exact ⟨noneLarger, (append_nil _).symm⟩
  | cons coin rest ih =>
    rw [forall_mem_cons] at bounded
    rw [scanCoins] at ran
    split at ran
    · cases ran
    split at ran
    · obtain ⟨kept, listed⟩ := ih bounded.2 ran
      exact ⟨kept, by rw [listed, append_assoc, singleton_append]⟩
    split at ran
    · exact absurd (ih bounded.2 ran).1 (by simp)
    rename_i notLower
    have kept := (ih bounded.2 ran).1
    rw [SortedCoins.lowestLarger, kept] at notLower
    exact absurd bounded.1 notLower

/-- `SelectCoinsMinConf` is sound and complete, whatever it draws: it returns different eligible
coins, with their total, which reaches the target, and fails only where all of them do not.
-/
theorem selectCoinsMinConf_exact (cfg : FeeSettings) (ctx : SelectionContext)
    (draws : AttemptDraws) (limits : AttemptLimits) (vCoins : List AvailableCoin)
    (target : Amount) (pos : 0 < target.toInt) (once : (vCoins.map (·.coin.prevout)).Nodup)
    (nonneg : ∀ output ∈ vCoins, 0 ≤ output.coin.txout.nValue.toInt)
    (change : 0 ≤ cfg.getMinChange.toInt)
    (fits : coinTotal (vCoins.map (·.coin)) + target.toInt + cfg.getMinChange.toInt
      < 2 ^ 63)
    : (∀ coins value, selectCoinsMinConf cfg ctx draws limits vCoins target
          = some (coins, value)
        → coins.Subperm (eligible ctx limits vCoins) ∧ (coins.map (·.prevout)).Nodup
          ∧ value.toInt = coinTotal coins ∧ target.toInt ≤ coinTotal coins)
      ∧ (selectCoinsMinConf cfg ctx draws limits vCoins target = none
        → coinTotal (eligible ctx limits vCoins) < target.toInt) := by
  have values : ∀ coin ∈ vCoins.map (·.coin), 0 ≤ coin.txout.nValue.toInt := by
    simpa using nonneg
  have total := coinTotal_nonneg values
  have listed : Funded (vCoins.map (·.coin)) := ⟨values, by omega⟩
  have shuffled := (@eligible_shuffle ctx draws limits vCoins).subperm.trans eligible_subperm
  constructor
  · intro coins value ran
    obtain ⟨drawn, rfl, reached⟩ := selectCoinsMinConf_spec once ran
    have whole := drawn.trans eligible_subperm
    rw [(listed.part whole).toInt_coinValue, toInt_add (by rw [Fits]; omega)] at reached
    exact ⟨drawn, nodup_map_of_subperm whole (by simpa [map_map, comp_def] using once),
      (listed.part whole).toInt_coinValue, reached (by omega)⟩
  · intro failed
    have bounded : ∀ coin ∈ eligible ctx limits (draws.shuffle vCoins),
        coin.txout.nValue.toInt < (BitVec.intMax 64).toInt := by
      intro coin mem
      have alone := coinTotal_le values ((singleton_subperm_iff.mpr mem).trans shuffled)
      have largest : (BitVec.intMax 64).toInt = 2 ^ 63 - 1 := by decide
      simp only [coinTotal, map_cons, map_nil, sum_cons, sum_nil] at alone
      rw [coinTotal] at fits
      omega
    rw [selectCoinsMinConf, ← eligible] at failed
    dsimp only at failed
    split at failed
    · cases failed
    rename_i sorted scanned
    split at failed
    · cases failed
    split at failed
    · rename_i short
      split at failed
      · rename_i noneLarger
        have of := @scanCoins_spec target cfg.getMinChange
          (eligible ctx limits (draws.shuffle vCoins)) [] ⟨[], 0, none⟩
          ⟨rfl, Subperm.refl _, by simp⟩
        rw [scanned] at of
        rw [of.total, (scanCoins_none bounded scanned noneLarger).2, nil_append,
          (listed.part shuffled).toInt_coinValue, coinTotal_perm eligible_shuffle] at short
        exact short
      · cases failed
    · cases failed

namespace SmallCoins

/-- No wallet transactions are known, and no chain is too long. -/
def unlimited : SelectionContext where
  mapWallet _ := none
  located := by simp
  transactionWithinChainLimit _ _ := true
  bSpendZeroConfChange := false
  nMaxChainLength := 25

def noFlips : AttemptDraws := ⟨id, fun _ => .rfl, fun _ _ => false, fun _ _ => false⟩

def changing (minChange : Amount) : FeeSettings :=
  ⟨⟨0⟩, ⟨0⟩, 0, ⟨0⟩, minChange, false, false, false⟩

def coin (nValue : Amount) : SelectedCoin := ⟨⟨1, nValue.setWidth 32⟩, ⟨nValue, []⟩, 6⟩

def vCoins : List AvailableCoin := [3, 4, 8].map (⟨coin ·, true, true⟩)

def select (minChange target : Amount) : Option (List SelectedCoin × Amount) :=
  selectCoinsMinConf (changing minChange) unlimited noFlips ⟨1, 6, 0⟩ vCoins target

/-- Coins of 3, 4 and 8: the best subset for 6, the larger coin where that leaves too little change,
and none for 16.
-/
theorem selectCoinsMinConf_exact_small
    : (select 0 6 = some ([coin 4, coin 3], 7) ∧ [coin 4, coin 3].Subperm ([3, 4, 8].map coin)
        ∧ coinTotal [coin 4, coin 3] = 7)
      ∧ (select 2 6 = some ([coin 8], 8) ∧ [coin 8].Subperm ([3, 4, 8].map coin)
        ∧ coinTotal [coin 8] = 8)
      ∧ select 0 16 = none ∧ coinTotal ([3, 4, 8].map coin) < 16 := by
  have settled (minChange target) := selectCoinsMinConf_exact (changing minChange) unlimited
    noFlips ⟨1, 6, 0⟩ vCoins target
  have order : byValueDescending [coin 3, coin 4] = [coin 4, coin 3] := by
    rw [byValueDescending, mergeSort_of_pairwise (by decide)]
    rfl
  have subset : select 0 6 = some ([coin 4, coin 3], 7) := by
    have best : solveSubset 0 noFlips 6 ⟨[coin 3, coin 4], 7, some (coin 8)⟩
        = [coin 4, coin 3] := by
      rw [solveSubset, order]
      decide +kernel
    exact congrArg (fun coins => some (coinSet coins, coinValue coins)) best
  have larger : select 2 6 = some ([coin 8], 8) := by
    have best : solveSubset 2 noFlips 6 ⟨[coin 3, coin 4], 7, some (coin 8)⟩ = [coin 8] := by
      rw [solveSubset, order]
      decide +kernel
    exact congrArg (fun coins => some (coinSet coins, coinValue coins)) best
  have nothing : select 0 16 = none := by decide +kernel
  obtain ⟨drawn, -, value, -⟩ := (settled 0 6 (by decide) (by decide) (by decide) (by decide)
    (by decide)).1 _ _ subset
  obtain ⟨drawn', -, value', -⟩ := (settled 2 6 (by decide) (by decide) (by decide) (by decide)
    (by decide)).1 _ _ larger
  exact ⟨⟨subset, drawn, value.symm⟩, ⟨larger, drawn', value'.symm⟩, nothing,
    (settled 0 16 (by decide) (by decide) (by decide) (by decide) (by decide)).2 nothing⟩

end SmallCoins

theorem mapM_mapWallet {ctx : SelectionContext} {outpoints}
    {preset : List SelectedCoin} (found : outpoints.mapM ctx.mapWallet = some preset)
    : outpoints.filterMap ctx.mapWallet = preset ∧ preset.map (·.prevout) = outpoints := by
  induction Folds.mapM_eq_some_iff.mp found with
  | nil => exact ⟨rfl, rfl⟩
  | @cons outpoint coin rest coins first later ih =>
    obtain ⟨listed, located⟩ := ih (Folds.mapM_eq_some_iff.mpr later)
    refine ⟨by rw [filterMap_cons, first, listed], ?_⟩
    rw [map_cons, located, ctx.located outpoint coin first]

theorem nodup_unselected_append {available : AvailableCoins} {outpoints preset}
    (located : preset.map (·.prevout) = outpoints) (once : outpoints.Nodup)
    : (((available.vCoins.filter (fun output => decide (output.coin.prevout ∉ outpoints))).map
        (·.coin) ++ preset).map (·.prevout)).Nodup := by
  rw [map_append, located, map_map]
  refine nodup_append.mpr ⟨?_, once, ?_⟩
  · exact (filter_sublist.map _).nodup available.listedOnce
  · intro prevout mem other selected same
    obtain ⟨output, kept, rfl⟩ := mem_map.mp mem
    have located : output.coin.prevout = other := same
    exact of_decide_eq_true (mem_filter.mp kept).2 (located ▸ selected)

theorem selectCoins_spec {cfg : FeeSettings} {ctx : SelectionContext}
    {selection : Option CoinSelection} {available} {draws} {target} {coins} {value}
    (funded : Funded (coinPool ctx selection available)) (change : 0 ≤ cfg.getMinChange.toInt)
    (room : target.toInt + cfg.getMinChange.toInt < 2 ^ 63)
    (ran : selectCoins cfg ctx selection available draws target
      = some (coins, value))
    : coins.Subperm (coinPool ctx selection available)
      ∧ (coins.map (·.prevout)).Nodup ∧ value.toInt = coinTotal coins
      ∧ target.toInt ≤ coinTotal coins := by
  rw [coinPool] at funded ⊢
  rw [selectCoins] at ran
  dsimp only at funded ran ⊢
  split at ran
  · rename_i only
    rw [if_pos only] at funded ⊢
    have drawn : ((available.vCoins.filter (·.fSpendable)).map (·.coin)).Subperm
        (available.vCoins.map (·.coin)) := (filter_sublist.map _).subperm
    have once : (((available.vCoins.filter (·.fSpendable)).map (·.coin)).map (·.prevout)).Nodup :=
      nodup_map_of_subperm drawn (by simpa [map_map, comp_def] using available.listedOnce)
    split at ran
    · rename_i enough
      rw [coinSet_eq once] at ran
      cases ran
      rw [(funded.part drawn).toInt_coinValue] at enough ⊢
      exact ⟨drawn, once, rfl, enough⟩
    · cases ran
  · rename_i others
    rw [if_neg others] at funded ⊢
    split at ran
    · cases ran
    rename_i preset found
    obtain ⟨⟨setCoinsRet, nValueRet⟩, attempted, same⟩ := Option.map_eq_some_iff.mp ran
    obtain ⟨listed, located⟩ := mapM_mapWallet found
    have selectedOnce : ((selection.map CoinSelection.setSelected).getD []).Nodup := by
      cases selection with
      | none => exact nodup_nil
      | some selection => exact selection.selectedOnce
    rw [located] at attempted
    rw [listed] at funded ⊢
    generalize (selection.map CoinSelection.setSelected).getD [] = setSelected at *
    have unselectedOnce := (filter_sublist (p := fun output : AvailableCoin =>
      decide (output.coin.prevout ∉ setSelected))).map (·.coin.prevout) |>.nodup
        available.listedOnce
    have presets := funded.part (sublist_append_right ..).subperm
    have presetTotal := presets.toInt_coinValue
    have presetNonneg := coinTotal_nonneg presets.nonneg
    have presetBounded := presets.bounded
    -- the rest of the target is found among the other coins
    obtain ⟨drawn, rfl, enough⟩ : setCoinsRet.Subperm ((available.vCoins.filter
          (fun output => decide (output.coin.prevout ∉ setSelected))).map (·.coin))
        ∧ nValueRet = coinValue setCoinsRet
        ∧ (Funded setCoinsRet → target.toInt
          ≤ coinTotal setCoinsRet + coinTotal preset) := by
      split at attempted
      · rename_i covered
        cases attempted
        rw [presetTotal] at covered
        exact ⟨nil_subperm, rfl, fun _ => by simpa [coinTotal] using covered⟩
      · rename_i short
        rw [presetTotal] at short
        obtain ⟨drawn, value, reached⟩ := firstAttempt_spec unselectedOnce attempted
        have rest : (target - coinValue preset).toInt
            = target.toInt - coinTotal preset := by
          rw [toInt_sub (by rw [Fits, presetTotal]; omega), presetTotal]
        refine ⟨drawn, value, fun part => ?_⟩
        rw [toInt_add (by rw [Fits, rest]; omega), rest, value, part.toInt_coinValue] at reached
        have met := reached (by omega)
        omega
    have whole := (subperm_append_right preset).mpr drawn
    have once := nodup_map_of_subperm whole (nodup_unselected_append located selectedOnce)
    rw [coinSet_eq once, ← coinValue_append] at same
    cases same
    refine ⟨whole, once, (funded.part whole).toInt_coinValue, ?_⟩
    rw [coinTotal_append]
    exact enough (funded.part ((sublist_append_left ..).subperm.trans whole))

end Pqcoin
