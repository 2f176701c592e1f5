import Pqcoin.Chain.BlockIndex
import Pqcoin.Lib.Search

/-! `CWallet::AbandonTransaction`: which transactions of a wallet it marks, and when these are
all that depend on the abandoned one. A failed assertion is `none`.
-/

namespace Pqcoin

open List Search

-- Wallet transactions

/-- `CMerkleTx`: a transaction and the block that it is in, or that it conflicts with. -/
structure MerkleTx where
  tx : Transaction
  hashBlock : Uint256
  nIndex : Int
  deriving DecidableEq

namespace MerkleTx

def ABANDON_HASH : Uint256 := 1

def hashUnset (wtx : MerkleTx) : Bool := wtx.hashBlock == 0 || wtx.hashBlock == ABANDON_HASH

def isAbandoned (wtx : MerkleTx) : Bool := wtx.hashBlock == ABANDON_HASH

/-- What `AbandonTransaction` writes into a transaction. -/
def setAbandoned (wtx : MerkleTx) : MerkleTx := ⟨wtx.tx, ABANDON_HASH, -1⟩

@[simp] theorem isAbandoned_setAbandoned (wtx : MerkleTx)
    : wtx.setAbandoned.isAbandoned = true := rfl

end MerkleTx

/-- What the wallet asks of the node: the block index, the active chain, the memory pool. -/
structure WalletChain where
  mapBlockIndex : Uint256 → Option BlockIndex
  tip : BlockIndex
  inMempool : Uint256 → Bool

def WalletChain.getDepthInMainChain (chain : WalletChain) (wtx : MerkleTx) : Int :=
  if wtx.hashUnset then 0
  else
    match chain.mapBlockIndex wtx.hashBlock with
    | none => 0
    | some pindex =>
      if chain.tip.ancestor pindex.nHeight = some pindex then
        (if wtx.nIndex = -1 then -1 else 1) * (chain.tip.nHeight - pindex.nHeight + 1)
      else 0

-- The spends of a wallet

/-- A transaction of the wallet that spends an outpoint; coinbases spend none. -/
def SpendsOutPoint (mapWallet : Uint256 → Option MerkleTx) (out : OutPoint) (txid : Uint256)
    : Prop :=
  ∃ wtx, mapWallet txid = some wtx ∧ wtx.tx.isCoinBase = false
    ∧ ∃ txin ∈ wtx.tx.vin, txin.prevout = out

/-- The part of `CWallet` that is about transactions: `mapTxSpends` is a multimap with the
outpoints that they spend.
-/
structure SpendWallet where
  mapWallet : Uint256 → Option MerkleTx
  mapTxSpends : List (OutPoint × Uint256)
  ordered : mapTxSpends.Pairwise (fun first second => second.1.before first.1 = false)
  exact
    : ∀ out txid, (out, txid) ∈ mapTxSpends ↔ SpendsOutPoint mapWallet out txid

namespace SpendWallet

def Spends (wallet : SpendWallet) (parent child : Uint256) : Prop :=
  ∃ out, out.hash = parent ∧ SpendsOutPoint wallet.mapWallet out child

/-- It does so directly, or through a chain of wallet transactions. -/
def Descends (wallet : SpendWallet) : Uint256 → Uint256 → Prop :=
  Relation.TransGen wallet.Spends

def mark (wallet : SpendWallet) (txid : Uint256) : SpendWallet where
  mapWallet other :=
    if other = txid then (wallet.mapWallet other).map MerkleTx.setAbandoned
    else wallet.mapWallet other
  mapTxSpends := wallet.mapTxSpends
  ordered := wallet.ordered
  exact out other := by
    rw [wallet.exact, SpendsOutPoint, SpendsOutPoint]
    split
    · cases wallet.mapWallet other with
      | none => simp
      | some wtx => simp [MerkleTx.setAbandoned]
    · rfl

/-- The spenders from `mapTxSpends.lower_bound(COutPoint(start, 0))` on, as long as the hash is
that of `now`.
-/
def spendersFrom (wallet : SpendWallet) (start now : Uint256) : List Uint256 :=
  ((wallet.mapTxSpends.dropWhile (fun spend => spend.1.before ⟨start, 0⟩)).takeWhile
    (fun spend => spend.1.hash == now)).map Prod.snd

-- AbandonTransaction

/-- A round of the loop of `AbandonTransaction`: the wallet afterwards, and the transactions
that it finds. The range of spends starts at the hash of the call, not at the one of the round.
-/
def abandonStep (chain : WalletChain) (hashTx now : Uint256) (wallet : SpendWallet)
    : Option (SpendWallet × List Uint256) :=
  match wallet.mapWallet now with
  | none => none
  | some wtx =>
    let currentconfirm := chain.getDepthInMainChain wtx
    if 0 < currentconfirm then none
    else if currentconfirm = 0 ∧ wtx.isAbandoned = false then
      if chain.inMempool now then none
      else some (wallet.mark now, wallet.spendersFrom hashTx now)
    else some (wallet, [])

def abandonLoop (chain : WalletChain) (hashTx : Uint256)
    : Nat → List Uint256 → List Uint256 → SpendWallet → Option SpendWallet
  | _, [], _, wallet => some wallet
  | 0, _ :: _, _, _ => none
  | fuel + 1, now :: todo, done, wallet =>
    let done := insertKey hashRank now done
    match wallet.abandonStep chain hashTx now with
    | none => none
    | some (wallet, found) =>
      abandonLoop chain hashTx fuel (stage hashRank done found todo) done wallet

@[simp] theorem abandonLoop_nil (chain hashTx fuel done wallet)
    : abandonLoop chain hashTx fuel [] done wallet = some wallet := by
  cases fuel <;> rfl

def abandonTransaction (chain : WalletChain) (hashTx : Uint256) (wallet : SpendWallet)
    : Option (Bool × SpendWallet) :=
  match wallet.mapWallet hashTx with
  | none => none
  | some origtx =>
    if 0 < chain.getDepthInMainChain origtx ∨ chain.inMempool hashTx then some (false, wallet)
    else
      (abandonLoop chain hashTx (wallet.mapTxSpends.length + 1) [hashTx] [] wallet).map
        (fun after => (true, after))

-- Ranges of spends

variable {chain : WalletChain} {wallet after : SpendWallet} {hashTx now start txid : Uint256}

theorem before_start (out : OutPoint)
    : out.before ⟨start, 0⟩ = decide (hashRank out.hash < hashRank start) := by
  simp [OutPoint.before]

theorem rank_ordered (wallet : SpendWallet)
    : wallet.mapTxSpends.Pairwise
        (fun first second => hashRank first.1.hash ≤ hashRank second.1.hash) := by
  refine wallet.ordered.imp fun {first second} inOrder => ?_
  rw [OutPoint.before, Bool.or_eq_false_iff] at inOrder
  simpa using inOrder.1

theorem lowerBound_eq (wallet : SpendWallet) (start)
    : wallet.mapTxSpends.dropWhile (fun spend => spend.1.before ⟨start, 0⟩)
      = wallet.mapTxSpends.filter (fun spend =>
        decide (hashRank start ≤ hashRank spend.1.hash)) := by
  rw [dropWhile_eq_filter]
  · refine filter_congr fun spend _ => ?_
    rw [before_start, ← decide_not, decide_eq_decide, not_lt]
  · refine (rank_ordered wallet).imp fun {first second} inOrder => ?_
    rw [before_start, before_start, decide_eq_true_eq, decide_eq_true_eq]
    omega

theorem mem_spendersFrom_self : txid ∈ wallet.spendersFrom start start
    ↔ wallet.Spends start txid := by
  rw [spendersFrom, lowerBound_eq, takeWhile_eq_filter]
  · simp only [mem_map, mem_filter, decide_eq_true_eq, beq_iff_eq]
    constructor
    · rintro ⟨⟨out, spender⟩, ⟨⟨mem, -⟩, same⟩, rfl⟩
      exact ⟨out, same, (wallet.exact out spender).mp mem⟩
    · rintro ⟨out, rfl, spends⟩
      exact ⟨(out, txid), ⟨⟨(wallet.exact out txid).mpr spends, le_refl _⟩, rfl⟩, rfl⟩
  · refine (pairwise_filter.mpr ((rank_ordered wallet).imp ?_))
    intro first second inOrder above _ same
    rw [decide_eq_true_eq] at above
    rw [beq_iff_eq] at same ⊢
    rw [same] at inOrder
    exact hashRank_injective (le_antisymm inOrder above)

/-- A range that starts at the spends of another hash is empty. -/
theorem spendersFrom_other (spent : wallet.Spends start txid) (other : now ≠ start)
    : wallet.spendersFrom start now = [] := by
  obtain ⟨out, rfl, spends⟩ := spent
  have listed := (wallet.exact out txid).mpr spends
  rw [spendersFrom, lowerBound_eq, map_eq_nil_iff]
  let above (spend : OutPoint × Uint256) := decide (hashRank out.hash ≤ hashRank spend.1.hash)
  have ordered := (rank_ordered wallet).filter above
  have mem : (out, txid) ∈ wallet.mapTxSpends.filter above :=
    mem_filter.mpr ⟨listed, by simp [above]⟩
  cases range : wallet.mapTxSpends.filter above with
  | nil => rfl
  | cons first rest =>
    -- the first spend is not above the one of the hash, so it has the same hash
    rw [range] at ordered mem
    have inside : first ∈ wallet.mapTxSpends.filter above := range ▸ .head _
    have least : hashRank first.1.hash ≤ hashRank out.hash := by
      rcases mem_cons.mp mem with same | later
      · rw [← same]
      · exact (pairwise_cons.mp ordered).1 _ later
    have same : first.1.hash = out.hash :=
      hashRank_injective (le_antisymm least (by simpa [above] using (mem_filter.mp inside).2))
    rw [takeWhile_cons_of_neg]
    rw [beq_iff_eq, same]
    exact other.symm

def spenders (wallet : SpendWallet) (hashTx : Uint256) : List Uint256 :=
  stage hashRank (insertKey hashRank hashTx []) (wallet.spendersFrom hashTx hashTx) []

theorem mem_spenders : now ∈ wallet.spenders hashTx ↔ wallet.Spends hashTx now ∧ now ≠ hashTx := by
  rw [spenders, (stage_spec _ _ _ _).1, mem_spendersFrom_self, mem_insertKey]
  simp

theorem nodup_spenders : (wallet.spenders hashTx).Nodup := (stage_spec _ _ _ _).2 nodup_nil

theorem length_spenders (wallet : SpendWallet) (hashTx)
    : (wallet.spenders hashTx).length ≤ wallet.mapTxSpends.length := by
  have inside : wallet.spenders hashTx ⊆ wallet.spendersFrom hashTx hashTx := fun now mem =>
    mem_spendersFrom_self.mpr (mem_spenders.mp mem).1
  have spends : (wallet.spendersFrom hashTx hashTx).length ≤ wallet.mapTxSpends.length := by
    rw [spendersFrom, length_map]
    exact ((takeWhile_sublist _).trans (dropWhile_sublist _)).length_le
  exact (subperm_of_subset nodup_spenders inside).length_le.trans spends

/-- Behind the first round, every range is empty. -/
theorem spendersFrom_spender (mem : now ∈ wallet.spenders hashTx)
    : wallet.spendersFrom hashTx now = [] :=
  spendersFrom_other (mem_spenders.mp mem).1 (mem_spenders.mp mem).2

-- What is marked

/-- A transaction of the wallet at depth zero that is not abandoned. -/
def Live (wallet : SpendWallet) (chain : WalletChain) (txid : Uint256) : Prop :=
  ∃ wtx, wallet.mapWallet txid = some wtx ∧ chain.getDepthInMainChain wtx = 0
    ∧ wtx.isAbandoned = false

def Abandoned (wallet : SpendWallet) (txid : Uint256) : Prop :=
  ∃ wtx, wallet.mapWallet txid = some wtx ∧ wtx.isAbandoned = true

theorem abandoned_mark (live : wallet.Live chain now)
    : (wallet.mark now).Abandoned txid ↔ wallet.Abandoned txid ∨ txid = now := by
  rw [Abandoned, Abandoned, mark]
  dsimp only
  split
  · rename_i same
    obtain ⟨wtx, found, -⟩ := live
    simp [same, found]
  · rename_i other
    simp [other]

theorem live_mark_of_ne (other : txid ≠ now)
    : (wallet.mark now).Live chain txid ↔ wallet.Live chain txid := by
  rw [Live, Live, mark]
  simp only [if_neg other]

/-- A round marks a live transaction and finds a range of spends, or does nothing. -/
theorem abandonStep_ok {found} (step : wallet.abandonStep chain hashTx now = some (after, found))
    : (wallet.Live chain now ∧ after = wallet.mark now ∧ found = wallet.spendersFrom hashTx now)
      ∨ (¬ wallet.Live chain now ∧ after = wallet ∧ found = []) := by
  rw [abandonStep] at step
  cases known : wallet.mapWallet now with
  | none =>
    rw [known] at step
    cases step
  | some wtx =>
    rw [known] at step
    dsimp only at step
    split at step
    · cases step
    split at step
    · rename_i live
      split at step
      · cases step
      cases step
      exact .inl ⟨⟨wtx, known, live⟩, rfl, rfl⟩
    · rename_i notLive
      cases step
      refine .inr ⟨?_, rfl, rfl⟩
      rintro ⟨other, found, live⟩
      obtain rfl : wtx = other := Option.some.inj (known.symm.trans found)
      exact notLive live

theorem abandonLoop_cons {fuel todo done}
    (ran : abandonLoop chain hashTx (fuel + 1) (now :: todo) done wallet = some after)
    : ∃ middle found, ((wallet.Live chain now ∧ middle = wallet.mark now
          ∧ found = wallet.spendersFrom hashTx now)
        ∨ (¬ wallet.Live chain now ∧ middle = wallet ∧ found = []))
      ∧ abandonLoop chain hashTx fuel (stage hashRank (insertKey hashRank now done) found todo)
          (insertKey hashRank now done) middle = some after := by
  simp only [abandonLoop] at ran
  split at ran
  · cases ran
  · rename_i middle found step
    exact ⟨middle, found, abandonStep_ok step, ran⟩

/-- Rounds whose ranges of spends are empty mark the live ones of their transactions, by
induction on the rounds.
-/
theorem abandonLoop_childless {fuel} {todo done} (unique : todo.Nodup)
    (childless : ∀ now ∈ todo, wallet.spendersFrom hashTx now = [])
    (ran : abandonLoop chain hashTx fuel todo done wallet = some after)
    : after.Abandoned txid ↔ wallet.Abandoned txid ∨ (txid ∈ todo ∧ wallet.Live chain txid) := by
  induction fuel generalizing todo done wallet with
  | zero =>
    cases todo with
    | nil =>
      cases ran
      simp
    | cons now todo => cases ran
  | succ fuel ih =>
    cases todo with
    | nil =>
      cases ran
      simp
    | cons now todo =>
      obtain ⟨fresh, rest⟩ := nodup_cons.mp unique
      rw [forall_mem_cons] at childless
      obtain ⟨middle, found, ⟨live, rfl, rfl⟩ | ⟨notLive, rfl, rfl⟩, ran⟩ := abandonLoop_cons ran
      · have later : ∀ other ∈ todo, (wallet.mark now).spendersFrom hashTx other = [] :=
          childless.2
        rw [childless.1] at ran
        rw [ih rest later ran, abandoned_mark live, mem_cons]
        by_cases here : txid = now
        · subst txid
          simp [live]
        · simp [here, live_mark_of_ne here]
      · rw [ih rest childless.2 ran, mem_cons]
        by_cases here : txid = now
        · subst txid
          simp [notLive, fresh]
        · simp [here]

/-- A transaction that abandoning does not stop at: it is not confirmed, nor live in the pool. -/
def Idle (wallet : SpendWallet) (chain : WalletChain) (txid : Uint256) : Prop :=
  (∃ wtx, wallet.mapWallet txid = some wtx ∧ chain.getDepthInMainChain wtx ≤ 0)
  ∧ (wallet.Live chain txid → chain.inMempool txid = false)

theorem Idle.mark (idle : wallet.Idle chain txid) (other : txid ≠ now)
    : (wallet.mark now).Idle chain txid := by
  rw [Idle, live_mark_of_ne other, SpendWallet.mark]
  simp only [if_neg other]
  exact idle

theorem Idle.abandonStep (idle : wallet.Idle chain now) (hashTx)
    : ∃ after found, wallet.abandonStep chain hashTx now = some (after, found) := by
  obtain ⟨⟨wtx, known, depth⟩, outside⟩ := idle
  simp only [SpendWallet.abandonStep, known, if_neg (not_lt.mpr depth)]
  split
  · rename_i live
    rw [outside ⟨wtx, known, live⟩]
    exact ⟨_, _, rfl⟩
  · exact ⟨_, _, rfl⟩

/-- Rounds whose ranges of spends are empty come to an end. -/
theorem abandonLoop_returns {fuel} {todo done} (unique : todo.Nodup)
    (enough : todo.length ≤ fuel) (childless : ∀ now ∈ todo, wallet.spendersFrom hashTx now = [])
    (idle : ∀ now ∈ todo, wallet.Idle chain now)
    : ∃ after, abandonLoop chain hashTx fuel todo done wallet = some after := by
  induction fuel generalizing todo done wallet with
  | zero =>
    obtain rfl := length_eq_zero_iff.mp (Nat.le_zero.mp enough)
    exact ⟨wallet, rfl⟩
  | succ fuel ih =>
    cases todo with
    | nil => exact ⟨wallet, rfl⟩
    | cons now todo =>
      obtain ⟨fresh, rest⟩ := nodup_cons.mp unique
      rw [forall_mem_cons] at childless idle
      have shorter : todo.length ≤ fuel := by simpa using enough
      obtain ⟨middle, found, step⟩ := idle.1.abandonStep hashTx
      rw [abandonLoop, step]
      rcases abandonStep_ok step with ⟨-, rfl, rfl⟩ | ⟨-, rfl, rfl⟩
      · rw [childless.1]
        exact ih rest shorter childless.2 fun other mem =>
          (idle.2 other mem).mark fun same => fresh (same ▸ mem)
      · exact ih rest shorter childless.2 idle.2

theorem abandoned_abandonTransaction
    (ran : wallet.abandonTransaction chain hashTx = some (true, after))
    : after.Abandoned txid
      ↔ wallet.Abandoned txid
        ∨ (wallet.Live chain hashTx ∧ wallet.Live chain txid
          ∧ (txid = hashTx ∨ wallet.Spends hashTx txid)) := by
  rw [abandonTransaction] at ran
  split at ran
  · cases ran
  split at ran
  · cases ran
  simp only [Option.map_eq_some_iff, Prod.mk.injEq, true_and, exists_eq_right] at ran
  obtain ⟨middle, found, ⟨live, rfl, rfl⟩ | ⟨notLive, rfl, rfl⟩, ran⟩ := abandonLoop_cons ran
  · have childless : ∀ now ∈ wallet.spenders hashTx,
        (wallet.mark hashTx).spendersFrom hashTx now = [] := fun now => spendersFrom_spender
    rw [abandonLoop_childless nodup_spenders childless ran, abandoned_mark live, mem_spenders]
    by_cases here : txid = hashTx
    · subst txid
      simp [live]
    · simp [here, live, live_mark_of_ne here, and_comm]
  · rw [stage, foldl_nil, abandonLoop_nil] at ran
    cases ran
    simp [notLive]

/-- Abandoning returns true if the transaction and those that spend it are in the wallet, out of the
mempool and in no block.
-/
theorem abandonTransaction_returns (idle : wallet.Idle chain hashTx)
    (absent : chain.inMempool hashTx = false)
    (spenders : ∀ now, wallet.Spends hashTx now → wallet.Idle chain now)
    : ∃ after, wallet.abandonTransaction chain hashTx = some (true, after) := by
  obtain ⟨wtx, known, depth⟩ := idle.1
  obtain ⟨middle, found, step⟩ := idle.abandonStep hashTx
  rw [abandonTransaction, known]
  dsimp only
  rw [if_neg (by simp [not_lt.mpr depth, absent]), abandonLoop, step]
  rcases abandonStep_ok step with ⟨-, rfl, rfl⟩ | ⟨-, rfl, rfl⟩
  · obtain ⟨after, ran⟩ := @abandonLoop_returns chain (wallet.mark hashTx) hashTx
      wallet.mapTxSpends.length (wallet.spenders hashTx) (insertKey hashRank hashTx [])
      nodup_spenders (length_spenders wallet hashTx) (fun now => spendersFrom_spender)
      fun now mem => (spenders now (mem_spenders.mp mem).1).mark (mem_spenders.mp mem).2
    exact ⟨after, Option.map_eq_some_iff.mpr ⟨after, ran, rfl⟩⟩
  · exact ⟨middle, by simp [stage]⟩

/-- Abandoning marks what depends on the abandoned transaction, and nothing else, exactly if every
live transaction that depends on it spends it directly, and it is live itself.
-/
theorem abandon_transitive_iff (chain : WalletChain) (wallet after : SpendWallet)
    (hashTx : Uint256) (ran : wallet.abandonTransaction chain hashTx = some (true, after))
    : ((∀ txid wtx, wallet.mapWallet txid = some wtx → chain.getDepthInMainChain wtx = 0
          → wallet.Descends hashTx txid → after.Abandoned txid)
        ∧ ∀ txid, after.Abandoned txid → ¬ wallet.Abandoned txid
          → wallet.Live chain txid ∧ (txid = hashTx ∨ wallet.Descends hashTx txid))
      ↔ ∀ txid, wallet.Live chain txid → wallet.Descends hashTx txid
          → wallet.Live chain hashTx ∧ (txid = hashTx ∨ wallet.Spends hashTx txid) := by
  constructor
  · rintro ⟨marked, -⟩ txid ⟨wtx, known, depth, notYet⟩ descends
    rcases (abandoned_abandonTransaction ran).mp (marked txid wtx known depth descends) with
      ⟨other, found, already⟩ | ⟨live, -, direct⟩
    · obtain rfl : wtx = other := Option.some.inj (known.symm.trans found)
      exact absurd (notYet.symm.trans already) (by decide)
    · exact ⟨live, direct⟩
  · intro direct
    constructor
    · intro txid wtx known depth descends
      refine (abandoned_abandonTransaction ran).mpr ?_
      cases already : wtx.isAbandoned with
      | true => exact .inl ⟨wtx, known, already⟩
      | false =>
        have live : wallet.Live chain txid := ⟨wtx, known, depth, already⟩
        obtain ⟨root, near⟩ := direct txid live descends
        exact .inr ⟨root, live, near⟩
    · intro txid now before
      rcases (abandoned_abandonTransaction ran).mp now with already | ⟨-, live, near⟩
      · exact absurd already before
      · exact ⟨live, near.imp_right .single⟩

-- A line of transactions

def unconfirmedTx (parent : Uint256) : MerkleTx := ⟨⟨1, [⟨⟨parent, 0⟩, [], 0, []⟩], [], 0⟩, 0, -1⟩

theorem spendsOutPoint_unconfirmedTx {mapWallet} {parent}
    (known : mapWallet txid = some (unconfirmedTx parent)) (out)
    : SpendsOutPoint mapWallet out txid ↔ out = ⟨parent, 0⟩ := by
  constructor
  · rintro ⟨wtx, found, -, txin, mem, rfl⟩
    obtain rfl := Option.some.inj (known.symm.trans found)
    rw [mem_singleton.mp mem]
  · rintro rfl
    refine ⟨_, known, ?_, _, mem_singleton.mpr rfl, rfl⟩
    simp [unconfirmedTx, Transaction.isCoinBase, OutPoint.isNull]

/-- The transactions of a line, each with the one it spends; the first is outside. -/
def line : List (Uint256 × Uint256) := [(1, 2), (2, 3), (3, 4)]

def lineWallet : SpendWallet where
  mapWallet txid :=
    if txid = 2 then some (unconfirmedTx 1)
    else if txid = 3 then some (unconfirmedTx 2)
    else if txid = 4 then some (unconfirmedTx 3)
    else none
  mapTxSpends := line.map (fun link => (⟨link.1, 0⟩, link.2))
  ordered := by decide +kernel
  exact out txid := by
    by_cases first : txid = 2
    · rw [spendsOutPoint_unconfirmedTx (if_pos first)]
      simp [line, first]
    by_cases second : txid = 3
    · rw [spendsOutPoint_unconfirmedTx (by rw [if_neg first, if_pos second])]
      simp [line, second]
    by_cases third : txid = 4
    · rw [spendsOutPoint_unconfirmedTx (by rw [if_neg first, if_neg second, if_pos third])]
      simp [line, third]
    rw [SpendsOutPoint, if_neg first, if_neg second, if_neg third]
    refine ⟨fun listed => ?_, fun ⟨wtx, found, _⟩ => absurd found (by simp)⟩
    obtain ⟨link, mem, same⟩ := mem_map.mp listed
    have spender : link.2 = txid := congrArg Prod.snd same
    simp only [line, mem_cons, not_mem_nil, or_false] at mem
    rcases mem with rfl | rfl | rfl
    · exact absurd spender.symm first
    · exact absurd spender.symm second
    · exact absurd spender.symm third

def quietChain : WalletChain where
  mapBlockIndex _ := none
  tip := .root 0 ⟨0, 0, 0, 0, 0, 0⟩
  inMempool _ := false

theorem spends_lineWallet {parent child}
    : lineWallet.Spends parent child ↔ (parent, child) ∈ line := by
  rw [Spends]
  simp only [← lineWallet.exact]
  constructor
  · rintro ⟨out, rfl, listed⟩
    obtain ⟨link, mem, same⟩ := mem_map.mp listed
    cases same
    exact mem
  · intro mem
    exact ⟨⟨parent, 0⟩, rfl, mem_map.mpr ⟨(parent, child), mem, rfl⟩⟩

/-- Abandoning the last but one marks the last. -/
theorem abandon_transitive_iff_last
    : ∃ after, lineWallet.abandonTransaction quietChain 3 = some (true, after)
        ∧ (∀ txid wtx, lineWallet.mapWallet txid = some wtx
            → quietChain.getDepthInMainChain wtx = 0
            → lineWallet.Descends 3 txid → after.Abandoned txid)
        ∧ ∀ txid, after.Abandoned txid → ¬ lineWallet.Abandoned txid
            → lineWallet.Live quietChain txid ∧ (txid = 3 ∨ lineWallet.Descends 3 txid) := by
  have returns : ((lineWallet.abandonTransaction quietChain 3).map Prod.fst) = some true := by
    decide +kernel
  obtain ⟨⟨result, after⟩, ran, rfl⟩ := Option.map_eq_some_iff.mp returns
  refine ⟨after, ran, (abandon_transitive_iff quietChain lineWallet after 3 ran).mpr ?_⟩
  intro txid live descends
  refine ⟨⟨unconfirmedTx 2, rfl, rfl, rfl⟩, .inr ?_⟩
  rcases Relation.TransGen.head'_iff.mp descends with ⟨middle, first, rest⟩
  obtain rfl : middle = 4 := by simpa [line] using spends_lineWallet.mp first
  rcases Relation.ReflTransGen.cases_head rest with rfl | ⟨next, step, -⟩
  · exact first
  · exact absurd (spends_lineWallet.mp step) (by simp [line])

/-- Abandoning the last but one returns. -/
theorem abandonTransaction_returns_last
    : ∃ after, lineWallet.abandonTransaction quietChain 3 = some (true, after) := by
  refine abandonTransaction_returns ⟨⟨_, rfl, le_rfl⟩, fun _ => rfl⟩ rfl fun now spends => ?_
  obtain rfl : now = 4 := by simpa [line] using spends_lineWallet.mp spends
  exact ⟨⟨_, rfl, le_rfl⟩, fun _ => rfl⟩

/-- Abandoning the first one leaves the last as it was. -/
theorem grandchild_not_abandoned
    : lineWallet.Live quietChain 4 ∧ lineWallet.Descends 2 4
      ∧ ∃ after, lineWallet.abandonTransaction quietChain 2 = some (true, after)
          ∧ ¬ after.Abandoned 4 := by
  refine ⟨⟨unconfirmedTx 3, rfl, rfl, rfl⟩, ?_, ?_⟩
  · have first : lineWallet.Spends 2 3 := spends_lineWallet.mpr (by decide)
    exact .tail (.single first) (spends_lineWallet.mpr (by decide))
  · have returns : ((lineWallet.abandonTransaction quietChain 2).map Prod.fst) = some true := by
      decide +kernel
    obtain ⟨⟨result, after⟩, ran, rfl⟩ := Option.map_eq_some_iff.mp returns
    refine ⟨after, ran, ?_⟩
    rw [abandoned_abandonTransaction ran]
    rintro (⟨wtx, found, already⟩ | ⟨-, -, same | spends⟩)
    · cases found
      cases already
    · exact absurd same (by decide)
    · exact absurd (spends_lineWallet.mp spends) (by decide)

end SpendWallet

end Pqcoin
