import Pqcoin.Wallet.CreateTransaction
import Pqcoin.Wallet.Encryption

/-! The fee that `CreateTransaction` estimates from placeholders, against the size of the
transaction that it returns signed.
-/

namespace Pqcoin

open Option Script

-- Transactions with inputs are larger than estimated

/-- The estimate for `dummy` covers the signed transaction: it is at least as large, and every
call of `CreateTransaction` that returns the signed transaction pays the relay fee of its
size, unless the rate was overridden or the fee has reached the maximum.
-/
structure FeeEstimateCovers (S : SignatureScheme) (D : Digests) (C : Cipher)
    (store : SigningStore) (dummy real : Transaction)
    : Prop where
  size : real.getVirtualTransactionSize ≤ dummy.getVirtualTransactionSize
  pays : ∀ cfg req env fuel created,
    createTransaction S D C store cfg req env true fuel = some (.ok created)
    → created.tx = real
    → (∀ coinControl ∈ req.coinControl, coinControl.fOverrideFeeRate = false)
    → created.nFeeRet.toInt < cfg.maxTxFee.toInt
    → (cfg.minRelayTxFeeRate.getFee real.getVirtualTransactionSize).toInt
      ≤ created.nFeeRet.toInt

theorem virtualSize_pos (tx : Transaction) : 0 < tx.getVirtualTransactionSize := by
  have weight := tx.getTransactionWeight_eq
  rw [Transaction.getVirtualTransactionSize]
  omega

section Estimate

variable {S : SignatureScheme} {D : Digests} {C : Cipher} {store : SigningStore}

theorem pays_of_no_inputs {cfg} {req} {env} {fuel} {created}
    (ran : createTransaction S D C store cfg req env true fuel = some (.ok created))
    (none : created.tx.vin = [])
    : (cfg.minRelayTxFeeRate.getFee created.tx.getVirtualTransactionSize).toInt
      ≤ created.nFeeRet.toInt := by
  obtain ⟨built, dummy, ⟨aligned, ⟨memory, placed⟩, paid⟩, signed, light, fee⟩ :=
    estimated_of_createTransaction ran
  have inputs : built.txNew.vin = [] := by
    obtain ⟨dummyVin, realVin, -, same, grown, length⟩ := grown_of_signTx aligned placed signed
    rw [same] at none
    exact List.eq_nil_of_length_eq_zero
      (by rw [← length, grown.length_eq]; exact congrArg List.length none)
  obtain ⟨rfl, unsigned⟩ := eq_of_no_inputs aligned inputs placed signed
  have small : built.txNew.getVirtualTransactionSize % 2 ^ 32
      = built.txNew.getVirtualTransactionSize := by
    rw [unsigned, MAX_STANDARD_TX_WEIGHT] at light
    rw [Transaction.getVirtualTransactionSize]
    omega
  rw [small] at paid
  rw [fee, unsigned]
  exact paid (virtualSize_pos _)

/-- The estimate covers a transaction that the wallet can sign exactly when it has no inputs. -/
theorem feeEstimateCovers_iff {choices : Nat → SigningChoices}
    {dummyMemory memory : Nat → Nat → Nat → PubKey} {tx dummy real : Transaction}
    {coins : List TxOut} (aligned : coins.length = tx.vin.length)
    (placed : dummySignTx D store dummyMemory tx coins = some dummy)
    (signed : signTx S D C store choices memory tx coins = some real)
    : FeeEstimateCovers S D C store dummy real ↔ tx.vin = [] := by
  constructor
  · intro covers
    by_contra inputs
    exact absurd covers.size
      (Nat.not_le_of_lt (virtualSize_lt_of_signTx aligned placed signed inputs))
  · intro none
    obtain ⟨rfl, rfl⟩ := eq_of_no_inputs aligned none placed signed
    refine ⟨Nat.le_refl _, ?_⟩
    intro cfg req env fuel created ran same _ _
    subst same
    exact pays_of_no_inputs ran none

end Estimate

-- A wallet with one coin

def PubKey.outputScript (D : Digests) (pubkey : PubKey) : Script :=
  getScriptForDestination (.keyID (pubkey.getID D))

namespace OneCoin

def store : SigningStore := ⟨KeyStore.oneKey KeyStore.onesKey, fun _ => none⟩

def script : Script := KeyStore.onesKey.cachedPubKey.outputScript zeroDigests

def coin : SelectedCoin := ⟨⟨1, 0⟩, ⟨1000000000, script⟩, 6⟩

/-- The default settings, but for a user who pays the rate that is relayed. -/
def cfg : FeeSettings where
  minTxFee := ⟨100000⟩
  payTxFee := ⟨100000⟩
  maxTxFee := 10000000000
  minRelayTxFeeRate := ⟨100000⟩
  discardThreshold := 1000000
  fWalletRbf := false
  fSendFreeTransactions := false
  walletRejectLongChains := false

def req : CreateRequest := ⟨[⟨script, 1000000000, true⟩], NO_CHANGE, none⟩

def memory (_ _ _ : Nat) : PubKey := PubKey.filled 0

def env : CreateEnvironment where
  nLockTime := 0
  passes _ := ⟨fun _ => some ([coin], 1000000000), none, 0, false, memory⟩
  choices _ := ⟨fun _ => [], fun _ => PubKey.filled 0⟩
  memory := memory
  tooLongChain _ := false

def unsigned (nFee : Amount) : Transaction :=
  ⟨CURRENT_VERSION, [coin.toTxIn false], [⟨1000000000 - nFee, script⟩], 0⟩

theorem createTransaction_eq {real}
    (signed : signTx oneKeyScheme zeroDigests plainCipher store env.choices env.memory
      (unsigned 211600) [coin.txout] = some real)
    (size : real.getVirtualTransactionSize = 5340)
    : createTransaction oneKeyScheme zeroDigests plainCipher store cfg req env true 2
      = some (.ok ⟨real, 211600, NO_CHANGE⟩) := by
  have light : real.getTransactionWeight < MAX_STANDARD_TX_WEIGHT := by
    rw [Transaction.getVirtualTransactionSize] at size
    rw [MAX_STANDARD_TX_WEIGHT]
    omega
  have finished : finishTransaction oneKeyScheme zeroDigests plainCipher store cfg env true
      ⟨unsigned 211600, [coin], 211600, NO_CHANGE⟩ = .ok real := by
    have unlimited : cfg.walletRejectLongChains = false := rfl
    simp only [finishTransaction, if_true, List.map_cons, List.map_nil, signed,
      if_neg (Nat.not_le_of_lt light), unlimited, Bool.false_and, Bool.false_eq_true, if_false]
  -- the first pass finds the fee, and the second one pays it
  have looped : createLoop zeroDigests store cfg req env 1000000000 1 2 0 0
      = some (.ok ⟨unsigned 211600, [coin], 211600, NO_CHANGE⟩) := by
    decide +kernel
  have recipients : sumRecipients 0 0 req.vecSend = .ok (1000000000, 1) := rfl
  have nonempty : req.vecSend.isEmpty = false := rfl
  rw [createTransaction, recipients]
  simp only [nonempty, Bool.false_eq_true, if_false, looped, finished]
  rfl

end OneCoin

/-- A transaction without inputs is covered, and one that spends the wallet's coin is not. -/
theorem feeEstimateCovers_oneCoin
    : FeeEstimateCovers oneKeyScheme zeroDigests plainCipher OneCoin.store
        ⟨CURRENT_VERSION, [], [], 0⟩ ⟨CURRENT_VERSION, [], [], 0⟩
      ∧ ∃ dummy real,
        dummySignTx zeroDigests OneCoin.store OneCoin.memory (OneCoin.unsigned 0)
          [OneCoin.coin.txout] = some dummy
        ∧ signTx oneKeyScheme zeroDigests plainCipher OneCoin.store OneCoin.env.choices
            OneCoin.env.memory (OneCoin.unsigned 0) [OneCoin.coin.txout] = some real
        ∧ ¬ FeeEstimateCovers oneKeyScheme zeroDigests plainCipher OneCoin.store dummy real := by
  constructor
  · have covers := @feeEstimateCovers_iff oneKeyScheme zeroDigests plainCipher OneCoin.store
      OneCoin.env.choices OneCoin.memory OneCoin.memory ⟨CURRENT_VERSION, [], [], 0⟩
      ⟨CURRENT_VERSION, [], [], 0⟩ ⟨CURRENT_VERSION, [], [], 0⟩ [] rfl rfl rfl
    exact covers.mpr rfl
  · have dummied : (dummySignTx zeroDigests OneCoin.store OneCoin.memory (OneCoin.unsigned 0)
        [OneCoin.coin.txout]).isSome = true := by
      decide +kernel
    have signs : (signTx oneKeyScheme zeroDigests plainCipher OneCoin.store OneCoin.env.choices
        OneCoin.env.memory (OneCoin.unsigned 0) [OneCoin.coin.txout]).isSome = true := by
      decide +kernel
    obtain ⟨dummy, placed⟩ := isSome_iff_exists.mp dummied
    obtain ⟨real, signed⟩ := isSome_iff_exists.mp signs
    refine ⟨dummy, real, placed, signed, fun covers => ?_⟩
    have none := (feeEstimateCovers_iff rfl placed signed).mp covers
    cases none

/-- A coin of the wallet's only key: the placeholders take 2116 bytes and the signed transaction
5340, and the fee of 211600 that `CreateTransaction` returns is below the relay fee of 534000.
-/
theorem feeEstimate_too_low
    : ∃ dummy created,
      dummySignTx zeroDigests OneCoin.store OneCoin.memory (OneCoin.unsigned 211600)
        [OneCoin.coin.txout] = some dummy
      ∧ createTransaction oneKeyScheme zeroDigests plainCipher OneCoin.store OneCoin.cfg
          OneCoin.req OneCoin.env true 2 = some (.ok created)
      ∧ signTx oneKeyScheme zeroDigests plainCipher OneCoin.store OneCoin.env.choices
          OneCoin.env.memory (OneCoin.unsigned 211600) [OneCoin.coin.txout] = some created.tx
      ∧ dummy.getVirtualTransactionSize = 2116
      ∧ created.tx.getVirtualTransactionSize = 5340
      ∧ created.nFeeRet = 211600
      ∧ OneCoin.cfg.minRelayTxFeeRate.getFee created.tx.getVirtualTransactionSize
        = 534000 := by
  obtain ⟨dummy, placed, estimate⟩ : ∃ dummy, dummySignTx zeroDigests OneCoin.store OneCoin.memory
      (OneCoin.unsigned 211600) [OneCoin.coin.txout] = some dummy
      ∧ dummy.getVirtualTransactionSize = 2116 := by
    decide +kernel
  obtain ⟨real, signed, size⟩ : ∃ real, signTx oneKeyScheme zeroDigests plainCipher OneCoin.store
      OneCoin.env.choices OneCoin.env.memory (OneCoin.unsigned 211600) [OneCoin.coin.txout]
        = some real ∧ real.getVirtualTransactionSize = 5340 := by
    decide +kernel
  refine ⟨dummy, _, placed, OneCoin.createTransaction_eq signed size, signed, estimate, size,
    rfl, ?_⟩
  rw [size]
  decide

end Pqcoin
