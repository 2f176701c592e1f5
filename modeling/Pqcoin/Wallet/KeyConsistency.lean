import Pqcoin.Wallet.KeyRuns

/-! When `GetKey` and `GetPubKey` agree in every state of a run of the key store. A key
object carries its public key in a copy that only some steps fill, and decryption fills it
never.
-/

namespace Pqcoin

open Key List

namespace KeyStore

section Consistency

variable (S : SignatureScheme) (D : Digests) (C : Cipher) (pbkdf2 : Pbkdf2) (net : Network)

/-- Whenever `GetKey` returns a key, its public key has the id that was asked for and is the
one that `GetPubKey` returns.
-/
def Consistent (store : KeyStore) : Prop :=
  ∀ address rnd key,
    store.getKey S D C rnd address Key.new = some key
    → ∃ pubkey,
        key.getPubKey = some pubkey
        ∧ pubkey.getID D = address
        ∧ store.getPubKey address = some pubkey

def Unlocked (store : KeyStore) : Prop := store.fUseCrypto = true ∧ store.isLocked = false

/-- The master key decrypts the entry, for some random bytes of the check. -/
def Opens (vMasterKey : List Byte) (vchPubKey : PubKey) (vchCryptedSecret : List Byte) : Prop :=
  ∃ rnd key, decryptKey S D C vMasterKey vchCryptedSecret vchPubKey Key.new rnd = some key

/-- What a step must meet for the state behind it to stay consistent. A decrypted key always
carries the zero public key of a new object, so an unlocked store may hold no other; a key in
the clear carries what the step cached, which `importwallet` leaves zero and `importprivkey`
and the wallet file write under the header `7`.
-/
def Harmless (store : KeyStore) : KeyOperation → Prop
  | .generateNewKey gene_entro rnd =>
    ∀ key pubkey,
      generateNewKey S D pbkdf2 gene_entro rnd = some (some (key, pubkey))
      → store.Unlocked → pubkey = Key.new.cachedPubKey
  | .importMnemonic str_mnemonic rnd =>
    ∀ key pubkey,
      importMnemonic S D pbkdf2 store str_mnemonic rnd = some (some (key, pubkey))
      → store.Unlocked → pubkey = Key.new.cachedPubKey
  | .importPrivKey memory str rnd =>
    ∀ key pubkey,
      importPrivKeyInto S D net store memory str rnd = some (some (key, pubkey))
      → (store.fUseCrypto = false → pubkey.standardHeader.getID D = pubkey.getID D)
        ∧ (store.Unlocked → pubkey = Key.new.cachedPubKey)
  | .importWalletLine memory line rnd =>
    ∀ key pubkey,
      importWalletLine S D net store memory line rnd = some (some (key, pubkey))
      → (store.fUseCrypto = false → Key.new.cachedPubKey.getID D = pubkey.getID D)
        ∧ (store.Unlocked → pubkey = Key.new.cachedPubKey)
  | .loadKey vchPubKey pkey hash rnd =>
    ∀ key pubkey,
      readKey S D vchPubKey pkey hash rnd = some (some (key, pubkey))
      → (store.fUseCrypto = false → pubkey.standardHeader.getID D = pubkey.getID D)
        ∧ (store.Unlocked
          → (∃ rnd, key.verifyPubKey S D.toHashing rnd pubkey = true)
          → pubkey = Key.new.cachedPubKey)
  | .loadCryptedKey vchPubKey vchPrivKey =>
    store.fUseCrypto = true
    → Opens S D C store.vMasterKey vchPubKey vchPrivKey
    → vchPubKey = Key.new.cachedPubKey
  | .encrypt _ => True
  | .lock => True
  | .unlock vMasterKeyIn rnds =>
    (∃ after, store.unlock S D C vMasterKeyIn rnds = some (after, true))
    → ∀ (id : Uint160) (vchPubKey : PubKey) (vchCryptedSecret : List Byte),
        store.mapCryptedKeys[id]? = some (vchPubKey, vchCryptedSecret)
        → Opens S D C vMasterKeyIn vchPubKey vchCryptedSecret
        → vchPubKey = Key.new.cachedPubKey

variable {S D C pbkdf2 net} {store next : KeyStore}

-- Consistency in terms of the entries

theorem WellFormed.consistent_of_plain (wf : WellFormed D store) (plain : store.fUseCrypto = false)
    : store.Consistent S D C
      ↔ ∀ id (key : Key),
          store.mapKeys[id]? = some key → key.cachedPubKey.getID D = id := by
  constructor
  · intro agrees id key found
    obtain ⟨pubkey, cached, named, -⟩ := agrees id [] key (by simp [getKey, plain, found])
    rw [getPubKey_of_valid (wf.valid id key found)] at cached
    cases cached
    exact named
  · intro named address rnd key found
    simp only [getKey, plain, Bool.not_false, if_true] at found
    have cached := getPubKey_of_valid (wf.valid address key found)
    exact ⟨key.cachedPubKey, cached, named address key found,
      by simp [getPubKey, plain, found, cached]⟩

theorem WellFormed.consistent_of_crypted (wf : WellFormed D store)
    (crypted : store.fUseCrypto = true)
    : store.Consistent S D C
      ↔ ∀ (id : Uint160) vchPubKey vchCryptedSecret,
          store.mapCryptedKeys[id]? = some (vchPubKey, vchCryptedSecret)
          → Opens S D C store.vMasterKey vchPubKey vchCryptedSecret
          → vchPubKey = Key.new.cachedPubKey := by
  constructor
  · rintro agrees id vchPubKey vchCryptedSecret found ⟨rnd, key, decrypted⟩
    obtain ⟨pubkey, cached, -, same⟩ :=
      agrees id rnd key (by simp [getKey, crypted, found, decrypted])
    obtain ⟨-, valid, zero⟩ := decryptKey_eq_some decrypted
    simp only [getPubKey, crypted, Bool.not_true, Bool.false_eq_true, if_false, found] at same
    cases same
    rw [(of_getPubKey cached).2]
    simp only [cachedPubKey, zero]
  · intro zeros address rnd key ran
    simp only [getKey, crypted, Bool.not_true, Bool.false_eq_true, if_false] at ran
    split at ran
    · cases ran
    rename_i vchPubKey vchCryptedSecret found
    obtain ⟨-, valid, zero⟩ := decryptKey_eq_some ran
    have same := zeros address vchPubKey vchCryptedSecret found ⟨rnd, key, ran⟩
    have cached : key.cachedPubKey = vchPubKey := by
      rw [same]
      simp only [cachedPubKey, zero]
    refine ⟨vchPubKey, ?_, wf.named address _ _ found, ?_⟩
    · rw [getPubKey_of_valid valid, cached]
    · simp [getPubKey, crypted, found]

theorem WellFormed.consistent_of_locked (wf : WellFormed D store)
    (crypted : store.fUseCrypto = true) (locked : store.vMasterKey = [])
    : store.Consistent S D C := by
  rw [wf.consistent_of_crypted crypted, locked]
  rintro _ vchPubKey vchCryptedSecret _ ⟨rnd, key, decrypted⟩
  cases (decryptKey_eq_some decrypted).1

theorem opens_encrypt {vMasterKey}
    (size : vMasterKey.length = WALLET_CRYPTO_KEY_SIZE) {key : Key} (valid : key.fValid = true)
    (pubkey)
    : Opens S D C vMasterKey pubkey
        (C.encrypt vMasterKey (chIV (pubkey.getHash D.toHashing)) key.secret)
      ↔ ∃ rnd, key.verifyPubKey S D.toHashing rnd pubkey = true := by
  simp only [Opens, decryptKey_encrypt S D C size valid]
  refine exists_congr (fun rnd => ?_)
  split_ifs with verified <;> simp [verified]

-- When a step keeps the store consistent

section

variable (wf : WellFormed D store) (agrees : store.Consistent S D C)

include wf agrees

theorem WellFormed.consistent_insertCrypted (crypted : store.fUseCrypto = true)
    (vchPubKey : PubKey) (vchCryptedSecret)
    : Consistent S D C
        { store with
          mapCryptedKeys :=
            store.mapCryptedKeys.insert (vchPubKey.getID D) (vchPubKey, vchCryptedSecret) }
      ↔ (Opens S D C store.vMasterKey vchPubKey vchCryptedSecret
        → vchPubKey = Key.new.cachedPubKey) := by
  have entries := (wf.consistent_of_crypted crypted).mp agrees
  rw [(wf.insertCrypted crypted vchPubKey vchCryptedSecret).consistent_of_crypted crypted]
  constructor
  · intro zeros
    exact zeros (vchPubKey.getID D) vchPubKey vchCryptedSecret (by simp)
  · intro zero id pubkey secret found
    rw [getElem?_insert] at found
    split_ifs at found with same
    · cases found
      exact zero
    · exact entries id pubkey secret found

theorem WellFormed.consistent_insertPlain (plain : store.fUseCrypto = false) {key}
    (valid : key.fValid = true) (pubkey : PubKey)
    : Consistent S D C
        { store with mapKeys := store.mapKeys.insert (pubkey.getID D) key }
      ↔ key.cachedPubKey.getID D = pubkey.getID D := by
  have added := wf.addKeyPubKey (C := C) valid pubkey
  rw [wf.addKeyPubKey_eq, if_pos plain] at added
  have entries := (wf.consistent_of_plain plain).mp agrees
  rw [added.consistent_of_plain plain]
  constructor
  · intro named
    exact named (pubkey.getID D) key (by simp)
  · intro named id stored found
    rw [getElem?_insert] at found
    split_ifs at found with same
    · cases found
      rw [named, same]
    · exact entries id stored found

theorem WellFormed.consistent_addKeyPubKey {key} (valid : key.fValid = true) (pubkey : PubKey)
    : (store.addKeyPubKey D C key pubkey).1.Consistent S D C
      ↔ (store.fUseCrypto = false → key.cachedPubKey.getID D = pubkey.getID D)
        ∧ (store.Unlocked
          → (∃ rnd, key.verifyPubKey S D.toHashing rnd pubkey = true)
          → pubkey = Key.new.cachedPubKey) := by
  rw [wf.addKeyPubKey_eq]
  split_ifs with plain locked
  · rw [wf.consistent_insertPlain agrees plain valid]
    simp [plain, Unlocked]
  · simp [agrees, plain, locked, Unlocked]
  · have crypted : store.fUseCrypto = true := by simpa using plain
    have size : store.vMasterKey.length = WALLET_CRYPTO_KEY_SIZE := by
      refine wf.masterKey.resolve_left (fun none => locked ?_)
      simp [isLocked, crypted, none]
    rw [wf.consistent_insertCrypted agrees crypted, opens_encrypt size valid]
    simp [crypted, locked, Unlocked]

theorem WellFormed.consistent_addHanded {handed} {harmless : Key → PubKey → Prop}
    (agree : ∀ key pubkey, handed = some (some (key, pubkey)) → key.fValid = true
      ∧ ((store.fUseCrypto = false → key.cachedPubKey.getID D = pubkey.getID D)
          ∧ (store.Unlocked
            → (∃ rnd, key.verifyPubKey S D.toHashing rnd pubkey = true)
            → pubkey = Key.new.cachedPubKey)
        ↔ harmless key pubkey))
    : (∀ next, store.addHanded D C handed = some next → next.Consistent S D C)
      ↔ ∀ key pubkey, handed = some (some (key, pubkey)) → harmless key pubkey := by
  rcases handed with - | - | ⟨key, pubkey⟩
  · simp [KeyStore.addHanded]
  · simpa [KeyStore.addHanded] using agrees
  · obtain ⟨valid, same⟩ := agree key pubkey rfl
    have added := (wf.consistent_addKeyPubKey agrees valid pubkey).trans same
    simpa [KeyStore.addHanded] using added

theorem WellFormed.consistent_unlock (vMasterKeyIn : List Byte) (rnds : Nat → List Byte)
    : (∀ next result,
        store.unlock S D C vMasterKeyIn rnds = some (next, result) → next.Consistent S D C)
      ↔ Harmless S D C pbkdf2 net store (.unlock vMasterKeyIn rnds) := by
  have failed : store.setCrypted.1.Consistent S D C := by
    have crypted := wf.setCrypted
    rw [setCrypted_eq] at crypted ⊢
    split_ifs at crypted ⊢ with allowed
    · cases mode : store.fUseCrypto with
      | true =>
        rw [crypted.consistent_of_crypted rfl]
        exact (wf.consistent_of_crypted mode).mp agrees
      | false => exact crypted.consistent_of_locked rfl (wf.noMasterKey mode)
    · exact agrees
  have same : store.setCrypted.1.mapCryptedKeys = store.mapCryptedKeys := by
    rw [setCrypted_eq]
    split_ifs <;> rfl
  have mode (allowed : store.setCrypted.2 = true) : store.setCrypted.1.fUseCrypto = true := by
    rw [setCrypted_eq] at allowed ⊢
    split_ifs at allowed ⊢
    rfl
  constructor
  · rintro unlocked ⟨after, ran⟩
    obtain ⟨impossible, -⟩ | ⟨-, allowed, -, rfl⟩ := unlock_cases S D C ran
    · cases impossible
    have entries := ((wf.unlock ran).consistent_of_crypted (mode allowed)).mp (unlocked _ _ ran)
    rwa [same] at entries
  · intro harmless next result ran
    obtain ⟨-, rfl⟩ | ⟨rfl, allowed, -, rfl⟩ := unlock_cases S D C ran
    · exact failed
    rw [(wf.unlock ran).consistent_of_crypted (mode allowed), same]
    exact harmless ⟨_, ran⟩

end

theorem signs_imp_iff {key : Key} {pubkey} {rnd}
    (verified : key.verifyPubKey S D.toHashing rnd pubkey = true) {conclusion : Prop}
    : ((∃ rnd, key.verifyPubKey S D.toHashing rnd pubkey = true) → conclusion) ↔ conclusion :=
  forall_prop_of_true ⟨rnd, verified⟩

section

variable (wf : WellFormed D store) (agrees : store.Consistent S D C)

include wf agrees

/-- An encrypted record is harmless next to keys in the clear, where it is refused, and in an
empty store, which it locks.
-/
theorem WellFormed.consistent_loadCryptedKey (vchPubKey vchPrivKey)
    : (∀ next,
        store.step S D C pbkdf2 net (.loadCryptedKey vchPubKey vchPrivKey) = some next
        → next.Consistent S D C)
      ↔ Harmless S D C pbkdf2 net store (.loadCryptedKey vchPubKey vchPrivKey) := by
  simp only [KeyStore.step, Option.some.injEq, forall_eq', Harmless, addCryptedKey_eq]
  cases mode : store.fUseCrypto with
  | true =>
    have inserted := wf.consistent_insertCrypted agrees mode vchPubKey vchPrivKey
    simpa [mode] using inserted
  | false =>
    have crypted := wf.addCryptedKey vchPubKey vchPrivKey
    rw [addCryptedKey_eq] at crypted
    simp only [Bool.false_or, mode] at crypted ⊢
    split_ifs at crypted ⊢ with noKeys
    · simpa using crypted.consistent_of_locked rfl (wf.noMasterKey mode)
    · simpa using agrees

theorem WellFormed.consistent_encrypt {vMasterKey} {next}
    (ran : store.step S D C pbkdf2 net (.encrypt vMasterKey) = some next)
    : next.Consistent S D C := by
  rw [KeyStore.step] at ran
  split_ifs at ran with crypted
  · cases ran
    exact agrees
  · split at ran
    · rename_i encrypted
      cases ran
      obtain ⟨mode, locked, after⟩ := wf.encryptKeys (by simpa using crypted) encrypted
      exact after.consistent_of_locked mode locked
    · cases ran

theorem WellFormed.consistent_lock {next} (ran : store.step S D C pbkdf2 net .lock = some next)
    : next.Consistent S D C := by
  obtain rfl : store.lock.1 = next := Option.some.inj ran
  have after := wf.lock
  rw [KeyStore.lock, setCrypted_eq] at after ⊢
  split_ifs at after ⊢
  · exact after.consistent_of_locked rfl rfl
  · exact agrees

theorem WellFormed.consistent_step (operation)
    : (∀ next, store.step S D C pbkdf2 net operation = some next → next.Consistent S D C)
      ↔ Harmless S D C pbkdf2 net store operation := by
  cases operation with
  | generateNewKey gene_entro rnd =>
    refine wf.consistent_addHanded agrees fun key pubkey handed => ?_
    obtain ⟨valid, rfl, verified⟩ := of_generateNewKey handed
    refine ⟨valid, ?_⟩
    simp only [implies_true, true_and, signs_imp_iff verified]
  | importMnemonic str_mnemonic rnd =>
    refine wf.consistent_addHanded agrees fun key pubkey handed => ?_
    obtain ⟨valid, rfl, verified⟩ := of_importMnemonic handed
    refine ⟨valid, ?_⟩
    simp only [implies_true, true_and, signs_imp_iff verified]
  | importPrivKey memory str rnd =>
    refine wf.consistent_addHanded agrees fun key pubkey handed => ?_
    obtain ⟨valid, carried, verified⟩ := of_importPrivKeyInto handed
    refine ⟨valid, ?_⟩
    simp only [cachedPubKey_eq_standardHeader carried, signs_imp_iff verified]
  | importWalletLine memory line rnd =>
    refine wf.consistent_addHanded agrees fun key pubkey handed => ?_
    obtain ⟨valid, carried, verified⟩ := of_importWalletLine handed
    refine ⟨valid, ?_⟩
    simp only [carried, signs_imp_iff verified]
  | loadKey vchPubKey pkey hash rnd =>
    refine wf.consistent_addHanded agrees fun key pubkey handed => ?_
    obtain ⟨valid, carried⟩ := of_readKey handed
    refine ⟨valid, ?_⟩
    simp only [cachedPubKey_eq_standardHeader carried]
  | loadCryptedKey vchPubKey vchPrivKey =>
    exact wf.consistent_loadCryptedKey agrees vchPubKey vchPrivKey
  | encrypt vMasterKey =>
    exact iff_of_true (fun _ => wf.consistent_encrypt agrees) trivial
  | lock =>
    exact iff_of_true (fun _ => wf.consistent_lock agrees) trivial
  | unlock vMasterKeyIn rnds =>
    rw [← wf.consistent_unlock agrees]
    simp [KeyStore.step, or_imp]

end

theorem consistent_empty : empty.Consistent S D C :=
  (wellFormed_empty.consistent_of_plain rfl).mpr (fun _ _ found => by cases found)

theorem WellFormed.consistent_states (wf : WellFormed D store)
    (agrees : store.Consistent S D C) (operations)
    : (∀ state ∈ store.states S D C pbkdf2 net operations, state.Consistent S D C)
      ↔ ∀ step ∈ store.steps S D C pbkdf2 net operations,
          Harmless S D C pbkdf2 net step.1 step.2 := by
  induction operations generalizing store with
  | nil => simpa [KeyStore.states, steps] using agrees
  | cons operation rest ih =>
    rw [KeyStore.states, steps, forall_mem_cons, forall_mem_cons,
      ← wf.consistent_step agrees operation]
    cases ran : store.step S D C pbkdf2 net operation with
    | none => simpa using agrees
    | some next =>
      simp only [Option.some.injEq, forall_eq']
      constructor
      · rintro ⟨-, later⟩
        have here : next.Consistent S D C := by
          refine later next ?_
          cases rest with
          | nil => simp [KeyStore.states]
          | cons operation rest => simp [KeyStore.states]
        exact ⟨here, (ih (wf.step ran) here).mp later⟩
      · rintro ⟨here, later⟩
        exact ⟨agrees, (ih (wf.step ran) here).mpr later⟩

/-- A run from the empty store passes consistent states only exactly if each of its steps is
harmless where it is taken.
-/
theorem consistent_run_iff (operations : List KeyOperation)
    : (∀ state ∈ empty.states S D C pbkdf2 net operations, state.Consistent S D C)
      ↔ ∀ step ∈ empty.steps S D C pbkdf2 net operations,
          Harmless S D C pbkdf2 net step.1 step.2 :=
  wellFormed_empty.consistent_states consistent_empty operations

def oneEntry (vMasterKey : List Byte) (checked : Bool) : KeyStore :=
  ⟨∅, ∅,
    (∅ : KeyMap (PubKey × List Byte)).insert 0 (PubKey.filled 1, List.replicate PRIVATE_KEY_SIZE 0),
    vMasterKey, true, checked⟩

theorem decryptKey_oneEntry
    : decryptKey oneKeyScheme zeroDigests plainCipher
        (replicate WALLET_CRYPTO_KEY_SIZE 0) (replicate PRIVATE_KEY_SIZE 0)
        (PubKey.filled 1) Key.new []
      = some (Key.new.set (replicate PRIVATE_KEY_SIZE 0) true) := by
  decide +kernel

theorem unlock_oneEntry
    : (oneEntry [] false).unlock oneKeyScheme zeroDigests plainCipher
        (replicate WALLET_CRYPTO_KEY_SIZE 0) (fun _ => [])
      = some (oneEntry (replicate WALLET_CRYPTO_KEY_SIZE 0) true, true) := by
  rw [unlock_succeeds_iff _ _ _ rfl rfl]
  refine ⟨rfl, cons_ne_nil _ _, ?_⟩
  intro j entry found
  cases j with
  | zero =>
    cases found
    exact Option.isSome_iff_exists.mpr ⟨_, decryptKey_oneEntry⟩
  | succ j => cases found

/-- Once an encrypted wallet file is loaded and unlocked, the key that `GetKey` returns has
another public key than the one `GetPubKey` returns for the same id.
-/
theorem unlocked_inconsistent
    : ∃ store ∈ empty.states oneKeyScheme zeroDigests plainCipher (fun _ _ _ _ => []) .main
        [ .loadCryptedKey (PubKey.filled 1) (List.replicate PRIVATE_KEY_SIZE 0),
          .unlock (List.replicate WALLET_CRYPTO_KEY_SIZE 0) (fun _ => []) ],
      ∃ key pubkey,
        store.getKey oneKeyScheme zeroDigests plainCipher [] 0 Key.new = some key
        ∧ store.getPubKey 0 = some pubkey
        ∧ key.getPubKey ≠ some pubkey := by
  refine ⟨oneEntry (replicate WALLET_CRYPTO_KEY_SIZE 0) true, ?_,
    Key.new.set (replicate PRIVATE_KEY_SIZE 0) true, PubKey.filled 1, ?_, ?_, ?_⟩
  · have loaded : empty.step oneKeyScheme zeroDigests plainCipher (fun _ _ _ _ => []) .main
        (.loadCryptedKey (PubKey.filled 1) (replicate PRIVATE_KEY_SIZE 0))
        = some (oneEntry [] false) := rfl
    have unlocked : (oneEntry [] false).step oneKeyScheme zeroDigests plainCipher
        (fun _ _ _ _ => []) .main
        (.unlock (replicate WALLET_CRYPTO_KEY_SIZE 0) (fun _ => []))
        = some (oneEntry (replicate WALLET_CRYPTO_KEY_SIZE 0) true) := by
      rw [step, unlock_oneEntry, Option.map_some]
    simp only [states, loaded, unlocked, mem_cons, true_or, or_true]
  · simpa [getKey, oneEntry] using decryptKey_oneEntry
  · simp [getPubKey, oneEntry]
  · rw [set_of_length length_replicate, getPubKey_of_valid rfl]
    intro same
    exact absurd (congrArg PubKey.header (Option.some.inj same)) (by decide)

end Consistency

end KeyStore

end Pqcoin
