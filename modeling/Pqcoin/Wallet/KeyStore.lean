import Mathlib.Data.Finset.Card
import Pqcoin.Keys.Secret

/-! The key store of the wallet: keys in the clear until it is encrypted, and encrypted
secrets next to their public keys from then on. Every check of a key signs a fresh random
challenge, so the random bytes are arguments. An assertion of the source that fails is
`none`.
-/

namespace Pqcoin

open Key List

/-- The order of a `std::map` over key ids: `memcmp` on their bytes. -/
def compareKeyID (a b : Uint160) : Ordering :=
  compare ((bytesLE 20 a).map BitVec.toNat) ((bytesLE 20 b).map BitVec.toNat)

instance : Std.TransCmp compareKeyID where
  eq_swap := Std.OrientedOrd.eq_swap
  isLE_trans := Std.TransOrd.isLE_trans

instance : Std.LawfulEqCmp compareKeyID where
  compare_self := Std.ReflOrd.compare_self
  eq_of_compare := by
    intro a b same
    have digits := Std.LawfulEqOrd.eq_of_compare same
    have bytes : bytesLE 20 a = bytesLE 20 b :=
      map_injective_iff.mpr (fun _ _ => BitVec.eq_of_toNat_eq) digits
    have value := congrArg Radix.value bytes
    rw [value_bytesLE 20 a (by decide), value_bytesLE 20 b (by decide)] at value
    exact BitVec.eq_of_toNat_eq value

abbrev KeyMap (α : Type) := Std.TreeMap Uint160 α compareKeyID

-- Encrypted secrets

def WALLET_CRYPTO_KEY_SIZE : Nat := 32

def WALLET_CRYPTO_IV_SIZE : Nat := 16

/-- AES-256-CBC with padding. Decryption returns no bytes when the padding is wrong; it
inverts encryption under a key and an initialisation vector of the right sizes.
-/
structure Cipher where
  encrypt : (key iv plaintext : List Byte) → List Byte
  decrypt : (key iv ciphertext : List Byte) → List Byte
  decrypt_encrypt
    : ∀ key iv plaintext,
        key.length = WALLET_CRYPTO_KEY_SIZE
        → iv.length = WALLET_CRYPTO_IV_SIZE
        → decrypt key iv (encrypt key iv plaintext) = plaintext
  length_encrypt : ∀ key iv plaintext, plaintext.length ≤ (encrypt key iv plaintext).length

def plainCipher : Cipher where
  encrypt _ _ plaintext := plaintext
  decrypt _ _ ciphertext := ciphertext
  decrypt_encrypt _ _ _ _ _ := rfl
  length_encrypt _ _ _ := Nat.le_refl _

def chIV (nIV : Uint256) : List Byte := (bytesLE 32 nIV).take WALLET_CRYPTO_IV_SIZE

def crypterSetKey (chNewKey chNewIV : List Byte) : Bool :=
  !(chNewKey.length != WALLET_CRYPTO_KEY_SIZE || chNewIV.length != WALLET_CRYPTO_IV_SIZE)

section Store

variable (S : SignatureScheme) (D : Digests) (C : Cipher)

def encryptSecret (vMasterKey vchPlaintext : List Byte) (nIV : Uint256) : Option (List Byte) :=
  if !crypterSetKey vMasterKey (chIV nIV) then none
  else if (C.encrypt vMasterKey (chIV nIV) vchPlaintext).length < vchPlaintext.length then none
  else some (C.encrypt vMasterKey (chIV nIV) vchPlaintext)

def decryptSecret (vMasterKey vchCiphertext : List Byte) (nIV : Uint256) : Option (List Byte) :=
  if !crypterSetKey vMasterKey (chIV nIV) then none
  else if (C.decrypt vMasterKey (chIV nIV) vchCiphertext).length = 0 then none
  else some (C.decrypt vMasterKey (chIV nIV) vchCiphertext)

def decryptKey (vMasterKey vchCryptedSecret : List Byte) (vchPubKey : PubKey) (key : Key)
    (rnd : List Byte)
    : Option Key :=
  match decryptSecret C vMasterKey vchCryptedSecret (vchPubKey.getHash D.toHashing) with
  | none => none
  | some vchSecret =>
    if vchSecret.length ≠ PRIVATE_KEY_SIZE then none
    else if (key.set vchSecret vchPubKey.isCompressed).verifyPubKey S D.toHashing rnd
        vchPubKey then
      some (key.set vchSecret vchPubKey.isCompressed)
    else none

-- What decrypts

@[simp] theorem length_chIV (nIV : Uint256) : (chIV nIV).length = WALLET_CRYPTO_IV_SIZE := by
  simp [chIV, WALLET_CRYPTO_IV_SIZE]

@[simp] theorem crypterSetKey_chIV (vMasterKey : List Byte) (nIV : Uint256)
    : crypterSetKey vMasterKey (chIV nIV)
      = decide (vMasterKey.length = WALLET_CRYPTO_KEY_SIZE) := by
  rw [Bool.eq_iff_iff]
  simp [crypterSetKey]

/-- A secret can be encrypted under exactly the master keys of 32 bytes. -/
theorem encryptSecret_eq (vMasterKey vchPlaintext nIV)
    : encryptSecret C vMasterKey vchPlaintext nIV
      = if vMasterKey.length = WALLET_CRYPTO_KEY_SIZE then
          some (C.encrypt vMasterKey (chIV nIV) vchPlaintext)
        else none := by
  have long := Nat.not_lt.mpr (C.length_encrypt vMasterKey (chIV nIV) vchPlaintext)
  by_cases size : vMasterKey.length = WALLET_CRYPTO_KEY_SIZE
  · simp [encryptSecret, size, long]
  · simp [encryptSecret, size]

/-- A secret that was encrypted comes back under the same key and hash. -/
theorem decryptSecret_encrypt {vMasterKey vchPlaintext}
    (size : vMasterKey.length = WALLET_CRYPTO_KEY_SIZE) (some_bytes : vchPlaintext.length ≠ 0) (nIV)
    : decryptSecret C vMasterKey (C.encrypt vMasterKey (chIV nIV) vchPlaintext) nIV
      = some vchPlaintext := by
  have inverse := C.decrypt_encrypt vMasterKey (chIV nIV) vchPlaintext size (length_chIV nIV)
  simp [decryptSecret, size, inverse, length_eq_zero_iff.not.mp some_bytes]

variable {S D C} in
/-- A decrypted key has the secret that was encrypted and the cached public key of the object
it was written to; the stored public key is only checked.
-/
theorem decryptKey_eq_some {vMasterKey vchCryptedSecret vchPubKey key decrypted rnd}
    (ran : decryptKey S D C vMasterKey vchCryptedSecret vchPubKey key rnd = some decrypted)
    : vMasterKey.length = WALLET_CRYPTO_KEY_SIZE
      ∧ decrypted.fValid = true
      ∧ decrypted.pubkeydata = key.pubkeydata := by
  by_cases size : vMasterKey.length = WALLET_CRYPTO_KEY_SIZE
  · refine ⟨size, ?_⟩
    rw [decryptKey] at ran
    split at ran
    · cases ran
    rename_i vchSecret found
    split_ifs at ran with length verified
    cases ran
    rw [set_of_length (not_not.mp length)]
    exact ⟨rfl, rfl⟩
  · simp [decryptKey, decryptSecret, size] at ran

theorem decryptKey_encrypt {vMasterKey}
    (size : vMasterKey.length = WALLET_CRYPTO_KEY_SIZE) {key : Key} (valid : key.fValid = true)
    (pubkey keyOut rnd)
    : decryptKey S D C vMasterKey
        (C.encrypt vMasterKey (chIV (pubkey.getHash D.toHashing)) key.secret) pubkey keyOut rnd
      = if key.verifyPubKey S D.toHashing rnd pubkey then some (keyOut.set key.secret true)
        else none := by
  have length := length_secret valid
  have bytes : key.secret.length ≠ 0 := by
    rw [length]
    exact Nat.succ_ne_zero _
  have same : (keyOut.set key.secret true).verifyPubKey S D.toHashing rnd pubkey
      = key.verifyPubKey S D.toHashing rnd pubkey := by
    rw [set_of_length length]
    simp only [verifyPubKey, sign, valid, secret_of_valid valid]
  rw [decryptKey, decryptSecret_encrypt C size bytes]
  simp only [PubKey.isCompressed_eq_true, same, length, ne_eq, not_true_eq_false, if_false]

-- The store

structure KeyStore where
  mapKeys : KeyMap Key
  mapWatchKeys : KeyMap PubKey
  mapCryptedKeys : KeyMap (PubKey × List Byte)
  vMasterKey : List Byte
  fUseCrypto : Bool
  fDecryptionThoroughlyChecked : Bool

namespace KeyStore

def empty : KeyStore := ⟨∅, ∅, ∅, [], false, false⟩

variable (store : KeyStore)

def isLocked : Bool := store.fUseCrypto && store.vMasterKey.isEmpty

def haveKey (address : Uint160) : Bool :=
  if !store.fUseCrypto then store.mapKeys.contains address
  else store.mapCryptedKeys.contains address

def setCrypted : KeyStore × Bool :=
  if store.fUseCrypto then (store, true)
  else if !store.mapKeys.isEmpty then (store, false)
  else ({ store with fUseCrypto := true }, true)

def lock : KeyStore × Bool :=
  match store.setCrypted with
  | (store, false) => (store, false)
  | (store, true) => ({ store with vMasterKey := [] }, true)

/-- The loop of `Unlock`: the final `keyPass` and `keyFail`. The check of an entry draws
`rnds` at the position of the entry.
-/
def checkEntries (vMasterKeyIn : List Byte) (thoroughly : Bool) (rnds : Nat → List Byte)
    : Nat → Bool → List (Uint160 × PubKey × List Byte) → Bool × Bool
  | _, keyPass, [] => (keyPass, false)
  | i, keyPass, (_, vchPubKey, vchCryptedSecret) :: rest =>
    match decryptKey S D C vMasterKeyIn vchCryptedSecret vchPubKey Key.new (rnds i) with
    | none => (keyPass, true)
    | some _ =>
      if thoroughly then (true, false)
      else checkEntries vMasterKeyIn thoroughly rnds (i + 1) true rest

/-- `Unlock`, with the assertion against a store of which only some keys decrypt. -/
def unlock (vMasterKeyIn : List Byte) (rnds : Nat → List Byte) : Option (KeyStore × Bool) :=
  match store.setCrypted with
  | (store, false) => some (store, false)
  | (store, true) =>
    match checkEntries S D C vMasterKeyIn store.fDecryptionThoroughlyChecked rnds 0 false
        store.mapCryptedKeys.toList with
    | (true, true) => none
    | (false, _) => some (store, false)
    | (true, false) =>
      some ({ store with vMasterKey := vMasterKeyIn, fDecryptionThoroughlyChecked := true }, true)

def addCryptedKey (vchPubKey : PubKey) (vchCryptedSecret : List Byte) : KeyStore × Bool :=
  match store.setCrypted with
  | (store, false) => (store, false)
  | (store, true) =>
    ({ store with
        mapCryptedKeys :=
          store.mapCryptedKeys.insert (vchPubKey.getID D) (vchPubKey, vchCryptedSecret) },
      true)

def addKeyPubKey (key : Key) (pubkey : PubKey) : KeyStore × Bool :=
  if !store.fUseCrypto then
    ({ store with mapKeys := store.mapKeys.insert (pubkey.getID D) key }, true)
  else if store.isLocked then (store, false)
  else match encryptSecret C store.vMasterKey key.secret (pubkey.getHash D.toHashing) with
    | none => (store, false)
    | some vchCryptedSecret => store.addCryptedKey D pubkey vchCryptedSecret

def getKey (rnd : List Byte) (address : Uint160) (keyOut : Key) : Option Key :=
  if !store.fUseCrypto then store.mapKeys[address]?
  else match store.mapCryptedKeys[address]? with
    | none => none
    | some (vchPubKey, vchCryptedSecret) =>
      decryptKey S D C store.vMasterKey vchCryptedSecret vchPubKey keyOut rnd

/-- `GetPubKey`: an entry of the store answers before a watched key. -/
def getPubKey (address : Uint160) : Option PubKey :=
  if !store.fUseCrypto then
    match store.mapKeys[address]? with
    | some key => key.getPubKey
    | none => store.mapWatchKeys[address]?
  else match store.mapCryptedKeys[address]? with
    | some (vchPubKey, _) => some vchPubKey
    | none => store.mapWatchKeys[address]?

/-- The loop of `EncryptKeys` over the entries of `mapKeys`. -/
def encryptEntries (vMasterKeyIn : List Byte)
    : KeyStore → List (Uint160 × Key) → Option (KeyStore × Bool)
  | store, [] => some (store, true)
  | store, (_, key) :: rest =>
    match key.getPubKey with
    | none => none
    | some vchPubKey =>
      match encryptSecret C vMasterKeyIn key.secret (vchPubKey.getHash D.toHashing) with
      | none => some (store, false)
      | some vchCryptedSecret =>
        match store.addCryptedKey D vchPubKey vchCryptedSecret with
        | (store, false) => some (store, false)
        | (store, true) => encryptEntries vMasterKeyIn store rest

def encryptKeys (vMasterKeyIn : List Byte) : Option (KeyStore × Bool) :=
  if !store.mapCryptedKeys.isEmpty || store.fUseCrypto then some (store, false)
  else match encryptEntries D C vMasterKeyIn { store with fUseCrypto := true }
      store.mapKeys.toList with
    | none => none
    | some (store, false) => some (store, false)
    | some (store, true) => some ({ store with mapKeys := ∅ }, true)

-- What the operations leave

variable {store}

theorem getElem?_insert {α : Type} (map : KeyMap α) (id) (value : α) (address)
    : (map.insert id value)[address]? = if id = address then some value else map[address]? := by
  rw [Std.TreeMap.getElem?_insert]
  simp only [Std.LawfulEqCmp.compare_eq_iff_eq]

theorem contains_eq_true_iff {α : Type} (map : KeyMap α) (address)
    : map.contains address = true ↔ ∃ value, map[address]? = some value := by
  rw [Std.TreeMap.contains_eq_isSome_getElem?, Option.isSome_iff_exists]

theorem getElem?_of_isEmpty {α : Type} {map : KeyMap α} (isEmpty : map.isEmpty = true)
    (address : Uint160)
    : map[address]? = none :=
  Std.TreeMap.getElem?_of_isEmpty isEmpty

theorem setCrypted_eq (store : KeyStore)
    : store.setCrypted
      = if store.fUseCrypto || store.mapKeys.isEmpty then
          ({ store with fUseCrypto := true }, true)
        else (store, false) := by
  rcases store with ⟨mapKeys, mapWatchKeys, mapCryptedKeys, vMasterKey, fUseCrypto, checked⟩
  cases fUseCrypto <;> cases isEmpty : mapKeys.isEmpty <;> simp [setCrypted, isEmpty]

theorem length_of_checkEntries {vMasterKeyIn thoroughly rnds i keyPass keyFail entries}
    (ran : checkEntries S D C vMasterKeyIn thoroughly rnds i keyPass entries = (true, keyFail))
    : keyPass = true ∨ vMasterKeyIn.length = WALLET_CRYPTO_KEY_SIZE := by
  cases entries with
  | nil => exact .inl (congrArg Prod.fst ran)
  | cons entry rest =>
    rcases entry with ⟨id, vchPubKey, vchCryptedSecret⟩
    rw [checkEntries] at ran
    split at ran
    · exact .inl (congrArg Prod.fst ran)
    rename_i key decrypted
    exact .inr (decryptKey_eq_some decrypted).1

/-- Unlocking changes the master key if it succeeds, and at most the mode if it fails. -/
theorem unlock_cases {vMasterKeyIn rnds after result}
    (ran : store.unlock S D C vMasterKeyIn rnds = some (after, result))
    : (result = false ∧ after = store.setCrypted.1)
      ∨ (result = true
        ∧ store.setCrypted.2 = true
        ∧ vMasterKeyIn.length = WALLET_CRYPTO_KEY_SIZE
        ∧ after
          = { store.setCrypted.1 with
              vMasterKey := vMasterKeyIn, fDecryptionThoroughlyChecked := true }) := by
  rw [unlock] at ran
  split at ran
  · rename_i crypted refused
    cases ran
    exact .inl ⟨rfl, by rw [refused]⟩
  rename_i crypted accepted
  split at ran
  · cases ran
  · cases ran
    exact .inl ⟨rfl, by rw [accepted]⟩
  · rename_i passed
    cases ran
    have size := length_of_checkEntries S D C passed
    refine .inr ⟨rfl, by rw [accepted], size.resolve_left Bool.false_ne_true, by rw [accepted]⟩

theorem checkEntries_pass_iff (vMasterKeyIn) (rnds : Nat → List Byte) (i) (keyPass entries)
    : checkEntries S D C vMasterKeyIn false rnds i keyPass entries = (true, false)
      ↔ (keyPass = true ∨ entries ≠ [])
        ∧ ∀ j entry,
            entries[j]? = some entry
            → (decryptKey S D C vMasterKeyIn entry.2.2 entry.2.1 Key.new (rnds (i + j))).isSome
                = true := by
  induction entries generalizing i keyPass with
  | nil => simp [checkEntries]
  | cons first rest ih =>
    rcases first with ⟨id, vchPubKey, vchCryptedSecret⟩
    rw [checkEntries]
    cases ran : decryptKey S D C vMasterKeyIn vchCryptedSecret vchPubKey Key.new (rnds i) with
    | none =>
      simp only [Prod.mk.injEq, Bool.true_eq_false, and_false, false_iff, not_and, not_forall]
      refine fun _ => ⟨0, _, rfl, ?_⟩
      simp [ran]
    | some key =>
      simp only [Bool.false_eq_true, if_false, ih, true_or, true_and, ne_eq,
        cons_ne_nil, not_false_eq_true, or_true]
      constructor
      · intro later j entry found
        cases j with
        | zero =>
          cases found
          simp [ran]
        | succ j =>
          have decrypted := later j entry found
          rwa [Nat.add_right_comm] at decrypted
      · intro all j entry found
        have decrypted := all (j + 1) entry found
        rwa [← Nat.add_assoc, Nat.add_right_comm] at decrypted

/-- So an encrypted store that was never checked unlocks exactly if it has an entry and
every entry decrypts.
-/
theorem unlock_succeeds_iff (crypted : store.fUseCrypto = true)
    (unchecked : store.fDecryptionThoroughlyChecked = false) (vMasterKeyIn)
    (rnds : Nat → List Byte) (after)
    : store.unlock S D C vMasterKeyIn rnds = some (after, true)
      ↔ after = { store with vMasterKey := vMasterKeyIn, fDecryptionThoroughlyChecked := true }
        ∧ store.mapCryptedKeys.toList ≠ []
        ∧ ∀ j entry,
            store.mapCryptedKeys.toList[j]? = some entry
            → (decryptKey S D C vMasterKeyIn entry.2.2 entry.2.1 Key.new (rnds j)).isSome
                = true := by
  have pass := checkEntries_pass_iff S D C vMasterKeyIn rnds 0 false store.mapCryptedKeys.toList
  simp only [Bool.false_eq_true, false_or, Nat.zero_add] at pass
  rw [← pass, unlock, setCrypted, if_pos crypted]
  simp only [unchecked]
  rcases checkEntries S D C vMasterKeyIn false rnds 0 false store.mapCryptedKeys.toList with
    ⟨- | -, - | -⟩
  · simp
  · simp
  · simp [eq_comm]
  · simp

theorem addCryptedKey_eq (store : KeyStore) (vchPubKey vchCryptedSecret)
    : store.addCryptedKey D vchPubKey vchCryptedSecret
      = if store.fUseCrypto || store.mapKeys.isEmpty then
          ({ store with
              fUseCrypto := true
              mapCryptedKeys :=
                store.mapCryptedKeys.insert (vchPubKey.getID D) (vchPubKey, vchCryptedSecret) },
            true)
        else (store, false) := by
  rw [addCryptedKey, setCrypted_eq]
  split_ifs <;> rfl

-- Encrypting the whole store

/-- What one turn of the loop of `EncryptKeys` adds: the entry is under the id of the cached
public key, whatever id the key had.
-/
def insertEncrypted (vMasterKey : List Byte) (map : KeyMap (PubKey × List Byte))
    (entry : Uint160 × Key)
    : KeyMap (PubKey × List Byte) :=
  map.insert (entry.2.cachedPubKey.getID D)
    (entry.2.cachedPubKey,
      C.encrypt vMasterKey (chIV (entry.2.cachedPubKey.getHash D.toHashing)) entry.2.secret)

theorem encryptEntries_of_size {vMasterKey} (size : vMasterKey.length = WALLET_CRYPTO_KEY_SIZE)
    {entries} (valid : ∀ entry ∈ entries, entry.2.fValid = true) {store}
    (crypted : store.fUseCrypto = true)
    : encryptEntries D C vMasterKey store entries
      = some
          ({ store with
              mapCryptedKeys :=
                entries.foldl (insertEncrypted D C vMasterKey) store.mapCryptedKeys },
            true) := by
  induction entries generalizing store with
  | nil => rfl
  | cons entry rest ih =>
    rcases entry with ⟨id, key⟩
    have added := addCryptedKey_eq D store key.cachedPubKey
      (C.encrypt vMasterKey (chIV (key.cachedPubKey.getHash D.toHashing)) key.secret)
    rw [if_pos (by simp [crypted])] at added
    rw [encryptEntries, getPubKey_of_valid (valid _ mem_cons_self)]
    simp only [encryptSecret_eq, if_pos size, added]
    rw [ih (fun entry inside => valid entry (mem_cons_of_mem _ inside)) rfl]
    simp only [foldl_cons, insertEncrypted, crypted]

/-- Otherwise it stops at the first one. -/
theorem encryptEntries_of_size_ne {vMasterKey} (other : vMasterKey.length ≠ WALLET_CRYPTO_KEY_SIZE)
    {entries} (valid : ∀ entry ∈ entries, entry.2.fValid = true) (store)
    : encryptEntries D C vMasterKey store entries = some (store, entries.isEmpty) := by
  cases entries with
  | nil => rfl
  | cons entry rest =>
    rcases entry with ⟨id, key⟩
    rw [encryptEntries, getPubKey_of_valid (valid _ mem_cons_self)]
    simp only [encryptSecret_eq, if_neg other, isEmpty_cons]

theorem mem_toList_iff {α : Type} {map : KeyMap α} {id value}
    : (id, value) ∈ map.toList ↔ map[id]? = some value :=
  Std.TreeMap.mem_toList_iff_getElem?_eq_some

theorem encryptKeys_eq
    (valid : ∀ (id : Uint160) (key), store.mapKeys[id]? = some key → key.fValid = true)
    (plain : store.fUseCrypto = false) (noCryptedKeys : store.mapCryptedKeys.isEmpty = true)
    (vMasterKey)
    : store.encryptKeys D C vMasterKey
      = if vMasterKey.length = WALLET_CRYPTO_KEY_SIZE ∨ store.mapKeys.toList = [] then
          some
            ({ store with
                fUseCrypto := true
                mapKeys := ∅
                mapCryptedKeys :=
                  store.mapKeys.toList.foldl (insertEncrypted D C vMasterKey)
                    store.mapCryptedKeys },
              true)
        else some ({ store with fUseCrypto := true }, false) := by
  have entries : ∀ entry ∈ store.mapKeys.toList, entry.2.fValid = true :=
    fun entry inside => valid entry.1 entry.2 (mem_toList_iff.mp inside)
  rw [encryptKeys, if_neg (by simp [plain, noCryptedKeys])]
  by_cases size : vMasterKey.length = WALLET_CRYPTO_KEY_SIZE
  · rw [encryptEntries_of_size D C size entries rfl, if_pos (.inl size)]
  rw [encryptEntries_of_size_ne D C size entries]
  cases toList : store.mapKeys.toList with
  | nil => simp
  | cons entry rest => simp [size]

end KeyStore

end Store

end Pqcoin
