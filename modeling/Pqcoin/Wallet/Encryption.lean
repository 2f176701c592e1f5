import Mathlib.Data.List.Perm.Subperm
import Pqcoin.Wallet.KeyRuns

/-! Encrypting a whole store: when the ids and the secrets are the same before the encryption
and after the store is unlocked again. The encryption puts each key under the id of the public
key that it carries, which need not be the id it had.
-/

namespace Pqcoin

open Key List Std.TreeMap

namespace KeyStore

section Encryption

variable (S : SignatureScheme) (D : Digests) (C : Cipher)

/-- Encrypting the store and unlocking it loses no id and no secret, and a store with keys can
be unlocked, whatever random bytes the checks draw.
-/
def KeepsKeys (store : KeyStore) (vMasterKey : List Byte) : Prop :=
  ∀ encrypted,
    store.encryptKeys D C vMasterKey = some (encrypted, true)
    → (∀ rnds unlocked,
        encrypted.unlock S D C vMasterKey rnds = some (unlocked, true)
        → (∀ id, unlocked.haveKey id = store.haveKey id)
          ∧ ∀ rnd id key,
              store.getKey S D C rnd id Key.new = some key
              → ∃ decrypted,
                  unlocked.getKey S D C rnd id Key.new = some decrypted
                  ∧ decrypted.secret = key.secret
                  ∧ decrypted.secret.length = PRIVATE_KEY_SIZE)
      ∧ (store.mapKeys.isEmpty = false
        → ∀ rnds, ∃ unlocked, encrypted.unlock S D C vMasterKey rnds = some (unlocked, true))

structure CarriesIds (store : KeyStore) : Prop where
  signs
    : ∀ (id : Uint160) (key : Key),
        store.mapKeys[id]? = some key
        → ∀ rnd, key.verifyPubKey S D.toHashing rnd key.cachedPubKey = true
  stored
    : ∀ (id : Uint160) (key : Key),
        store.mapKeys[id]? = some key
        → ∃ other,
            store.mapKeys[key.cachedPubKey.getID D]? = some other
            ∧ other.secret = key.secret
  apart
    : ∀ (first second : Uint160) (key other : Key),
        store.mapKeys[first]? = some key
        → store.mapKeys[second]? = some other
        → key.cachedPubKey.getID D = other.cachedPubKey.getID D
        → first = second

variable {S D C} {store : KeyStore} {vMasterKey : List Byte}

-- The entries of the encrypted store

def encryptedEntry (C : Cipher) (D : Digests) (vMasterKey : List Byte) (key : Key)
    : PubKey × List Byte :=
  (key.cachedPubKey, C.encrypt vMasterKey (chIV (key.cachedPubKey.getHash D.toHashing)) key.secret)

theorem of_getElem?_foldl {entries : List (Uint160 × Key)} {map id value}
    (found : (entries.foldl (insertEncrypted D C vMasterKey) map)[id]? = some value)
    : map[id]? = some value
      ∨ ∃ entry ∈ entries,
          entry.2.cachedPubKey.getID D = id ∧ value = encryptedEntry C D vMasterKey entry.2 := by
  induction entries generalizing map with
  | nil => exact .inl found
  | cons entry rest ih =>
    rcases ih found with earlier | ⟨later, inside, same⟩
    · rw [insertEncrypted, getElem?_insert] at earlier
      split_ifs at earlier with same
      · cases earlier
        exact .inr ⟨entry, mem_cons_self, same, rfl⟩
      · exact .inl earlier
    · exact .inr ⟨later, mem_cons_of_mem _ inside, same⟩

theorem isSome_foldl_of_isSome {entries : List (Uint160 × Key)}
    {map} {id : Uint160} (present : map[id]?.isSome = true)
    : (entries.foldl (insertEncrypted D C vMasterKey) map)[id]?.isSome = true := by
  induction entries generalizing map with
  | nil => exact present
  | cons entry rest ih =>
    refine ih ?_
    rw [insertEncrypted, getElem?_insert]
    split_ifs
    · rfl
    · exact present

theorem isSome_foldl {entries : List (Uint160 × Key)} {entry} (inside : entry ∈ entries) (map)
    : (entries.foldl (insertEncrypted D C vMasterKey) map)[entry.2.cachedPubKey.getID D]?.isSome
      = true := by
  induction entries generalizing map with
  | nil => cases inside
  | cons first rest ih =>
    rcases mem_cons.mp inside with rfl | inside
    · rw [foldl_cons]
      refine isSome_foldl_of_isSome ?_
      simp [insertEncrypted]
    · exact ih inside _

-- Ids before and after

def ids (store : KeyStore) : List Uint160 := store.mapKeys.toList.map Prod.fst

def carriedIds (D : Digests) (store : KeyStore) : List Uint160 :=
  store.mapKeys.toList.map (fun entry => entry.2.cachedPubKey.getID D)

theorem nodup_ids (store : KeyStore) : store.ids.Nodup := by
  rw [ids, map_fst_toList_eq_keys]
  exact nodup_keys

theorem mem_ids_iff {id} : id ∈ store.ids ↔ ∃ key, store.mapKeys[id]? = some key := by
  simp only [ids, mem_map, Prod.exists, mem_toList_iff, exists_and_right, exists_eq_right]

theorem mem_carriedIds_iff {id}
    : id ∈ store.carriedIds D
      ↔ ∃ (origin : Uint160) (key : Key),
          store.mapKeys[origin]? = some key ∧ key.cachedPubKey.getID D = id := by
  simp only [carriedIds, mem_map, Prod.exists, mem_toList_iff]

/-- The carried ids are distinct exactly if no two entries carry the same one. -/
theorem nodup_carriedIds_iff
    : (store.carriedIds D).Nodup
      ↔ ∀ (first second : Uint160) key other,
          store.mapKeys[first]? = some key
          → store.mapKeys[second]? = some other
          → key.cachedPubKey.getID D = other.cachedPubKey.getID D
          → first = second := by
  constructor
  · intro nodup first second key other found foundOther same
    exact congrArg Prod.fst (inj_on_of_nodup_map nodup (mem_toList_iff.mpr found)
      (mem_toList_iff.mpr foundOther) same)
  · intro apart
    refine List.Nodup.map_on ?_ (List.Nodup.of_map Prod.fst (nodup_ids store))
    rintro ⟨first, key⟩ inside ⟨second, other⟩ insideOther same
    have found := mem_toList_iff.mp inside
    have foundOther := mem_toList_iff.mp insideOther
    cases apart first second key other found foundOther same
    cases found.symm.trans foundOther
    rfl

theorem nodup_carriedIds (covered : store.ids ⊆ store.carriedIds D)
    : (store.carriedIds D).Nodup := by
  have subperm := (nodup_ids store).subperm covered
  have perm := subperm.perm_of_length_le (by simp [ids, carriedIds])
  exact perm.nodup_iff.mp (nodup_ids store)

-- The store after encryption and after unlocking

def encryptedStore (C : Cipher) (D : Digests) (vMasterKey : List Byte) (store : KeyStore)
    : KeyStore :=
  { store with
    fUseCrypto := true
    mapKeys := ∅
    mapCryptedKeys :=
      store.mapKeys.toList.foldl (insertEncrypted D C vMasterKey) store.mapCryptedKeys }

section

variable (noCryptedKeys : store.mapCryptedKeys.isEmpty = true)

include noCryptedKeys

theorem of_encryptedStore {id : Uint160} {value}
    (found : (encryptedStore C D vMasterKey store).mapCryptedKeys[id]? = some value)
    : ∃ (origin : Uint160) (key : Key),
        store.mapKeys[origin]? = some key
        ∧ key.cachedPubKey.getID D = id
        ∧ value = encryptedEntry C D vMasterKey key := by
  rcases of_getElem?_foldl found with earlier | ⟨entry, inside, carried, same⟩
  · rw [getElem?_of_isEmpty noCryptedKeys] at earlier
    cases earlier
  · exact ⟨entry.1, entry.2, mem_toList_iff.mp inside, carried, same⟩

theorem contains_encryptedStore (id : Uint160)
    : (encryptedStore C D vMasterKey store).mapCryptedKeys.contains id = true
      ↔ id ∈ store.carriedIds D := by
  rw [contains_eq_true_iff, mem_carriedIds_iff]
  constructor
  · rintro ⟨value, found⟩
    obtain ⟨origin, key, stored, carried, -⟩ := of_encryptedStore noCryptedKeys found
    exact ⟨origin, key, stored, carried⟩
  · rintro ⟨origin, key, stored, rfl⟩
    have inside := mem_toList_iff.mpr stored
    exact Option.isSome_iff_exists.mp (isSome_foldl inside store.mapCryptedKeys)

theorem getElem?_encryptedStore (nodup : (store.carriedIds D).Nodup) {id : Uint160} {key}
    (stored : store.mapKeys[id]? = some key)
    : (encryptedStore C D vMasterKey store).mapCryptedKeys[key.cachedPubKey.getID D]?
      = some (encryptedEntry C D vMasterKey key) := by
  have carried : key.cachedPubKey.getID D ∈ store.carriedIds D :=
    mem_carriedIds_iff.mpr ⟨id, key, stored, rfl⟩
  obtain ⟨value, found⟩ := (contains_eq_true_iff
    (encryptedStore C D vMasterKey store).mapCryptedKeys
    _).mp ((contains_encryptedStore noCryptedKeys _).mpr carried)
  obtain ⟨origin, other, storedOther, carried, rfl⟩ := of_encryptedStore noCryptedKeys found
  cases nodup_carriedIds_iff.mp nodup origin id other key storedOther stored carried
  cases stored.symm.trans storedOther
  exact found

end

theorem decryptKey_encryptedEntry (size : vMasterKey.length = WALLET_CRYPTO_KEY_SIZE) {key}
    (valid : key.fValid = true) (rnd)
    : decryptKey S D C vMasterKey (encryptedEntry C D vMasterKey key).2
        (encryptedEntry C D vMasterKey key).1 Key.new rnd
      = if key.verifyPubKey S D.toHashing rnd key.cachedPubKey then
          some (Key.new.set key.secret true)
        else none :=
  decryptKey_encrypt S D C size valid key.cachedPubKey Key.new rnd

theorem secret_set_secret {key : Key} (valid : key.fValid = true)
    : (Key.new.set key.secret true).secret = key.secret := by
  rw [set_of_length (length_secret valid)]
  exact secret_of_valid rfl

def unlockedStore (C : Cipher) (D : Digests) (vMasterKey : List Byte) (store : KeyStore)
    : KeyStore :=
  { encryptedStore C D vMasterKey store with
    vMasterKey := vMasterKey, fDecryptionThoroughlyChecked := true }

theorem unlock_encryptedStore (unchecked : store.fDecryptionThoroughlyChecked = false)
    (rnds : Nat → List Byte) (unlocked)
    : (encryptedStore C D vMasterKey store).unlock S D C vMasterKey rnds = some (unlocked, true)
      ↔ unlocked = unlockedStore C D vMasterKey store
        ∧ (encryptedStore C D vMasterKey store).mapCryptedKeys.toList ≠ []
        ∧ ∀ j entry,
            (encryptedStore C D vMasterKey store).mapCryptedKeys.toList[j]? = some entry
            → (decryptKey S D C vMasterKey entry.2.2 entry.2.1 Key.new (rnds j)).isSome
                = true := by
  have crypted : (encryptedStore C D vMasterKey store).fUseCrypto = true := rfl
  have same : (encryptedStore C D vMasterKey store).fDecryptionThoroughlyChecked = false :=
    unchecked
  exact unlock_succeeds_iff S D C crypted same vMasterKey rnds unlocked

theorem getKey_unlockedStore {id value}
    (found : (encryptedStore C D vMasterKey store).mapCryptedKeys[id]? = some value) (rnd)
    : (unlockedStore C D vMasterKey store).getKey S D C rnd id Key.new
      = decryptKey S D C vMasterKey value.2 value.1 Key.new rnd := by
  have same : (unlockedStore C D vMasterKey store).mapCryptedKeys[id]? = some value := found
  simp only [getKey, same]
  rfl

theorem haveKey_unlockedStore (noCryptedKeys : store.mapCryptedKeys.isEmpty = true) (id)
    : (unlockedStore C D vMasterKey store).haveKey id = true ↔ id ∈ store.carriedIds D :=
  contains_encryptedStore noCryptedKeys id

theorem haveKey_plain (plain : store.fUseCrypto = false) (id)
    : store.haveKey id = true ↔ id ∈ store.ids := by
  rw [haveKey, plain, mem_ids_iff]
  exact contains_eq_true_iff store.mapKeys id

-- When no key is lost

theorem exists_stored (nonempty : store.mapKeys.isEmpty = false)
    : ∃ (id : Uint160) (key : Key), store.mapKeys[id]? = some key := by
  obtain ⟨id, contained⟩ := isEmpty_eq_false_iff_exists_contains_eq_true.mp nonempty
  exact ⟨id, (contains_eq_true_iff _ _).mp contained⟩

theorem getKey_plain (plain : store.fUseCrypto = false) (rnd id)
    : store.getKey S D C rnd id Key.new = store.mapKeys[id]? := by
  simp [getKey, plain]

theorem CarriesIds.nodup (carries : CarriesIds S D store) : (store.carriedIds D).Nodup :=
  nodup_carriedIds_iff.mpr carries.apart

theorem CarriesIds.mem_carriedIds (carries : CarriesIds S D store) (id : Uint160)
    : id ∈ store.carriedIds D ↔ id ∈ store.ids := by
  have inside : store.carriedIds D ⊆ store.ids := by
    intro id carried
    obtain ⟨origin, key, stored, rfl⟩ := mem_carriedIds_iff.mp carried
    obtain ⟨other, found, -⟩ := carries.stored origin key stored
    exact mem_ids_iff.mpr ⟨other, found⟩
  have perm := (carries.nodup.subperm inside).perm_of_length_le (by simp [ids, carriedIds])
  exact ⟨fun carried => inside carried, fun known => perm.symm.subset known⟩

section Carries

variable (wf : WellFormed D store) (plain : store.fUseCrypto = false)
  (size : vMasterKey.length = WALLET_CRYPTO_KEY_SIZE)

include wf plain size

theorem encryptKeys_eq_encryptedStore
    : store.encryptKeys D C vMasterKey = some (encryptedStore C D vMasterKey store, true) := by
  rw [encryptKeys_eq D C wf.valid plain (wf.noCryptedKeys plain),
    if_pos (.inl size)]
  rfl

section

variable (carries : CarriesIds S D store)

include carries

theorem CarriesIds.getKey (rnd : List Byte) {id : Uint160} {key}
    (found : store.mapKeys[id]? = some key)
    : ∃ decrypted,
        (unlockedStore C D vMasterKey store).getKey S D C rnd id Key.new = some decrypted
        ∧ decrypted.secret = key.secret
        ∧ decrypted.secret.length = PRIVATE_KEY_SIZE := by
  obtain ⟨origin, source, stored, rfl⟩ :=
    mem_carriedIds_iff.mp ((carries.mem_carriedIds id).mpr (mem_ids_iff.mpr ⟨key, found⟩))
  obtain ⟨other, foundOther, secret⟩ := carries.stored origin source stored
  cases found.symm.trans foundOther
  have valid := wf.valid origin source stored
  have entry : (encryptedStore C D vMasterKey store).mapCryptedKeys[
      source.cachedPubKey.getID D]? = some (encryptedEntry C D vMasterKey source) :=
    getElem?_encryptedStore (wf.noCryptedKeys plain) carries.nodup stored
  refine ⟨Key.new.set source.secret true, ?_, ?_, ?_⟩
  · rw [getKey_unlockedStore entry, decryptKey_encryptedEntry size valid,
      if_pos (carries.signs origin source stored rnd)]
  · rw [secret_set_secret valid, secret]
  · rw [secret_set_secret valid, length_secret valid]

theorem CarriesIds.unlock (nonempty : store.mapKeys.isEmpty = false) (rnds : Nat → List Byte)
    : (encryptedStore C D vMasterKey store).unlock S D C vMasterKey rnds
      = some (unlockedStore C D vMasterKey store, true) := by
  refine (unlock_encryptedStore (wf.notChecked plain) rnds _).mpr ⟨rfl, ?_, ?_⟩
  · intro empty
    obtain ⟨id, key, stored⟩ := exists_stored nonempty
    have listed : (key.cachedPubKey.getID D, encryptedEntry C D vMasterKey key)
        ∈ (encryptedStore C D vMasterKey store).mapCryptedKeys.toList :=
      mem_toList_iff.mpr
        (getElem?_encryptedStore (wf.noCryptedKeys plain) carries.nodup stored)
    rw [empty] at listed
    cases listed
  · intro j entry found
    obtain ⟨origin, key, stored, -, same⟩ := of_encryptedStore (wf.noCryptedKeys plain)
      (mem_toList_iff.mp (mem_of_getElem? found))
    rw [same, decryptKey_encryptedEntry size (wf.valid origin key stored),
      if_pos (carries.signs origin key stored (rnds j))]
    rfl

theorem CarriesIds.keepsKeys : store.KeepsKeys S D C vMasterKey := by
  intro encrypted ran
  rw [encryptKeys_eq_encryptedStore wf plain size] at ran
  cases ran
  refine ⟨fun rnds unlocked opened => ?_, fun nonempty rnds => ?_⟩
  · obtain ⟨rfl, -, -⟩ := (unlock_encryptedStore (wf.notChecked plain) _ _).mp opened
    refine ⟨fun id => ?_, fun rnd id key found => ?_⟩
    · rw [Bool.eq_iff_iff, haveKey_unlockedStore (wf.noCryptedKeys plain),
        haveKey_plain plain]
      exact carries.mem_carriedIds id
    · rw [getKey_plain plain] at found
      exact carries.getKey wf plain size rnd found
  · exact ⟨_, carries.unlock wf plain size nonempty rnds⟩

end

theorem KeepsKeys.carriesIds (keeps : store.KeepsKeys S D C vMasterKey)
    (nonempty : store.mapKeys.isEmpty = false)
    : CarriesIds S D store := by
  have noCryptedKeys := wf.noCryptedKeys plain
  have unchecked := wf.notChecked plain
  obtain ⟨lossless, succeeds⟩ := keeps _ (encryptKeys_eq_encryptedStore wf plain size)
  have opens := succeeds nonempty
  obtain ⟨unlocked, ran⟩ := opens (fun _ => [])
  obtain ⟨sameIds, sameSecrets⟩ := lossless _ _ ran
  obtain ⟨rfl, -, -⟩ := (unlock_encryptedStore unchecked _ _).mp ran
  have ids_iff (id) : id ∈ store.carriedIds D ↔ id ∈ store.ids := by
    rw [← haveKey_unlockedStore noCryptedKeys, sameIds, haveKey_plain plain]
  have nodup : (store.carriedIds D).Nodup :=
    nodup_carriedIds (fun id known => (ids_iff id).mpr known)
  have signs : ∀ (id : Uint160) (key : Key), store.mapKeys[id]? = some key
      → ∀ rnd, key.verifyPubKey S D.toHashing rnd key.cachedPubKey = true := by
    intro id key stored rnd
    obtain ⟨unlocked, ran⟩ := opens (fun _ => rnd)
    obtain ⟨j, entry⟩ := mem_iff_getElem?.mp
      (mem_toList_iff.mpr (getElem?_encryptedStore noCryptedKeys nodup stored))
    have decrypts := ((unlock_encryptedStore unchecked _ _).mp ran).2.2 j _ entry
    rw [decryptKey_encryptedEntry size (wf.valid id key stored)] at decrypts
    split_ifs at decrypts with verified
    · exact verified
    · cases decrypts
  refine ⟨signs, ?_, nodup_carriedIds_iff.mp nodup⟩
  intro id key stored
  have valid := wf.valid id key stored
  obtain ⟨other, found⟩ := mem_ids_iff.mp
    ((ids_iff _).mp (mem_carriedIds_iff.mpr ⟨id, key, stored, rfl⟩))
  obtain ⟨decrypted, returned, secret, -⟩ := sameSecrets [] _ other
    ((getKey_plain plain _ _).trans found)
  rw [getKey_unlockedStore (getElem?_encryptedStore noCryptedKeys nodup stored),
    decryptKey_encryptedEntry size valid, if_pos (signs id key stored [])] at returned
  cases returned
  rw [secret_set_secret valid] at secret
  exact ⟨other, found, secret.symm⟩

end Carries

/-- A store in the clear that a run reaches loses no key to encryption and unlocking exactly
if the master key has another size than the cipher takes, so that nothing is encrypted, or
the ids of the public keys that the keys carry are the ids of the store.
-/
theorem keepsKeys_iff {pbkdf2 : Pbkdf2} {net : Network} {operations : List KeyOperation}
    (reached : store ∈ empty.states S D C pbkdf2 net operations)
    (plain : store.fUseCrypto = false) (vMasterKey : List Byte)
    : store.KeepsKeys S D C vMasterKey
      ↔ vMasterKey.length ≠ WALLET_CRYPTO_KEY_SIZE ∨ CarriesIds S D store := by
  have wf := wellFormed_empty.states operations store reached
  by_cases size : vMasterKey.length = WALLET_CRYPTO_KEY_SIZE
  · simp only [size, ne_eq, not_true_eq_false, false_or]
    constructor
    · intro keeps
      cases isEmpty : store.mapKeys.isEmpty with
      | false => exact keeps.carriesIds wf plain size isEmpty
      | true =>
        have none := getElem?_of_isEmpty isEmpty
        exact ⟨by simp [none], by simp [none], by simp [none]⟩
    · intro carries
      exact carries.keepsKeys wf plain size
  · simp only [size, ne_eq, not_false_eq_true, true_or, iff_true]
    intro encrypted ran
    refine ⟨?_, ?_⟩
    · intro rnds unlocked opened
      obtain ⟨impossible, -⟩ | ⟨-, -, other, -⟩ := unlock_cases S D C opened
      · cases impossible
      · exact absurd other size
    · intro nonempty
      obtain ⟨id, key, stored⟩ := exists_stored nonempty
      have listed := mem_toList_iff.mpr stored
      rw [encryptKeys_eq D C wf.valid plain (wf.noCryptedKeys plain)] at ran
      split_ifs at ran with empty
      · rw [empty.resolve_left size] at listed
        cases listed
      · cases ran

def onesKey : Key := { Key.new.withKeypair oneKeyScheme [] with fCompressed := true }

def oneKey (key : Key) : KeyStore := ⟨(∅ : KeyMap Key).insert 0 key, ∅, ∅, [], false, false⟩

theorem getElem?_oneKey (key) (id : Uint160)
    : (oneKey key).mapKeys[id]? = if 0 = id then some key else none := by
  rw [oneKey, getElem?_insert, Std.TreeMap.getElem?_emptyc]

theorem onesKey_signs (rnd)
    : onesKey.verifyPubKey oneKeyScheme zeroDigests.toHashing rnd onesKey.cachedPubKey = true := by
  rw [Key.verifyPubKey, PubKey.verify_eq]
  rfl

/-- A store with a generated key keeps it. -/
theorem keepsKeys_generated
    : ∃ store ∈ empty.states oneKeyScheme zeroDigests plainCipher (fun _ _ _ _ => []) .main
        [.generateNewKey (Vector.replicate 32 0) []],
      store.fUseCrypto = false
      ∧ store.mapKeys.isEmpty = false
      ∧ store.KeepsKeys oneKeyScheme zeroDigests plainCipher
          (List.replicate WALLET_CRYPTO_KEY_SIZE 0) := by
  have generated : generateNewKey oneKeyScheme zeroDigests (fun _ _ _ _ => [])
      (Vector.replicate 32 0) [] = some (some (onesKey, onesKey.cachedPubKey)) := by
    simp only [generateNewKey, makeNewKey_eq]
    rw [getPubKey_of_valid rfl]
    exact if_pos (onesKey_signs [])
  have reached : oneKey onesKey ∈ empty.states oneKeyScheme zeroDigests plainCipher
      (fun _ _ _ _ => []) .main [.generateNewKey (Vector.replicate 32 0) []] := by
    have ran : empty.step oneKeyScheme zeroDigests plainCipher (fun _ _ _ _ => []) .main
        (.generateNewKey (Vector.replicate 32 0) []) = some (oneKey onesKey) := by
      rw [step, generated]
      rfl
    simp only [states, ran, mem_cons, true_or, or_true]
  refine ⟨oneKey onesKey, reached, rfl, rfl, (keepsKeys_iff reached rfl _).mpr (.inr ⟨?_, ?_, ?_⟩)⟩
  · intro id key found
    rw [getElem?_oneKey] at found
    split_ifs at found
    cases found
    exact onesKey_signs
  · intro id key found
    rw [getElem?_oneKey] at found
    split_ifs at found
    cases found
    exact ⟨onesKey, getElem?_oneKey onesKey 0, rfl⟩
  · intro first second key other found foundOther _
    rw [getElem?_oneKey] at found foundOther
    split_ifs at found foundOther with zero otherZero
    rw [← zero, ← otherZero]

/-- One key that does not sign for the public key it carries keeps its store locked. -/
theorem unlock_oneKey {key vMasterKey} (valid : key.fValid = true)
    (size : vMasterKey.length = WALLET_CRYPTO_KEY_SIZE)
    (refused : key.verifyPubKey oneKeyScheme zeroDigests.toHashing [] key.cachedPubKey = false)
    : (encryptedStore plainCipher zeroDigests vMasterKey (oneKey key)).unlock oneKeyScheme
        zeroDigests plainCipher vMasterKey (fun _ => [])
      = some (encryptedStore plainCipher zeroDigests vMasterKey (oneKey key), false) := by
  have closed : decryptKey oneKeyScheme zeroDigests plainCipher vMasterKey
      (encryptedEntry plainCipher zeroDigests vMasterKey key).2
      (encryptedEntry plainCipher zeroDigests vMasterKey key).1 Key.new [] = none := by
    rw [decryptKey_encryptedEntry size valid, refused]
    rfl
  have listed : (encryptedStore plainCipher zeroDigests vMasterKey
      (oneKey key)).mapCryptedKeys.toList
      = [(0, encryptedEntry plainCipher zeroDigests vMasterKey key)] := rfl
  have crypted : (encryptedStore plainCipher zeroDigests vMasterKey (oneKey key)).fUseCrypto
      = true := rfl
  simp only [unlock, setCrypted, crypted, if_true, listed, checkEntries, closed]

theorem oneKey_of_importWalletLine {line key pubkey}
    (imported : importWalletLine oneKeyScheme zeroDigests .main empty (PubKey.filled 0) line []
      = some (some (key, pubkey)))
    : oneKey key ∈ empty.states oneKeyScheme zeroDigests plainCipher (fun _ _ _ _ => []) .main
        [.importWalletLine (PubKey.filled 0) line []] := by
  have ran : empty.step oneKeyScheme zeroDigests plainCipher (fun _ _ _ _ => []) .main
      (.importWalletLine (PubKey.filled 0) line []) = some (oneKey key) := by
    rw [step, imported]
    rfl
  simp only [states, ran, mem_cons, true_or, or_true]

theorem importWalletLine_onesKey
    : importWalletLine oneKeyScheme zeroDigests .main empty (PubKey.filled 0)
        (secretChars .main zeroDigests.toHashing onesKey ++ pubKeyChars onesKey ++ [0x20]) []
      = some (some (Key.new.set onesKey.keydata true, onesKey.cachedPubKey)) := by
  rw [importWalletLine_of_dump rfl rfl, checkedImport, if_pos]
  · rfl
  · rw [Key.verifyPubKey, PubKey.verify_eq]
    rfl

/-- The same key, imported from a dump of its wallet, carries no public key. The encrypted store
has it under the zero public key, which its secret does not sign for, and stays locked.
-/
theorem imported_stays_locked
    : ∃ store ∈ empty.states oneKeyScheme zeroDigests plainCipher (fun _ _ _ _ => []) .main
        [.importWalletLine (PubKey.filled 0)
          (secretChars .main zeroDigests.toHashing onesKey ++ pubKeyChars onesKey ++ [0x20]) []],
      store.fUseCrypto = false
      ∧ store.mapKeys.isEmpty = false
      ∧ ∃ encrypted,
          store.encryptKeys zeroDigests plainCipher (List.replicate WALLET_CRYPTO_KEY_SIZE 0)
            = some (encrypted, true)
          ∧ encrypted.unlock oneKeyScheme zeroDigests plainCipher
              (List.replicate WALLET_CRYPTO_KEY_SIZE 0) (fun _ => [])
            = some (encrypted, false) := by
  have reached := oneKey_of_importWalletLine importWalletLine_onesKey
  have wf := wellFormed_empty.states _ _ reached
  have valid : (Key.new.set onesKey.keydata true).fValid = true :=
    wf.valid 0 _ (getElem?_oneKey _ 0)
  have size : (List.replicate WALLET_CRYPTO_KEY_SIZE (0 : Byte)).length = WALLET_CRYPTO_KEY_SIZE :=
    length_replicate
  refine ⟨_, reached, rfl, rfl, _, encryptKeys_eq_encryptedStore wf rfl size,
    unlock_oneKey valid size ?_⟩
  rw [Key.verifyPubKey, PubKey.verify_eq, keyBytes_cachedPubKey, pubkeydata_set]
  rfl

end Encryption

end KeyStore

end Pqcoin
