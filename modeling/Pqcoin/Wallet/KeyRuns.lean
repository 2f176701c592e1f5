import Pqcoin.Wallet.KeyStore

/-! Runs of the key store: the commands and the loading of the wallet file as steps, and the
invariant that every run keeps. Each step that adds a key hands it to `AddKeyPubKey` next to
the public key whose id it is stored under.
-/

namespace Pqcoin

/-- The steps, with the random bytes they draw and the memory of the key objects they fill.
`EncryptWallet` is the step `encrypt`, followed by locking, unlocking and new keys;
`importwallet` is one step for each line of the file.
-/
inductive KeyOperation where
  | generateNewKey (gene_entro : Vector Byte 32) (rnd : List Byte)
  | importMnemonic (str_mnemonic rnd : List Byte)
  | importPrivKey (memory : PubKey) (str rnd : List Byte)
  | importWalletLine (memory : PubKey) (line rnd : List Byte)
  | loadKey (vchPubKey : PubKey) (pkey : List Byte) (hash : Uint256) (rnd : List Byte)
  | loadCryptedKey (vchPubKey : PubKey) (vchPrivKey : List Byte)
  | encrypt (vMasterKey : List Byte)
  | lock
  | unlock (vMasterKeyIn : List Byte) (rnds : Nat → List Byte)

section Runs

variable (S : SignatureScheme) (D : Digests) (C : Cipher) (pbkdf2 : Pbkdf2) (net : Network)

-- The keys that are handed to the store

def generateNewKey (gene_entro : Vector Byte 32) (rnd : List Byte)
    : Option (Option (Key × PubKey)) :=
  match Key.new.makeNewKey S D pbkdf2 gene_entro with
  | .error _ => none
  | .ok (secret, _) =>
    match secret.getPubKey with
    | none => none
    | some pubkey =>
      if secret.verifyPubKey S D.toHashing rnd pubkey then some (some (secret, pubkey))
      else none

/-- The end of an import: the pair is checked, and nothing is added for a known id. -/
def checkedImport (store : KeyStore) (key : Key) (pubkey : PubKey) (rnd : List Byte)
    : Option (Option (Key × PubKey)) :=
  if key.verifyPubKey S D.toHashing rnd pubkey then
    some (if store.haveKey (pubkey.getID D) then none else some (key, pubkey))
  else none

def importMnemonic (store : KeyStore) (str_mnemonic rnd : List Byte)
    : Option (Option (Key × PubKey)) :=
  if store.isLocked then some none
  else match Key.new.makeNewKeyByMnemonic S pbkdf2 str_mnemonic with
    | .error _ => none
    | .ok key =>
      match key.getPubKey with
      | none => none
      | some pubkey => checkedImport S D store key pubkey rnd

/-- `importprivkey`, up to `AddKeyPubKey`; the parser has already checked the pair. -/
def importPrivKeyInto (store : KeyStore) (memory : PubKey) (str rnd : List Byte)
    : Option (Option (Key × PubKey)) :=
  if store.isLocked then some none
  else match importPrivKey S net D.toHashing memory rnd str with
    | .error .assertion => none
    | .error _ => some none
    | .ok (key, pubkey) =>
      some (if store.haveKey (pubkey.getID D) then none else some (key, pubkey))

def importWalletLine (store : KeyStore) (memory : PubKey) (line rnd : List Byte)
    : Option (Option (Key × PubKey)) :=
  let str := line.takeWhile (· ≠ 0x20)
  if store.isLocked then some none
  else if line.head? = none ∨ line.head? = some 0x23 then some none
  else if !line.contains 0x20 then some none
  else if str.length < SECRET_CHARS then some none
  else match secretOfString net D.toHashing (str.take SECRET_CHARS) with
    | .error .assertion => none
    | .error .rejected => some none
    | .ok vchSecret =>
      match keyOfSecret vchSecret, pubKeyOfString memory (str.drop SECRET_CHARS) with
      | some key, some pubkey => checkedImport S D store key pubkey rnd
      | _, _ => none

def readKey (vchPubKey : PubKey) (pkey : List Byte) (hash : Uint256) (rnd : List Byte)
    : Option (Option (Key × PubKey)) :=
  if !vchPubKey.isValid then some none
  else if hash ≠ 0 ∧ D.hash256 (vchPubKey.vch.take vchPubKey.size ++ pkey) ≠ hash then some none
  else match Key.new.load S D.toHashing pkey vchPubKey (hash != 0) rnd with
    | none => none
    | some (_, false) => some none
    | some (key, true) => some (some (key, vchPubKey))

-- The public key that a handed key carries

section Handed

variable {S D pbkdf2 net} {store : KeyStore} {key : Key} {pubkey : PubKey} {rnd : List Byte}

theorem of_generateNewKey {gene_entro}
    (ran : generateNewKey S D pbkdf2 gene_entro rnd = some (some (key, pubkey)))
    : key.fValid = true
      ∧ pubkey = key.cachedPubKey
      ∧ key.verifyPubKey S D.toHashing rnd pubkey = true := by
  rw [generateNewKey] at ran
  split at ran
  · cases ran
  split at ran
  · cases ran
  rename_i found
  split_ifs at ran with verified
  cases ran
  exact ⟨(Key.of_getPubKey found).1, (Key.of_getPubKey found).2, verified⟩

theorem of_checkedImport {imported vchPubKey}
    (ran : checkedImport S D store imported vchPubKey rnd = some (some (key, pubkey)))
    : key = imported
      ∧ pubkey = vchPubKey
      ∧ key.verifyPubKey S D.toHashing rnd pubkey = true := by
  rw [checkedImport] at ran
  split_ifs at ran with verified known
  · cases ran
  · cases ran
    exact ⟨rfl, rfl, verified⟩

theorem of_importMnemonic {str_mnemonic}
    (ran : importMnemonic S D pbkdf2 store str_mnemonic rnd = some (some (key, pubkey)))
    : key.fValid = true
      ∧ pubkey = key.cachedPubKey
      ∧ key.verifyPubKey S D.toHashing rnd pubkey = true := by
  rw [importMnemonic] at ran
  split_ifs at ran with locked
  · cases ran
  · split at ran
    · cases ran
    split at ran
    · cases ran
    rename_i found
    obtain ⟨rfl, rfl, verified⟩ := of_checkedImport ran
    exact ⟨(Key.of_getPubKey found).1, (Key.of_getPubKey found).2, verified⟩

theorem of_importPrivKeyInto {memory str}
    (ran : importPrivKeyInto S D net store memory str rnd = some (some (key, pubkey)))
    : key.fValid = true
      ∧ key.pubkeydata = pubkey.keyBytes
      ∧ key.verifyPubKey S D.toHashing rnd pubkey = true := by
  rw [importPrivKeyInto] at ran
  split_ifs at ran with locked
  · cases ran
  · split at ran
    · cases ran
    · cases ran
    · rename_i imported
      split_ifs at ran with known
      · cases ran
      · cases ran
        exact of_importPrivKey imported

theorem of_importWalletLine {memory line}
    (ran : importWalletLine S D net store memory line rnd = some (some (key, pubkey)))
    : key.fValid = true
      ∧ key.cachedPubKey = Key.new.cachedPubKey
      ∧ key.verifyPubKey S D.toHashing rnd pubkey = true := by
  rw [importWalletLine] at ran
  -- Every branch but the last one hands nothing over.
  repeat' split at ran
  all_goals try cases ran
  rename_i keyOf _
  obtain ⟨rfl, rfl, verified⟩ := of_checkedImport ran
  exact ⟨(of_keyOfSecret keyOf).1, (of_keyOfSecret keyOf).2, verified⟩

/-- The characters of a dump string are neither blanks nor the mark of a comment. -/
theorem plain_of_mem_dump {H character}
    (inside : character ∈ secretChars net H key ++ pubKeyChars key)
    : character ≠ 0x20 ∧ character ≠ 0x23 := by
  have all : ∀ digit < 58, base58Char digit ≠ 0x20 ∧ base58Char digit ≠ 0x23 := by decide
  rcases List.mem_append.mp inside with first | second
  · obtain ⟨digit, mem, rfl⟩ := List.mem_map.mp first
    exact all digit (base58Digits_lt mem)
  · obtain ⟨digit, mem, rfl⟩ := List.mem_map.mp second
    exact all digit (base58Digits_lt mem)

theorem importWalletLine_of_dump (compressed : key.fCompressed = true)
    (unlocked : store.isLocked = false) (memory rest)
    : importWalletLine S D net store memory
        (secretChars net D.toHashing key ++ pubKeyChars key ++ 0x20 :: rest) rnd
      = checkedImport S D store (Key.new.set key.keydata true) key.cachedPubKey rnd := by
  have cut : (secretChars net D.toHashing key).length = SECRET_CHARS := by
    rw [length_secretChars, if_pos compressed]
  generalize whole : secretChars net D.toHashing key ++ pubKeyChars key ++ 0x20 :: rest = line
  have str : line.takeWhile (· ≠ 0x20)
      = secretChars net D.toHashing key ++ pubKeyChars key := by
    rw [← whole, List.takeWhile_append_of_pos]
    · simp
    · intro character inside
      simpa using (plain_of_mem_dump inside).1
  have long : ¬ (secretChars net D.toHashing key ++ pubKeyChars key).length < SECRET_CHARS := by
    rw [List.length_append, cut]
    omega
  obtain ⟨first, behind, chars⟩ : ∃ first behind,
      secretChars net D.toHashing key = first :: behind :=
    List.exists_cons_of_length_pos (by rw [cut]; exact Nat.succ_pos _)
  have comment : ¬ (line.head? = none ∨ line.head? = some 0x23) := by
    have inside : first ∈ secretChars net D.toHashing key ++ pubKeyChars key := by
      simp [chars]
    simpa [← whole, chars] using (plain_of_mem_dump inside).2
  have fields : line.contains 0x20 = true := by simp [← whole]
  simp only [importWalletLine, unlocked, Bool.false_eq_true, if_false, if_neg comment,
    fields, Bool.not_true, str, if_neg long]
  rw [← cut, List.take_left, List.drop_left, secretOfString_secretChars]
  simp only [keyOfSecret_eq, pubKeyOfString_pubKeyChars]
  rw [compressed]

theorem of_readKey {vchPubKey pkey hash}
    (ran : readKey S D vchPubKey pkey hash rnd = some (some (key, pubkey)))
    : key.fValid = true ∧ key.pubkeydata = pubkey.keyBytes := by
  rw [readKey] at ran
  repeat' split at ran
  all_goals try cases ran
  rename_i loaded
  obtain ⟨after, bytes, same⟩ := Option.map_eq_some_iff.mp loaded
  cases (congrArg Prod.fst same : after = _)
  exact ⟨(Key.pubkeydata_of_loadBytes bytes).2, (Key.pubkeydata_of_loadBytes bytes).1⟩

end Handed

-- Steps and runs

namespace KeyStore

def addHanded (store : KeyStore) : Option (Option (Key × PubKey)) → Option KeyStore
  | none => none
  | some none => some store
  | some (some (key, pubkey)) => some (store.addKeyPubKey D C key pubkey).1

/-- One step; a failed assertion ends the run. -/
def step (store : KeyStore) : KeyOperation → Option KeyStore
  | .generateNewKey gene_entro rnd =>
    store.addHanded D C (generateNewKey S D pbkdf2 gene_entro rnd)
  | .importMnemonic str_mnemonic rnd =>
    store.addHanded D C (importMnemonic S D pbkdf2 store str_mnemonic rnd)
  | .importPrivKey memory str rnd =>
    store.addHanded D C (importPrivKeyInto S D net store memory str rnd)
  | .importWalletLine memory line rnd =>
    store.addHanded D C (importWalletLine S D net store memory line rnd)
  | .loadKey vchPubKey pkey hash rnd =>
    store.addHanded D C (readKey S D vchPubKey pkey hash rnd)
  | .loadCryptedKey vchPubKey vchPrivKey =>
    some (store.addCryptedKey D vchPubKey vchPrivKey).1
  | .encrypt vMasterKey =>
    if store.fUseCrypto then some store
    else match store.encryptKeys D C vMasterKey with
      | some (store, true) => some store
      | _ => none
  | .lock => some store.lock.1
  | .unlock vMasterKeyIn rnds => (store.unlock S D C vMasterKeyIn rnds).map Prod.fst

def states (store : KeyStore) : List KeyOperation → List KeyStore
  | [] => [store]
  | operation :: rest =>
    store :: match store.step S D C pbkdf2 net operation with
      | none => []
      | some next => next.states rest

def steps (store : KeyStore) : List KeyOperation → List (KeyStore × KeyOperation)
  | [] => []
  | operation :: rest =>
    (store, operation) :: match store.step S D C pbkdf2 net operation with
      | none => []
      | some next => next.steps rest

-- The invariant of the store

/-- What the source says about its fields, and that every entry is under its own id. -/
structure WellFormed (store : KeyStore) : Prop where
  valid : ∀ (id : Uint160) (key : Key), store.mapKeys[id]? = some key → key.fValid = true
  named
    : ∀ (id : Uint160) (vchPubKey : PubKey) (vchCryptedSecret : List Byte),
        store.mapCryptedKeys[id]? = some (vchPubKey, vchCryptedSecret) → vchPubKey.getID D = id
  masterKey : store.vMasterKey = [] ∨ store.vMasterKey.length = WALLET_CRYPTO_KEY_SIZE
  noKeys : store.fUseCrypto = true → store.mapKeys.isEmpty = true
  noMasterKey : store.fUseCrypto = false → store.vMasterKey = []
  noCryptedKeys : store.fUseCrypto = false → store.mapCryptedKeys.isEmpty = true
  notChecked : store.fUseCrypto = false → store.fDecryptionThoroughlyChecked = false

variable {S D C pbkdf2 net} {store next : KeyStore}

theorem wellFormed_empty : WellFormed D empty where
  valid _ _ found := by cases found
  named _ _ _ found := by cases found
  masterKey := .inl rfl
  noKeys crypted := by cases crypted
  noMasterKey _ := rfl
  noCryptedKeys _ := rfl
  notChecked _ := rfl

section

variable (wf : WellFormed D store)

include wf

/-- A store without keys in the clear can change to the encrypted mode. -/
theorem WellFormed.crypted (noKeys : store.mapKeys.isEmpty = true)
    : WellFormed D { store with fUseCrypto := true } :=
  { wf with
    noKeys := fun _ => noKeys
    noMasterKey := by simp
    noCryptedKeys := by simp
    notChecked := by simp }

theorem WellFormed.setCrypted : WellFormed D store.setCrypted.1 := by
  rw [setCrypted_eq]
  split_ifs with allowed
  · rcases Bool.or_eq_true_iff.mp allowed with crypted | noKeys
    · exact wf.crypted (wf.noKeys crypted)
    · exact wf.crypted noKeys
  · exact wf

theorem WellFormed.insertCrypted (crypted : store.fUseCrypto = true) (vchPubKey) (vchCryptedSecret)
    : WellFormed D
        { store with
          mapCryptedKeys :=
            store.mapCryptedKeys.insert (vchPubKey.getID D) (vchPubKey, vchCryptedSecret) } :=
  { wf with
    named := by
      intro id pubkey secret found
      rw [getElem?_insert] at found
      split_ifs at found with same
      · cases found
        exact same
      · exact wf.named id pubkey secret found
    noCryptedKeys := fun plain => by simp [crypted] at plain }

theorem WellFormed.addCryptedKey (vchPubKey vchCryptedSecret)
    : WellFormed D (store.addCryptedKey D vchPubKey vchCryptedSecret).1 := by
  rw [addCryptedKey_eq]
  split_ifs with allowed
  · have crypted := wf.setCrypted
    rw [setCrypted_eq, if_pos allowed] at crypted
    exact crypted.insertCrypted rfl vchPubKey vchCryptedSecret
  · exact wf

theorem WellFormed.addKeyPubKey_eq (key pubkey)
    : (store.addKeyPubKey D C key pubkey).1
      = if store.fUseCrypto = false then
          { store with mapKeys := store.mapKeys.insert (pubkey.getID D) key }
        else if store.isLocked = true then store
        else
          { store with
            mapCryptedKeys :=
              store.mapCryptedKeys.insert (pubkey.getID D)
                (pubkey,
                  C.encrypt store.vMasterKey (chIV (pubkey.getHash D.toHashing)) key.secret) } := by
  rw [addKeyPubKey]
  cases crypted : store.fUseCrypto with
  | false => rfl
  | true =>
    cases locked : store.isLocked with
    | true => rfl
    | false =>
      have size : store.vMasterKey.length = WALLET_CRYPTO_KEY_SIZE := by
        refine wf.masterKey.resolve_left (fun none => ?_)
        simp [isLocked, crypted, none] at locked
      simp [encryptSecret_eq, size, addCryptedKey_eq, crypted]

theorem WellFormed.addKeyPubKey {key} (valid : key.fValid = true) (pubkey)
    : WellFormed D (store.addKeyPubKey D C key pubkey).1 := by
  rw [wf.addKeyPubKey_eq]
  split_ifs with plain locked
  · exact
      { wf with
        valid := by
          intro id stored found
          rw [getElem?_insert] at found
          split_ifs at found with same
          · cases found
            exact valid
          · exact wf.valid id stored found
        noKeys := fun crypted => by simp [plain] at crypted }
  · exact wf
  · exact wf.insertCrypted (by simpa using plain) pubkey _

end

/-- The loop of the encryption keeps every entry under its own id. -/
theorem named_foldl (vMasterKey) (entries : List (Uint160 × Key)) {map}
    (named : ∀ (id) (vchPubKey : PubKey) (vchCryptedSecret),
      map[id]? = some (vchPubKey, vchCryptedSecret) → vchPubKey.getID D = id)
    : ∀ id (vchPubKey : PubKey) (vchCryptedSecret : List Byte),
      (entries.foldl (insertEncrypted D C vMasterKey) map)[id]?
          = some (vchPubKey, vchCryptedSecret)
      → vchPubKey.getID D = id := by
  induction entries generalizing map with
  | nil => exact named
  | cons entry rest ih =>
    refine ih ?_
    intro id vchPubKey vchCryptedSecret found
    rw [insertEncrypted, getElem?_insert] at found
    split_ifs at found with same
    · cases found
      exact same
    · exact named id vchPubKey vchCryptedSecret found

section

variable (wf : WellFormed D store)

include wf

theorem WellFormed.encryptKeys (plain : store.fUseCrypto = false) {vMasterKey}
    (ran : store.encryptKeys D C vMasterKey = some (next, true))
    : next.fUseCrypto = true ∧ next.vMasterKey = [] ∧ WellFormed D next := by
  rw [encryptKeys_eq D C wf.valid plain (wf.noCryptedKeys plain)] at ran
  split_ifs at ran with size
  · cases ran
    exact ⟨rfl, wf.noMasterKey plain,
      { valid := by simp
        named := named_foldl vMasterKey _ wf.named
        masterKey := wf.masterKey
        noKeys := by simp
        noMasterKey := by simp
        noCryptedKeys := by simp
        notChecked := by simp }⟩
  · cases ran

theorem WellFormed.unlock {vMasterKeyIn rnds result}
    (ran : store.unlock S D C vMasterKeyIn rnds = some (next, result))
    : WellFormed D next := by
  obtain ⟨-, rfl⟩ | ⟨-, allowed, size, rfl⟩ := unlock_cases S D C ran
  · exact wf.setCrypted
  have crypted := wf.setCrypted
  rw [setCrypted_eq] at crypted allowed ⊢
  split_ifs at crypted allowed ⊢
  exact
    { crypted with
      masterKey := .inr size
      noMasterKey := by simp
      noCryptedKeys := by simp
      notChecked := by simp }

theorem WellFormed.lock : WellFormed D store.lock.1 := by
  have crypted := wf.setCrypted
  rw [KeyStore.lock]
  split
  · rename_i after refused
    rwa [refused] at crypted
  rename_i after accepted
  rw [accepted] at crypted
  exact { crypted with masterKey := .inl rfl, noMasterKey := fun _ => rfl }

theorem WellFormed.addHanded {handed}
    (valid : ∀ key pubkey, handed = some (some (key, pubkey)) → key.fValid = true)
    (ran : store.addHanded D C handed = some next)
    : WellFormed D next := by
  rcases handed with - | - | ⟨key, pubkey⟩
  · cases ran
  · cases ran
    exact wf
  · cases ran
    exact wf.addKeyPubKey (valid key pubkey rfl) pubkey

/-- Every step keeps the invariant. -/
theorem WellFormed.step {operation} (ran : store.step S D C pbkdf2 net operation = some next)
    : WellFormed D next := by
  cases operation with
  | generateNewKey gene_entro rnd =>
    exact wf.addHanded (fun _ _ handed => (of_generateNewKey handed).1) ran
  | importMnemonic str_mnemonic rnd =>
    exact wf.addHanded (fun _ _ handed => (of_importMnemonic handed).1) ran
  | importPrivKey memory str rnd =>
    exact wf.addHanded (fun _ _ handed => (of_importPrivKeyInto handed).1) ran
  | importWalletLine memory line rnd =>
    exact wf.addHanded (fun _ _ handed => (of_importWalletLine handed).1) ran
  | loadKey vchPubKey pkey hash rnd =>
    exact wf.addHanded (fun _ _ handed => (of_readKey handed).1) ran
  | loadCryptedKey vchPubKey vchPrivKey =>
    cases ran
    exact wf.addCryptedKey vchPubKey vchPrivKey
  | encrypt vMasterKey =>
    rw [KeyStore.step] at ran
    split_ifs at ran with crypted
    · cases ran
      exact wf
    · split at ran
      · rename_i encrypted
        cases ran
        exact (wf.encryptKeys (by simpa using crypted) encrypted).2.2
      · cases ran
  | lock =>
    cases ran
    exact wf.lock
  | unlock vMasterKeyIn rnds =>
    obtain ⟨⟨after, result⟩, unlocked, rfl⟩ := Option.map_eq_some_iff.mp ran
    exact wf.unlock unlocked

/-- So does every run. -/
theorem WellFormed.states (operations)
    : ∀ state ∈ store.states S D C pbkdf2 net operations, WellFormed D state := by
  induction operations generalizing store with
  | nil => simpa [KeyStore.states] using wf
  | cons operation rest ih =>
    intro state inside
    rw [KeyStore.states] at inside
    rcases List.mem_cons.mp inside with rfl | inside
    · exact wf
    split at inside
    · cases inside
    rename_i after ran
    exact ih (wf.step ran) state inside

end

end KeyStore

end Runs

end Pqcoin
