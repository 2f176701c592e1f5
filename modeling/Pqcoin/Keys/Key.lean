import Pqcoin.Keys.PubKey

/-! Private keys. A `CKey` carries its secret bytes and, next to them, a copy of the public
key that only some of its operations fill. An assertion of the source that fails is `none`.
-/

namespace Pqcoin

open List

def asciiBytes (text : String) : List Byte := text.toUTF8.data.toList.map UInt8.toBitVec

/-- `CKey`; both vectors keep the size that the constructor gives them. -/
structure Key where
  fValid : Bool
  fCompressed : Bool
  keydata : List Byte
  pubkeydata : List Byte
  length_keydata : keydata.length = PRIVATE_KEY_SIZE
  length_pubkeydata : pubkeydata.length = PUB_KEY_SIZE
  deriving DecidableEq

namespace Key

variable (key : Key)

/-- `CKey()`. -/
def new : Key where
  fValid := false
  fCompressed := false
  keydata := List.replicate PRIVATE_KEY_SIZE 0
  pubkeydata := List.replicate PUB_KEY_SIZE 0
  length_keydata := length_replicate
  length_pubkeydata := length_replicate

def size : Nat := if key.fValid then key.keydata.length else 0

/-- The bytes from `begin()` to `end()`. -/
def secret : List Byte := key.keydata.take key.size

/-- `operator==`, which leaves out the copy of the public key. -/
def equals (a b : Key) : Bool :=
  a.fCompressed == b.fCompressed && a.size == b.size
    && a.keydata.take a.size == b.keydata.take a.size

def set (bytes : List Byte) (fCompressedIn : Bool) : Key :=
  if length : bytes.length = PRIVATE_KEY_SIZE then
    { key with
      fValid := true, fCompressed := fCompressedIn, keydata := bytes, length_keydata := length }
  else { key with fValid := false }

/-- The public key next to the secret, under the header that `GetPubKey` writes. -/
def cachedPubKey : PubKey :=
  PubKey.ofKeyBytes 7 key.pubkeydata key.length_pubkeydata

def getPrivKey : Option (List Byte) :=
  if key.fValid then some key.keydata else none

def getPubKey : Option PubKey :=
  if key.fValid then some key.cachedPubKey else none

/-- `Sign`: what it leaves in `vchSig`. -/
def sign (S : SignatureScheme) (key : Key) (hash : Uint256) : List Byte :=
  if key.fValid then S.signature (bytesLE 32 hash) key.keydata else []

/-- The hash that `VerifyPubKey` signs, for the eight random bytes it draws. -/
def challenge (H : Hashing) (rnd : List Byte) : Uint256 :=
  H.hash256 (asciiBytes "Bitcoin key verification\n" ++ rnd)

def verifyPubKey (S : SignatureScheme) (H : Hashing) (key : Key) (rnd : List Byte) (pubkey : PubKey)
    : Bool :=
  pubkey.verify S (challenge H rnd) (key.sign S (challenge H rnd))

/-- The writes of `Load`, `none` when `privkey` is longer than the vector it is copied to. -/
def loadBytes (privkey : List Byte) (vchPubKey : PubKey) : Option Key :=
  if inside : privkey.length ≤ PRIVATE_KEY_SIZE then
    some
      { fValid := true
        fCompressed := true
        keydata := privkey ++ key.keydata.drop privkey.length
        pubkeydata := vchPubKey.keyBytes
        length_keydata := by simp [key.length_keydata, inside]
        length_pubkeydata := vchPubKey.length_keyBytes }
  else none

/-- `Load`: the key it leaves and what it returns. -/
def load (S : SignatureScheme) (H : Hashing) (key : Key) (privkey : List Byte)
    (vchPubKey : PubKey) (fSkipCheck : Bool) (rnd : List Byte)
    : Option (Key × Bool) :=
  (key.loadBytes privkey vchPubKey).map (fun loaded =>
    (loaded, fSkipCheck || loaded.verifyPubKey S H rnd vchPubKey))

-- What the operations leave in the key

theorem secret_of_valid {key : Key} (valid : key.fValid = true) : key.secret = key.keydata := by
  rw [secret, size, if_pos valid, take_length]

theorem length_secret {key : Key} (valid : key.fValid = true)
    : key.secret.length = PRIVATE_KEY_SIZE := by
  rw [secret_of_valid valid, key.length_keydata]

theorem getPubKey_of_valid {key : Key} (valid : key.fValid = true)
    : key.getPubKey = some key.cachedPubKey := if_pos valid

theorem of_getPubKey {key : Key} {pubkey} (ran : key.getPubKey = some pubkey)
    : key.fValid = true ∧ pubkey = key.cachedPubKey := by
  rw [getPubKey] at ran
  split_ifs at ran with valid
  cases ran
  exact ⟨valid, rfl⟩

@[simp] theorem header_cachedPubKey : key.cachedPubKey.header = 7 := rfl

@[simp] theorem keyBytes_cachedPubKey : key.cachedPubKey.keyBytes = key.pubkeydata := rfl

theorem cachedPubKey_eq_standardHeader {key : Key} {pubkey : PubKey}
    (carried : key.pubkeydata = pubkey.keyBytes)
    : key.cachedPubKey = pubkey.standardHeader := by
  simp only [cachedPubKey, PubKey.standardHeader, carried]

/-- `Set` writes the secret and the flags, and leaves the copy of the public key. -/
@[simp] theorem pubkeydata_set (bytes : List Byte) (fCompressedIn : Bool)
    : (key.set bytes fCompressedIn).pubkeydata = key.pubkeydata := by
  rw [set]
  split <;> rfl

theorem set_of_length {bytes} (length : bytes.length = PRIVATE_KEY_SIZE) (key : Key) (fCompressedIn)
    : key.set bytes fCompressedIn
      = ⟨true, fCompressedIn, bytes, key.pubkeydata, length, key.length_pubkeydata⟩ :=
  dif_pos length

/-- A full secret replaces all of `keydata`. -/
theorem loadBytes_of_length {privkey} (length : privkey.length = PRIVATE_KEY_SIZE)
    (key : Key) (vchPubKey)
    : key.loadBytes privkey vchPubKey
      = some ⟨true, true, privkey, vchPubKey.keyBytes, length, vchPubKey.length_keyBytes⟩ := by
  rw [loadBytes, dif_pos (Nat.le_of_eq length)]
  have drop : key.keydata.drop privkey.length = [] := by
    rw [drop_eq_nil_iff, key.length_keydata, length]
  simp only [drop, append_nil]

theorem pubkeydata_of_loadBytes {key loaded : Key} {privkey} {vchPubKey}
    (ran : key.loadBytes privkey vchPubKey = some loaded)
    : loaded.pubkeydata = vchPubKey.keyBytes ∧ loaded.fValid = true := by
  rw [loadBytes] at ran
  split at ran
  · cases ran
    exact ⟨rfl, rfl⟩
  · cases ran

end Key

end Pqcoin
