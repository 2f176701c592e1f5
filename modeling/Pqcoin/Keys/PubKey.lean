import Pqcoin.Primitives.Transaction

/-! Public keys. A `CPubKey` is a fixed array of bytes, so its constructors are modelled as
writes to the memory that the object occupies. The digests and the signature scheme are
parameters: only what the node hands to them comes from the source.
-/

namespace Pqcoin

open List

abbrev Uint160 := BitVec 160

/-- The digests that keys and scripts use next to the hash functions of the node. -/
structure Digests extends Hashing where
  ripemd160 : List Byte → Uint160
  sha1 : List Byte → Uint160
  sha256 : List Byte → Uint256

def Digests.hash160 (D : Digests) (bytes : List Byte) : Uint160 :=
  D.ripemd160 (bytesLE 32 (D.sha256 bytes))

/-- `PQCLEAN_DILITHIUM3_CLEAN_CRYPTO_PUBLICKEYBYTES_`. -/
def PUB_KEY_SIZE : Nat := 1952

/-- `PQCLEAN_DILITHIUM3_CLEAN_CRYPTO_SECRETKEYBYTES_`. -/
def PRIVATE_KEY_SIZE : Nat := 4016

def SIGN_SIZE : Nat := 3293

/-- Dilithium as the node calls it: `crypto_sign_keypair` from a seed to the public and the
secret key, `crypto_sign_signature` on a message and a secret key, and whether
`crypto_sign_verify` returns `0` on a signature, a message and a public key.
-/
structure SignatureScheme where
  keypair : List Byte → List Byte × List Byte
  signature : List Byte → List Byte → List Byte
  verify : List Byte → List Byte → List Byte → Bool
  length_publicKey : ∀ seed, (keypair seed).1.length = PUB_KEY_SIZE
  length_secretKey : ∀ seed, (keypair seed).2.length = PRIVATE_KEY_SIZE
  length_signature : ∀ message secret, (signature message secret).length = SIGN_SIZE

/-- `CPubKey`: the array `vch`, whatever it holds. -/
structure PubKey where
  vch : List Byte
  length_vch : vch.length = PUB_KEY_SIZE + 1
  deriving DecidableEq

namespace PubKey

variable (pubkey : PubKey)

/-- `CPubKey::SIZE`, and each of the other three sizes of a key. -/
def SIZE : Nat := PUB_KEY_SIZE + 1

def getLen (_chHeader : Byte) : Nat := SIZE

/-- `vch[0]`. -/
def header : Byte := pubkey.vch.headD 0

def size : Nat := getLen pubkey.header

def isValid : Bool := decide (0 < pubkey.size)

def isCompressed : Bool := pubkey.size == SIZE

/-- The bytes behind the header, from `begin() + 1` on. -/
def keyBytes : List Byte := pubkey.vch.drop 1

/-- `Invalidate` writes the header byte only. -/
def invalidate (memory : PubKey) : PubKey where
  vch := memory.vch.set 0 0xff
  length_vch := by rw [length_set, memory.length_vch]

/-- The length that `Set` expects of the bytes it is given. -/
def expectedLen : List Byte → Nat
  | [] => 0
  | chHeader :: _ => getLen chHeader

theorem length_of_expectedLen {bytes}
    (fits : expectedLen bytes ≠ 0 ∧ expectedLen bytes = bytes.length)
    : bytes.length = PUB_KEY_SIZE + 1 := by
  cases bytes with
  | nil => exact absurd rfl fits.1
  | cons chHeader rest => exact fits.2.symm

/-- `Set(pbegin, pend)`, over what `memory` held before. -/
def set (memory : PubKey) (bytes : List Byte) : PubKey :=
  if fits : expectedLen bytes ≠ 0 ∧ expectedLen bytes = bytes.length then
    ⟨bytes, length_of_expectedLen fits⟩
  else memory.invalidate

def getID (D : Digests) (pubkey : PubKey) : Uint160 := D.hash160 (pubkey.vch.take pubkey.size)

def getHash (H : Hashing) (pubkey : PubKey) : Uint256 :=
  H.hash256 (pubkey.vch.take pubkey.size)

def verify (S : SignatureScheme) (pubkey : PubKey) (hash : Uint256) (vchSig : List Byte)
    : Bool :=
  pubkey.isValid && S.verify vchSig (bytesLE 32 hash) pubkey.keyBytes

-- What the constructors leave in memory

@[simp] theorem isValid_eq_true : pubkey.isValid = true :=
  decide_eq_true (Nat.succ_pos PUB_KEY_SIZE)

@[simp] theorem isCompressed_eq_true : pubkey.isCompressed = true := beq_self_eq_true SIZE

@[simp] theorem take_size : pubkey.vch.take pubkey.size = pubkey.vch :=
  take_of_length_le (Nat.le_of_eq pubkey.length_vch)

@[simp] theorem length_keyBytes : pubkey.keyBytes.length = PUB_KEY_SIZE := by
  simp [keyBytes, pubkey.length_vch]

theorem verify_eq (S) (pubkey : PubKey) (hash) (vchSig)
    : pubkey.verify S hash vchSig = S.verify vchSig (bytesLE 32 hash) pubkey.keyBytes := by
  rw [verify, isValid_eq_true, Bool.true_and]

theorem set_of_length {bytes} (exact : bytes.length = SIZE) (memory : PubKey)
    : memory.set bytes = ⟨bytes, exact⟩ := by
  cases bytes with
  | nil => cases exact
  | cons chHeader rest => exact dif_pos ⟨Nat.succ_ne_zero _, exact.symm⟩

@[simp] theorem keyBytes_invalidate (memory : PubKey)
    : memory.invalidate.keyBytes = memory.keyBytes := by
  rw [keyBytes, invalidate, drop_set_of_lt (by decide), keyBytes]

def filled (byte : Byte) : PubKey where
  vch := List.replicate SIZE byte
  length_vch := length_replicate

def ofKeyBytes (chHeader : Byte) (bytes : List Byte) (length : bytes.length = PUB_KEY_SIZE)
    : PubKey where
  vch := chHeader :: bytes
  length_vch := by rw [length_cons, length]

def standardHeader : PubKey := ofKeyBytes 7 pubkey.keyBytes pubkey.length_keyBytes

theorem vch_eq_cons : pubkey.vch = pubkey.header :: pubkey.keyBytes := by
  rcases pubkey with ⟨vch, length⟩
  cases vch with
  | nil => cases length
  | cons chHeader rest => rfl

end PubKey

-- Parameters for concrete inputs

def zeroDigests : Digests where
  hash256 _ := 0
  scrypt _ := 0
  ripemd160 _ := 0
  sha1 _ := 0
  sha256 _ := 0

def zeroKeyScheme : SignatureScheme where
  keypair _ := (List.replicate PUB_KEY_SIZE 0, List.replicate PRIVATE_KEY_SIZE 0)
  signature _ _ := List.replicate SIGN_SIZE 0
  verify _ _ key := key.head? == some 0
  length_publicKey _ := length_replicate
  length_secretKey _ := length_replicate
  length_signature _ _ := length_replicate

def oneKeyScheme : SignatureScheme where
  keypair _ := (List.replicate PUB_KEY_SIZE 1, List.replicate PRIVATE_KEY_SIZE 0)
  signature _ _ := List.replicate SIGN_SIZE 0
  verify _ _ key := key.head? == some 1
  length_publicKey _ := length_replicate
  length_secretKey _ := length_replicate
  length_signature _ _ := length_replicate

end Pqcoin
