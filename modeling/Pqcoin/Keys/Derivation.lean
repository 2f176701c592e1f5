import Pqcoin.Keys.Key

/-! Hierarchical derivation: `CExtKey` and `CExtPubKey`. The HMACs and the tweak of secp256k1 are
parameters. A failed assertion is `none`, and an object that a function writes to is an argument,
with whatever it held before.
-/

namespace Pqcoin

open List

/-- The HMAC of `SetMaster` on a seed, `BIP32Hash`, and `secp256k1_ec_privkey_tweak_add` with what
it returns.
-/
structure DerivationFunctions where
  hmacSeed : List Byte → List Byte
  bip32Hash : Uint256 → BitVec 32 → Byte → List Byte → List Byte
  tweakAdd : List Byte → List Byte → List Byte × Bool
  length_hmacSeed : ∀ seed, (hmacSeed seed).length = 64
  length_tweakAdd : ∀ secret tweak, (tweakAdd secret tweak).1.length = 32

def readLE (w : Nat) (bytes : List Byte) : BitVec w := BitVec.ofNat w (Radix.value bytes)

/-- `CKey::Derive` into `keyChild`: the child, its chain code and what it returns. Only the first
32 bytes of `keyChild` are written, and its public key is not.
-/
def Key.derive (F : DerivationFunctions) (key keyChild : Key) (nChild : BitVec 32) (cc : Uint256)
    : Option (Key × Uint256 × Bool) :=
  if key.fValid = false ∨ key.fCompressed = false then none
  else
    let vout :=
      if nChild >>> 31 = 0 then
        key.getPubKey.bind fun pubkey =>
          if pubkey.size = PubKey.SIZE then
            some (F.bip32Hash cc nChild pubkey.header (pubkey.keyBytes.take 32))
          else none
      else if key.size = 32 then some (F.bip32Hash cc nChild 0 (key.keydata.take 32))
      else none
    vout.map fun vout =>
      let tweaked := F.tweakAdd (key.keydata.take 32) (vout.take 32)
      ({ keyChild with
          fValid := tweaked.2, fCompressed := true,
          keydata := tweaked.1 ++ keyChild.keydata.drop 32,
          length_keydata := by
            rw [length_append, F.length_tweakAdd, length_drop, keyChild.length_keydata]
            rfl },
        readLE 256 (vout.drop 32), tweaked.2)

structure ExtKey where
  nDepth : BitVec 8
  vchFingerprint : BitVec 32
  nChild : BitVec 32
  chaincode : Uint256
  key : Key

structure ExtPubKey where
  nDepth : BitVec 8
  vchFingerprint : BitVec 32
  nChild : BitVec 32
  chaincode : Uint256
  pubkey : PubKey
  deriving DecidableEq

def extHeader (nDepth : BitVec 8) (vchFingerprint nChild : BitVec 32) (chaincode : Uint256)
    : List Byte :=
  nDepth :: bytesLE 4 vchFingerprint ++ (bytesLE 4 nChild).reverse ++ bytesLE 32 chaincode

namespace ExtKey

def setMaster (F : DerivationFunctions) (ext : ExtKey) (seed : List Byte) : ExtKey where
  nDepth := 0
  vchFingerprint := 0
  nChild := 0
  chaincode := readLE 256 ((F.hmacSeed seed).drop 32)
  key := ext.key.set ((F.hmacSeed seed).take 32) true

def derive (F : DerivationFunctions) (D : Digests) (ext out : ExtKey) (nChild : BitVec 32)
    : Option (ExtKey × Bool) :=
  ext.key.getPubKey.bind fun pubkey =>
    (ext.key.derive F out.key nChild ext.chaincode).map fun (key, chaincode, ret) =>
      (⟨ext.nDepth + 1, (pubkey.getID D).setWidth 32, nChild, chaincode, key⟩, ret)

def neuter (ext : ExtKey) : Option ExtPubKey :=
  ext.key.getPubKey.map fun pubkey =>
    ⟨ext.nDepth, ext.vchFingerprint, ext.nChild, ext.chaincode, pubkey⟩

def encode (ext : ExtKey) : Option (List Byte) :=
  if ext.key.size = 32 then
    some (extHeader ext.nDepth ext.vchFingerprint ext.nChild ext.chaincode
      ++ 0 :: ext.key.keydata.take 32)
  else none

def decode (ext : ExtKey) (code : List Byte) : ExtKey where
  nDepth := readLE 8 (code.take 1)
  vchFingerprint := readLE 32 ((code.drop 1).take 4)
  nChild := readLE 32 ((code.drop 5).take 4).reverse
  chaincode := readLE 256 ((code.drop 9).take 32)
  key := ext.key.set (code.drop 42) true

/-- `operator==`. -/
def equals (a b : ExtKey) : Bool :=
  a.nDepth == b.nDepth && a.vchFingerprint == b.vchFingerprint && a.nChild == b.nChild
    && a.chaincode == b.chaincode && a.key.equals b.key

end ExtKey

namespace ExtPubKey

def encode (ext : ExtPubKey) : Option (List Byte) :=
  if ext.pubkey.size = PubKey.SIZE then
    some (extHeader ext.nDepth ext.vchFingerprint ext.nChild ext.chaincode
      ++ ext.pubkey.vch.take 33)
  else none

def decode (ext : ExtPubKey) (code : List Byte) : ExtPubKey where
  nDepth := readLE 8 (code.take 1)
  vchFingerprint := readLE 32 ((code.drop 1).take 4)
  nChild := readLE 32 ((code.drop 5).take 4).reverse
  chaincode := readLE 256 ((code.drop 9).take 32)
  pubkey := ext.pubkey.set (code.drop 41)

end ExtPubKey

namespace ExtKey

/-- A valid extended key that its encoding gives back, as that of its neutered key does. -/
structure Usable (ext : ExtKey) : Prop where
  valid : ext.key.fValid = true
  decodes : ∃ code, ext.encode = some code ∧ ∀ out : ExtKey, (out.decode code).equals ext = true
  neuters : ∃ pub code, ext.neuter = some pub ∧ pub.encode = some code
    ∧ ∀ out : ExtPubKey, out.decode code = pub

/-- All keys on a path of child indexes are usable, and none of the calls asserts. -/
def DerivesAlong (F : DerivationFunctions) (D : Digests) : ExtKey → List (ExtKey × BitVec 32) → Prop
  | ext, [] => ext.Usable
  | ext, (out, nChild) :: path =>
    ext.Usable ∧ ∃ child, ext.derive F D out nChild = some (child, true)
      ∧ child.DerivesAlong F D path

theorem invalid_setMaster (F) (ext : ExtKey) (seed)
    : (ext.setMaster F seed).key.fValid = false := by
  have length : ((F.hmacSeed seed).take 32).length ≠ PRIVATE_KEY_SIZE := by
    rw [length_take, F.length_hmacSeed]
    decide
  rw [setMaster, Key.set, dif_neg length]

theorem not_derivesAlong (F) (D : Digests) (ext : ExtKey) (seed) (path)
    : ¬ DerivesAlong F D (ext.setMaster F seed) path := by
  intro derives
  have usable : (ext.setMaster F seed).Usable := by
    cases path with
    | nil => exact derives
    | cons step path => exact derives.1
  exact absurd (usable.valid.symm.trans (invalid_setMaster F ext seed)) (by decide)

/-- No usable key is derived from a seed: whatever the path is, the master key is not valid, and
each of the three calls on it asserts.
-/
theorem setMaster_never_derives (F : DerivationFunctions) (D : Digests) (ext : ExtKey)
    (seed : List Byte) (path : List (ExtKey × BitVec 32))
    : ¬ DerivesAlong F D (ext.setMaster F seed) path
      ∧ (∀ out nChild, (ext.setMaster F seed).derive F D out nChild = none)
      ∧ (ext.setMaster F seed).encode = none ∧ (ext.setMaster F seed).neuter = none := by
  have invalid := invalid_setMaster F ext seed
  have asserts : (ext.setMaster F seed).key.getPubKey = none := by
    rw [Key.getPubKey, invalid]
    rfl
  refine ⟨not_derivesAlong F D ext seed path, fun out nChild => ?_, ?_, ?_⟩
  · rw [derive, asserts]
    rfl
  · rw [encode, Key.size, invalid]
    rfl
  · rw [neuter, asserts]
    rfl

def zeroDerivation : DerivationFunctions where
  hmacSeed _ := List.replicate 64 0
  bip32Hash _ _ _ _ := List.replicate 64 0
  tweakAdd _ _ := (List.replicate 32 0, true)
  length_hmacSeed _ := length_replicate
  length_tweakAdd _ _ := length_replicate

def new : ExtKey := ⟨0, 0, 0, 0, Key.new⟩

/-- The first hardened child of the empty seed's master key. -/
theorem hardened_child_asserts
    : ¬ DerivesAlong zeroDerivation zeroDigests (new.setMaster zeroDerivation [])
        [(new, 0x80000000)] :=
  not_derivesAlong zeroDerivation zeroDigests new [] _

end ExtKey

end Pqcoin
