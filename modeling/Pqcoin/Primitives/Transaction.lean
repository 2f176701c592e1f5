import Pqcoin.Arith.Compact

/-! Transactions and their wire format. Hash functions are parameters of the model: only
the bytes they are applied to come from the source.
-/

namespace Pqcoin

abbrev Byte := BitVec 8

/-- The hash functions of the node: `CHash256` (double SHA-256) and
`scrypt_1024_1_1_256`, each on the bytes it is given.
-/
structure Hashing where
  hash256 : List Byte → Uint256
  scrypt : List Byte → Uint256

-- Byte-level serialization

/-- `ser_writedata8` to `ser_writedata64` and `uint256::Serialize`: `count` bytes, least
significant first.
-/
def bytesLE (count : Nat) {w : Nat} (data : BitVec w) : List Byte :=
  (List.range count).map (fun i => data.extractLsb' (8 * i) 8)

def writeCompactSize (nSize : Nat) : List Byte :=
  if nSize < 253 then [BitVec.ofNat 8 nSize]
  else if nSize ≤ 0xffff then 253 :: bytesLE 2 (BitVec.ofNat 16 nSize)
  else if nSize ≤ 0xffffffff then 254 :: bytesLE 4 (BitVec.ofNat 32 nSize)
  else 255 :: bytesLE 8 (BitVec.ofNat 64 nSize)

/-- `Serialize` of a `std::vector<T>`: its size, then its elements. -/
def serializeVector {α : Type} (serialize : α → List Byte) (items : List α) : List Byte :=
  writeCompactSize items.length ++ items.flatMap serialize

/-- `Serialize` of a byte vector or a `CScriptBase`: its size, then the bytes as a blob. -/
def serializeBytes (bytes : List Byte) : List Byte := writeCompactSize bytes.length ++ bytes

@[simp] theorem length_bytesLE (count : Nat) {w : Nat} (data : BitVec w)
    : (bytesLE count data).length = count := by
  simp [bytesLE]

/-- Little-endian bytes that cover a word determine its number. -/
theorem value_bytesLE (count) {w} (data : BitVec w) (covers : w ≤ 8 * count)
    : Radix.value (bytesLE count data) = data.toNat :=
  Radix.value_extract (by decide) data count covers

/-- The place of a hash in the order of `base_blob::Compare`, which compares the bytes from the
least significant one on.
-/
@[irreducible] def hashRank (hash : Uint256) : Nat := Radix.value (bytesLE 32 hash).reverse

theorem hashRank_injective : Function.Injective hashRank := by
  intro first second same
  rw [hashRank, hashRank] at same
  have bytes := Radix.value_injective (by simp) same
  have values := congrArg Radix.value (List.reverse_injective bytes)
  rw [value_bytesLE 32 first (by decide), value_bytesLE 32 second (by decide)] at values
  exact BitVec.eq_of_toNat_eq values

-- Transactions

abbrev Script := List Byte

/-- `CAmount`, an `int64_t`. -/
abbrev Amount := BitVec 64

def MAX_MONEY : Int := 10000000000 * 100000000

def MoneyRange (nValue : Amount) : Prop := 0 ≤ nValue.toInt ∧ nValue.toInt ≤ MAX_MONEY

instance (nValue : Amount) : Decidable (MoneyRange nValue) := inferInstanceAs (Decidable (_ ∧ _))

structure OutPoint where
  hash : Uint256
  n : BitVec 32
  deriving DecidableEq

def OutPoint.before (a b : OutPoint) : Bool :=
  decide (hashRank a.hash < hashRank b.hash) || (a.hash == b.hash && decide (a.n.toNat < b.n.toNat))

def OutPoint.isNull (out : OutPoint) : Bool := out.hash == 0 && out.n == 0xffffffff

/-- `CTxIn`; the witness is only serialized through the transaction. -/
structure TxIn where
  prevout : OutPoint
  scriptSig : Script
  nSequence : BitVec 32
  scriptWitness : List (List Byte)
  deriving DecidableEq

structure TxOut where
  nValue : Amount
  scriptPubKey : Script
  deriving DecidableEq

structure Transaction where
  nVersion : BitVec 32
  vin : List TxIn
  vout : List TxOut
  nLockTime : BitVec 32
  deriving DecidableEq

def OutPoint.serialize (out : OutPoint) : List Byte := bytesLE 32 out.hash ++ bytesLE 4 out.n

def TxIn.serialize (txin : TxIn) : List Byte :=
  txin.prevout.serialize ++ serializeBytes txin.scriptSig ++ bytesLE 4 txin.nSequence

def TxOut.serialize (txout : TxOut) : List Byte :=
  bytesLE 8 txout.nValue ++ serializeBytes txout.scriptPubKey

namespace Transaction

def hasWitness (tx : Transaction) : Bool := tx.vin.any (fun txin => !txin.scriptWitness.isEmpty)

def isCoinBase (tx : Transaction) : Bool :=
  match tx.vin with
  | [txin] => txin.prevout.isNull
  | _ => false

/-- `SerializeTransaction`; without witness permission (the stream version carries
`SERIALIZE_TRANSACTION_NO_WITNESS`) the extended format is never used.
-/
def serialize (fAllowWitness : Bool) (tx : Transaction) : List Byte :=
  let witness := fAllowWitness && tx.hasWitness
  bytesLE 4 tx.nVersion
    ++ (if witness then writeCompactSize 0 ++ [1] else [])
    ++ serializeVector TxIn.serialize tx.vin
    ++ serializeVector TxOut.serialize tx.vout
    ++ (if witness then
          tx.vin.flatMap (fun txin => serializeVector serializeBytes txin.scriptWitness)
        else [])
    ++ bytesLE 4 tx.nLockTime

/-- `CTransaction::GetHash`: the hash of the serialization without witnesses. -/
def getHash (H : Hashing) (tx : Transaction) : Uint256 := H.hash256 (tx.serialize false)

def getWitnessHash (H : Hashing) (tx : Transaction) : Uint256 :=
  if tx.hasWitness then H.hash256 (tx.serialize true) else tx.getHash H

end Transaction

end Pqcoin
