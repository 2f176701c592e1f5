import Pqcoin.Script.Standard
import Pqcoin.Script.Verify
import Pqcoin.Wallet.KeyStore

/-! Producing signatures: `SignStep` and `ProduceSignature` for a signature creator, the
creator for transactions, and the one that leaves placeholders.
-/

namespace Pqcoin

open Script

structure SignatureData where
  scriptSig : Script
  scriptWitness : List (List Byte)
  deriving DecidableEq

/-- `CKeyStore` as the signing functions use it: the keys, and `GetCScript`. -/
structure SigningStore where
  keys : KeyStore
  getCScript : Uint160 → Option Script

/-- `BaseSignatureCreator`. Its calls of `CreateSig` are numbered, because each draws its own
random bytes where the store decrypts a key.
-/
structure SignatureCreator where
  store : SigningStore
  createSig : Nat → Uint160 → Script → SigVersion → Option (List Byte)
  checker : SignatureChecker

-- SignStep

/-- What `SignStep` returns and leaves in its arguments. -/
structure SignResult where
  solved : Bool
  ret : List (List Byte)
  whichType : TxnOutType

section Sign

variable (D : Digests) (creator : SignatureCreator) (memory : Nat → PubKey)

/-- `CPubKey(vch).GetID()`, on the object that occupies `memory` at an index. -/
def keyIDOf (idx : Nat) (vch : List Byte) : Uint160 := ((memory idx).set vch).getID D

/-- The loop of `SignN`: the signatures it collects, until enough of them are there. -/
def signN (scriptCode : Script) (sigversion : SigVersion)
    : Nat → Nat → List (List Byte) → List (List Byte)
  | 0, _, _ => []
  | _ + 1, _, [] => []
  | missing + 1, i, pubkey :: rest =>
    match creator.createSig i (keyIDOf D memory i pubkey) scriptCode sigversion with
    | some vchSig => vchSig :: signN scriptCode sigversion missing (i + 1) rest
    | none => signN scriptCode sigversion (missing + 1) (i + 1) rest

/-- The public key that `SignStep` pushes: a stored one, or what the memory holds. -/
def pushedPubKey (keyID : Uint160) : PubKey :=
  (creator.store.keys.getPubKey keyID).getD (memory 0).invalidate

/-- `SignStep` behind `Solver`. -/
def signSolution (scriptPubKey : Script) (sigversion : SigVersion) (whichType : TxnOutType)
    (vSolutions : List (List Byte))
    : SignResult :=
  let first := vSolutions.headD []
  match whichType with
  | .nonstandard => ⟨false, [], whichType⟩
  | .nullData => ⟨false, [], whichType⟩
  | .pubkey =>
    match creator.createSig 0 (keyIDOf D memory 0 first) scriptPubKey sigversion with
    | none => ⟨false, [], whichType⟩
    | some vchSig => ⟨true, [vchSig], whichType⟩
  | .pubkeyhash =>
    let keyID := uint160OfBytes first
    match creator.createSig 0 keyID scriptPubKey sigversion with
    | none => ⟨false, [], whichType⟩
    | some vchSig => ⟨true, [vchSig, (pushedPubKey creator memory keyID).toBytes], whichType⟩
  | .scripthash =>
    match creator.store.getCScript (uint160OfBytes first) with
    | none => ⟨false, [], whichType⟩
    | some scriptRet => ⟨true, [scriptRet], whichType⟩
  | .multisig =>
    let nRequired := (first.headD 0).toNat
    let sigs := signN D creator memory scriptPubKey sigversion nRequired 1
      (vSolutions.drop 1).dropLast
    ⟨sigs.length == nRequired, [] :: sigs, whichType⟩
  | .witnessV0KeyHash => ⟨true, [first], whichType⟩
  | .witnessV0ScriptHash =>
    match creator.store.getCScript (D.ripemd160 first) with
    | none => ⟨false, [], whichType⟩
    | some scriptRet => ⟨true, [scriptRet], whichType⟩

def signStep (scriptPubKey : Script) (sigversion : SigVersion) : SignResult :=
  match solver scriptPubKey with
  | none => ⟨false, [], .nonstandard⟩
  | some (whichType, vSolutions) =>
    signSolution D creator memory scriptPubKey sigversion whichType vSolutions

-- ProduceSignature

def pushValue (value : List Byte) : Script :=
  match value with
  | [] => [OP_0]
  | [byte] =>
    if 1 ≤ byte ∧ byte ≤ 16 then [OP_1 + (byte - 1)] else pushData value
  | _ => pushData value

def pushAll (values : List (List Byte)) : Script := values.flatMap pushValue

def STANDARD_SCRIPT_VERIFY_FLAGS : BitVec 32 :=
  SCRIPT_VERIFY_P2SH ||| SCRIPT_VERIFY_DERSIG ||| SCRIPT_VERIFY_STRICTENC
    ||| SCRIPT_VERIFY_MINIMALDATA ||| SCRIPT_VERIFY_NULLDUMMY
    ||| SCRIPT_VERIFY_DISCOURAGE_UPGRADABLE_NOPS ||| SCRIPT_VERIFY_CLEANSTACK
    ||| SCRIPT_VERIFY_MINIMALIF ||| SCRIPT_VERIFY_NULLFAIL
    ||| SCRIPT_VERIFY_CHECKLOCKTIMEVERIFY ||| SCRIPT_VERIFY_CHECKSEQUENCEVERIFY
    ||| SCRIPT_VERIFY_LOW_S ||| SCRIPT_VERIFY_WITNESS
    ||| SCRIPT_VERIFY_DISCOURAGE_UPGRADABLE_WITNESS_PROGRAM ||| SCRIPT_VERIFY_WITNESS_PUBKEYTYPE

/-- The variables of `ProduceSignature` that end up in the signature data. -/
structure Production where
  solved : Bool
  result : List (List Byte)
  witness : List (List Byte)

def produceWitness (step : SignResult) : Production :=
  let first := step.ret.headD []
  if step.solved && step.whichType == .witnessV0KeyHash then
    let inner := signStep D creator memory (keyHashScript first) .witnessV0
    ⟨inner.solved, [], inner.ret⟩
  else if step.solved && step.whichType == .witnessV0ScriptHash then
    let inner := signStep D creator memory first .witnessV0
    ⟨inner.solved && inner.whichType != .scripthash && inner.whichType != .witnessV0ScriptHash
        && inner.whichType != .witnessV0KeyHash,
      [], inner.ret ++ [first]⟩
  else ⟨step.solved, step.ret, []⟩

variable (memories : Nat → Nat → PubKey)

/-- `ProduceSignature` up to the test of the solution; each `SignStep` has its own memory. -/
def produce (fromPubKey : Script) : Production :=
  let step := signStep D creator (memories 0) fromPubKey .base
  if step.solved && step.whichType == .scripthash then
    let subscript := step.ret.headD []
    let inner := signStep D creator (memories 1) subscript .base
    let production := produceWitness D creator (memories 2)
      { inner with solved := inner.solved && inner.whichType != .scripthash }
    { production with result := production.result ++ [subscript] }
  else produceWitness D creator (memories 2) step

def Production.data (production : Production) : SignatureData :=
  ⟨pushAll production.result, production.witness⟩

/-- `ProduceSignature`: the signature data when it returns true. -/
def produceSignature (fromPubKey : Script) : Option SignatureData :=
  let production := produce D creator memories fromPubKey
  let data := production.data
  if production.solved
      && (verifyScript ⟨D, STANDARD_SCRIPT_VERIFY_FLAGS, creator.checker⟩ data.scriptSig
        fromPubKey data.scriptWitness).isOk then
    some data
  else none

end Sign

-- The creators

/-- What the signatures of one input need besides the keys: the random bytes of each
decryption, and the memory below the key objects of each check.
-/
structure SigningChoices where
  rnds : Nat → List Byte
  checkMemory : Nat → PubKey

def transactionSignatureCreator (S : SignatureScheme) (D : Digests) (C : Cipher)
    (store : SigningStore) (choices : SigningChoices) (txTo : Transaction) (nIn : Nat)
    (amount : Amount) (nHashType : BitVec 32)
    : SignatureCreator where
  store := store
  createSig i address scriptCode sigversion :=
    match store.keys.getKey S D C (choices.rnds i) address Key.new with
    | none => none
    | some key =>
      if sigversion = .witnessV0 ∧ key.fCompressed = false then none
      else if key.fValid then
        some (key.sign S
            (signatureHash D.toHashing scriptCode txTo nIn nHashType amount sigversion none)
          ++ [nHashType.setWidth 8])
      else none
  checker := (TransactionSignatureChecker.mk txTo nIn amount none).toChecker S D.toHashing
    choices.checkMemory

def dummySignature : List Byte :=
  [0x30, 69, 0x02, 33, 0x01] ++ List.replicate 32 0 ++ [0x02, 32, 0x01] ++ List.replicate 31 0
    ++ [SIGHASH_ALL.setWidth 8]

def dummySignatureCreator (store : SigningStore) : SignatureCreator where
  store := store
  createSig _ _ _ _ := some dummySignature
  checker := dummyChecker

end Pqcoin
