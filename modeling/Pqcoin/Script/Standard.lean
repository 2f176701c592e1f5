import Pqcoin.Keys.PubKey
import Pqcoin.Script.Build

/-! The standard output scripts: the constructors of `standard.cpp`, the template matching of
`Solver`, and which of the constructed scripts it recognises.
-/

namespace Pqcoin.Script

def OP_SMALLINTEGER : Byte := 0xfa
def OP_PUBKEYS : Byte := 0xfb
def OP_PUBKEYHASH : Byte := 0xfd
def OP_PUBKEY : Byte := 0xfe

end Pqcoin.Script

namespace Pqcoin

open Script

inductive TxnOutType where
  | nonstandard
  | pubkey
  | pubkeyhash
  | scripthash
  | multisig
  | nullData
  | witnessV0ScriptHash
  | witnessV0KeyHash
  deriving DecidableEq

inductive TxDestination where
  | none
  | keyID (id : Uint160)
  | scriptID (id : Uint160)
  deriving DecidableEq

-- Template matching

/-- `mTemplates`, in the order of its keys; every operation of a template is one byte. -/
def mTemplates : List (TxnOutType × Script) :=
  [ (.pubkey, [OP_PUBKEY, OP_CHECKSIG]),
    (.pubkeyhash, [OP_DUP, OP_HASH160, OP_PUBKEYHASH, OP_EQUALVERIFY, OP_CHECKSIG]),
    (.multisig, [OP_SMALLINTEGER, OP_PUBKEYS, OP_SMALLINTEGER, OP_CHECKMULTISIG]) ]

def isPubKeySize (vch : List Byte) : Bool := decide (33 ≤ vch.length) && decide (vch.length ≤ 65)

/-- The loop for `OP_PUBKEYS`: the keys it takes, and the operation it stops at. -/
def takePubKeys (opcode1 : Byte) (vch1 : List Byte) (script1 : Script)
    : List (List Byte) × Byte × List Byte × Script :=
  if isPubKeySize vch1 then
    match _read : getOp script1 with
    | none => ([vch1], OP_INVALIDOPCODE, [], [])
    | some (opcode, vch, rest) =>
      match takePubKeys opcode vch rest with
      | (keys, stopped) => (vch1 :: keys, stopped)
  else ([], opcode1, vch1, script1)
termination_by script1.length
decreasing_by exact length_of_getOp _read

/-- One operation against one of a template: what it adds to the solutions. -/
def matchOp (opcode1 : Byte) (vch1 : List Byte) (opcode2 : Byte) : Option (List (List Byte)) :=
  if opcode2 = OP_PUBKEY then if isPubKeySize vch1 then some [vch1] else none
  else if opcode2 = OP_PUBKEYHASH then if vch1.length = 20 then some [vch1] else none
  else if opcode2 = OP_SMALLINTEGER then
    if opcode1 = OP_0 ∨ (OP_1 ≤ opcode1 ∧ opcode1 ≤ OP_16) then
      some [[BitVec.ofNat 8 (decodeOpN opcode1)]]
    else none
  else if opcode1 ≠ opcode2 ∨ vch1 ≠ [] then none
  else some []

/-- The comparison of a script with a template: the solutions it leaves. -/
def matchTemplate : Script → Script → Option (List (List Byte))
  | [], script1 => if script1.isEmpty then some [] else none
  | opcode2 :: script2, script1 =>
    match getOp script1 with
    | none => none
    | some (opcode1, vch1, script1) =>
      if opcode2 = OP_PUBKEYS then
        match script2 with
        | [] => none
        | opcode2 :: script2 =>
          match takePubKeys opcode1 vch1 script1 with
          | (keys, opcode1, vch1, script1) =>
            match matchOp opcode1 vch1 opcode2, matchTemplate script2 script1 with
            | some solutions, some later => some (keys ++ solutions ++ later)
            | _, _ => none
      else
        match matchOp opcode1 vch1 opcode2, matchTemplate script2 script1 with
        | some solutions, some later => some (solutions ++ later)
        | _, _ => none

def checkMultisig (vSolutions : List (List Byte)) : Bool :=
  let m := ((vSolutions.head?.getD []).headD 0).toNat
  let n := ((vSolutions.getLast?.getD []).headD 0).toNat
  !(decide (m < 1) || decide (n < 1) || decide (m > n) || vSolutions.length - 2 != n)

/-- The scan of the templates; a match that fails the additional checks ends it. -/
def scanTemplates (script1 : Script)
    : List (TxnOutType × Script) → Option (TxnOutType × List (List Byte))
  | [] => none
  | (type, script2) :: rest =>
    match matchTemplate script2 script1 with
    | none => scanTemplates script1 rest
    | some vSolutions =>
      if type = .multisig ∧ checkMultisig vSolutions = false then none
      else some (type, vSolutions)

def solver (scriptPubKey : Script) : Option (TxnOutType × List (List Byte)) :=
  if isPayToScriptHash scriptPubKey then
    some (.scripthash, [(scriptPubKey.drop 2).take 20])
  else match isWitnessProgram scriptPubKey with
    | some (witnessversion, witnessprogram) =>
      if witnessversion = 0 ∧ witnessprogram.length = 20 then
        some (.witnessV0KeyHash, [witnessprogram])
      else if witnessversion = 0 ∧ witnessprogram.length = 32 then
        some (.witnessV0ScriptHash, [witnessprogram])
      else none
    | none =>
      if scriptPubKey.head? = some OP_RETURN ∧ isPushOnly (scriptPubKey.drop 1) = true then
        some (.nullData, [])
      else scanTemplates scriptPubKey mTemplates

-- Destinations

/-- `uint160(const std::vector<unsigned char>&)`. -/
def uint160OfBytes (vch : List Byte) : Uint160 := BitVec.ofNat 160 (Radix.value vch)

/-- `ExtractDestination`; the object of a public key is built over `memory`. -/
def extractDestination (D : Digests) (memory : PubKey) (scriptPubKey : Script)
    : Option TxDestination :=
  match solver scriptPubKey with
  | some (.pubkey, vch :: _) =>
    if (memory.set vch).isValid then some (.keyID ((memory.set vch).getID D)) else none
  | some (.pubkeyhash, vch :: _) => some (.keyID (uint160OfBytes vch))
  | some (.scripthash, vch :: _) => some (.scriptID (uint160OfBytes vch))
  | _ => none

def PubKey.toBytes (pubkey : PubKey) : List Byte := pubkey.vch.take pubkey.size

def getScriptForDestination : TxDestination → Script
  | .none => []
  | .keyID id =>
    OP_DUP :: OP_HASH160 :: (pushData (bytesLE 20 id) ++ [OP_EQUALVERIFY, OP_CHECKSIG])
  | .scriptID id => OP_HASH160 :: (pushData (bytesLE 20 id) ++ [OP_EQUAL])

def getScriptForRawPubKey (pubKey : PubKey) : Script := pushData pubKey.toBytes ++ [OP_CHECKSIG]

def getScriptForMultisig (nRequired : Nat) (keys : List PubKey) : Option Script :=
  match encodeOpN nRequired, encodeOpN keys.length with
  | some required, some count =>
    some (required :: (keys.flatMap (fun key => pushData key.toBytes)
      ++ [count, OP_CHECKMULTISIG]))
  | _, _ => none

-- Which constructed scripts are recognised

theorem uint160OfBytes_bytesLE (id) : uint160OfBytes (bytesLE 20 id) = id := by
  rw [uint160OfBytes, value_bytesLE 20 id (by decide), BitVec.ofNat_toNat, BitVec.setWidth_eq]

@[simp] theorem length_toBytes (pubkey : PubKey) : pubkey.toBytes.length = PubKey.SIZE := by
  rw [PubKey.toBytes, PubKey.take_size]
  exact pubkey.length_vch

/-- A script that is too long for a hash or a program, and is no data carrier, is left to the
templates.
-/
theorem solver_eq_scanTemplates {script} (long : 42 < script.length)
    (spendable : script.head? ≠ some OP_RETURN)
    : solver script = scanTemplates script mTemplates := by
  have notHash : isPayToScriptHash script = false := by
    have other : (script.length == 23) = false := by
      rw [beq_eq_false_iff_ne]
      omega
    simp [isPayToScriptHash, other]
  have notProgram : isWitnessProgram script = none := by
    rw [isWitnessProgram.eq_def]
    split
    · rename_i version size program
      rw [List.length_cons, List.length_cons] at long
      exact if_pos (.inr (by omega))
    · rfl
  simp only [solver, notHash, notProgram, Bool.false_eq_true, if_false]
  exact if_neg (fun returns => spendable returns.1)

/-- A template is given up at the first operation that does not fit it. -/
theorem matchTemplate_of_matchOp {script1 rest} {opcode1 opcode2}
    {vch1} (read : getOp script1 = some (opcode1, vch1, rest))
    (single : opcode2 ≠ OP_PUBKEYS) (fails : matchOp opcode1 vch1 opcode2 = none) (script2)
    : matchTemplate (opcode2 :: script2) script1 = none := by
  simp only [matchTemplate, read, if_neg single, fails]

/-- A push of the size of a public key is read as such, and taken for one nowhere. -/
theorem getOp_pubKey (pubKey : PubKey) (rest)
    : getOp (pushData pubKey.toBytes ++ rest) = some (OP_PUSHDATA2, pubKey.toBytes, rest) := by
  have small : pubKey.toBytes.length < 2 ^ 32 := by
    rw [length_toBytes]
    decide
  have read := getOp_pushData small rest
  rwa [length_toBytes] at read

@[simp] theorem isPubKeySize_toBytes (pubKey : PubKey) : isPubKeySize pubKey.toBytes = false := by
  rw [isPubKeySize, length_toBytes]
  decide

theorem matchOp_pubKey_smallInteger (pubKey : PubKey)
    : matchOp OP_PUSHDATA2 pubKey.toBytes OP_SMALLINTEGER = none := by
  rw [matchOp, if_neg (by decide), if_neg (by decide), if_pos rfl, if_neg (by decide)]

theorem solver_rawPubKey (pubKey : PubKey) : solver (getScriptForRawPubKey pubKey) = none := by
  have read := getOp_pubKey pubKey [OP_CHECKSIG]
  have long : 42 < (getScriptForRawPubKey pubKey).length := by
    rw [getScriptForRawPubKey, List.length_append, length_pushData, length_toBytes]
    decide
  have spendable : (getScriptForRawPubKey pubKey).head? ≠ some OP_RETURN := by
    rw [getScriptForRawPubKey, pushData, length_toBytes]
    exact fun returns => absurd (show some OP_PUSHDATA2 = some OP_RETURN from returns) (by decide)
  have key : matchOp OP_PUSHDATA2 pubKey.toBytes OP_PUBKEY = none := by simp [matchOp]
  have dup : matchOp OP_PUSHDATA2 pubKey.toBytes OP_DUP = none := by
    rw [matchOp, if_neg (by decide), if_neg (by decide), if_neg (by decide),
      if_pos (.inl (by decide))]
  rw [solver_eq_scanTemplates long spendable, getScriptForRawPubKey]
  simp only [mTemplates, scanTemplates, matchTemplate_of_matchOp read (by decide) key,
    matchTemplate_of_matchOp read (by decide) dup,
    matchTemplate_of_matchOp read (by decide) (matchOp_pubKey_smallInteger pubKey)]

theorem takePubKeys_of_size {vch1} (other : isPubKeySize vch1 = false) (opcode1 script1)
    : takePubKeys opcode1 vch1 script1 = ([], opcode1, vch1, script1) := by
  rw [takePubKeys, other]
  rfl

/-- A small number is encoded by an operation above the pushes. -/
theorem encodeOpN_eq {n} (pos : 1 ≤ n) (small : n ≤ 16)
    : ∃ opcode, encodeOpN n = some opcode ∧ OP_1 ≤ opcode ∧ opcode ≤ OP_16 := by
  have all : ∀ n < 17, 1 ≤ n →
      ∃ opcode, encodeOpN n = some opcode ∧ OP_1 ≤ opcode ∧ opcode ≤ OP_16 := by
    intro n below pos
    refine ⟨BitVec.ofNat 8 (OP_1.toNat + n - 1), ?_, ?_⟩
    · rw [encodeOpN, if_neg (by omega), if_neg (by omega)]
    · revert n
      decide
  exact all n (by omega) pos

/-- The script of several public keys matches no template either. -/
theorem solver_multisig {nRequired} {keys}
    (required : 1 ≤ nRequired ∧ nRequired ≤ keys.length ∧ keys.length ≤ 16)
    : ∃ script, getScriptForMultisig nRequired keys = some script ∧ solver script = none := by
  obtain ⟨opcode, encoded, low, high⟩ := encodeOpN_eq required.1 (by omega : nRequired ≤ 16)
  obtain ⟨count, counted, -, -⟩ := encodeOpN_eq (by omega : 1 ≤ keys.length) required.2.2
  refine ⟨_, by rw [getScriptForMultisig, encoded, counted], ?_⟩
  cases keys with
  | nil => exact absurd required.2.1 (by simp; omega)
  | cons first others =>
    have above : ¬ opcode ≤ OP_PUSHDATA4 :=
      fun push => absurd (BitVec.le_trans low push) (by decide)
    have notDup : opcode ≠ OP_DUP := fun same => absurd high (by rw [same]; decide)
    have notReturn : opcode ≠ OP_RETURN := fun same => absurd high (by rw [same]; decide)
    rw [List.flatMap_cons, List.append_assoc]
    have read := getOp_cons above (pushData first.toBytes
      ++ (others.flatMap (fun key => pushData key.toBytes) ++ [count, OP_CHECKMULTISIG]))
    have readKey := getOp_pubKey first
      (others.flatMap (fun key => pushData key.toBytes) ++ [count, OP_CHECKMULTISIG])
    have key : matchOp opcode [] OP_PUBKEY = none := by
      rw [matchOp, if_pos rfl]
      rfl
    have dup : matchOp opcode [] OP_DUP = none := by
      rw [matchOp, if_neg (by decide), if_neg (by decide), if_neg (by decide), if_pos (.inl notDup)]
    have keys : matchTemplate [OP_PUBKEYS, OP_SMALLINTEGER, OP_CHECKMULTISIG]
        (pushData first.toBytes
          ++ (others.flatMap (fun key => pushData key.toBytes) ++ [count, OP_CHECKMULTISIG]))
        = none := by
      rw [matchTemplate, readKey]
      simp only [takePubKeys_of_size (isPubKeySize_toBytes first),
        matchOp_pubKey_smallInteger, if_true]
    rw [solver_eq_scanTemplates]
    · simp only [mTemplates, scanTemplates, matchTemplate_of_matchOp read (by decide) key,
        matchTemplate_of_matchOp read (by decide) dup]
      rw [matchTemplate, read]
      simp only [keys, if_neg (by decide : OP_SMALLINTEGER ≠ OP_PUBKEYS)]
      cases matchOp opcode [] OP_SMALLINTEGER <;> rfl
    · rw [List.length_cons, List.length_append, length_pushData, length_toBytes]
      have : 42 < PubKey.SIZE := by decide
      omega
    · rw [List.head?_cons]
      exact fun returns => notReturn (Option.some.inj returns)

theorem pushData_id (id : Uint160) : pushData (bytesLE 20 id) = 0x14 :: bytesLE 20 id := by
  rw [pushData, length_bytesLE]
  rfl

theorem solver_dup (rest)
    : solver (OP_DUP :: rest) = scanTemplates (OP_DUP :: rest) mTemplates := by
  simp only [solver, isPayToScriptHash_dup, isWitnessProgram_dup, Bool.false_eq_true, if_false]
  exact if_neg (fun returns => absurd returns.1 (by simp [OP_DUP, OP_RETURN]))

theorem solver_keyID (id)
    : solver (getScriptForDestination (.keyID id)) = some (.pubkeyhash, [bytesLE 20 id]) := by
  have small : (bytesLE 20 id).length < 2 ^ 32 := by
    rw [length_bytesLE]
    decide
  have readDup := getOp_cons (by decide : ¬ OP_DUP ≤ OP_PUSHDATA4)
    (OP_HASH160 :: (pushData (bytesLE 20 id) ++ [OP_EQUALVERIFY, OP_CHECKSIG]))
  have readHash := getOp_cons (by decide : ¬ OP_HASH160 ≤ OP_PUSHDATA4)
    (pushData (bytesLE 20 id) ++ [OP_EQUALVERIFY, OP_CHECKSIG])
  have readId := getOp_pushData small [OP_EQUALVERIFY, OP_CHECKSIG]
  have key : matchOp OP_DUP [] OP_PUBKEY = none := by decide
  have id20 : matchOp (pushOpcode (bytesLE 20 id).length) (bytesLE 20 id) OP_PUBKEYHASH
      = some [bytesLE 20 id] := by
    rw [matchOp, if_neg (by decide), if_pos rfl, if_pos (length_bytesLE 20 id)]
  have found : matchTemplate [OP_DUP, OP_HASH160, OP_PUBKEYHASH, OP_EQUALVERIFY, OP_CHECKSIG]
      (OP_DUP :: OP_HASH160 :: (pushData (bytesLE 20 id) ++ [OP_EQUALVERIFY, OP_CHECKSIG]))
      = some [bytesLE 20 id] := by
    have tail : matchTemplate [OP_EQUALVERIFY, OP_CHECKSIG] [OP_EQUALVERIFY, OP_CHECKSIG]
        = some [] := by decide
    rw [matchTemplate, readDup]
    simp only [if_neg (by decide : OP_DUP ≠ OP_PUBKEYS)]
    rw [matchTemplate, readHash]
    simp only [if_neg (by decide : OP_HASH160 ≠ OP_PUBKEYS)]
    rw [matchTemplate, readId]
    simp only [if_neg (by decide : OP_PUBKEYHASH ≠ OP_PUBKEYS), id20, tail]
    rfl
  rw [getScriptForDestination, solver_dup]
  simp only [mTemplates, scanTemplates, found, matchTemplate_of_matchOp readDup (by decide) key]
  rfl

theorem solver_scriptID (id : Uint160)
    : solver (getScriptForDestination (.scriptID id)) = some (.scripthash, [bytesLE 20 id]) := by
  have hash : isPayToScriptHash (getScriptForDestination (.scriptID id)) = true := by
    simp [isPayToScriptHash, getScriptForDestination, pushData_id]
  rw [solver, if_pos hash]
  simp [getScriptForDestination, pushData_id]

inductive ConstructedScript where
  | rawPubKey (pubKey : PubKey)
  | multisig (nRequired : Nat) (keys : List PubKey)
    (required : 1 ≤ nRequired ∧ nRequired ≤ keys.length ∧ keys.length ≤ 16)
  | keyID (id : Uint160)
  | scriptID (id : Uint160)

def ConstructedScript.Recognised (D : Digests) (memory : PubKey) : ConstructedScript → Prop
  | .rawPubKey pubKey =>
    solver (getScriptForRawPubKey pubKey) = some (.pubkey, [pubKey.toBytes])
  | .multisig nRequired keys _ =>
    ∃ script,
      getScriptForMultisig nRequired keys = some script
      ∧ solver script
        = some (.multisig,
            [BitVec.ofNat 8 nRequired] :: keys.map PubKey.toBytes
              ++ [[BitVec.ofNat 8 keys.length]])
  | .keyID id =>
    extractDestination D memory (getScriptForDestination (.keyID id)) = some (.keyID id)
  | .scriptID id =>
    extractDestination D memory (getScriptForDestination (.scriptID id)) = some (.scriptID id)

/-- Exactly the scripts of the two kinds of ids are recognised: the templates with public keys
take pushes of 33 to 65 bytes, and a public key has 1953.
-/
theorem recognised_iff (D : Digests) (memory : PubKey) (constructed : ConstructedScript)
    : constructed.Recognised D memory
      ↔ (∃ id, constructed = .keyID id) ∨ ∃ id, constructed = .scriptID id := by
  cases constructed with
  | rawPubKey pubKey => simp [ConstructedScript.Recognised, solver_rawPubKey]
  | multisig nRequired keys required =>
    obtain ⟨script, built, unsolved⟩ := solver_multisig required
    simp [ConstructedScript.Recognised, built, unsolved]
  | keyID id =>
    simp [ConstructedScript.Recognised, extractDestination, solver_keyID, uint160OfBytes_bytesLE]
  | scriptID id =>
    simp [ConstructedScript.Recognised, extractDestination, solver_scriptID, uint160OfBytes_bytesLE]

/-- The output script of a public key, and of one key that is required alone. -/
theorem pubKey_not_recognised
    : solver (getScriptForRawPubKey (PubKey.filled 2)) = none
      ∧ ∃ script, getScriptForMultisig 1 [PubKey.filled 2] = some script
          ∧ solver script = none :=
  ⟨solver_rawPubKey _, solver_multisig (by decide)⟩

end Pqcoin
