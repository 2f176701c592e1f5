import Pqcoin.Lib.Delimited
import Pqcoin.Script.SignatureHash

/-! What a legacy signature commits to: two signatures of one hash type sign the same bytes if and
only if the parts of the transactions that the hash type names agree.
-/

namespace Pqcoin

open Delimited List Option Script TransactionSignatureSerializer

-- Serialized fields

theorem forces_bytesLE {count w} (covers : w ≤ 8 * count) (a b : BitVec w)
    : Forces (bytesLE count a) (bytesLE count b) (a = b) := by
  refine (forces_of_length (by simp)).imp fun same => ?_
  have values := congrArg Radix.value same
  rw [value_bytesLE count a covers, value_bytesLE count b covers] at values
  exact BitVec.eq_of_toNat_eq values

def compactWidth (first : Byte) : Nat :=
  if first = 253 then 2 else if first = 254 then 4 else if first = 255 then 8 else 0

theorem exists_writeCompactSize {nSize} (small : nSize < 2 ^ 64)
    : ∃ first rest, writeCompactSize nSize = first :: rest ∧ rest.length = compactWidth first
      ∧ nSize = if rest = [] then first.toNat else Radix.value rest := by
  rw [writeCompactSize]
  split
  · rename_i byte
    have toNat : (BitVec.ofNat 8 nSize).toNat = nSize := by
      rw [BitVec.toNat_ofNat]
      omega
    have plain (tag) (above : 253 ≤ tag.toNat) : BitVec.ofNat 8 nSize ≠ tag := by
      intro same
      rw [← same, toNat] at above
      omega
    refine ⟨_, [], rfl, ?_, by simpa using toNat.symm⟩
    rw [compactWidth, if_neg (plain _ (by decide)), if_neg (plain _ (by decide)),
      if_neg (plain _ (by decide))]
    rfl
  · have wide {count w} (first : Byte) (pos : 0 < count) (covers : w ≤ 8 * count)
        (fits : nSize < 2 ^ w)
        : nSize = if bytesLE count (BitVec.ofNat w nSize) = [] then first.toNat
          else Radix.value (bytesLE count (BitVec.ofNat w nSize)) := by
      rw [if_neg (ne_nil_of_length_pos (by simpa using pos)), value_bytesLE _ _ covers,
        BitVec.toNat_ofNat, Nat.mod_eq_of_lt fits]
    split
    · exact ⟨253, _, rfl, by simp [compactWidth], wide 253 (by decide) (by decide) (by omega)⟩
    split
    · exact ⟨254, _, rfl, by simp [compactWidth], wide 254 (by decide) (by decide) (by omega)⟩
    · exact ⟨255, _, rfl, by simp [compactWidth], wide 255 (by decide) (by decide) small⟩

theorem forces_writeCompactSize {m n} (hm : m < 2 ^ 64) (hn : n < 2 ^ 64)
    : Forces (writeCompactSize m) (writeCompactSize n) (m = n) := by
  obtain ⟨first, rest, written, width, value⟩ := exists_writeCompactSize hm
  obtain ⟨first', rest', written', width', value'⟩ := exists_writeCompactSize hn
  rw [written, written']
  intro s t same
  obtain ⟨rfl, tails⟩ := List.cons.inj same
  obtain ⟨rfl, rests⟩ := append_inj tails (width.trans width'.symm)
  exact ⟨value.trans value'.symm, rests⟩

theorem forces_serializeBytes {bytes bytes'} (small : bytes.length < 2 ^ 64)
    (small' : bytes'.length < 2 ^ 64)
    : Forces (serializeBytes bytes) (serializeBytes bytes') (bytes = bytes') :=
  ((forces_writeCompactSize small small').append forces_of_length).imp And.right

theorem OutPoint.forces_serialize (out out' : OutPoint)
    : Forces out.serialize out'.serialize (out = out') := by
  refine ((forces_bytesLE (by decide) out.hash out'.hash).append fun _ =>
    forces_bytesLE (by decide) out.n out'.n).imp ?_
  rintro ⟨hash, n⟩
  cases out
  cases out'
  cases hash
  cases n
  rfl

theorem TxOut.forces_serialize {txout txout' : TxOut} (small : txout.scriptPubKey.length < 2 ^ 64)
    (small' : txout'.scriptPubKey.length < 2 ^ 64)
    : Forces txout.serialize txout'.serialize (txout = txout') := by
  refine ((forces_bytesLE (by decide) txout.nValue txout'.nValue).append fun _ =>
    forces_serializeBytes small small').imp ?_
  rintro ⟨nValue, scriptPubKey⟩
  cases txout
  cases txout'
  cases nValue
  cases scriptPubKey
  rfl

-- The script code

namespace Script

/-- `GetOp` reads the script to its end. -/
def parses (script : Script) : Bool :=
  match _read : getOp script with
  | none => script.isEmpty
  | some (_, _, rest) => parses rest
termination_by script.length
decreasing_by exact length_of_getOp _read

theorem eq_cons_of_codeSeparator {script rest data}
    (read : getOp script = some (OP_CODESEPARATOR, data, rest))
    : script = OP_CODESEPARATOR :: rest := by
  cases script with
  | nil => cases read
  | cons opcode tail =>
    rw [getOp] at read
    split at read
    · rename_i push
      split at read
      · cases read
      split at read
      · cases read
      cases read
      exact absurd push (by decide)
    · cases read
      rfl

theorem length_withoutCodeSeparators {scriptCode} (parsed : parses scriptCode = true)
    : (withoutCodeSeparators scriptCode).length + codeSeparators scriptCode
      = scriptCode.length := by
  fun_induction parses scriptCode with
  | case1 scriptCode read =>
    rw [List.isEmpty_iff] at parsed
    subst parsed
    simp [withoutCodeSeparators, codeSeparators, getOp]
  | case2 scriptCode opcode data rest read ih =>
    have whole := ih parsed
    have shorter := length_of_getOp read
    rw [withoutCodeSeparators, codeSeparators, read]
    dsimp only
    split
    · rename_i separator
      subst separator
      rw [eq_cons_of_codeSeparator read]
      simp only [nil_append, length_cons]
      omega
    · simp only [length_append, length_take]
      omega

theorem serializeScriptCode_eq {scriptCode} (parsed : parses scriptCode = true)
    : serializeScriptCode scriptCode = serializeBytes (withoutCodeSeparators scriptCode) := by
  have length := length_withoutCodeSeparators parsed
  rw [serializeScriptCode, serializeBytes, ← length, Nat.add_sub_cancel]

end Script

-- The signed parts

def TransactionSignatureSerializer.of (nHashType : BitVec 32) (txTo : Transaction)
    (scriptCode : Script) (nIn : Nat)
    : TransactionSignatureSerializer :=
  ⟨txTo, scriptCode, nIn, anyoneCanPay nHashType, hashSingle nHashType, hashNone nHashType⟩

def legacyPreimage (nHashType : BitVec 32) (txTo : Transaction) (scriptCode : Script) (nIn : Nat)
    : List Byte :=
  (TransactionSignatureSerializer.of nHashType txTo scriptCode nIn).serialize
    ++ bytesLE 4 nHashType

/-- The input index is in range, and so is the output index of a `SIGHASH_SINGLE`. -/
structure InRange (nHashType : BitVec 32) (txTo : Transaction) (nIn : Nat) : Prop where
  input : nIn < txTo.vin.length
  output : hashSingle nHashType = true → nIn < txTo.vout.length

theorem signatureHash_base {nHashType txTo nIn} (inRange : InRange nHashType txTo nIn) (H)
    (scriptCode amount cache)
    : signatureHash H scriptCode txTo nIn nHashType amount .base cache
      = H.hash256 (legacyPreimage nHashType txTo scriptCode nIn) := by
  have output : ¬ (hashSingle nHashType = true ∧ txTo.vout.length ≤ nIn) :=
    fun ⟨single, outside⟩ => absurd (inRange.output single) (by omega)
  rw [signatureHash, if_neg (by have := inRange.input; omega), if_neg output]
  rfl

/-- What the signed parts of two transactions have in common. Without `SIGHASH_ANYONECANPAY` all
inputs are signed, with their sequences unless the hash type leaves the outputs open; the index is
signed through the place of the input or of the output.
-/
structure SignedAlike (nHashType : BitVec 32) (txTo txTo' : Transaction)
    (scriptCode scriptCode' : Script) (nIn nIn' : Nat)
    : Prop where
  nVersion : txTo.nVersion = txTo'.nVersion
  nLockTime : txTo.nLockTime = txTo'.nLockTime
  code : Script.withoutCodeSeparators scriptCode = Script.withoutCodeSeparators scriptCode'
  prevout : txTo.vin[nIn]?.map TxIn.prevout = txTo'.vin[nIn']?.map TxIn.prevout
  nSequence : txTo.vin[nIn]?.map TxIn.nSequence = txTo'.vin[nIn']?.map TxIn.nSequence
  prevouts : anyoneCanPay nHashType = false →
    nIn = nIn' ∧ txTo.vin.map TxIn.prevout = txTo'.vin.map TxIn.prevout
  sequences : anyoneCanPay nHashType = false → hashSingle nHashType = false →
    hashNone nHashType = false → txTo.vin.map TxIn.nSequence = txTo'.vin.map TxIn.nSequence
  outputs : hashSingle nHashType = false → hashNone nHashType = false → txTo.vout = txTo'.vout
  output : hashSingle nHashType = true → nIn = nIn' ∧ txTo.vout[nIn]? = txTo'.vout[nIn']?

theorem hashNone_of_hashSingle {nHashType} (single : hashSingle nHashType = true)
    : hashNone nHashType = false := by
  rw [hashSingle, beq_iff_eq] at single
  rw [hashNone, single]
  decide

/-- The counts of inputs and outputs that are signed are an `unsigned int` each. -/
structure Transaction.Counted (nHashType : BitVec 32) (nIn : Nat) (tx : Transaction) : Prop where
  inputs : anyoneCanPay nHashType = false → tx.vin.length < 2 ^ 32
  outputs : hashSingle nHashType = false → hashNone nHashType = false → tx.vout.length < 2 ^ 32
  output : hashSingle nHashType = true → nIn + 1 < 2 ^ 32

-- Inputs and outputs as they are signed

/-- An input as it is signed; `others` is set for an input that is not the one of the signature, and
`unlocked` if the sequences of those are left open.
-/
def TxIn.signed (code : List Byte) (others unlocked : Bool) (txin : TxIn) : List Byte :=
  txin.prevout.serialize ++ (if others then serializeBytes [] else code)
    ++ (if others && unlocked then bytesLE 4 (0 : BitVec 32) else bytesLE 4 txin.nSequence)

theorem TxIn.signed_congr {code} {others unlocked} {found found' : Option TxIn}
    (prevout : found.map TxIn.prevout = found'.map TxIn.prevout)
    (nSequence : (others && unlocked) = false →
      found.map TxIn.nSequence = found'.map TxIn.nSequence)
    : found.map (TxIn.signed code others unlocked)
      = found'.map (TxIn.signed code others unlocked) := by
  cases found with
  | none =>
    rw [map_none, eq_comm, map_eq_none_iff] at prevout
    rw [prevout]
  | some txin =>
    obtain ⟨txin', rfl, same⟩ := map_eq_some_iff.mp prevout.symm
    simp only [map_some, Option.some.injEq] at nSequence ⊢
    rw [signed, signed, same]
    cases skipped : others && unlocked with
    | false => rw [nSequence skipped]
    | true => rfl

theorem TxIn.forces_signed {code code'} {same : Prop} {others unlocked}
    (coded : Forces code code' same) (txin txin' : TxIn)
    : Forces (txin.signed code others unlocked) (txin'.signed code' others unlocked)
        (txin.prevout = txin'.prevout ∧ (others = false → same)
          ∧ ((others && unlocked) = false → txin.nSequence = txin'.nSequence)) := by
  have script : Forces (if others then serializeBytes [] else code)
      (if others then serializeBytes [] else code') (others = false → same) := by
    cases others with
    | true => exact (forces_of_length rfl).imp fun _ absent => nomatch absent
    | false => exact coded.imp fun holds _ => holds
  have sequence : Forces
      (if others && unlocked then bytesLE 4 (0 : BitVec 32) else bytesLE 4 txin.nSequence)
      (if others && unlocked then bytesLE 4 (0 : BitVec 32) else bytesLE 4 txin'.nSequence)
      ((others && unlocked) = false → txin.nSequence = txin'.nSequence) := by
    cases others && unlocked with
    | true => exact (forces_of_length rfl).imp fun _ absent => nomatch absent
    | false => exact (forces_bytesLE (by decide) _ _).imp fun holds _ => holds
  exact (((OutPoint.forces_serialize _ _).append fun _ => script).append fun _ => sequence).imp
    and_assoc.mp

namespace TransactionSignatureSerializer

variable {nHashType : BitVec 32} {txTo txTo' : Transaction} {scriptCode scriptCode' : Script}
  {nIn nIn' : Nat}

def inputAt (nHashType : BitVec 32) (nIn nInput : Nat) : Nat :=
  if anyoneCanPay nHashType then nIn else nInput

theorem serializeInput_of (nInput)
    : (of nHashType txTo scriptCode nIn).serializeInput nInput
      = (txTo.vin[inputAt nHashType nIn nInput]?.map
          (TxIn.signed (serializeScriptCode scriptCode)
            (decide (inputAt nHashType nIn nInput ≠ nIn))
            (hashSingle nHashType || hashNone nHashType))).getD [] := by
  rw [serializeInput]
  have place : (if (of nHashType txTo scriptCode nIn).fAnyoneCanPay = true
      then (of nHashType txTo scriptCode nIn).nIn else nInput) = inputAt nHashType nIn nInput := rfl
  simp only [place]
  dsimp only [of]
  cases txTo.vin[inputAt nHashType nIn nInput]? with
  | none => rfl
  | some txin =>
    by_cases signed : inputAt nHashType nIn nInput = nIn <;> simp [signed, TxIn.signed]

theorem inputAt_of_anyoneCanPay (anyone : anyoneCanPay nHashType = true) (nInput)
    : inputAt nHashType nIn nInput = nIn := if_pos anyone

theorem inputAt_of_all (all : anyoneCanPay nHashType = false) (nInput)
    : inputAt nHashType nIn nInput = nInput := if_neg (Bool.not_eq_true _ ▸ all)

variable (alike : SignedAlike nHashType txTo txTo' scriptCode scriptCode' nIn nIn')

include alike in
theorem serializeInput_congr
    (code : serializeScriptCode scriptCode = serializeScriptCode scriptCode') (nInput)
    : (of nHashType txTo scriptCode nIn).serializeInput nInput
      = (of nHashType txTo' scriptCode' nIn').serializeInput nInput := by
  rw [serializeInput_of, serializeInput_of]
  rcases Bool.eq_false_or_eq_true (anyoneCanPay nHashType) with anyone | all
  · rw [inputAt_of_anyoneCanPay anyone, inputAt_of_anyoneCanPay anyone]
    simp only [ne_eq, not_true_eq_false, decide_false]
    rw [code, TxIn.signed_congr alike.prevout fun _ => alike.nSequence]
  obtain ⟨rfl, prevouts⟩ := alike.prevouts all
  rw [inputAt_of_all all]
  have place {α : Type} {f : TxIn → α} (same : txTo.vin.map f = txTo'.vin.map f)
      : txTo.vin[nInput]?.map f = txTo'.vin[nInput]?.map f := by
    rw [← getElem?_map, same, getElem?_map]
  have nSequence (locked : (decide (nInput ≠ nIn)
      && (hashSingle nHashType || hashNone nHashType)) = false)
      : txTo.vin[nInput]?.map TxIn.nSequence = txTo'.vin[nInput]?.map TxIn.nSequence := by
    by_cases signed : nInput = nIn
    · rw [signed]
      exact alike.nSequence
    -- another input, whose sequence is signed with all outputs only
    have outputs : (hashSingle nHashType || hashNone nHashType) = false := by
      simpa [signed] using locked
    rw [Bool.or_eq_false_iff] at outputs
    exact place (alike.sequences all outputs.1 outputs.2)
  rw [code, TxIn.signed_congr (place prevouts) nSequence]

theorem serializeOutput_of_other (single : hashSingle nHashType = true) {nOutput}
    (other : nOutput ≠ nIn)
    : (of nHashType txTo scriptCode nIn).serializeOutput nOutput = TxOut.serialize ⟨-1, []⟩ :=
  if_pos ⟨single, other⟩

theorem serializeOutput_of_signed {nOutput} (signed : hashSingle nHashType = true → nOutput = nIn)
    : (of nHashType txTo scriptCode nIn).serializeOutput nOutput
      = (txTo.vout[nOutput]?.map TxOut.serialize).getD [] := by
  rw [serializeOutput, if_neg (fun other => other.2 (signed other.1))]
  dsimp only [of]
  cases txTo.vout[nOutput]? <;> rfl

include alike in
theorem serializeOutput_congr (some : hashNone nHashType = false) (nOutput)
    : (of nHashType txTo scriptCode nIn).serializeOutput nOutput
      = (of nHashType txTo' scriptCode' nIn').serializeOutput nOutput := by
  rcases Bool.eq_false_or_eq_true (hashSingle nHashType) with single | all
  · obtain ⟨rfl, output⟩ := alike.output single
    by_cases signed : nOutput = nIn
    · rw [serializeOutput_of_signed fun _ => signed, serializeOutput_of_signed fun _ => signed,
        signed, output]
    · rw [serializeOutput_of_other single signed, serializeOutput_of_other single signed]
  · have every {place} (single : hashSingle nHashType = true) : nOutput = place := by
      rw [all] at single
      cases single
    rw [serializeOutput_of_signed every, serializeOutput_of_signed every, alike.outputs all some]

def nInputs (nHashType : BitVec 32) (txTo : Transaction) : Nat :=
  if anyoneCanPay nHashType then 1 else txTo.vin.length % 2 ^ 32

def nOutputs (nHashType : BitVec 32) (txTo : Transaction) (nIn : Nat) : Nat :=
  if hashNone nHashType then 0
  else if hashSingle nHashType then (nIn + 1) % 2 ^ 32
  else txTo.vout.length % 2 ^ 32

theorem serialize_of
    : (of nHashType txTo scriptCode nIn).serialize
      = bytesLE 4 txTo.nVersion
        ++ writeCompactSize (nInputs nHashType txTo)
        ++ (range (nInputs nHashType txTo)).flatMap
          (of nHashType txTo scriptCode nIn).serializeInput
        ++ writeCompactSize (nOutputs nHashType txTo nIn)
        ++ (range (nOutputs nHashType txTo nIn)).flatMap
          (of nHashType txTo scriptCode nIn).serializeOutput
        ++ bytesLE 4 txTo.nLockTime := rfl

section

include alike

theorem nInputs_congr : nInputs nHashType txTo = nInputs nHashType txTo' := by
  rw [nInputs, nInputs]
  split
  · rfl
  rename_i all
  have length := congrArg List.length (alike.prevouts (Bool.not_eq_true _ ▸ all)).2
  rw [length_map, length_map] at length
  rw [length]

theorem nOutputs_congr : nOutputs nHashType txTo nIn = nOutputs nHashType txTo' nIn' := by
  rw [nOutputs, nOutputs]
  split
  · rfl
  rename_i some
  split
  · rename_i single
    rw [(alike.output single).1]
  · rename_i all
    rw [alike.outputs (Bool.not_eq_true _ ▸ all) (Bool.not_eq_true _ ▸ some)]

/-- The same signed parts give the same bytes. -/
theorem serialize_congr (code : serializeScriptCode scriptCode = serializeScriptCode scriptCode')
    : (of nHashType txTo scriptCode nIn).serialize
      = (of nHashType txTo' scriptCode' nIn').serialize := by
  have inputs := funext (serializeInput_congr alike code)
  have outputs : (range (nOutputs nHashType txTo' nIn')).flatMap
      (of nHashType txTo scriptCode nIn).serializeOutput
      = (range (nOutputs nHashType txTo' nIn')).flatMap
        (of nHashType txTo' scriptCode' nIn').serializeOutput := by
    rcases Bool.eq_false_or_eq_true (hashNone nHashType) with none | some
    · rw [nOutputs, if_pos none]
      rfl
    · rw [funext (serializeOutput_congr alike some)]
  rw [serialize_of, serialize_of, alike.nVersion, alike.nLockTime, nInputs_congr alike,
    nOutputs_congr alike, inputs, outputs]

end

-- The signed bytes determine the signed parts

theorem inputAt_lt {nInput} (inRange : InRange nHashType txTo nIn)
    (counted : nInput < nInputs nHashType txTo)
    : inputAt nHashType nIn nInput < txTo.vin.length := by
  rcases Bool.eq_false_or_eq_true (anyoneCanPay nHashType) with anyone | all
  · rw [inputAt_of_anyoneCanPay anyone]
    exact inRange.input
  rw [nInputs, if_neg (Bool.not_eq_true _ ▸ all)] at counted
  rw [inputAt_of_all all]
  exact Nat.lt_of_lt_of_le counted (Nat.mod_le _ _)

/-- What the bytes of an input determine. -/
structure InputAlike (nHashType : BitVec 32) (txTo txTo' : Transaction)
    (scriptCode scriptCode' : Script) (nIn nInput : Nat)
    : Prop where
  prevout : txTo.vin[nInput]?.map TxIn.prevout = txTo'.vin[nInput]?.map TxIn.prevout
  code : nInput = nIn →
    Script.withoutCodeSeparators scriptCode = Script.withoutCodeSeparators scriptCode'
  nSequence : nInput = nIn ∨ (hashSingle nHashType || hashNone nHashType) = false →
    txTo.vin[nInput]?.map TxIn.nSequence = txTo'.vin[nInput]?.map TxIn.nSequence

section

variable
  (coded : Forces (Script.serializeScriptCode scriptCode) (Script.serializeScriptCode scriptCode')
    (Script.withoutCodeSeparators scriptCode = Script.withoutCodeSeparators scriptCode'))
  (small : ∀ txout ∈ txTo.vout, txout.scriptPubKey.length < 2 ^ 64)
  (small' : ∀ txout ∈ txTo'.vout, txout.scriptPubKey.length < 2 ^ 64)
  (inRange : InRange nHashType txTo nIn) (inRange' : InRange nHashType txTo' nIn)

include coded in
theorem forces_serializeInput {nInput} (inside : inputAt nHashType nIn nInput < txTo.vin.length)
    (inside' : inputAt nHashType nIn nInput < txTo'.vin.length)
    : Forces ((of nHashType txTo scriptCode nIn).serializeInput nInput)
        ((of nHashType txTo' scriptCode' nIn).serializeInput nInput)
        (InputAlike nHashType txTo txTo' scriptCode scriptCode' nIn
          (inputAt nHashType nIn nInput)) := by
  rw [serializeInput_of, serializeInput_of]
  have found := getElem?_eq_getElem inside
  have found' := getElem?_eq_getElem inside'
  rw [found, found']
  refine (TxIn.forces_signed coded _ _).imp ?_
  rintro ⟨prevout, code, nSequence⟩
  refine ⟨?_, fun signed => code (by simpa using signed), fun locked => ?_⟩
  · rw [found, found', map_some, map_some, prevout]
  · rw [found, found', map_some, map_some, nSequence]
    simpa only [Bool.and_eq_false_iff, decide_eq_false_iff_not, not_not] using locked

theorem output_lt {nOutput} (inRange : InRange nHashType txTo nIn)
    (counted : nOutput < nOutputs nHashType txTo nIn)
    (signed : hashSingle nHashType = true → nOutput = nIn)
    : nOutput < txTo.vout.length := by
  rw [nOutputs] at counted
  split at counted
  · exact absurd counted (Nat.not_lt_zero _)
  split at counted
  · rename_i single
    rw [signed single]
    exact inRange.output single
  · exact Nat.lt_of_lt_of_le counted (Nat.mod_le _ _)

include small small' in
/-- What the bytes of an output determine. -/
theorem forces_serializeOutput {nOutput : Nat}
    (inside : (hashSingle nHashType = true → nOutput = nIn) → nOutput < txTo.vout.length)
    (inside' : (hashSingle nHashType = true → nOutput = nIn) → nOutput < txTo'.vout.length)
    : Forces ((of nHashType txTo scriptCode nIn).serializeOutput nOutput)
        ((of nHashType txTo' scriptCode' nIn).serializeOutput nOutput)
        ((hashSingle nHashType = true → nOutput = nIn) →
          txTo.vout[nOutput]? = txTo'.vout[nOutput]?) := by
  by_cases signed : hashSingle nHashType = true → nOutput = nIn
  · have inside := inside signed
    have inside' := inside' signed
    rw [serializeOutput_of_signed signed, serializeOutput_of_signed signed,
      getElem?_eq_getElem inside, getElem?_eq_getElem inside']
    exact (TxOut.forces_serialize (small _ (getElem_mem inside))
      (small' _ (getElem_mem inside'))).imp fun same _ => congrArg some same
  · obtain ⟨single, other⟩ := Classical.not_imp.mp signed
    rw [serializeOutput_of_other single other, serializeOutput_of_other single other]
    exact (forces_of_length rfl).imp fun _ unsigned => absurd unsigned signed

theorem nInputs_lt : nInputs nHashType txTo < 2 ^ 64 := by
  rw [nInputs]
  split <;> omega

theorem nOutputs_lt : nOutputs nHashType txTo nIn < 2 ^ 64 := by
  rw [nOutputs]
  split
  · omega
  · split <;> omega

include coded small small' inRange inRange' in
/-- What the bytes of a signature determine, field by field. -/
theorem forces_serialize
    : Forces (of nHashType txTo scriptCode nIn).serialize
        (of nHashType txTo' scriptCode' nIn).serialize
        (txTo.nVersion = txTo'.nVersion
          ∧ nInputs nHashType txTo = nInputs nHashType txTo'
          ∧ (∀ nInput < nInputs nHashType txTo, InputAlike nHashType txTo txTo' scriptCode
              scriptCode' nIn (inputAt nHashType nIn nInput))
          ∧ nOutputs nHashType txTo nIn = nOutputs nHashType txTo' nIn
          ∧ (∀ nOutput < nOutputs nHashType txTo nIn,
              (hashSingle nHashType = true → nOutput = nIn) →
                txTo.vout[nOutput]? = txTo'.vout[nOutput]?)
          ∧ txTo.nLockTime = txTo'.nLockTime) := by
  rw [serialize_of, serialize_of]
  simp only [append_assoc]
  refine (forces_bytesLE (by decide) _ _).append fun _ => ?_
  refine (forces_writeCompactSize nInputs_lt nInputs_lt).append fun sameInputs => ?_
  refine (forces_range sameInputs fun nInput counted => ?_).append fun _ => ?_
  · exact forces_serializeInput coded (inputAt_lt inRange counted)
      (inputAt_lt inRange' (sameInputs ▸ counted))
  refine (forces_writeCompactSize nOutputs_lt nOutputs_lt).append fun sameOutputs => ?_
  refine (forces_range sameOutputs fun nOutput counted => ?_).append fun _ =>
    forces_bytesLE (by decide) _ _
  exact forces_serializeOutput small small' (output_lt inRange counted)
    (output_lt inRange' (sameOutputs ▸ counted))

theorem nInputs_of_all (counted : txTo.Counted nHashType nIn) (all : anyoneCanPay nHashType = false)
    : nInputs nHashType txTo = txTo.vin.length := by
  rw [nInputs, if_neg (Bool.not_eq_true _ ▸ all), Nat.mod_eq_of_lt (counted.inputs all)]

/-- The input of the signature is among those that are serialized. -/
theorem exists_inputAt (counted : txTo.Counted nHashType nIn) (inRange : InRange nHashType txTo nIn)
    : ∃ nInput < nInputs nHashType txTo, inputAt nHashType nIn nInput = nIn := by
  rcases Bool.eq_false_or_eq_true (anyoneCanPay nHashType) with anyone | all
  · exact ⟨0, by rw [nInputs, if_pos anyone]; decide, inputAt_of_anyoneCanPay anyone 0⟩
  · exact ⟨nIn, by rw [nInputs_of_all counted all]; exact inRange.input, inputAt_of_all all nIn⟩

theorem map_eq_of_place {α β : Type} {f : α → β} {items items' : List α}
    (length : items.length = items'.length)
    (place : ∀ i < items.length, items[i]?.map f = items'[i]?.map f)
    : items.map f = items'.map f := by
  refine ext_getElem?' fun i inside => ?_
  rw [length_map, length_map, ← length, Nat.max_self] at inside
  rw [getElem?_map, getElem?_map, place i inside]

include coded small small' inRange inRange' in
/-- The same bytes come from the same signed parts. -/
theorem signedAlike_of_serialize (counted : txTo.Counted nHashType nIn)
    (counted' : txTo'.Counted nHashType nIn)
    (same : (of nHashType txTo scriptCode nIn).serialize
      = (of nHashType txTo' scriptCode' nIn).serialize)
    : SignedAlike nHashType txTo txTo' scriptCode scriptCode' nIn nIn := by
  obtain ⟨nVersion, sameInputs, inputs, sameOutputs, outputs, nLockTime⟩ :=
    (forces_serialize coded small small' inRange inRange').of_eq same
  have signed : InputAlike nHashType txTo txTo' scriptCode scriptCode' nIn nIn := by
    obtain ⟨nInput, inside, place⟩ := exists_inputAt counted inRange
    have found := inputs nInput inside
    rwa [place] at found
  have every (all : anyoneCanPay nHashType = false) : txTo.vin.length = txTo'.vin.length
      ∧ ∀ i < txTo.vin.length, InputAlike nHashType txTo txTo' scriptCode scriptCode' nIn i := by
    rw [nInputs_of_all counted all] at sameInputs inputs
    refine ⟨sameInputs.trans (nInputs_of_all counted' all), fun i inside => ?_⟩
    rw [← @inputAt_of_all nHashType nIn all i]
    exact inputs i inside
  exact {
    nVersion := nVersion
    nLockTime := nLockTime
    code := signed.code rfl
    prevout := signed.prevout
    nSequence := signed.nSequence (.inl rfl)
    prevouts := fun all =>
      ⟨rfl, map_eq_of_place (every all).1 fun i inside => ((every all).2 i inside).prevout⟩
    sequences := fun all single none => map_eq_of_place (every all).1 fun i inside =>
      ((every all).2 i inside).nSequence (.inr (by rw [single, none]; rfl))
    outputs := fun single none => by
      have count {tx} (counted : tx.Counted nHashType nIn)
          : nOutputs nHashType tx nIn = tx.vout.length := by
        rw [nOutputs, if_neg (Bool.not_eq_true _ ▸ none), if_neg (Bool.not_eq_true _ ▸ single),
          Nat.mod_eq_of_lt (counted.outputs single none)]
      rw [count counted] at sameOutputs outputs
      rw [count counted'] at sameOutputs
      refine ext_getElem?' fun i inside => ?_
      rw [← sameOutputs, Nat.max_self] at inside
      exact outputs i inside fun set => absurd (single ▸ set) (by decide)
    output := fun single => by
      refine ⟨rfl, outputs nIn ?_ fun _ => rfl⟩
      have fits := counted.output single
      rw [nOutputs, if_neg (Bool.not_eq_true _ ▸ hashNone_of_hashSingle single), if_pos single]
      omega }

end

end TransactionSignatureSerializer

structure ScriptsFit (txTo : Transaction) (scriptCode : Script) : Prop where
  code : scriptCode.length < 2 ^ 64
  outputs : ∀ txout ∈ txTo.vout, txout.scriptPubKey.length < 2 ^ 64

section Commitment

variable {nHashType : BitVec 32} {txTo txTo' : Transaction} {scriptCode scriptCode' : Script}
  {nIn nIn' : Nat}

theorem legacyPreimage_congr (parsed : parses scriptCode = true)
    (parsed' : parses scriptCode' = true)
    (alike : SignedAlike nHashType txTo txTo' scriptCode scriptCode' nIn nIn')
    : legacyPreimage nHashType txTo scriptCode nIn
      = legacyPreimage nHashType txTo' scriptCode' nIn' := by
  have code : serializeScriptCode scriptCode = serializeScriptCode scriptCode' := by
    rw [serializeScriptCode_eq parsed, serializeScriptCode_eq parsed', alike.code]
  rw [legacyPreimage, legacyPreimage, serialize_congr alike code]

/-- A legacy signature commits to exactly the signed parts: they determine the bytes that are
hashed, and the bytes determine them for the same input of transactions whose signed inputs and
outputs an `unsigned int` counts.
-/
theorem legacyPreimage_commits (parsed : Script.parses scriptCode = true)
    (parsed' : Script.parses scriptCode' = true)
    (inRange : InRange nHashType txTo nIn) (inRange' : InRange nHashType txTo' nIn')
    (fit : ScriptsFit txTo scriptCode) (fit' : ScriptsFit txTo' scriptCode')
    : (SignedAlike nHashType txTo txTo' scriptCode scriptCode' nIn nIn' →
        legacyPreimage nHashType txTo scriptCode nIn
          = legacyPreimage nHashType txTo' scriptCode' nIn')
      ∧ (txTo.Counted nHashType nIn → txTo'.Counted nHashType nIn → nIn = nIn' →
        legacyPreimage nHashType txTo scriptCode nIn
          = legacyPreimage nHashType txTo' scriptCode' nIn' →
        SignedAlike nHashType txTo txTo' scriptCode scriptCode' nIn nIn') := by
  refine ⟨legacyPreimage_congr parsed parsed', ?_⟩
  rintro counted counted' rfl same
  have shorter {code} (parses : parses code = true) (short : code.length < 2 ^ 64)
      : (withoutCodeSeparators code).length < 2 ^ 64 := by
    have length := length_withoutCodeSeparators parses
    omega
  have coded := forces_serializeBytes (shorter parsed fit.code) (shorter parsed' fit'.code)
  rw [← serializeScriptCode_eq parsed, ← serializeScriptCode_eq parsed'] at coded
  exact signedAlike_of_serialize coded fit.outputs fit'.outputs inRange inRange' counted counted'
    (append_cancel_right same)

end Commitment

def oneOutput (nLockTime : BitVec 32) : Transaction :=
  ⟨1, [⟨⟨0, 0⟩, [], 0, []⟩], [⟨1, [Script.OP_1]⟩], nLockTime⟩

/-- A code separator in the script code is not signed, and the lock time is. -/
theorem legacyPreimage_commits_separator
    : legacyPreimage SIGHASH_ALL (oneOutput 0) [Script.OP_CODESEPARATOR, Script.OP_1] 0
        = legacyPreimage SIGHASH_ALL (oneOutput 0) [Script.OP_1] 0
      ∧ legacyPreimage SIGHASH_ALL (oneOutput 0) [Script.OP_1] 0
        ≠ legacyPreimage SIGHASH_ALL (oneOutput 1) [Script.OP_1] 0 := by
  have inRange (nLockTime) : InRange SIGHASH_ALL (oneOutput nLockTime) 0 :=
    ⟨Nat.one_pos, fun _ => Nat.one_pos⟩
  have fits (nLockTime) {scriptCode} (short : scriptCode.length < 2 ^ 64)
      : ScriptsFit (oneOutput nLockTime) scriptCode := ⟨short, by simp [oneOutput]⟩
  have counted (nLockTime) : (oneOutput nLockTime).Counted SIGHASH_ALL 0 :=
    ⟨fun _ => by simp [oneOutput], fun _ _ => by simp [oneOutput], fun _ => by decide⟩
  refine ⟨(legacyPreimage_commits (by decide +kernel) (by decide +kernel) (inRange 0) (inRange 0)
    (fits 0 (by decide)) (fits 0 (by decide))).1 ?_, fun same => ?_⟩
  · exact ⟨rfl, rfl, by decide +kernel, rfl, rfl, fun _ => ⟨rfl, rfl⟩, fun _ _ _ => rfl,
      fun _ _ => rfl, fun _ => ⟨rfl, rfl⟩⟩
  · have alike := (legacyPreimage_commits (by decide +kernel) (by decide +kernel) (inRange 0)
      (inRange 1) (fits 0 (by decide)) (fits 1 (by decide))).2 (counted 0) (counted 1) rfl same
    exact absurd alike.nLockTime (by decide)

def repeatedInput (count : Nat) : Transaction :=
  ⟨1, List.replicate count ⟨⟨0, 0⟩, [], 0, []⟩, [], 0⟩

section Uncounted

open TransactionSignatureSerializer

variable {count : Nat}

theorem nInputs_repeatedInput (one : count % 2 ^ 32 = 1)
    : nInputs SIGHASH_ALL (repeatedInput count) = 1 := by
  rw [nInputs, if_neg (by decide), repeatedInput, length_replicate, one]

theorem legacyPreimage_repeatedInput (one : count % 2 ^ 32 = 1)
    : legacyPreimage SIGHASH_ALL (repeatedInput count) [] 0
      = bytesLE 4 (1 : BitVec 32) ++ writeCompactSize 1
        ++ TxIn.signed (serializeScriptCode []) false false ⟨⟨0, 0⟩, [], 0, []⟩
        ++ writeCompactSize 0 ++ bytesLE 4 (0 : BitVec 32) ++ bytesLE 4 SIGHASH_ALL := by
  have outputs : nOutputs SIGHASH_ALL (repeatedInput count) 0 = 0 := rfl
  rw [legacyPreimage, serialize_of, nInputs_repeatedInput one, outputs, range_one,
    flatMap_singleton, serializeInput_of, inputAt_of_all (by decide), range_zero, flatMap_nil,
    append_nil]
  have pos : 0 < count := by omega
  simp only [repeatedInput, getElem?_replicate, if_pos pos]
  rfl

theorem not_signedAlike_repeatedInput (several : 1 < count)
    : ¬ SignedAlike SIGHASH_ALL (repeatedInput count) (repeatedInput 1) [] [] 0 0 := by
  intro alike
  have length := congrArg List.length (alike.prevouts (by decide)).2
  simp only [repeatedInput, length_map, length_replicate] at length
  omega

theorem inRange_repeatedInput (pos : 0 < count)
    : InRange SIGHASH_ALL (repeatedInput count) 0 :=
  ⟨by rwa [repeatedInput, length_replicate], fun single => absurd single (by decide)⟩

theorem scriptsFit_repeatedInput : ScriptsFit (repeatedInput count) [] :=
  ⟨by decide, fun _ mem => absurd mem not_mem_nil⟩

end Uncounted

/-- More inputs than an `unsigned int` counts: the signature signs the first one only. -/
theorem uncounted_inputs_unsigned
    : ∃ first second : Transaction,
      InRange SIGHASH_ALL first 0 ∧ InRange SIGHASH_ALL second 0
      ∧ ScriptsFit first [] ∧ ScriptsFit second [] ∧ Script.parses [] = true
      ∧ legacyPreimage SIGHASH_ALL first [] 0 = legacyPreimage SIGHASH_ALL second [] 0
      ∧ ¬ SignedAlike SIGHASH_ALL first second [] [] 0 0 := by
  obtain ⟨count, several, one⟩ : ∃ count, 1 < count ∧ count % 2 ^ 32 = 1 :=
    ⟨2 ^ 32 + 1, by decide, by decide⟩
  exact ⟨repeatedInput count, repeatedInput 1, inRange_repeatedInput (by omega),
    inRange_repeatedInput Nat.one_pos, scriptsFit_repeatedInput, scriptsFit_repeatedInput,
    by decide +kernel,
    (legacyPreimage_repeatedInput one).trans (legacyPreimage_repeatedInput (by decide)).symm,
    not_signedAlike_repeatedInput several⟩

end Pqcoin
