import Pqcoin.Script.Sign

/-! The sizes of transactions that are filled with placeholders and with real signatures.
Both fillings run through the same steps, so they differ exactly in the signatures.
-/

namespace Pqcoin

open Bool List Option Script

-- Filling in signatures

def Transaction.getTransactionWeight (tx : Transaction) : Nat :=
  (tx.serialize false).length * 3 + (tx.serialize true).length

def Transaction.getVirtualTransactionSize (tx : Transaction) : Nat :=
  (tx.getTransactionWeight + 3) / 4

/-- `UpdateTransaction`, on the input. -/
def TxIn.update (txin : TxIn) (data : SignatureData) : TxIn :=
  { txin with scriptSig := data.scriptSig, scriptWitness := data.scriptWitness }

/-- The loop of `DummySignTx` and of `CreateTransaction` over the coins, with the assertion of
`UpdateTransaction`.
-/
def fillInputs (produce : Nat → TxOut → Option SignatureData)
    : Nat → List TxIn → List TxOut → Option (List TxIn)
  | _, vin, [] => some vin
  | _, [], _ :: _ => none
  | nIn, txin :: vin, coin :: coins =>
    match produce nIn coin with
    | none => none
    | some data => (fillInputs produce (nIn + 1) vin coins).map (txin.update data :: ·)

/-- `DummySignTx`; `memory` is below the key objects of each input. -/
def dummySignTx (D : Digests) (store : SigningStore) (memory : Nat → Nat → Nat → PubKey)
    (txNew : Transaction) (coins : List TxOut)
    : Option Transaction :=
  (fillInputs (fun nIn coin => produceSignature D (dummySignatureCreator store) (memory nIn)
      coin.scriptPubKey) 0 txNew.vin coins).map (fun vin => { txNew with vin := vin })

def signTx (S : SignatureScheme) (D : Digests) (C : Cipher) (store : SigningStore)
    (choices : Nat → SigningChoices) (memory : Nat → Nat → Nat → PubKey) (txNew : Transaction)
    (coins : List TxOut)
    : Option Transaction :=
  (fillInputs (fun nIn coin => produceSignature D
      (transactionSignatureCreator S D C store (choices nIn) txNew nIn coin.nValue SIGHASH_ALL)
      (memory nIn) coin.scriptPubKey) 0 txNew.vin coins).map
    (fun vin => { txNew with vin := vin })

-- Placeholders and signatures

/-- The second list is the first with `count` placeholders replaced by real signatures; a
pushed public key may be another one.
-/
inductive Replaced : Nat → List (List Byte) → List (List Byte) → Prop where
  | nil : Replaced 0 [] []
  | same {count placeholders values} (value : List Byte)
      (rest : Replaced count placeholders values)
      : Replaced count (value :: placeholders) (value :: values)
  | pubKey {count placeholders values} (first second : PubKey)
      (rest : Replaced count placeholders values)
      : Replaced count (first.toBytes :: placeholders) (second.toBytes :: values)
  | signature {count placeholders values placeholder value} (short : placeholder.length = 72)
      (long : value.length = SIGN_SIZE + 1) (rest : Replaced count placeholders values)
      : Replaced (count + 1) (placeholder :: placeholders) (value :: values)

namespace Replaced

def growth : Nat := 3224

variable {count : Nat} {placeholders values : List (List Byte)}

/-- A whole list of signatures. -/
theorem of_lengths (same : placeholders.length = values.length)
    (short : ∀ placeholder ∈ placeholders, placeholder.length = 72)
    (long : ∀ value ∈ values, value.length = SIGN_SIZE + 1)
    : Replaced values.length placeholders values := by
  induction values generalizing placeholders with
  | nil =>
    rw [eq_nil_of_length_eq_zero same]
    exact .nil
  | cons value values ih =>
    cases placeholders with
    | nil => cases same
    | cons placeholder placeholders =>
      rw [forall_mem_cons] at short long
      exact .signature short.1 long.1 (ih (Nat.succ.inj same) short.2 long.2)

theorem eq_zero (replaced : Replaced count [] values) : count = 0 := by
  cases replaced
  rfl

variable (replaced : Replaced count placeholders values)

include replaced

theorem append_same (value)
    : Replaced count (placeholders ++ [value]) (values ++ [value]) := by
  induction replaced with
  | nil => exact .same value .nil
  | same other _ ih => exact .same other ih
  | pubKey first second _ ih => exact .pubKey first second ih
  | signature short long _ ih => exact .signature short long ih

theorem isEmpty_eq : values.isEmpty = placeholders.isEmpty := by
  cases replaced <;> rfl

theorem length_eq : values.length = placeholders.length := by
  induction replaced with
  | nil => rfl
  | same _ _ ih | pubKey _ _ _ ih
  | signature _ _ _ ih => rw [length_cons, length_cons, ih]

theorem length_flatMap (encode : List Byte → List Byte)
    (keys : ∀ first second : PubKey, (encode second.toBytes).length = (encode first.toBytes).length)
    (grows : ∀ {placeholder value}, placeholder.length = 72
      → value.length = SIGN_SIZE + 1
      → (encode value).length = (encode placeholder).length + growth)
    : (values.flatMap encode).length = (placeholders.flatMap encode).length + growth * count := by
  induction replaced with
  | nil => rfl
  | same value _ ih =>
    rw [flatMap_cons, flatMap_cons, length_append, length_append, ih, Nat.add_assoc]
  | pubKey first second _ ih =>
    rw [flatMap_cons, flatMap_cons, length_append, length_append, ih,
      keys first second, Nat.add_assoc]
  | signature short long _ ih =>
    rw [flatMap_cons, flatMap_cons, length_append, length_append, ih,
      grows short long, Nat.mul_succ]
    omega

end Replaced

theorem pushValue_of_long {value} (long : 2 ≤ value.length) : pushValue value = pushData value := by
  match value, long with
  | _ :: _ :: _, _ => rfl

/-- The script of `PushAll` grows by the signatures. -/
theorem length_pushAll {count placeholders values} (replaced : Replaced count placeholders values)
    : (pushAll values).length = (pushAll placeholders).length + Replaced.growth * count := by
  refine replaced.length_flatMap pushValue (fun first second => ?_) (fun short long => ?_)
  · have pushed (pubkey : PubKey) : pushValue pubkey.toBytes = pushData pubkey.toBytes :=
      pushValue_of_long (by rw [length_toBytes]; decide)
    rw [pushed first, pushed second, length_pushData, length_pushData, length_toBytes,
      length_toBytes]
  · rw [pushValue_of_long (by rw [long]; decide), pushValue_of_long (by rw [short]; decide),
      length_pushData, length_pushData, short, long]
    decide

theorem length_serializeWitness {count placeholders values}
    (replaced : Replaced count placeholders values)
    : (serializeVector serializeBytes values).length
      = (serializeVector serializeBytes placeholders).length + Replaced.growth * count := by
  have items := replaced.length_flatMap serializeBytes
    (fun first second => by
      rw [serializeBytes, serializeBytes, length_append, length_append, length_toBytes,
        length_toBytes])
    (fun short long => by
      rw [serializeBytes, serializeBytes, length_append, length_append, short, long]
      decide)
  rw [serializeVector, serializeVector, length_append, length_append, items,
    replaced.length_eq, Nat.add_assoc]

-- The same steps

def SignatureCreator.SignsWith (creator : SignatureCreator) (P : List Byte → Prop) : Prop :=
  ∀ i address scriptCode sigversion vchSig,
    creator.createSig i address scriptCode sigversion = some vchSig → P vchSig

theorem dummySignatureCreator_signsWith (store)
    : (dummySignatureCreator store).SignsWith (fun vchSig => vchSig.length = 72) := by
  intro i address scriptCode sigversion vchSig created
  cases created
  decide

theorem transactionSignatureCreator_signsWith (S D C) (store choices txTo nIn) (amount nHashType)
    : (transactionSignatureCreator S D C store choices txTo nIn amount nHashType).SignsWith
        (fun vchSig => vchSig.length = SIGN_SIZE + 1) := by
  intro i address scriptCode sigversion vchSig created
  simp only [transactionSignatureCreator] at created
  split at created
  · cases created
  split at created
  · cases created
  split at created
  · rename_i valid
    cases created
    rw [length_append, length_singleton, Key.sign, if_pos valid, S.length_signature]
  · cases created

/-- The loop over the keys of a multisignature collects what the creator makes. -/
theorem signN_forall {D creator memory P} (signs : creator.SignsWith P)
    {scriptCode sigversion missing i keys}
    : ∀ vchSig ∈ signN D creator memory scriptCode sigversion missing i keys, P vchSig := by
  fun_induction signN D creator memory scriptCode sigversion missing i keys with
  | case1 i keys | case2 missing i => simp
  | case3 missing i pubkey rest vchSig created ih =>
    rw [forall_mem_cons]
    exact ⟨signs _ _ _ _ _ created, ih⟩
  | case4 missing i pubkey rest failed ih => exact ih

theorem required_of_solver {script vSolutions}
    (solved : solver script = some (.multisig, vSolutions))
    : 0 < ((vSolutions.headD []).headD 0).toNat := by
  have scanned : ∀ templates, scanTemplates script templates = some (.multisig, vSolutions)
      → checkMultisig vSolutions = true := by
    intro templates found
    induction templates with
    | nil => cases found
    | cons template rest ih =>
      rw [scanTemplates] at found
      split at found
      · exact ih found
      split at found
      · cases found
      rename_i unfailed
      simp only [Option.some.injEq, Prod.mk.injEq] at found
      obtain ⟨multisig, rfl⟩ := found
      simpa [multisig] using unfailed
  rw [solver] at solved
  split at solved
  · cases solved
  split at solved
  · split at solved
    · cases solved
    · split at solved <;> cases solved
  split at solved
  · cases solved
  have checked := scanned _ solved
  rw [checkMultisig] at checked
  simp only [← headD_eq_head?_getD] at checked
  grind

def TxnOutType.isNested : TxnOutType → Bool
  | .scripthash => true
  | .witnessV0KeyHash => true
  | .witnessV0ScriptHash => true
  | _ => false

/-- Two results agree: on the script of a nested type, and otherwise up to at least one
signature.
-/
structure SignResult.Agrees (dummy real : SignResult) : Prop where
  whichType : dummy.whichType = real.whichType
  nested : real.whichType.isNested = true → dummy.ret = real.ret
  signed : real.whichType.isNested = false
    → ∃ count, 0 < count ∧ Replaced count dummy.ret real.ret

/-- Two productions agree up to at least one signature. -/
def Production.Agrees (dummy real : Production) : Prop :=
  ∃ inScript inWitness, 0 < inScript + inWitness
    ∧ Replaced inScript dummy.result real.result
    ∧ Replaced inWitness dummy.witness real.witness

theorem TxnOutType.isNested_eq_false {whichType : TxnOutType} (first : whichType ≠ .scripthash)
    (second : whichType ≠ .witnessV0KeyHash) (third : whichType ≠ .witnessV0ScriptHash)
    : whichType.isNested = false := by
  cases whichType <;> first | rfl | contradiction

theorem whichType_signSolution (D creator) (memory : Nat → PubKey) (scriptPubKey sigversion)
    (whichType vSolutions)
    : (signSolution D creator memory scriptPubKey sigversion whichType vSolutions).whichType
      = whichType := by
  cases whichType <;> simp only [signSolution] <;> split <;> rfl

theorem isNested_keyHashScript (D creator) (memory : Nat → PubKey) (program sigversion)
    : (signStep D creator memory (keyHashScript program) sigversion).whichType.isNested
      = false := by
  rw [signStep, keyHashScript, solver_dup]
  split
  · rfl
  rename_i found
  rw [whichType_signSolution]
  simp only [scanTemplates, mTemplates] at found
  grind [TxnOutType.isNested]

theorem solved_of_produceWitness {D creator memory step}
    (solved : (produceWitness D creator memory step).solved = true)
    : step.solved = true := by
  by_contra failed
  rw [not_eq_true] at failed
  simp [produceWitness, failed] at solved

theorem solved_of_produce {D creator memory fromPubKey}
    (solved : (produce D creator memory fromPubKey).solved = true)
    : (signStep D creator (memory 0) fromPubKey .base).solved = true := by
  by_contra failed
  rw [not_eq_true] at failed
  simp only [produce, failed, Bool.false_and, false_eq_true, if_false] at solved
  rw [solved_of_produceWitness solved] at failed
  cases failed

/-- An input with placeholders, and the same input with real signatures. -/
def TxIn.Grown (dummy real : TxIn) : Prop :=
  ∃ inScript inWitness, 0 < inScript + inWitness
    ∧ real.scriptSig.length = dummy.scriptSig.length + Replaced.growth * inScript
    ∧ Replaced inWitness dummy.scriptWitness real.scriptWitness

section Compare

variable {D : Digests} {dummy real : SignatureCreator} {dummyMemory realMemory : Nat → PubKey}
  (sameStore : dummy.store = real.store)
  (short : dummy.SignsWith (fun vchSig => vchSig.length = 72))
  (long : real.SignsWith (fun vchSig => vchSig.length = SIGN_SIZE + 1))
  {scriptPubKey : Script} {sigversion : SigVersion}

include sameStore short long

theorem signSolution_agrees {whichType vSolutions}
    (solution : solver scriptPubKey = some (whichType, vSolutions))
    (dummySolved : (signSolution D dummy dummyMemory scriptPubKey sigversion whichType
      vSolutions).solved = true)
    (realSolved : (signSolution D real realMemory scriptPubKey sigversion whichType
      vSolutions).solved = true)
    : (signSolution D dummy dummyMemory scriptPubKey sigversion whichType vSolutions).Agrees
        (signSolution D real realMemory scriptPubKey sigversion whichType vSolutions) := by
  cases whichType with
  | nonstandard | nullData => cases realSolved
  | witnessV0KeyHash => exact ⟨rfl, fun _ => rfl, fun single => nomatch single⟩
  | scripthash | witnessV0ScriptHash =>
    simp only [signSolution, sameStore] at realSolved ⊢
    split at realSolved
    · cases realSolved
    · exact ⟨rfl, fun _ => rfl, fun single => nomatch single⟩
  | pubkey | pubkeyhash =>
    simp only [signSolution] at dummySolved realSolved ⊢
    split at dummySolved
    · cases dummySolved
    split at realSolved
    · cases realSolved
    rename_i placeholder placed _ vchSig created
    refine ⟨rfl, (fun nested => nomatch nested), fun _ => ⟨1, Nat.one_pos,
      .signature (short _ _ _ _ _ placed) (long _ _ _ _ _ created) ?_⟩⟩
    -- a key stands behind the signature only where the script has its hash
    first | exact .nil | exact .pubKey _ _ .nil
  | multisig =>
    have required := required_of_solver solution
    simp only [signSolution, beq_iff_eq] at dummySolved realSolved ⊢
    refine ⟨rfl, (fun nested => nomatch nested), fun _ => ⟨_, ?_, .same []
      (.of_lengths ?_ (signN_forall short) (signN_forall long))⟩⟩
    · rw [realSolved]
      exact required
    · rw [dummySolved, realSolved]

theorem signStep_agrees
    (dummySolved : (signStep D dummy dummyMemory scriptPubKey sigversion).solved = true)
    (realSolved : (signStep D real realMemory scriptPubKey sigversion).solved = true)
    : (signStep D dummy dummyMemory scriptPubKey sigversion).Agrees
        (signStep D real realMemory scriptPubKey sigversion) := by
  rw [signStep] at dummySolved realSolved ⊢
  rw [signStep]
  split at realSolved
  · cases realSolved
  rename_i whichType vSolutions solution
  simp only [solution] at dummySolved ⊢
  exact signSolution_agrees sameStore short long solution dummySolved realSolved

/-- The part for witness programs keeps at least one signature, in the script or in the
witness.
-/
theorem produceWitness_agrees {dummyStep realStep : SignResult}
    (dummySolved : (produceWitness D dummy dummyMemory dummyStep).solved = true)
    (realSolved : (produceWitness D real realMemory realStep).solved = true)
    (agrees : dummyStep.Agrees realStep) (single : realStep.whichType ≠ .scripthash)
    : (produceWitness D dummy dummyMemory dummyStep).Agrees
        (produceWitness D real realMemory realStep) := by
  have dummyStepSolved := solved_of_produceWitness dummySolved
  have realStepSolved := solved_of_produceWitness realSolved
  rw [produceWitness, dummyStepSolved, agrees.whichType] at dummySolved ⊢
  rw [produceWitness, realStepSolved] at realSolved ⊢
  by_cases keyHash : realStep.whichType = .witnessV0KeyHash
  · have first := agrees.nested (by rw [keyHash]; rfl)
    simp only [keyHash, first, Bool.true_and, beq_self_eq_true, if_true] at dummySolved realSolved ⊢
    have inner := signStep_agrees sameStore short long dummySolved realSolved
    obtain ⟨count, pos, replaced⟩ := inner.signed (isNested_keyHashScript _ _ _ _ _)
    exact ⟨0, count, by omega, .nil, replaced⟩
  · by_cases scriptHash : realStep.whichType = .witnessV0ScriptHash
    · have first := agrees.nested (by rw [scriptHash]; rfl)
      simp only [scriptHash, first, Bool.true_and, beq_self_eq_true, if_true,
        and_eq_true, bne_iff_ne, beq_iff_eq, reduceCtorEq, if_false] at dummySolved realSolved ⊢
      have inner := signStep_agrees sameStore short long dummySolved.1.1.1 realSolved.1.1.1
      obtain ⟨count, pos, replaced⟩ := inner.signed
        (TxnOutType.isNested_eq_false realSolved.1.1.2 realSolved.2 realSolved.1.2)
      exact ⟨0, count, by omega, .nil, replaced.append_same _⟩
    · simp only [Bool.true_and, beq_iff_eq, keyHash, scriptHash, if_false]
      obtain ⟨count, pos, replaced⟩ := agrees.signed
        (TxnOutType.isNested_eq_false single keyHash scriptHash)
      exact ⟨count, 0, by omega, replaced, .nil⟩

theorem produce_agrees {fromPubKey : Script} {dummyMemory realMemory : Nat → Nat → PubKey}
    (dummySolved : (produce D dummy dummyMemory fromPubKey).solved = true)
    (realSolved : (produce D real realMemory fromPubKey).solved = true)
    : (produce D dummy dummyMemory fromPubKey).Agrees (produce D real realMemory fromPubKey) := by
  have dummyStepSolved := solved_of_produce dummySolved
  have realStepSolved := solved_of_produce realSolved
  have agrees := signStep_agrees sameStore short long dummyStepSolved realStepSolved
  rw [produce, dummyStepSolved, agrees.whichType] at dummySolved ⊢
  rw [produce, realStepSolved] at realSolved ⊢
  by_cases scriptHash : (signStep D real (realMemory 0) fromPubKey .base).whichType = .scripthash
  · have first := agrees.nested (by rw [scriptHash]; rfl)
    simp only [scriptHash, first, Bool.true_and, beq_self_eq_true, if_true]
      at dummySolved realSolved ⊢
    have dummyInner := solved_of_produceWitness dummySolved
    have realInner := solved_of_produceWitness realSolved
    rw [and_eq_true, bne_iff_ne] at dummyInner realInner
    have inner := signStep_agrees sameStore short long dummyInner.1 realInner.1
    obtain ⟨inScript, inWitness, pos, script, witness⟩ := produceWitness_agrees sameStore
      short long dummySolved realSolved ⟨inner.whichType, inner.nested, inner.signed⟩ realInner.2
    exact ⟨inScript, inWitness, pos, script.append_same _, witness⟩
  · simp only [Bool.true_and, beq_iff_eq, scriptHash, if_false] at dummySolved realSolved ⊢
    exact produceWitness_agrees sameStore short long dummySolved realSolved agrees scriptHash

-- Sizes of transactions

theorem grown_of_produceSignature {dummyMemory realMemory dummyData realData}
    (placed : produceSignature D dummy dummyMemory scriptPubKey = some dummyData)
    (signed : produceSignature D real realMemory scriptPubKey = some realData) (txin : TxIn)
    : (txin.update dummyData).Grown (txin.update realData) := by
  simp only [produceSignature] at placed signed
  split at placed
  · rename_i dummySolved
    split at signed
    · rename_i realSolved
      cases placed
      cases signed
      rw [and_eq_true] at dummySolved realSolved
      obtain ⟨inScript, inWitness, pos, script, witness⟩ :=
        produce_agrees sameStore short long dummySolved.1 realSolved.1
      exact ⟨inScript, inWitness, pos, length_pushAll script, witness⟩
    · cases signed
  · cases placed

end Compare

/-- Both fillings keep the inputs side by side. -/
theorem fillInputs_grown {dummyProduce realProduce}
    (grows : ∀ nIn coin dummyData realData txin, dummyProduce nIn coin = some dummyData
      → realProduce nIn coin = some realData
      → (TxIn.update txin dummyData).Grown (TxIn.update txin realData))
    {vin dummyVin realVin coins nIn} (aligned : coins.length = vin.length)
    (placed : fillInputs dummyProduce nIn vin coins = some dummyVin)
    (signed : fillInputs realProduce nIn vin coins = some realVin)
    : Forall₂ TxIn.Grown dummyVin realVin ∧ dummyVin.length = vin.length := by
  induction vin generalizing dummyVin realVin coins nIn with
  | nil =>
    obtain rfl := eq_nil_of_length_eq_zero aligned
    cases placed
    cases signed
    exact ⟨.nil, rfl⟩
  | cons txin vin ih =>
    cases coins with
    | nil => cases aligned
    | cons coin coins =>
      rw [fillInputs] at placed signed
      split at placed
      · cases placed
      split at signed
      · cases signed
      rename_i dummyData produced _ realData created
      obtain ⟨dummyRest, dummyFilled, rfl⟩ := map_eq_some_iff.mp placed
      obtain ⟨realRest, realFilled, rfl⟩ := map_eq_some_iff.mp signed
      obtain ⟨rest, length⟩ := ih (Nat.succ.inj aligned) dummyFilled realFilled
      exact ⟨.cons (grows _ _ _ _ _ produced created) rest, congrArg Nat.succ length⟩

theorem length_writeCompactSize_mono {small large} (le : small ≤ large)
    : (writeCompactSize small).length ≤ (writeCompactSize large).length := by
  simp only [writeCompactSize]
  split_ifs <;> simp <;> omega

theorem TxIn.length_serialize (txin : TxIn)
    : txin.serialize.length = 40 + (serializeBytes txin.scriptSig).length := by
  simp only [TxIn.serialize, OutPoint.serialize, length_append, length_bytesLE]
  omega

/-- The bytes of an input outside and inside the witness part grow with the signatures. -/
theorem TxIn.Grown.lengths {dummy real : TxIn} (grown : dummy.Grown real)
    : ∃ inScript inWitness, 0 < inScript + inWitness
      ∧ dummy.serialize.length + Replaced.growth * inScript ≤ real.serialize.length
      ∧ (serializeVector serializeBytes real.scriptWitness).length
        = (serializeVector serializeBytes dummy.scriptWitness).length
          + Replaced.growth * inWitness
      ∧ real.scriptWitness.isEmpty = dummy.scriptWitness.isEmpty
      ∧ (dummy.scriptWitness = [] → inWitness = 0) := by
  obtain ⟨inScript, inWitness, pos, script, witness⟩ := grown
  refine ⟨inScript, inWitness, pos, ?_, length_serializeWitness witness,
    witness.isEmpty_eq, ?_⟩
  · have size := length_writeCompactSize_mono
      (by omega : dummy.scriptSig.length ≤ real.scriptSig.length)
    rw [TxIn.length_serialize, TxIn.length_serialize, serializeBytes, serializeBytes,
      length_append, length_append]
    omega
  · intro absent
    rw [absent] at witness
    exact witness.eq_zero

theorem grown_inputs {dummyVin realVin : List TxIn} (grown : Forall₂ TxIn.Grown dummyVin realVin)
    : ∃ inScript inWitness, dummyVin.length ≤ inScript + inWitness
      ∧ (dummyVin.flatMap TxIn.serialize).length + Replaced.growth * inScript
        ≤ (realVin.flatMap TxIn.serialize).length
      ∧ (realVin.flatMap
          (fun txin => serializeVector serializeBytes txin.scriptWitness)).length
        = (dummyVin.flatMap
            (fun txin => serializeVector serializeBytes txin.scriptWitness)).length
          + Replaced.growth * inWitness
      ∧ realVin.any (fun txin => !txin.scriptWitness.isEmpty)
        = dummyVin.any (fun txin => !txin.scriptWitness.isEmpty)
      ∧ (dummyVin.any (fun txin => !txin.scriptWitness.isEmpty) = false → inWitness = 0) := by
  induction grown with
  | nil => exact ⟨0, 0, by simp, by simp, by simp, rfl, fun _ => rfl⟩
  | cons head _ ih =>
    obtain ⟨script, witness, pos, scripts, witnesses, empty, absent⟩ := head.lengths
    obtain ⟨restScript, restWitness, total, restScripts, restWitnesses, restEmpty, restAbsent⟩ := ih
    refine ⟨script + restScript, witness + restWitness, ?_, ?_, ?_, ?_, ?_⟩
    · rw [length_cons]
      omega
    · rw [flatMap_cons, flatMap_cons, length_append, length_append, Nat.mul_add]
      omega
    · rw [flatMap_cons, flatMap_cons, length_append, length_append, Nat.mul_add]
      omega
    · rw [any_cons, any_cons, empty, restEmpty]
    · intro none
      rw [any_cons, or_eq_false_iff, not_eq_false', List.isEmpty_iff] at none
      rw [absent none.1, restAbsent none.2]

/-- The witness part is what the two formats differ in. -/
theorem Transaction.getTransactionWeight_eq (tx : Transaction)
    : tx.getTransactionWeight
      = 4 * (8 + (serializeVector TxIn.serialize tx.vin).length
          + (serializeVector TxOut.serialize tx.vout).length)
        + if tx.hasWitness then
            2 + (tx.vin.flatMap
              (fun txin => serializeVector serializeBytes txin.scriptWitness)).length
          else 0 := by
  rw [Transaction.getTransactionWeight, Transaction.serialize, Transaction.serialize]
  by_cases witness : tx.hasWitness = true
  · simp only [witness, Bool.false_and, Bool.true_and, false_eq_true, if_false, if_true,
      length_append, length_bytesLE, append_nil]
    simp only [writeCompactSize, length_singleton, Nat.ofNat_pos, if_true]
    omega
  · simp only [witness, Bool.and_false, false_eq_true, if_false,
      length_append, length_bytesLE, append_nil]
    omega

/-- With at least one input, real signatures are heavier than their placeholders. -/
theorem weight_grown {tx : Transaction} {dummyVin realVin}
    (grown : Forall₂ TxIn.Grown dummyVin realVin) (some : dummyVin ≠ [])
    : ({ tx with vin := dummyVin } : Transaction).getTransactionWeight + Replaced.growth
      ≤ ({ tx with vin := realVin } : Transaction).getTransactionWeight := by
  obtain ⟨inScript, inWitness, total, scripts, witnesses, same, absent⟩ := grown_inputs grown
  have pos := length_pos_of_ne_nil some
  simp only [Transaction.getTransactionWeight_eq, Transaction.hasWitness, same,
    serializeVector, grown.length_eq, length_append, Replaced.growth] at scripts witnesses ⊢
  by_cases carried : dummyVin.any (fun txin => !txin.scriptWitness.isEmpty) = true
  · simp only [carried, if_true]
    omega
  have zero := absent (by simpa using carried)
  simp only [carried, false_eq_true, if_false]
  omega

section Fillings

variable {S : SignatureScheme} {D : Digests} {C : Cipher} {store : SigningStore}
variable {choices : Nat → SigningChoices} {dummyMemory memory : Nat → Nat → Nat → PubKey}
variable {tx dummy real : Transaction} {coins : List TxOut}

section

variable (aligned : coins.length = tx.vin.length)
  (placed : dummySignTx D store dummyMemory tx coins = some dummy)
  (signed : signTx S D C store choices memory tx coins = some real)

include aligned placed signed

/-- Each input of the signed transaction outgrows its placeholders. -/
theorem grown_of_signTx
    : ∃ dummyVin realVin, dummy = { tx with vin := dummyVin } ∧ real = { tx with vin := realVin }
      ∧ Forall₂ TxIn.Grown dummyVin realVin ∧ dummyVin.length = tx.vin.length := by
  obtain ⟨dummyVin, dummyFilled, rfl⟩ := map_eq_some_iff.mp placed
  obtain ⟨realVin, realFilled, rfl⟩ := map_eq_some_iff.mp signed
  refine ⟨dummyVin, realVin, rfl, rfl, fillInputs_grown ?_ aligned dummyFilled realFilled⟩
  intro nIn coin dummyData realData txin produced created
  refine grown_of_produceSignature ?_ (dummySignatureCreator_signsWith store)
    (transactionSignatureCreator_signsWith S D C store (choices nIn) tx nIn coin.nValue
      SIGHASH_ALL) produced created txin
  rfl

theorem virtualSize_lt_of_signTx (inputs : tx.vin ≠ [])
    : dummy.getVirtualTransactionSize < real.getVirtualTransactionSize := by
  obtain ⟨dummyVin, realVin, rfl, rfl, grown, length⟩ := grown_of_signTx aligned placed signed
  have someInput : dummyVin ≠ [] := by
    rw [← length_pos_iff] at inputs ⊢
    omega
  have heavier := @weight_grown tx _ _ grown someInput
  rw [Replaced.growth] at heavier
  rw [Transaction.getVirtualTransactionSize, Transaction.getVirtualTransactionSize]
  omega

end

theorem fillInputs_of_no_inputs (produce : Nat → TxOut → Option SignatureData)
    (aligned : coins.length = tx.vin.length) (none : tx.vin = [])
    : (fillInputs produce 0 tx.vin coins).map (fun vin => { tx with vin := vin }) = some tx := by
  rw [none] at aligned
  obtain rfl := eq_nil_of_length_eq_zero aligned
  rw [fillInputs, map_some]

/-- Without inputs there is nothing to sign, and no place for placeholders. -/
theorem eq_of_no_inputs (aligned : coins.length = tx.vin.length) (none : tx.vin = [])
    (placed : dummySignTx D store dummyMemory tx coins = some dummy)
    (signed : signTx S D C store choices memory tx coins = some real)
    : dummy = tx ∧ real = tx := by
  rw [dummySignTx, fillInputs_of_no_inputs _ aligned none] at placed
  rw [signTx, fillInputs_of_no_inputs _ aligned none] at signed
  cases placed
  cases signed
  exact ⟨rfl, rfl⟩

end Fillings

end Pqcoin
