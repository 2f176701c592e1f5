import Pqcoin.Mining.AuxSubmit
import Pqcoin.Validation.Runs

/-! Histories of submissions for one template: what the miners are told, against what
`ProcessNewBlock` made of their blocks.
-/

namespace Pqcoin

open Cursor List

-- Submissions and their processing

/-- A call of `cmx_submit_Auxblock`, or one of `SubmitAuxBlock` on a buffer. -/
inductive SubmitCall where
  | cmx (nChainIndex : BitVec 32) (hashHex auxpowHex : List Byte)
  | buffer (nChainIndex : BitVec 32) (buf : List Byte)

/-- The template with a proof; its version is left alone. -/
def Block.attach (block : Block) (auxpow : AuxPow) : Block := { block with auxpow := some auxpow }

theorem attachAuxPow_of_copied {nChainIndex payload pos result}
    (copied : (copyAuxPow nChainIndex payload).run pos = .ok result) (store) (num block)
    : attachAuxPow nChainIndex payload pos store num block
      = .ok ⟨store.put num (block.attach result.1), parentChain result.1,
          some (block.attach result.1)⟩ := by
  rw [attachAuxPow, copied]
  rfl

theorem attachAuxPow_of_fault {nChainIndex payload pos fault}
    (faulted : (copyAuxPow nChainIndex payload).run pos = .error fault) (store) (num block)
    : attachAuxPow nChainIndex payload pos store num block = .error (.copy fault) := by
  rw [attachAuxPow, faulted]

/-- What the caller is told, unless there is an exception, and `fAccepted` if the block was
given to `ProcessNewBlock`.
-/
structure Outcome where
  ret : Option Int
  fAccepted : Option Bool
  deriving DecidableEq

namespace SubmitCall

def target : SubmitCall → Option Uint256
  | .cmx _ hashHex _ => some (setHex hashHex)
  | .buffer _ buf => if buf.length < 32 then none else some (fromBytes 256 (buf.take 32))

def auxpow : SubmitCall → Except Fault AuxPow
  | .cmx nChainIndex _ auxpowHex => ((copyAuxPow nChainIndex auxpowHex).run 0).map Prod.fst
  | .buffer nChainIndex buf => ((copyAuxPow nChainIndex buf).run 32).map Prod.fst

def refusal : SubmitCall → Int
  | .cmx .. => -1
  | .buffer .. => 0

/-- The value for a block that `ProcessNewBlock` does not accept. Only `SubmitAuxBlock` looks
at that.
-/
def rejection (auxpow : AuxPow) : SubmitCall → Int
  | .cmx .. => parentChain auxpow
  | .buffer .. => 3

/-- A proof for which `cmx_submit_Auxblock` names no parent chain; `SubmitAuxBlock` names none
for a rejected block.
-/
def NamesNoParent (auxpow : AuxPow) : SubmitCall → Prop
  | .cmx .. =>
    auxpow.parentBlock.nVersion ≠ 0x10000000 ∧ auxpow.parentBlock.nVersion ≠ 0x20000000
  | .buffer .. => True

theorem namesNoParent_iff (auxpow) (call : SubmitCall)
    : call.NamesNoParent auxpow ↔ call.rejection auxpow ≠ 1 ∧ call.rejection auxpow ≠ 2 := by
  cases call with
  | cmx nChainIndex hashHex auxpowHex =>
    rw [NamesNoParent, rejection, parentChain]
    grind
  | buffer nChainIndex buf => simp [NamesNoParent, rejection]

section Process

variable {N : Type} (processNewBlock : N → Block → N × Bool)

/-- The end of a submission: the node after it, the templates and the outcome. -/
def conclude (node : N) (submission : Submission) : N × TemplateStore × Outcome :=
  let processed := submission.processed.map (processNewBlock node)
  ((processed.map Prod.fst).getD node, submission.store,
    ⟨some submission.ret, processed.map Prod.snd⟩)

def submit (node : N) (store : TemplateStore)
    : SubmitCall → Except SubmitFault (N × TemplateStore × Outcome)
  | .cmx nChainIndex hashHex auxpowHex =>
    (cmxSubmitAuxblock nChainIndex hashHex auxpowHex store).map (conclude processNewBlock node)
  | .buffer nChainIndex buf =>
    (submitAuxBlock (fun block => (processNewBlock node block).2) nChainIndex buf store).map
      (fun result =>
        match result with
        | none => (node, store, ⟨none, none⟩)
        | some submission => conclude processNewBlock node submission)

variable {processNewBlock} {node : N} {store : TemplateStore} {num : Nat} {block : Block}
  {call : SubmitCall} {hash : Uint256}

theorem copy_target {nChainIndex buf} (targeted : (buffer nChainIndex buf).target = some hash)
    : ∃ bytes, (copy buf 32 32).run 0 = .ok (bytes, 32) ∧ fromBytes 256 bytes = hash := by
  rw [target] at targeted
  split at targeted
  · cases targeted
  rename_i long
  refine ⟨buf.take 32, ?_, Option.some.inj targeted⟩
  change copy buf 32 32 0 = _
  rw [copy, if_neg (by omega), if_neg (by omega)]
  rfl

section

variable (targeted : call.target = some hash) (present : store.mapNewBlock hash = some num)
  (owned : store.vNewBlockTemplate num = some block)

include targeted present owned

theorem submit_of_used (used : block.auxpow.isSome = true)
    : call.submit processNewBlock node store = .ok (node, store, ⟨some call.refusal, none⟩) := by
  cases call with
  | cmx nChainIndex hashHex auxpowHex =>
    obtain rfl : setHex hashHex = hash := Option.some.inj targeted
    simp only [submit, cmxSubmitAuxblock, present, owned, used, if_true]
    rfl
  | buffer nChainIndex buf =>
    obtain ⟨bytes, copied, rfl⟩ := copy_target targeted
    simp only [submit, submitAuxBlock, copied, present, owned, used, if_true]
    rfl

/-- Otherwise the proof is attached before anything is checked, and stays attached. -/
theorem submit_of_unused (unused : block.auxpow.isSome = false)
    : call.submit processNewBlock node store
      = match call.auxpow with
        | .error fault => .error (.copy fault)
        | .ok auxpow =>
          let processed := processNewBlock node (block.attach auxpow)
          .ok (processed.1, store.put num (block.attach auxpow),
            ⟨some (if processed.2 then parentChain auxpow else call.rejection auxpow),
              some processed.2⟩) := by
  cases call with
  | cmx nChainIndex hashHex auxpowHex =>
    obtain rfl : setHex hashHex = hash := Option.some.inj targeted
    rw [submit, cmxSubmitAuxblock_of_unused nChainIndex auxpowHex present owned unused, auxpow]
    cases copied : (copyAuxPow nChainIndex auxpowHex).run 0 with
    | error fault =>
      rw [attachAuxPow_of_fault copied]
      rfl
    | ok result =>
      rw [attachAuxPow_of_copied copied]
      simp [Except.map, conclude, rejection]
  | buffer nChainIndex buf =>
    obtain ⟨bytes, hashed, rfl⟩ := copy_target targeted
    simp only [submit, submitAuxBlock, hashed, present, owned, unused, Bool.false_eq_true,
      if_false, auxpow]
    cases copied : (copyAuxPow nChainIndex buf).run 32 with
    | error fault =>
      rw [attachAuxPow_of_fault copied]
      rfl
    | ok result =>
      rw [attachAuxPow_of_copied copied]
      simp only [Except.map, Option.any_some, rejection]
      cases verdict : (processNewBlock node (block.attach result.1)).2 with
      | true => simp [conclude, verdict]
      | false => simp [conclude, verdict]

end

end Process

end SubmitCall

-- Histories

/-- A submission, or anything else that changes the node. -/
inductive SubmitEvent (N : Type) where
  | submit (call : SubmitCall)
  | elsewhere (node : N)

/-- A submission in a history, with the node that it found. -/
structure Submitted (N : Type) where
  node : N
  call : SubmitCall
  outcome : Outcome

section Histories

variable {N : Type} (processNewBlock : N → Block → N × Bool)

def submissions : N → TemplateStore → List (SubmitEvent N)
    → Except SubmitFault (List (Submitted N))
  | _, _, [] => .ok []
  | _, store, .elsewhere node :: rest => submissions node store rest
  | node, store, .submit call :: rest =>
    match call.submit processNewBlock node store with
    | .error fault => .error fault
    | .ok (next, store, outcome) =>
      (submissions next store rest).map (fun later => ⟨node, call, outcome⟩ :: later)

def SubmitCall.Valid (template : Block) (node : N) (call : SubmitCall) : Prop :=
  ∃ auxpow, call.auxpow = .ok auxpow
    ∧ (processNewBlock node (template.attach auxpow)).2 = true

/-- The caller is told `1` or `2` only for an accepted block, and after a rejected block a
valid proof is still processed and accepted.
-/
structure Truthful (template : Block) (history : List (Submitted N)) : Prop where
  told : ∀ entry ∈ history, entry.outcome.ret = some 1 ∨ entry.outcome.ret = some 2
    → entry.outcome.fAccepted = some true
  unburnt : history.Pairwise (fun earlier later => earlier.outcome.fAccepted = some false
    → later.call.Valid processNewBlock template later.node
    → later.outcome.fAccepted = some true)

def visits : N → List (SubmitEvent N) → List (N × SubmitCall)
  | _, [] => []
  | _, .elsewhere node :: rest => visits node rest
  | node, .submit call :: rest => (node, call) :: visits node rest

/-- What the first submission must be: its payload fits, and the node accepts the block, or
no parent chain is named and nobody comes with a valid proof any more.
-/
def FirstDecides (template : Block) : N → List (SubmitEvent N) → Prop
  | _, [] => True
  | _, .elsewhere node :: rest => FirstDecides template node rest
  | node, .submit call :: rest =>
    ∃ auxpow, call.auxpow = .ok auxpow
      ∧ ((processNewBlock node (template.attach auxpow)).2 = true
        ∨ (call.NamesNoParent auxpow
          ∧ ∀ visit ∈ visits (processNewBlock node (template.attach auxpow)).1 rest,
            ¬ visit.2.Valid processNewBlock template visit.1))

variable {processNewBlock} {store : TemplateStore} {num : Nat} {block : Block} {hash : Uint256}

theorem submissions_of_used (present : store.mapNewBlock hash = some num)
    (owned : store.vNewBlockTemplate num = some block) (used : block.auxpow.isSome = true)
    (node) {events} (targeted : ∀ call, .submit call ∈ events → call.target = some hash)
    : submissions processNewBlock node store events
      = .ok ((visits node events).map (fun visit =>
          ⟨visit.1, visit.2, ⟨some visit.2.refusal, none⟩⟩)) := by
  induction events generalizing node with
  | nil => rfl
  | cons event rest ih =>
    have later := fun call mem => targeted call (mem_cons_of_mem _ mem)
    cases event with
    | elsewhere next => exact ih next later
    | submit call =>
      have first := targeted call mem_cons_self
      simp only [submissions, visits, map_cons,
        SubmitCall.submit_of_used first present owned used, ih node later]
      rfl

theorem truthful_visits (template : Block) (calls : List (N × SubmitCall))
    : Truthful processNewBlock template (calls.map (fun visit =>
        ⟨visit.1, visit.2, ⟨some visit.2.refusal, none⟩⟩)) where
  told entry mem one := by
    obtain ⟨visit, -, rfl⟩ := mem_map.mp mem
    cases call : visit.2 <;> simp [call, SubmitCall.refusal] at one
  unburnt := by
    rw [pairwise_map]
    exact pairwise_of_forall (fun _ _ => nofun)

theorem truthful_cons_visits {template} {node} {call} {ret}
    {fAccepted} {calls : List (N × SubmitCall)}
    : Truthful processNewBlock template
        (⟨node, call, ⟨some ret, some fAccepted⟩⟩ :: calls.map (fun visit =>
          ⟨visit.1, visit.2, ⟨some visit.2.refusal, none⟩⟩))
      ↔ fAccepted = true
        ∨ (ret ≠ 1 ∧ ret ≠ 2
          ∧ ∀ visit ∈ calls, ¬ visit.2.Valid processNewBlock template visit.1) := by
  have rest : Truthful processNewBlock template _ := truthful_visits template calls
  constructor
  · rintro ⟨told, unburnt⟩
    cases fAccepted with
    | true => exact .inl rfl
    | false =>
      have untold := told _ mem_cons_self
      simp only [Option.some.injEq, Bool.false_eq_true, imp_false, not_or] at untold
      refine .inr ⟨untold.1, untold.2, fun visit mem valid => ?_⟩
      have accepted := (pairwise_cons.mp unburnt).1 _ (mem_map_of_mem mem) rfl valid
      cases accepted
  · intro fine
    refine ⟨fun entry mem one => ?_, pairwise_cons.mpr ⟨?_, rest.unburnt⟩⟩
    · rcases mem_cons.mp mem with rfl | later
      · rcases fine with accepted | ⟨notOne, notTwo, -⟩
        · simp only [accepted]
        simp only [Option.some.injEq] at one
        tauto
      · exact rest.told entry later one
    · intro later mem rejected valid
      obtain ⟨visit, visited, rfl⟩ := mem_map.mp mem
      rcases fine with accepted | ⟨-, -, invalid⟩
      · rw [accepted] at rejected
        cases rejected
      · exact absurd valid (invalid visit visited)

/-- For a template in the cache and every history of submissions for it: all of them stay in
bounds, tell the truth and leave the template to valid proofs exactly when the template has a
proof already, or the first submission decides.
-/
theorem submissions_truthful_iff (present : store.mapNewBlock hash = some num)
    (owned : store.vNewBlockTemplate num = some block) (node : N) (events : List (SubmitEvent N))
    (targeted : ∀ call, .submit call ∈ events → call.target = some hash)
    : (∃ history, submissions processNewBlock node store events = .ok history
        ∧ Truthful processNewBlock block history)
      ↔ block.auxpow.isSome = true ∨ FirstDecides processNewBlock block node events := by
  cases used : block.auxpow.isSome with
  | true =>
    simp only [true_or, iff_true]
    exact ⟨_, submissions_of_used present owned used node targeted, truthful_visits _ _⟩
  | false =>
    simp only [Bool.false_eq_true, false_or]
    induction events generalizing node with
    | nil => exact ⟨fun _ => trivial, fun _ => ⟨[], rfl, truthful_visits block []⟩⟩
    | cons event rest ih =>
      have later := fun call mem => targeted call (mem_cons_of_mem _ mem)
      cases event with
      | elsewhere next => exact ih next later
      | submit call =>
        have first := targeted call mem_cons_self
        rw [submissions, SubmitCall.submit_of_unused first present owned used, FirstDecides]
        cases call.auxpow with
        | error fault => simp
        | ok auxpow =>
          have listed : (store.put num (block.attach auxpow)).mapNewBlock hash
              = some num := present
          have put : (store.put num (block.attach auxpow)).vNewBlockTemplate num
              = some (block.attach auxpow) := if_pos rfl
          simp only [submissions_of_used listed put rfl _ later, Except.map,
            Except.ok.injEq, exists_eq_left', truthful_cons_visits,
            SubmitCall.namesNoParent_iff, and_assoc]
          cases verdict : (processNewBlock node (block.attach auxpow)).2 with
          | true => simp
          | false => simp

end Histories

-- A bad share and a good one

def Node.process (ctx : NodeContext) (rounds : Nat) (nAdjustedTime : Int) (node : Node)
    (block : Block)
    : Node × Bool :=
  match node.processNewBlock ctx rounds ⟨block, true, nAdjustedTime⟩ with
  | none => (node, false)
  | some (after, reply) => (after, reply.ret)

def shareTemplate : Block where
  toPureBlockHeader := { firstHeader.toPureBlockHeader with nVersion := mergedVersion 0x62 }
  auxpow := none
  vtx := [multisigCoinBase 0]
  fChecked := false

def shareStore : TemplateStore := TemplateStore.empty.add zeroHashing shareTemplate

def sharePayload (root : Byte) : List Byte :=
  [0, 0, 0, 0x10] ++ List.replicate 32 0 ++ root :: List.replicate 115 0

/-- The proof in it: the parent's only transaction has the hash zero. -/
def shareAuxPow (root : Uint256) : AuxPow :=
  { AuxPow.new 0 with parentBlock := ⟨0x10000000, 0, root, 0, 0, 0⟩ }

theorem auxpow_badShare : (SubmitCall.cmx 0 [] (sharePayload 1)).auxpow = .ok (shareAuxPow 1) := by
  decide +kernel

theorem auxpow_goodShare : (SubmitCall.cmx 0 [] (sharePayload 0)).auxpow = .ok (shareAuxPow 0) := by
  decide +kernel

theorem process_badShare
    : genesisNode.process lenientContext 1 0 (shareTemplate.attach (shareAuxPow 1))
      = (genesisNode, false) := by
  rfl

theorem process_goodShare
    : (genesisNode.process lenientContext 1 0 (shareTemplate.attach (shareAuxPow 0))).2 = true := by
  decide +kernel

theorem shareStore_present : shareStore.mapNewBlock 0 = some 0 := rfl

theorem shareStore_owned : shareStore.vNewBlockTemplate 0 = some shareTemplate := rfl

/-- A good share is processed, accepted and reported, and a bad one after it is refused. -/
theorem submissions_truthful_iff_goodShare
    : ∃ history,
      submissions (Node.process lenientContext 1 0) genesisNode shareStore
          [.submit (.cmx 0 [] (sharePayload 0)), .submit (.cmx 0 [] (sharePayload 1))]
        = .ok history
      ∧ Truthful (Node.process lenientContext 1 0) shareTemplate history := by
  refine (submissions_truthful_iff shareStore_present shareStore_owned genesisNode _ ?_).mpr
    (.inr ⟨shareAuxPow 0, auxpow_goodShare, .inl process_goodShare⟩)
  intro call mem
  simp only [mem_cons, SubmitEvent.submit.injEq, not_mem_nil, or_false] at mem
  rcases mem with rfl | rfl <;> rfl

/-- A share with a wrong Merkle root is rejected, and yet the miner is told `1`; the good share
that follows would be accepted, but it is answered with `-1` and never processed.
-/
theorem badShare_burns_template
    : submissions (Node.process lenientContext 1 0) genesisNode shareStore
        [.submit (.cmx 0 [] (sharePayload 1)), .submit (.cmx 0 [] (sharePayload 0))]
        = .ok [⟨genesisNode, .cmx 0 [] (sharePayload 1), ⟨some 1, some false⟩⟩,
          ⟨genesisNode, .cmx 0 [] (sharePayload 0), ⟨some (-1), none⟩⟩]
      ∧ (SubmitCall.cmx 0 [] (sharePayload 0)).Valid (Node.process lenientContext 1 0)
        shareTemplate genesisNode := by
  refine ⟨?_, shareAuxPow 0, auxpow_goodShare, process_goodShare⟩
  have listed : (shareStore.put 0 (shareTemplate.attach (shareAuxPow 1))).mapNewBlock 0 = some 0 :=
    rfl
  have put : (shareStore.put 0 (shareTemplate.attach (shareAuxPow 1))).vNewBlockTemplate 0
      = some (shareTemplate.attach (shareAuxPow 1)) := rfl
  rw [submissions, SubmitCall.submit_of_unused rfl shareStore_present shareStore_owned rfl,
    auxpow_badShare]
  simp only [process_badShare]
  rw [submissions_of_used listed put rfl genesisNode]
  · rfl
  · intro call mem
    cases mem_singleton.mp mem
    rfl

end Pqcoin
