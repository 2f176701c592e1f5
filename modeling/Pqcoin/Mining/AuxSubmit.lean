import Pqcoin.Keys.Base58
import Pqcoin.Lib.Cursor
import Pqcoin.Mining.Templates

/-! Submitting a merge-mining proof for a template: `cmx_submit_Auxblock` and its relative for
raw buffers, which copy the proof out of the payload without a look at its length.
-/

namespace Pqcoin

open Cursor List

variable (nChainIndex : BitVec 32) (payload : List Byte)

-- The parser

/-- `CAuxPow()`; nothing initialises `nChainIndex`. -/
def AuxPow.new : AuxPow where
  tx := ⟨1, [], [], 0⟩
  hashBlock := 0
  vMerkleBranch := []
  nIndex := -1
  vChainMerkleBranch := []
  nChainIndex := nChainIndex
  parentBlock := ⟨0, 0, 0, 0, 0, 0⟩

def fromBytes (w : Nat) (bytes : List Byte) : BitVec w := BitVec.ofNat w (Radix.value bytes)

def hashesFromBytes : Nat → List Byte → List Uint256
  | 0, _ => []
  | count + 1, bytes =>
    fromBytes 256 (bytes.take 32) :: hashesFromBytes count (bytes.drop 32)

/-- The copy of the branch, whose size is in bytes: the vector is resized to the whole hashes
in it.
-/
def copyBranch (size : Nat) : Copier (List Byte) :=
  if size > 0 then copy payload size (32 * (size / 32)) else pure []

/-- The `memcpy` calls of `cmx_submit_Auxblock`. `hashBlock` is written twice. -/
def copyAuxPow : Copier AuxPow := do
  let nVersion ← copy payload 4 4
  let hashPrevBlock ← copy payload 32 32
  let hashMerkleRoot ← copy payload 32 32
  let nTime ← copy payload 4 4
  let nBits ← copy payload 4 4
  let nNonce ← copy payload 4 4
  let _ ← copy payload 32 32
  let coinBaseBranchSize ← copy payload 4 4
  let size := Radix.value coinBaseBranchSize
  let branch ← copyBranch payload size
  let hashBlock ← copy payload 32 32
  let _ ← copy payload 4 4
  return {
    AuxPow.new nChainIndex with
    hashBlock := fromBytes 256 hashBlock
    vMerkleBranch := hashesFromBytes (size / 32) branch
    parentBlock :=
      {
        nVersion := fromBytes 32 nVersion
        hashPrevBlock := fromBytes 256 hashPrevBlock
        hashMerkleRoot := fromBytes 256 hashMerkleRoot
        nTime := fromBytes 32 nTime
        nBits := fromBytes 32 nBits
        nNonce := fromBytes 32 nNonce
      }
  }

def branchSize : Nat := Radix.value ((payload.drop 112).take 4)

/-- The payload holds everything that is copied, and the branch consists of whole hashes. -/
def PayloadFits : Prop :=
  32 ∣ branchSize payload ∧ 152 + branchSize payload ≤ payload.length

instance (payload : List Byte) : Decidable (PayloadFits payload) :=
  inferInstanceAs (Decidable (_ ∧ _))

theorem inBounds_copyBranch_bind {β : Type} (payload size) (next : List Byte → Copier β) (position)
    : InBounds (copyBranch payload size >>= next) position
      ↔ (0 < size → position + size ≤ payload.length ∧ 32 ∣ size)
        ∧ InBounds (next ((payload.drop position).take size)) (position + size) := by
  rw [copyBranch]
  split
  · rename_i pos
    rw [inBounds_copy_bind]
    have whole : size ≤ 32 * (size / 32) ↔ 32 ∣ size := by omega
    rw [whole]
    exact ⟨fun ⟨read, write, rest⟩ => ⟨fun _ => ⟨read, write⟩, rest⟩,
      fun ⟨bounds, rest⟩ => ⟨(bounds pos).1, (bounds pos).2, rest⟩⟩
  · rename_i zero
    obtain rfl : size = 0 := by omega
    rw [pure_bind]
    exact ⟨fun rest => ⟨fun pos => absurd pos zero, rest⟩, fun rest => rest.2⟩

theorem copyAuxPow_inBounds_iff
    : InBounds (copyAuxPow nChainIndex payload) 0 ↔ PayloadFits payload := by
  simp only [copyAuxPow, inBounds_copy_bind, inBounds_copyBranch_bind, inBounds_pure,
    PayloadFits, branchSize, Nat.zero_add, Nat.reduceAdd, Nat.le_refl, true_and, and_true]
  generalize Radix.value ((payload.drop 112).take 4) = size
  by_cases pos : 0 < size
  · simp only [pos, forall_const]
    omega
  · simp only [pos, false_imp_iff, true_and]
    omega

/-- A branch that ends within a hash is written beyond the vector, once it can be read. -/
theorem copyAuxPow_overflows {payload}
    (readable : 116 + branchSize payload ≤ payload.length) (cut : ¬ 32 ∣ branchSize payload)
    : (copyAuxPow nChainIndex payload).run 0
      = .error (.write (branchSize payload) (32 * (branchSize payload / 32))) := by
  have pos : branchSize payload > 0 := by omega
  have size : Radix.value ((payload.drop 112).take 4) = branchSize payload := rfl
  rw [copyAuxPow]
  -- the fields in front of the branch
  iterate 8 rw [run_copy_bind (by omega) (by omega)]
  simp only [Nat.zero_add, Nat.reduceAdd, size, copyBranch, if_pos pos]
  apply run_copy_bind_of_fault
  rw [copy, if_neg (by omega), if_pos (by omega)]

-- Submissions

def hexDigit (c : Byte) : Option Nat :=
  if 0x30 ≤ c ∧ c ≤ 0x39 then some (c.toNat - 0x30)
  else if 0x61 ≤ c ∧ c ≤ 0x66 then some (c.toNat - 0x61 + 10)
  else if 0x41 ≤ c ∧ c ≤ 0x46 then some (c.toNat - 0x41 + 10)
  else none

/-- `base_blob::SetHex`: the last digits win. -/
def setHex (str : List Byte) : Uint256 :=
  let str := str.dropWhile isSpace
  let str :=
    match str with
    | 0x30 :: x :: rest => if x = 0x78 ∨ x = 0x58 then rest else str
    | _ => str
  BitVec.ofNat 256 ((str.map hexDigit).takeWhile Option.isSome
    |>.foldl (fun value digit => value * 16 + digit.getD 0) 0)

/-- How a submission goes wrong in memory. -/
inductive SubmitFault where
  | copy (fault : Fault)
  | dangling (num : Nat)
  deriving DecidableEq

/-- What a submission leaves: the templates, the value it returns, and the block that it gave to
`ProcessNewBlock`.
-/
structure Submission where
  store : TemplateStore
  ret : Int
  processed : Option Block

def parentChain (auxpow : AuxPow) : Int :=
  if auxpow.parentBlock.nVersion = 0x10000000 then 1
  else if auxpow.parentBlock.nVersion = 0x20000000 then 2
  else 0

/-- The part that both submitting functions have in common, from the template on. -/
def attachAuxPow (pos : Nat) (store : TemplateStore) (num : Nat) (block : Block)
    : Except SubmitFault Submission :=
  match (copyAuxPow nChainIndex payload).run pos with
  | .error fault => .error (.copy fault)
  | .ok (auxpow, _) =>
    let block := { block with auxpow := some auxpow }
    .ok ⟨store.put num block, parentChain auxpow, some block⟩

def cmxSubmitAuxblock (hashHex auxpowHex : List Byte) (store : TemplateStore)
    : Except SubmitFault Submission :=
  match store.mapNewBlock (setHex hashHex) with
  | none => .ok ⟨store, -1, none⟩
  | some num =>
    match store.vNewBlockTemplate num with
    | none => .error (.dangling num)
    | some block =>
      if block.auxpow.isSome then .ok ⟨store, -1, none⟩
      else attachAuxPow nChainIndex auxpowHex 0 store num block

/-- `SubmitAuxBlock` on a buffer that starts with the hash; `none` where it throws "block hash
unknown".
-/
def submitAuxBlock (processNewBlock : Block → Bool) (nChainIndex : BitVec 32) (buf : List Byte)
    (store : TemplateStore)
    : Except SubmitFault (Option Submission) :=
  match (copy buf 32 32).run 0 with
  | .error fault => .error (.copy fault)
  | .ok (hash, pos) =>
    match store.mapNewBlock (fromBytes 256 hash) with
    | none => .ok none
    | some num =>
      match store.vNewBlockTemplate num with
      | none => .error (.dangling num)
      | some block =>
        if block.auxpow.isSome then .ok (some ⟨store, 0, none⟩)
        else
          (attachAuxPow nChainIndex buf pos store num block).map (fun submission =>
            if submission.processed.any processNewBlock then some submission
            else some { submission with ret := 3 })

theorem cmxSubmitAuxblock_of_unused {hashHex} (auxpowHex) {store} {num} {block}
    (present : store.mapNewBlock (setHex hashHex) = some num)
    (owned : store.vNewBlockTemplate num = some block) (unused : block.auxpow.isSome = false)
    : cmxSubmitAuxblock nChainIndex hashHex auxpowHex store
      = attachAuxPow nChainIndex auxpowHex 0 store num block := by
  rw [cmxSubmitAuxblock, present]
  simp only [owned, unused, Bool.false_eq_true, if_false]

/-- A submission for a template stays in bounds exactly when the template has a proof already,
which ends the call, or the payload fits.
-/
theorem cmxSubmitAuxblock_inBounds_iff {hashHex auxpowHex : List Byte}
    {store : TemplateStore} {num : Nat} {block : Block}
    (present : store.mapNewBlock (setHex hashHex) = some num)
    (owned : store.vNewBlockTemplate num = some block)
    : (∃ submission, cmxSubmitAuxblock nChainIndex hashHex auxpowHex store = .ok submission)
      ↔ block.auxpow.isSome = true ∨ PayloadFits auxpowHex := by
  rw [← copyAuxPow_inBounds_iff nChainIndex, InBounds]
  cases used : block.auxpow.isSome with
  | true =>
    simp only [cmxSubmitAuxblock, present, owned, used, if_true, true_or, iff_true]
    exact ⟨_, rfl⟩
  | false =>
    rw [cmxSubmitAuxblock_of_unused nChainIndex auxpowHex present owned used, attachAuxPow]
    simp only [Bool.false_eq_true, false_or]
    cases copied : (copyAuxPow nChainIndex auxpowHex).run 0 with
    | error fault => simp
    | ok copy => simp

def oneTemplate : TemplateStore :=
  TemplateStore.empty.add zeroDigests.toHashing ⟨⟨⟨4, 0, 0, 0, 0, 0⟩, none⟩, [], false⟩

theorem oneTemplate_present : oneTemplate.mapNewBlock (setHex []) = some 0 := rfl

theorem oneTemplate_owned
    : oneTemplate.vNewBlockTemplate 0 = some ⟨⟨⟨4, 0, 0, 0, 0, 0⟩, none⟩, [], false⟩ :=
  rfl

def branchPayload (size : Byte) (rest : Nat) : List Byte :=
  List.replicate 112 0 ++ size :: List.replicate rest 0

theorem branchSize_branchPayload (size) {rest} (long : 3 ≤ rest)
    : branchSize (branchPayload size rest) = size.toNat := by
  have bytes : ((branchPayload size rest).drop 112).take 4 = [size, 0, 0, 0] := by
    rw [branchPayload, drop_left' length_replicate, take_succ_cons,
      take_replicate, Nat.min_eq_left long]
    rfl
  rw [branchSize, bytes]
  simp [Radix.value, Nat.ofDigits_cons]

/-- The shortest payload that fits, and one with a branch of one hash. -/
theorem cmxSubmitAuxblock_inBounds_oneTemplate
    : (∃ submission, cmxSubmitAuxblock 0 [] (branchPayload 0 39) oneTemplate = .ok submission)
      ∧ ∃ submission,
        cmxSubmitAuxblock 0 [] (branchPayload 32 71) oneTemplate = .ok submission := by
  have fits : ∀ {size : Byte} {rest : Nat}, 3 ≤ rest → 32 ∣ size.toNat → 39 + size.toNat ≤ rest
      → PayloadFits (branchPayload size rest) := by
    intro size rest long whole room
    rw [PayloadFits, branchSize_branchPayload size long]
    refine ⟨whole, ?_⟩
    simp only [branchPayload, length_append, length_replicate, length_cons]
    omega
  exact ⟨(cmxSubmitAuxblock_inBounds_iff 0 oneTemplate_present oneTemplate_owned).mpr
      (.inr (fits (by decide) (by decide) (by decide))),
    (cmxSubmitAuxblock_inBounds_iff 0 oneTemplate_present oneTemplate_owned).mpr
      (.inr (fits (by decide) (by decide) (by decide)))⟩

/-- An empty payload is read beyond its end; and a branch of 33 bytes, in a payload as long as
that of a datagram, is written beyond the one hash that the vector has room for.
-/
theorem cmxSubmitAuxblock_out_of_bounds
    : cmxSubmitAuxblock 0 [] [] oneTemplate = .error (.copy (.read 0 4))
      ∧ cmxSubmitAuxblock 0 [] (branchPayload 33 879) oneTemplate
        = .error (.copy (.write 33 32)) := by
  refine ⟨rfl, ?_⟩
  have size : branchSize (branchPayload 33 879) = 33 := branchSize_branchPayload 33 (by decide)
  have long : (branchPayload 33 879).length = 992 := by
    simp only [branchPayload, length_append, length_replicate, length_cons]
  have overflow := copyAuxPow_overflows 0 (by omega : 116 + branchSize (branchPayload 33 879)
    ≤ (branchPayload 33 879).length) (by omega)
  rw [size] at overflow
  rw [cmxSubmitAuxblock_of_unused 0 (branchPayload 33 879) oneTemplate_present
    oneTemplate_owned rfl, attachAuxPow, overflow]

end Pqcoin
