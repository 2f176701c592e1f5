import Pqcoin.Keys.Mnemonic

/-! Signatures of messages: `SignCompact` puts the public key behind the signature, and
`RecoverCompact` takes them apart again. Bytes outside of the vector are `none`.
-/

namespace Pqcoin

open List

/-- Signatures with the secret key of a pair verify under its public key. -/
def SignatureScheme.Honest (S : SignatureScheme) : Prop :=
  ∀ seed message,
    S.verify (S.signature message (S.keypair seed).2) message (S.keypair seed).1 = true

namespace Key

/-- `SignCompact`: what it leaves in `vchSig` when it returns `true`. -/
def signCompact (S : SignatureScheme) (key : Key) (hash : Uint256) : Option (List Byte) :=
  if key.fValid then some (S.signature (bytesLE 32 hash) key.keydata ++ key.pubkeydata) else none

/-- The public key next to the secret is the one made with it. -/
def Paired (S : SignatureScheme) (key : Key) : Prop :=
  ∃ seed, S.keypair seed = (key.pubkeydata, key.keydata)

end Key

namespace PubKey

/-- `mlen`, an `unsigned int`, of a signature of some size. -/
def compactLen (size : Nat) : Nat :=
  ((BitVec.ofNat 64 size - BitVec.ofNat 64 PUB_KEY_SIZE).setWidth 32).toNat

/-- `RecoverCompact`: the key it leaves and what it returns. -/
def recoverCompact (S : SignatureScheme) (hash : Uint256) (vchSig : List Byte)
    : Option (PubKey × Bool) :=
  if inside : compactLen vchSig.length + PUB_KEY_SIZE ≤ vchSig.length then
    let pubkey := ofKeyBytes 7 ((vchSig.drop (compactLen vchSig.length)).take PUB_KEY_SIZE)
      (by rw [length_take, length_drop]; omega)
    some (pubkey,
      S.verify (vchSig.take (compactLen vchSig.length)) (bytesLE 32 hash) pubkey.keyBytes)
  else none

/-- The split is inside of the vector unless that is shorter than a public key. -/
theorem compactLen_inside {size} : compactLen size + PUB_KEY_SIZE ≤ size ↔ PUB_KEY_SIZE ≤ size := by
  rw [compactLen, PUB_KEY_SIZE, BitVec.toNat_setWidth, BitVec.toNat_sub, BitVec.toNat_ofNat,
    BitVec.toNat_ofNat]
  omega

theorem recoverCompact_append (S hash) {vchSig keyBytes}
    (size : vchSig.length = SIGN_SIZE) (length : keyBytes.length = PUB_KEY_SIZE)
    : recoverCompact S hash (vchSig ++ keyBytes)
      = some (ofKeyBytes 7 keyBytes length, S.verify vchSig (bytesLE 32 hash) keyBytes) := by
  have whole : (vchSig ++ keyBytes).length = SIGN_SIZE + PUB_KEY_SIZE := by
    rw [length_append, size, length]
  have split : compactLen (SIGN_SIZE + PUB_KEY_SIZE) = vchSig.length := by
    rw [size]
    rfl
  have last : ((vchSig ++ keyBytes).drop vchSig.length).take PUB_KEY_SIZE = keyBytes := by
    rw [drop_left, ← length, take_length]
  simp only [recoverCompact, whole, split, last, take_left]
  rw [dif_pos (by omega)]
  rfl

end PubKey

/-- `RecoverCompact` stays inside of the bytes, and accepts only what the key that it finds there
verifies: the bytes before the key.
-/
def RecoversSafely (S : SignatureScheme) (hash : Uint256) (vchSig : List Byte) : Prop :=
  ∃ pubkey accepted, PubKey.recoverCompact S hash vchSig = some (pubkey, accepted)
    ∧ (accepted = true → ∃ leading rest, vchSig = leading ++ pubkey.keyBytes ++ rest
      ∧ pubkey.verify S hash leading = true)

/-- `RecoverCompact` gives back the key of `SignCompact`. -/
def RecoversSigner (S : SignatureScheme) (key : Key) (hash : Uint256) : Prop :=
  ∃ vchSig, key.signCompact S hash = some vchSig
    ∧ PubKey.recoverCompact S hash vchSig = some (key.cachedPubKey, true)

theorem recoversSafely_iff {S} {hash} {vchSig}
    : RecoversSafely S hash vchSig ↔ PUB_KEY_SIZE ≤ vchSig.length := by
  rw [RecoversSafely, ← PubKey.compactLen_inside, PubKey.recoverCompact]
  constructor
  · rintro ⟨pubkey, accepted, ran, -⟩
    split at ran
    · assumption
    · cases ran
  · intro inside
    rw [dif_pos inside]
    refine ⟨_, _, rfl, fun accepted => ⟨vchSig.take (PubKey.compactLen vchSig.length),
      vchSig.drop (PubKey.compactLen vchSig.length + PUB_KEY_SIZE), ?_, ?_⟩⟩
    · rw [append_assoc, ← drop_drop, PubKey.keyBytes, PubKey.ofKeyBytes, drop_one,
        tail_cons, take_append_drop, take_append_drop]
    · rw [PubKey.verify_eq]
      exact accepted

/-- For keys whose public key belongs to the secret: the signer is recovered, and other bytes are
handled safely if and only if there are as many as in a public key.
-/
theorem messageSignature_safe_iff {S : SignatureScheme} {key : Key} (honest : S.Honest)
    (valid : key.fValid = true) (paired : key.Paired S) (hash : Uint256) (vchSig : List Byte)
    : RecoversSigner S key hash ∧ RecoversSafely S hash vchSig
      ↔ PUB_KEY_SIZE ≤ vchSig.length := by
  rw [recoversSafely_iff]
  refine and_iff_right ⟨_, if_pos valid, ?_⟩
  obtain ⟨seed, pair⟩ := paired
  have verifies := honest seed (bytesLE 32 hash)
  rw [pair] at verifies
  rw [PubKey.recoverCompact_append S hash (S.length_signature ..) key.length_pubkeydata, verifies]
  rfl

theorem oneKeyScheme_honest : oneKeyScheme.Honest := fun _ _ => rfl

def onesKey : Key := Key.new.withKeypair oneKeyScheme []

/-- A key of the scheme with one key pair. -/
theorem messageSignature_safe_key
    : RecoversSigner oneKeyScheme onesKey 0
      ∧ RecoversSafely oneKeyScheme 0 (List.replicate PUB_KEY_SIZE 0) :=
  (messageSignature_safe_iff oneKeyScheme_honest rfl ⟨[], rfl⟩ 0 _).mpr
    (Nat.le_of_eq length_replicate.symm)

/-- An empty signature, as `verifymessage` passes it on, is read outside of its bytes. -/
theorem empty_signature_unsafe
    : oneKeyScheme.Honest ∧ onesKey.fValid = true ∧ onesKey.Paired oneKeyScheme
      ∧ PubKey.recoverCompact oneKeyScheme 0 [] = none
      ∧ ¬ RecoversSafely oneKeyScheme 0 [] :=
  ⟨oneKeyScheme_honest, rfl, ⟨[], rfl⟩, by decide,
    fun safe => absurd (recoversSafely_iff.mp safe) (by decide)⟩

end Pqcoin
