import Pqcoin.Keys.Wordlist

/-! Keys from mnemonics: a new key is derived from the words that encode fresh entropy, and
a key is restored from such words. The buffers have the sizes that the source gives them.
-/

namespace Pqcoin

/-- PBKDF2 with HMAC-SHA256, on a password, a salt, a number of rounds and a key length. -/
abbrev Pbkdf2 := List Byte → List Byte → Nat → Nat → List Byte

-- Words

/-- `bits`: the data and one byte of its hash. The hash is read as words of the machine, so
that byte is the last one of the first word.
-/
def mnemonicBits (D : Digests) (data : List Byte) : List Byte :=
  data ++ [(((D.sha256 data).extractLsb' 0 32) >>> 24).setWidth 8]

def mnemonicBit (bits : List Byte) (k : Nat) : Nat :=
  if (bits.getD (k / 8) 0).getLsbD (7 - k % 8) then 1 else 0

def wordIndex (bits : List Byte) (i : Nat) : Nat :=
  (List.range 11).foldl (fun idx j => 2 * idx + mnemonicBit bits (i * 11 + j)) 0

def COMMA : Byte := 0x2c

/-- What `mnemonic_from_data` writes: each word, and behind it a comma or the final zero. -/
def mnemonicFromData (D : Digests) (data : List Byte) : List Byte :=
  let mlen := data.length * 3 / 4
  (List.range mlen).flatMap (fun i =>
    mnemonicWord (wordIndex (mnemonicBits D data) i) ++ [if i < mlen - 1 then COMMA else 0])

/-- `mnemonic_to_seed` without a passphrase, on the bytes before the first zero. -/
def mnemonicToSeed (pbkdf2 : Pbkdf2) (mnemonic : List Byte) : List Byte :=
  pbkdf2 mnemonic (asciiBytes "mnemonic") 2048 32

-- Keys

/-- An access outside a buffer. -/
inductive MemoryFault where
  | read
  | write
  deriving DecidableEq

/-- The bytes of a C string in a buffer. Without a final zero the search runs out of it. -/
def readCString (buffer : List Byte) : Except MemoryFault (List Byte) :=
  if 0 ∈ buffer then .ok (buffer.takeWhile (· != 0)) else .error .read

namespace Key

/-- What both derivations write: the two halves of the key pair. -/
def withKeypair (S : SignatureScheme) (key : Key) (seed : List Byte) : Key :=
  { key with
    fValid := true
    keydata := (S.keypair seed).2
    pubkeydata := (S.keypair seed).1
    length_keydata := S.length_secretKey seed
    length_pubkeydata := S.length_publicKey seed }

/-- `MakeNewKey` for the entropy it draws: the key and the mnemonic it returns. -/
def makeNewKey (S : SignatureScheme) (D : Digests) (pbkdf2 : Pbkdf2) (key : Key)
    (gene_entro : Vector Byte 32)
    : Except MemoryFault (Key × List Byte) :=
  let written := mnemonicFromData D gene_entro.toList
  if 24 * 20 < written.length then .error .write
  else match readCString (written ++ List.replicate (24 * 20 - written.length) 0) with
    | .error fault => .error fault
    | .ok mnemonic =>
      .ok ({ key.withKeypair S (mnemonicToSeed pbkdf2 mnemonic) with fCompressed := true },
        mnemonic)

/-- The copy of `MakeNewKeyByMnemonic`, character by character from position `i` on. -/
def copyMnemonic : List Byte → Nat → List Byte → Except MemoryFault (List Byte)
  | [], _, mnemonic => .ok mnemonic
  | c :: rest, i, mnemonic =>
    if i < mnemonic.length then copyMnemonic rest (i + 1) (mnemonic.set i c)
    else .error .write

/-- `MakeNewKeyByMnemonic`. Its parameter hides the member `fCompressed`, which keeps the
value it had.
-/
def makeNewKeyByMnemonic (S : SignatureScheme) (pbkdf2 : Pbkdf2) (key : Key)
    (str_mnemonic : List Byte)
    : Except MemoryFault Key :=
  match copyMnemonic str_mnemonic 0 (List.replicate (24 * 10) 0) with
  | .error fault => .error fault
  | .ok buffer =>
    match readCString buffer with
    | .error fault => .error fault
    | .ok mnemonic => .ok (key.withKeypair S (mnemonicToSeed pbkdf2 mnemonic))

end Key

-- The buffers

theorem readCString_append {text} (noZero : 0 ∉ text) (rest)
    : readCString (text ++ 0 :: rest) = .ok text := by
  have all : ∀ byte ∈ text, (byte != 0) = true := by
    intro byte inside
    rw [bne_iff_ne]
    rintro rfl
    exact noZero inside
  rw [readCString, if_pos (by simp), List.takeWhile_append_of_pos all]
  simp

theorem mem_flatMap_word {words : List Nat} {separator} (bits) (other : separator ≠ 0)
    : 0 ∉ words.flatMap (fun i => mnemonicWord (wordIndex bits i) ++ [separator]) := by
  intro zero
  obtain ⟨i, -, inside⟩ := List.mem_flatMap.mp zero
  rcases List.mem_append.mp inside with inside | inside
  · exact (mnemonicWord_bytes _).2 inside
  · exact other (List.mem_singleton.mp inside).symm

/-- Words and separators take at most nine bytes each, by list induction. -/
theorem length_flatMap_word (words : List Nat) (separator bits)
    : (words.flatMap (fun i => mnemonicWord (wordIndex bits i) ++ [separator])).length
      ≤ 9 * words.length := by
  induction words with
  | nil => simp
  | cons i rest ih =>
    have short := (mnemonicWord_bytes (wordIndex bits i)).1
    simp only [List.flatMap_cons, List.length_append, List.length_cons, List.length_nil]
    omega

/-- The mnemonic of 32 bytes: 23 words with commas and a last one. -/
def mnemonicText (D : Digests) (data : List Byte) : List Byte :=
  (List.range 23).flatMap (fun i =>
      mnemonicWord (wordIndex (mnemonicBits D data) i) ++ [COMMA])
    ++ mnemonicWord (wordIndex (mnemonicBits D data) 23)

theorem mnemonicFromData_eq (D) (gene_entro : Vector Byte 32)
    : mnemonicFromData D gene_entro.toList = mnemonicText D gene_entro.toList ++ [0] := by
  have separators : (List.range 23).flatMap (fun i =>
        mnemonicWord (wordIndex (mnemonicBits D gene_entro.toList) i)
          ++ [if i < 24 - 1 then COMMA else 0])
      = (List.range 23).flatMap (fun i =>
        mnemonicWord (wordIndex (mnemonicBits D gene_entro.toList) i) ++ [COMMA]) :=
    List.flatMap_congr (fun i inside => by rw [if_pos (List.mem_range.mp inside)])
  simp only [mnemonicFromData, Vector.length_toList, mnemonicText]
  rw [List.range_succ, List.flatMap_append, separators]
  simp

theorem mnemonicText_bytes (D : Digests) (data)
    : (mnemonicText D data).length ≤ 215 ∧ 0 ∉ mnemonicText D data := by
  have last := mnemonicWord_bytes (wordIndex (mnemonicBits D data) 23)
  have front := length_flatMap_word (List.range 23) COMMA (mnemonicBits D data)
  rw [List.length_range] at front
  constructor
  · rw [mnemonicText, List.length_append]
    omega
  · rw [mnemonicText, List.mem_append]
    rintro (zero | zero)
    · exact mem_flatMap_word _ (by decide) zero
    · exact last.2 zero

namespace Key

/-- The copy stays inside the buffer exactly for strings that fit, by list induction. -/
theorem copyMnemonic_eq (str front back)
    : copyMnemonic str front.length (front ++ back)
      = if str.length ≤ back.length then .ok (front ++ str ++ back.drop str.length)
        else .error .write := by
  induction str generalizing front back with
  | nil => simp [copyMnemonic]
  | cons c rest ih =>
    cases back with
    | nil => simp [copyMnemonic]
    | cons old back =>
      have next := ih (front ++ [c]) back
      rw [List.length_append, List.length_singleton] at next
      simpa [copyMnemonic] using next

theorem copyMnemonic_zeros (str)
    : copyMnemonic str 0 (List.replicate (24 * 10) 0)
      = if str.length ≤ 240 then .ok (str ++ List.replicate (240 - str.length) 0)
        else .error .write := by
  have copy := copyMnemonic_eq str [] (List.replicate (24 * 10) 0)
  rw [List.length_nil, List.nil_append, List.nil_append, List.length_replicate,
    List.drop_replicate] at copy
  exact copy

section Restore

variable (S : SignatureScheme) (D : Digests) (pbkdf2 : Pbkdf2)

theorem makeNewKey_eq (key : Key) (gene_entro : Vector Byte 32)
    : key.makeNewKey S D pbkdf2 gene_entro
      = .ok
          ({ key.withKeypair S
              (mnemonicToSeed pbkdf2 (mnemonicText D gene_entro.toList)) with
            fCompressed := true },
          mnemonicText D gene_entro.toList) := by
  obtain ⟨short, noZero⟩ := mnemonicText_bytes D gene_entro.toList
  have inside : ¬ 24 * 20 < (mnemonicText D gene_entro.toList ++ [0]).length := by
    rw [List.length_append, List.length_singleton]
    omega
  simp only [makeNewKey, mnemonicFromData_eq, if_neg inside, List.append_assoc,
    List.singleton_append, readCString_append noZero]

/-- A mnemonic that leaves room for its final zero gives back its key pair. -/
theorem makeNewKeyByMnemonic_eq (key : Key) {mnemonic}
    (short : mnemonic.length < 240) (noZero : 0 ∉ mnemonic)
    : key.makeNewKeyByMnemonic S pbkdf2 mnemonic
      = .ok (key.withKeypair S (mnemonicToSeed pbkdf2 mnemonic)) := by
  obtain ⟨room, rest⟩ : ∃ room, 240 - mnemonic.length = room + 1 :=
    ⟨239 - mnemonic.length, by omega⟩
  rw [makeNewKeyByMnemonic, copyMnemonic_zeros, if_pos (Nat.le_of_lt short), rest,
    List.replicate_succ]
  simp only [readCString_append noZero]

end Restore

end Key

end Pqcoin
