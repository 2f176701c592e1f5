import Pqcoin.Keys.Base58
import Pqcoin.Keys.Mnemonic

/-! Private keys as strings: what `dumpprivkey` writes and what `importprivkey` reads. The
string is the Base58Check form of the secret, directly followed by the Base58 form of the
public key; the import cuts it at a fixed position.
-/

namespace Pqcoin

open Key List PubKey

/-- The three networks of `chainparams.cpp`. -/
inductive Network where
  | main
  | test
  | regtest
  deriving DecidableEq

def Network.secretKeyPrefix : Network → Byte
  | .main => 158
  | .test => 241
  | .regtest => 239

-- Checked strings

/-- The four bytes of the hash that `EncodeBase58Check` appends. -/
def checksum (H : Hashing) (vch : List Byte) : List Byte := (bytesLE 32 (H.hash256 vch)).take 4

def encodeBase58Check (H : Hashing) (vchIn : List Byte) : Option (List Byte) :=
  encodeBase58 (vchIn ++ checksum H vchIn)

def decodeBase58Check (H : Hashing) (psz : List Byte) : Except DecodeFailure (List Byte) :=
  match decodeBase58 psz with
  | .error failure => .error failure
  | .ok vch =>
    if vch.length < 4 then .error .rejected
    else if checksum H (vch.take (vch.length - 4)) ≠ vch.drop (vch.length - 4) then
      .error .rejected
    else .ok (vch.take (vch.length - 4))

structure Base58Data where
  vchVersion : List Byte
  vchData : List Byte
  deriving DecidableEq

namespace Base58Data

def setString (H : Hashing) (str : List Byte) : Except DecodeFailure Base58Data :=
  match decodeBase58Check H (cString str) with
  | .error failure => .error failure
  | .ok vchTemp =>
    if vchTemp.length < 1 then .error .rejected
    else .ok ⟨vchTemp.take 1, vchTemp.drop 1⟩

def toString (H : Hashing) (data : Base58Data) : Option (List Byte) :=
  encodeBase58Check H (data.vchVersion ++ data.vchData)

end Base58Data

def secretOfKey (net : Network) (vchSecret : Key) : Option Base58Data :=
  if vchSecret.fValid then
    some ⟨[net.secretKeyPrefix],
      vchSecret.secret ++ (if vchSecret.fCompressed then [1] else [])⟩
  else none

def isValidSecret (net : Network) (data : Base58Data) : Bool :=
  (data.vchData.length == PRIVATE_KEY_SIZE
    || (data.vchData.length == PRIVATE_KEY_SIZE + 1
      && data.vchData[PRIVATE_KEY_SIZE]? == some 1))
  && data.vchVersion == [net.secretKeyPrefix]

def secretOfString (net : Network) (H : Hashing) (str : List Byte)
    : Except DecodeFailure Base58Data :=
  match Base58Data.setString H str with
  | .error failure => .error failure
  | .ok data => if isValidSecret net data then .ok data else .error .rejected

def keyOfSecret (data : Base58Data) : Option Key :=
  if data.vchData.length < PRIVATE_KEY_SIZE then none
  else some (Key.new.set (data.vchData.take PRIVATE_KEY_SIZE)
    (data.vchData[PRIVATE_KEY_SIZE]? == some 1))

-- The two commands

/-- `dumpprivkey` for a key that `GetKey` returned, `none` where an assertion fails. -/
def dumpPrivKey (net : Network) (H : Hashing) (vchSecret : Key) : Option (List Byte) :=
  match vchSecret.getPubKey, secretOfKey net vchSecret with
  | some pubkey, some secret =>
    match secret.toString H, encodeBase58 (pubkey.vch.take pubkey.size) with
    | some first, some second => some (first ++ second)
    | _, _ => none
  | _, _ => none

/-- How an import ends without a key: an exception of `substr`, an error reply, or a failed
assertion.
-/
inductive ImportFailure where
  | outOfRange
  | rpcError (message : String)
  | assertion
  deriving DecidableEq

/-- The position where the dump string is cut. -/
def SECRET_CHARS : Nat := 5493

/-- The public key of a dump string. A string that does not decode leaves the vector empty,
so that the key object keeps what `memory` held.
-/
def pubKeyOfString (memory : PubKey) (str : List Byte) : Option PubKey :=
  match decodeBase58 (cString str) with
  | .error .assertion => none
  | .error .rejected => some (memory.set [])
  | .ok vchPubkey => some (memory.set vchPubkey)

/-- `importprivkey` up to the key it adds and the public key it adds it under. What `Load`
returns is not looked at; the assertion behind it checks the pair again, on its own random
bytes `rnd`.
-/
def importPrivKey (S : SignatureScheme) (net : Network) (H : Hashing) (memory : PubKey)
    (rnd str : List Byte)
    : Except ImportFailure (Key × PubKey) :=
  if str.length < SECRET_CHARS then .error .outOfRange
  else match secretOfString net H (str.take SECRET_CHARS) with
    | .error .assertion => .error .assertion
    | .error .rejected => .error (.rpcError "Invalid private key encoding")
    | .ok vchSecret =>
      match keyOfSecret vchSecret with
      | none => .error .assertion
      | some key =>
        match key.getPrivKey with
        | none => .error .assertion
        | some privkey =>
          if !key.fValid then .error (.rpcError "Private key outside allowed range")
          else match pubKeyOfString memory (str.drop SECRET_CHARS) with
            | none => .error .assertion
            | some pubkey =>
              if !pubkey.isValid then
                .error (.rpcError "Public key outside allowed range")
              else match key.loadBytes privkey pubkey with
                | none => .error .assertion
                | some key =>
                  if key.verifyPubKey S H rnd pubkey then .ok (key, pubkey)
                  else .error .assertion

theorem of_keyOfSecret {data key} (ran : keyOfSecret data = some key)
    : key.fValid = true ∧ key.cachedPubKey = Key.new.cachedPubKey := by
  rw [keyOfSecret] at ran
  split_ifs at ran with short
  cases ran
  have length : (data.vchData.take PRIVATE_KEY_SIZE).length = PRIVATE_KEY_SIZE := by
    rw [length_take]
    omega
  rw [set_of_length length]
  exact ⟨rfl, rfl⟩

theorem of_importPrivKey {S net H memory pubkey rnd str key}
    (ran : importPrivKey S net H memory rnd str = .ok (key, pubkey))
    : key.fValid = true
      ∧ key.pubkeydata = pubkey.keyBytes
      ∧ key.verifyPubKey S H rnd pubkey = true := by
  rw [importPrivKey] at ran
  repeat' split at ran
  all_goals try cases ran
  rename_i loaded verified
  obtain ⟨cached, valid⟩ := pubkeydata_of_loadBytes loaded
  exact ⟨valid, cached, verified⟩

-- Lengths of the encoded secret

theorem bytesValue_cons (byte rest)
    : bytesValue (byte :: rest) = byte.toNat * 256 ^ rest.length + bytesValue rest := by
  rw [bytesValue, map_cons, reverse_cons, Nat.ofDigits_append,
    Nat.ofDigits_singleton, length_reverse, length_map, bytesValue]
  ring

theorem bytesValue_lt (vch) : bytesValue vch < 256 ^ vch.length := by
  have bound := Nat.ofDigits_lt_base_pow_length (b := 256) (by decide)
    (l := (vch.map BitVec.toNat).reverse)
    (fun digit inside => toNat_map_lt vch digit (mem_reverse.mp inside))
  simpa [bytesValue] using bound

/-- A number between two powers has the digits of the larger one. -/
theorem length_base58Digits {n k} (low : 58 ^ k ≤ n) (high : n < 58 ^ (k + 1))
    : (base58Digits n).length = k + 1 := by
  rw [base58Digits, length_reverse]
  have atMost := (Nat.digits_length_le_iff (by decide) n).mpr high
  have above := (Nat.lt_digits_length_iff (by decide) n).mpr low
  omega

theorem encodeBase58_of_head {vch} (leading : vch.head? ≠ some 0)
    : encodeBase58 vch = some ((base58Digits (bytesValue vch)).map base58Char) := by
  obtain ⟨zeros, rest⟩ := span_replicate 0 (0 : Byte) leading
  simp only [replicate_zero, nil_append] at zeros rest
  rw [encodeBase58_eq, zeros, rest]
  rfl

/-- The powers that fix the length of an encoded secret, with the compression byte. -/
theorem powers_of_compressed
    : 58 ^ 5492 ≤ 158 * 256 ^ 4021 ∧ 256 ^ (4021 + 1) ≤ 58 ^ (5492 + 1) := by
  decide +kernel

/-- The powers that fix the length of an encoded secret, without the compression byte. -/
theorem powers_of_uncompressed
    : 58 ^ 5491 ≤ 158 * 256 ^ 4020 ∧ 256 ^ (4020 + 1) ≤ 58 ^ (5491 + 1) := by
  decide +kernel

theorem length_digits_cons {byte rest} (k size) (large : 158 ≤ byte.toNat)
    (length : rest.length = size)
    (powers : 58 ^ k ≤ 158 * 256 ^ size ∧ 256 ^ (size + 1) ≤ 58 ^ (k + 1))
    : (base58Digits (bytesValue (byte :: rest))).length = k + 1 := by
  subst length
  apply length_base58Digits
  · rw [bytesValue_cons]
    have above := Nat.mul_le_mul_right (256 ^ rest.length) large
    omega
  · exact Nat.lt_of_lt_of_le (bytesValue_lt (byte :: rest)) powers.2

theorem Network.secretKeyPrefix_large (net : Network)
    : 158 ≤ net.secretKeyPrefix.toNat := by
  cases net <;> decide

theorem decodeBase58_number (n)
    : decodeBase58 ((base58Digits n).map base58Char) = .ok (numberBytes n) := by
  have encoded := encodeBase58_of_head (head?_numberBytes n)
  rw [bytesValue_numberBytes] at encoded
  exact (decodeBase58_eq_ok_iff ..).mpr ⟨_, encoded, .self _⟩

theorem cString_map_base58Char {digits : List Nat} (small : ∀ digit ∈ digits, digit < 58)
    : cString (digits.map base58Char) = digits.map base58Char := by
  apply takeWhile_eq_self_iff.mpr
  intro character inside
  obtain ⟨digit, mem, rfl⟩ := mem_map.mp inside
  simpa using base58Char_ne_zero (small digit mem)

/-- One more character multiplies the number. -/
theorem base58Digits_snoc {n digit} (pos : 0 < n) (small : digit < 58)
    : base58Digits (digit + 58 * n) = base58Digits n ++ [digit] := by
  rw [base58Digits, Nat.digits_add 58 (by decide) digit n small (Or.inr (by omega)),
    reverse_cons, base58Digits]

-- The dump string

section Dump

variable (net : Network) (H : Hashing) (key : Key)

def secretPayload : List Byte :=
  net.secretKeyPrefix :: (key.keydata ++ (if key.fCompressed then [1] else []))

def secretBytes : List Byte :=
  secretPayload net key ++ checksum H (secretPayload net key)

def secretChars : List Byte :=
  (base58Digits (bytesValue (secretBytes net H key))).map base58Char

def pubKeyChars : List Byte := (base58Digits (bytesValue key.cachedPubKey.vch)).map base58Char

@[simp] theorem length_checksum (vch : List Byte) : (checksum H vch).length = 4 := by
  simp [checksum]

theorem secretBytes_eq_cons
    : secretBytes net H key
      = net.secretKeyPrefix :: (key.keydata ++ (if key.fCompressed then [1] else [])
          ++ checksum H (secretPayload net key)) := rfl

theorem head?_secretBytes : (secretBytes net H key).head? ≠ some 0 := by
  rw [secretBytes_eq_cons, head?_cons]
  intro zero
  have large := net.secretKeyPrefix_large
  rw [Option.some.inj zero] at large
  exact absurd large (by decide)

theorem dumpPrivKey_eq (valid : key.fValid = true)
    : dumpPrivKey net H key = some (secretChars net H key ++ pubKeyChars key) := by
  have first := encodeBase58_of_head (head?_secretBytes net H key)
  rw [← secretChars, secretBytes, secretPayload] at first
  have second : encodeBase58 key.cachedPubKey.vch = some (pubKeyChars key) :=
    encodeBase58_of_head (by rw [vch_eq_cons]; simp)
  simp only [dumpPrivKey, getPubKey_of_valid valid, secretOfKey, valid, if_true,
    secret_of_valid valid, take_size, second, Base58Data.toString,
    encodeBase58Check, singleton_append, first]

/-- The secret takes as many characters as the import expects, and one less without the
compression byte.
-/
theorem length_secretChars
    : (secretChars net H key).length
      = if key.fCompressed then SECRET_CHARS else SECRET_CHARS - 1 := by
  rw [secretChars, length_map, secretBytes_eq_cons]
  by_cases compressed : key.fCompressed = true
  · rw [if_pos compressed, if_pos compressed]
    refine length_digits_cons 5492 4021 net.secretKeyPrefix_large ?_ powers_of_compressed
    simp [key.length_keydata, PRIVATE_KEY_SIZE]
  · rw [if_neg compressed, if_neg compressed]
    refine length_digits_cons 5491 4020 net.secretKeyPrefix_large ?_ powers_of_uncompressed
    simp [key.length_keydata, PRIVATE_KEY_SIZE]

-- Reading the dump string

theorem decodeBase58Check_eq_ok_iff (psz vch)
    : decodeBase58Check H psz = .ok vch
      ↔ ∃ chars, encodeBase58Check H vch = some chars ∧ Padded chars psz := by
  rw [encodeBase58Check, ← decodeBase58_eq_ok_iff, decodeBase58Check]
  constructor
  · intro checked
    split at checked
    · cases checked
    rename_i decoded
    split_ifs at checked with short wrong
    cases checked
    rw [decoded, not_not.mp wrong, take_append_drop]
  · intro decoded
    simp [decoded]

theorem secretOfString_secretChars
    : secretOfString net H (secretChars net H key)
      = .ok ⟨[net.secretKeyPrefix], key.keydata ++ (if key.fCompressed then [1] else [])⟩ := by
  have checked : decodeBase58Check H (cString (secretChars net H key))
      = .ok (secretPayload net key) := by
    rw [secretChars, cString_map_base58Char (fun digit inside => base58Digits_lt inside),
      decodeBase58Check_eq_ok_iff]
    exact ⟨_, encodeBase58_of_head (head?_secretBytes net H key), .self _⟩
  have valid : isValidSecret net ⟨[net.secretKeyPrefix],
      key.keydata ++ (if key.fCompressed then [1] else [])⟩ = true := by
    cases compressed : key.fCompressed
    · simp [isValidSecret, key.length_keydata]
    · simp [isValidSecret, key.length_keydata]
  have data : Base58Data.setString H (secretChars net H key)
      = .ok ⟨[net.secretKeyPrefix], key.keydata ++ (if key.fCompressed then [1] else [])⟩ := by
    rw [Base58Data.setString, checked]
    exact if_neg (by simp [secretPayload])
  rw [secretOfString, data]
  exact if_pos valid

theorem keyOfSecret_eq (version)
    : keyOfSecret ⟨version, key.keydata ++ (if key.fCompressed then [1] else [])⟩
      = some (Key.new.set key.keydata key.fCompressed) := by
  have long : ¬ (key.keydata ++ (if key.fCompressed then [1] else [])).length
      < PRIVATE_KEY_SIZE := by simp [key.length_keydata]
  have front : (key.keydata ++ (if key.fCompressed then [1] else [])).take PRIVATE_KEY_SIZE
      = key.keydata := by rw [← key.length_keydata, take_left]
  have flag : ((key.keydata ++ (if key.fCompressed then [1] else []))[PRIVATE_KEY_SIZE]?
      == some (1 : Byte)) = key.fCompressed := by
    cases compressed : key.fCompressed
    · simp [key.length_keydata]
    · simp [key.length_keydata]
  simp only [keyOfSecret, if_neg long, front, flag]

theorem pubKeyOfString_pubKeyChars (memory)
    : pubKeyOfString memory (pubKeyChars key) = some key.cachedPubKey := by
  have leading : key.cachedPubKey.vch.head? ≠ some 0 := by
    rw [vch_eq_cons]
    simp
  rw [pubKeyOfString, pubKeyChars, cString_map_base58Char (fun _ => base58Digits_lt),
    decodeBase58_number, numberBytes_bytesValue leading]
  exact congrArg some (set_of_length key.cachedPubKey.length_vch memory)

variable (S : SignatureScheme) (memory : PubKey) (rnd : List Byte)

/-- With the compression byte the cut falls between the two parts, and the import ends with
the check of the pair.
-/
theorem importPrivKey_of_compressed (valid : key.fValid = true)
    (compressed : key.fCompressed = true)
    : importPrivKey S net H memory rnd (secretChars net H key ++ pubKeyChars key)
      = if key.verifyPubKey S H rnd key.cachedPubKey then .ok (key, key.cachedPubKey)
        else .error .assertion := by
  have cut : (secretChars net H key).length = SECRET_CHARS := by
    rw [length_secretChars, if_pos compressed]
  have long : ¬ (secretChars net H key ++ pubKeyChars key).length < SECRET_CHARS := by
    rw [length_append, cut]
    omega
  have loaded : (Key.new.set key.keydata key.fCompressed).loadBytes key.keydata key.cachedPubKey
      = some key := by
    rw [loadBytes_of_length key.length_keydata]
    cases key
    simp_all
  rw [importPrivKey, if_neg long, ← cut, take_left, drop_left, secretOfString_secretChars]
  simp only [keyOfSecret_eq, pubKeyOfString_pubKeyChars, isValid_eq_true]
  simp only [set_of_length key.length_keydata] at loaded ⊢
  simp only [getPrivKey, if_true, loaded, Bool.not_true, Bool.false_eq_true, if_false]

theorem secretOfString_cases {str vch} (decoded : decodeBase58 (cString str) = .ok vch)
    : secretOfString net H str = .error .rejected
      ∨ ∃ rest, vch = net.secretKeyPrefix :: rest
          ∧ (rest.length = 4020 ∨ rest.length = 4021) := by
  simp only [secretOfString, Base58Data.setString, decodeBase58Check, decoded]
  by_cases short : vch.length < 4
  · simp [short]
  by_cases mismatch : checksum H (vch.take (vch.length - 4)) ≠ vch.drop (vch.length - 4)
  · simp [short, mismatch]
  by_cases empty : (vch.take (vch.length - 4)).length < 1
  · simp only [if_neg short, if_neg mismatch, if_pos empty, true_or]
  simp only [if_neg short, if_neg mismatch, if_neg empty]
  by_cases valid : isValidSecret net
      ⟨(vch.take (vch.length - 4)).take 1, (vch.take (vch.length - 4)).drop 1⟩ = true
  · simp only [isValidSecret, Bool.and_eq_true, Bool.or_eq_true, beq_iff_eq,
      length_drop, length_take] at valid
    obtain ⟨length, version⟩ := valid
    cases vch with
    | nil => simp at short
    | cons first rest =>
      simp only [length_take, length_cons] at empty length
      refine Or.inr ⟨rest, ?_, by rw [PRIVATE_KEY_SIZE] at length; omega⟩
      rw [take_take, Nat.min_eq_left (by simp only [length_cons]; omega)] at version
      rw [head_eq_of_cons_eq version]
  · exact Or.inl (if_neg valid)

/-- A secret without compression byte, read with one more character, is not a secret: the
number is too large for the same length and too small for the longer one.
-/
theorem not_secret_of_longer {prefixed power rest digit} (behind)
    (large : power ≤ prefixed) (inside : rest < power) (small : digit < 58)
    : (behind < power → digit + 58 * (prefixed + rest) ≠ prefixed + behind)
      ∧ (behind < 256 * power → digit + 58 * (prefixed + rest) ≠ 256 * prefixed + behind) := by
  omega

theorem pubKeyChars_eq_cons
    : ∃ digit rest, digit < 58 ∧ pubKeyChars key = base58Char digit :: rest := by
  have pos : bytesValue key.cachedPubKey.vch ≠ 0 := by
    rw [vch_eq_cons, bytesValue_cons]
    have power : 0 < 256 ^ key.cachedPubKey.keyBytes.length := Nat.pow_pos (by decide)
    have header : key.cachedPubKey.header.toNat = 7 := rfl
    rw [header]
    omega
  obtain ⟨digit, rest, digits⟩ := exists_cons_of_ne_nil
    (reverse_ne_nil_iff.mpr (Nat.digits_ne_nil_iff_ne_zero.mpr pos))
  refine ⟨digit, rest.map base58Char, base58Digits_lt (digits ▸ mem_cons_self), ?_⟩
  rw [pubKeyChars, base58Digits, digits, map_cons]

theorem bytesValue_secretBytes (uncompressed : key.fCompressed = false)
    : ∃ rest < 256 ^ 4020,
        bytesValue (secretBytes net H key)
          = net.secretKeyPrefix.toNat * 256 ^ 4020 + rest := by
  have length : (key.keydata ++ checksum H (secretPayload net key)).length = 4020 := by
    simp [key.length_keydata, PRIVATE_KEY_SIZE]
  refine ⟨_, length ▸ bytesValue_lt (key.keydata ++ checksum H (secretPayload net key)), ?_⟩
  rw [secretBytes_eq_cons, uncompressed, if_neg Bool.false_ne_true, append_nil,
    bytesValue_cons, length]

/-- The first part of the string is the secret with one more character. -/
theorem take_of_uncompressed (uncompressed : key.fCompressed = false)
    : ∃ digit < 58,
        (secretChars net H key ++ pubKeyChars key).take SECRET_CHARS
          = (base58Digits (digit + 58 * bytesValue (secretBytes net H key))).map
              base58Char := by
  obtain ⟨digit, rest, small, chars⟩ := pubKeyChars_eq_cons key
  obtain ⟨behind, inside, value⟩ := bytesValue_secretBytes net H key uncompressed
  have length := length_secretChars net H key
  rw [if_neg (by simp [uncompressed])] at length
  have pos : 0 < bytesValue (secretBytes net H key) := by
    have large := net.secretKeyPrefix_large
    rw [value]
    exact Nat.add_pos_left (Nat.mul_pos (by omega) (Nat.zero_lt_of_lt inside)) _
  refine ⟨digit, small, ?_⟩
  rw [chars, append_cons, take_left' (by
      rw [length_append, length, length_singleton, SECRET_CHARS]),
    base58Digits_snoc pos small, map_append, secretChars, map_singleton]

/-- Without the compression byte the cut takes a character of the public key along, and the secret
is rejected.
-/
theorem importPrivKey_of_uncompressed (uncompressed : key.fCompressed = false)
    : importPrivKey S net H memory rnd (secretChars net H key ++ pubKeyChars key)
      = .error (.rpcError "Invalid private key encoding") := by
  obtain ⟨digit, small, cut⟩ := take_of_uncompressed net H key uncompressed
  obtain ⟨rest, inside, value⟩ := bytesValue_secretBytes net H key uncompressed
  have long : ¬ (secretChars net H key ++ pubKeyChars key).length < SECRET_CHARS := by
    obtain ⟨digit, rest, -, chars⟩ := pubKeyChars_eq_cons key
    rw [length_append, length_secretChars, if_neg (by simp [uncompressed]), chars,
      length_cons, SECRET_CHARS]
    omega
  have rejected : secretOfString net H
      ((secretChars net H key ++ pubKeyChars key).take SECRET_CHARS)
      = .error .rejected := by
    rw [cut]
    have decoded := decodeBase58_number (digit + 58 * bytesValue (secretBytes net H key))
    rw [← cString_map_base58Char (fun digit inside => base58Digits_lt inside)] at decoded
    rcases secretOfString_cases net H decoded with rejected | ⟨behind, bytes, length⟩
    · exact rejected
    have number := congrArg bytesValue bytes
    rw [bytesValue_numberBytes, value, bytesValue_cons] at number
    have below := bytesValue_lt behind
    have large : 256 ^ 4020 ≤ net.secretKeyPrefix.toNat * 256 ^ 4020 :=
      Nat.le_mul_of_pos_left _ (by have := net.secretKeyPrefix_large; omega)
    have apart := not_secret_of_longer (bytesValue behind) large inside small
    rcases length with length | length
    · rw [length] at number below
      exact absurd number (apart.1 below)
    have power : 256 ^ behind.length = 256 * 256 ^ 4020 := by rw [length, ← pow_succ']
    rw [power] at number below
    rw [Nat.mul_left_comm] at number
    exact absurd number (apart.2 below)
  rw [importPrivKey, if_neg long, rejected]

/-- Importing the dump of a key gives back its secret and its public key exactly if the key
is flagged as compressed and its secret signs for the public key next to it.
-/
theorem importPrivKey_dumpPrivKey (valid : key.fValid = true)
    : (∃ str imported pubkey,
        dumpPrivKey net H key = some str
        ∧ importPrivKey S net H memory rnd str = .ok (imported, pubkey)
        ∧ imported.secret = key.secret
        ∧ imported.getPubKey = key.getPubKey)
      ↔ key.fCompressed = true ∧ key.verifyPubKey S H rnd key.cachedPubKey = true := by
  have dumped := dumpPrivKey_eq net H key valid
  constructor
  · rintro ⟨str, imported, pubkey, dump, ran, -, -⟩
    rw [dumped] at dump
    cases dump
    cases compressed : key.fCompressed with
    | false =>
      rw [importPrivKey_of_uncompressed net H key S memory rnd compressed] at ran
      cases ran
    | true =>
      rw [importPrivKey_of_compressed net H key S memory rnd valid compressed] at ran
      split at ran
      · rename_i verified
        exact ⟨rfl, verified⟩
      · cases ran
  · rintro ⟨compressed, verified⟩
    refine ⟨_, key, key.cachedPubKey, dumped, ?_, rfl, rfl⟩
    rw [importPrivKey_of_compressed net H key S memory rnd valid compressed, if_pos verified]

/-- The condition holds for a compressed key with a public key that the scheme accepts. -/
theorem importPrivKey_dumpPrivKey_new
    : (Key.new.set (List.replicate PRIVATE_KEY_SIZE 0) true).fValid = true
      ∧ ∃ str imported pubkey,
        dumpPrivKey .main zeroDigests.toHashing
            (Key.new.set (List.replicate PRIVATE_KEY_SIZE 0) true) = some str
        ∧ importPrivKey zeroKeyScheme .main zeroDigests.toHashing (PubKey.filled 0) [] str
          = .ok (imported, pubkey)
        ∧ imported.secret = (Key.new.set (List.replicate PRIVATE_KEY_SIZE 0) true).secret
        ∧ imported.getPubKey
          = (Key.new.set (List.replicate PRIVATE_KEY_SIZE 0) true).getPubKey := by
  have valid : (Key.new.set (List.replicate PRIVATE_KEY_SIZE 0) true).fValid = true := by
    rw [Key.set_of_length length_replicate]
  refine ⟨valid, (importPrivKey_dumpPrivKey .main zeroDigests.toHashing _ zeroKeyScheme
    (PubKey.filled 0) [] valid).mpr ⟨?_, ?_⟩⟩
  · rw [Key.set_of_length length_replicate]
  · rw [Key.verifyPubKey, verify_eq, keyBytes_cachedPubKey, pubkeydata_set]
    rfl

/-- The dump of a key restored from a mnemonic is rejected. -/
theorem dump_of_mnemonic_rejected
    : ∃ key str,
        Key.new.makeNewKeyByMnemonic zeroKeyScheme (fun _ _ _ _ => []) (asciiBytes "abandon")
          = .ok key
        ∧ dumpPrivKey .main zeroDigests.toHashing key = some str
        ∧ importPrivKey zeroKeyScheme .main zeroDigests.toHashing (PubKey.filled 0) [] str
          = .error (.rpcError "Invalid private key encoding") :=
  ⟨_, _, makeNewKeyByMnemonic_eq _ _ _ (by decide) (by decide), dumpPrivKey_eq _ _ _ rfl,
    importPrivKey_of_uncompressed _ _ _ _ _ _ rfl⟩

end Dump

-- Checked strings

theorem not_mem_of_padded {vch chars str} (encoded : encodeBase58 vch = some chars)
    (padded : Padded chars str)
    : 0 ∉ str := by
  obtain ⟨before, after, rfl, blank⟩ := padded
  have visible : 0 ∉ chars := by
    intro zero
    obtain ⟨digit, small, same⟩ := char_of_encodeBase58 encoded zero
    exact base58Char_ne_zero small same
  have dark : 0 ∉ before ++ after := fun zero => absurd (blank 0 zero) (by decide)
  simp only [mem_append, not_or] at dark ⊢
  exact ⟨dark.1, visible, dark.2⟩

theorem cString_of_not_mem {str} (zeroFree : 0 ∉ str) : cString str = str :=
  takeWhile_eq_self_iff.mpr fun c inside => by
    simpa using fun zero : c = 0 => zeroFree (zero ▸ inside)

theorem padded_cString_iff {vch str}
    : (∃ chars, encodeBase58 vch = some chars ∧ Padded chars (cString str)) ∧ 0 ∉ str
      ↔ ∃ chars, encodeBase58 vch = some chars ∧ Padded chars str := by
  constructor
  · rintro ⟨encoded, zeroFree⟩
    rwa [cString_of_not_mem zeroFree] at encoded
  · rintro ⟨chars, encoded, padded⟩
    have zeroFree := not_mem_of_padded encoded padded
    rw [cString_of_not_mem zeroFree]
    exact ⟨⟨chars, encoded, padded⟩, zeroFree⟩

/-- Encoding always succeeds and is decoded again, and no assertion fails; what is decoded is what
encoding gives, up to white space around it, exactly if no zero byte cuts the string off.
-/
theorem base58_canonical_iff (H : Hashing)
    : (∀ vch, ∃ str, encodeBase58 vch = some str ∧ decodeBase58 (cString str) = .ok vch)
      ∧ (∀ str, decodeBase58 (cString str) ≠ .error .assertion)
      ∧ (∀ str vch, decodeBase58 (cString str) = .ok vch ∧ 0 ∉ str
          ↔ ∃ chars, encodeBase58 vch = some chars ∧ Padded chars str)
      ∧ ∀ str vch, decodeBase58Check H (cString str) = .ok vch ∧ 0 ∉ str
          ↔ ∃ chars, encodeBase58Check H vch = some chars ∧ Padded chars str := by
  refine ⟨fun vch => ⟨_, encodeBase58_eq vch, ?_⟩, fun str failed => ?_, fun str vch => ?_,
    fun str vch => ?_⟩
  · have encoded := padded_cString_iff.mpr ⟨_, encodeBase58_eq vch, .self _⟩
    exact (decodeBase58_eq_ok_iff ..).mpr encoded.1
  · rcases decodeBase58_cases (cString str) with rejected | ⟨_, _, decoded, _⟩
    · cases failed.symm.trans rejected
    · cases failed.symm.trans decoded
  · rw [decodeBase58_eq_ok_iff]
    exact padded_cString_iff
  · rw [decodeBase58Check_eq_ok_iff]
    exact padded_cString_iff

/-- What follows a zero byte is not read. -/
theorem zero_cuts_string
    : decodeBase58 (cString (asciiBytes "1" ++ 0 :: asciiBytes "0")) = .ok [0]
      ∧ ¬ ∃ chars, encodeBase58 [0] = some chars
        ∧ Padded chars (asciiBytes "1" ++ 0 :: asciiBytes "0") := by
  refine ⟨by decide +kernel, fun ⟨chars, encoded, padded⟩ => ?_⟩
  exact not_mem_of_padded encoded padded (by decide)

end Pqcoin
