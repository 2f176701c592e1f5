import Pqcoin.Keys.Key
import Pqcoin.Lib.BaseConversion

/-! Base58: strings without look-alike characters for byte strings. A C++ string is the
list of its bytes; a failed assertion is told apart from a string that is not accepted.
-/

namespace Pqcoin

open BaseConversion List

/-- All alphanumeric characters except for `0`, `I`, `O` and `l`. -/
def pszBase58 : List Byte :=
  asciiBytes "123456789ABCDEFGHJKLMNPQRSTUVWXYZabcdefghijkmnopqrstuvwxyz"

def base58Char (digit : Nat) : Byte := pszBase58.getD digit 0

def base58Digit (c : Byte) : Option Nat := pszBase58.findIdx? (· == c)

/-- `isspace` in the C locale. -/
def isSpace (c : Byte) : Bool := c == 0x20 || (9 ≤ c && c ≤ 13)

/-- `c_str()`: the bytes before the first zero. -/
def cString (str : List Byte) : List Byte := str.takeWhile (· != 0)

/-- A decoder returns `false`, or its carry assertion fails. -/
inductive DecodeFailure where
  | rejected
  | assertion
  deriving DecidableEq

/-- `EncodeBase58`, `none` where its carry assertion fails. -/
def encodeBase58 (vch : List Byte) : Option (List Byte) :=
  let zeroes := (vch.takeWhile (· == 0)).length
  let rest := vch.dropWhile (· == 0)
  let size := rest.length * 138 / 100 + 1
  (BaseConversion.convert 256 58 size (rest.map BitVec.toNat)).map (fun digits =>
    List.replicate zeroes (base58Char 0) ++ digits.map base58Char)

/-- The loop of `DecodeBase58` over the characters: those it leaves and the buffer. -/
def decodeLoop
    : List Byte → List Nat → Nat → Except DecodeFailure (List Byte × List Nat × Nat)
  | [], b256, length => .ok ([], b256, length)
  | c :: rest, b256, length =>
    if isSpace c then .ok (c :: rest, b256, length)
    else match base58Digit c with
      | none => .error .rejected
      | some carry =>
        let pass := mulAdd 58 256 length carry 0 b256
        if pass.2.1 = 0 then decodeLoop rest pass.1 pass.2.2 else .error .assertion

def decodeBase58 (psz : List Byte) : Except DecodeFailure (List Byte) :=
  let psz := psz.dropWhile isSpace
  let zeroes := (psz.takeWhile (· == base58Char 0)).length
  let psz := psz.dropWhile (· == base58Char 0)
  let size := psz.length * 733 / 1000 + 1
  match decodeLoop psz (List.replicate size 0) 0 with
  | .error failure => .error failure
  | .ok (rest, b256, length) =>
    if rest.dropWhile isSpace ≠ [] then .error .rejected
    else .ok (List.replicate zeroes 0 ++ (significant b256 length).map (BitVec.ofNat 8))

-- Characters

theorem base58Digit_base58Char {digit} (small : digit < 58)
    : base58Digit (base58Char digit) = some digit := by
  have all : ∀ digit < 58, base58Digit (base58Char digit) = some digit := by decide
  exact all digit small

theorem isSpace_base58Char {digit} (small : digit < 58) : isSpace (base58Char digit) = false := by
  have all : ∀ digit < 58, isSpace (base58Char digit) = false := by decide
  exact all digit small

theorem base58Char_ne_zero {digit} (small : digit < 58) : base58Char digit ≠ 0 := by
  have all : ∀ digit < 58, base58Char digit ≠ 0 := by decide
  exact all digit small

theorem exists_of_base58Digit
    : ∀ c : Byte, base58Digit c = none ∨ ∃ digit < 58, base58Char digit = c := by
  decide +kernel

theorem base58Digit_of_isSpace {c} (space : isSpace c = true) : base58Digit c = none := by
  rcases exists_of_base58Digit c with none | ⟨digit, small, rfl⟩
  · exact none
  · cases space.symm.trans (isSpace_base58Char small)

def bytesValue (vch : List Byte) : Nat := Nat.ofDigits 256 (vch.map BitVec.toNat).reverse

def numberBytes (n : Nat) : List Byte := (Nat.digits 256 n).reverse.map (BitVec.ofNat 8)

def base58Digits (n : Nat) : List Nat := (Nat.digits 58 n).reverse

theorem base58Digits_lt {n digit} (inside : digit ∈ base58Digits n) : digit < 58 :=
  Nat.digits_lt_base (by decide) (mem_reverse.mp inside)

-- Encoding and decoding as numbers

theorem toNat_map_lt (vch : List Byte) : ∀ digit ∈ vch.map BitVec.toNat, digit < 256 := by
  intro digit inside
  obtain ⟨byte, -, rfl⟩ := mem_map.mp inside
  exact byte.isLt

/-- Encoding always succeeds with the digits of the number, behind one character for each
leading zero byte.
-/
theorem encodeBase58_eq (vch : List Byte)
    : encodeBase58 vch
      = some (replicate (vch.takeWhile (· == 0)).length (base58Char 0)
          ++ (base58Digits (bytesValue (vch.dropWhile (· == 0)))).map base58Char) := by
  rw [encodeBase58, convert_eq (by decide) (toNat_map_lt _)]
  · rfl
  · rw [length_map]
    exact fits_of_rate 138 100 (by decide) (by decide) (by decide +kernel) _

theorem decodeLoop_append {digits} (small : ∀ digit ∈ digits, digit < 58) (rest b256 length)
    : decodeLoop (digits.map base58Char ++ rest) b256 length
      = match passes 58 256 digits b256 length with
        | none => .error .assertion
        | some result => decodeLoop rest result.1 result.2 := by
  induction digits generalizing b256 length with
  | nil => rfl
  | cons digit digits ih =>
    obtain ⟨inside, others⟩ := forall_mem_cons.mp small
    rw [map_cons, cons_append, decodeLoop, isSpace_base58Char inside, base58Digit_base58Char inside]
    simp only [Bool.false_eq_true, if_false, passes]
    split
    · exact ih others _ _
    · rfl

/-- Leading copies of one element are split off where the rest starts with another. -/
theorem span_replicate {α : Type} [BEq α] [LawfulBEq α] (count) (first : α)
    {rest} (other : rest.head? ≠ some first)
    : (replicate count first ++ rest).takeWhile (· == first) = replicate count first
      ∧ (replicate count first ++ rest).dropWhile (· == first) = rest := by
  have all : ∀ item ∈ replicate count first, (item == first) = true := by
    intro item inside
    rw [eq_of_mem_replicate inside, beq_self_eq_true]
  rw [takeWhile_append_of_pos all, dropWhile_append_of_pos all]
  cases rest with
  | nil => simp
  | cons item rest =>
    have differs : (item == first) = false := by
      rw [beq_eq_false_iff_ne]
      exact fun same => other (congrArg some same)
    simp [differs]

theorem head?_chars {digits : List Nat} {rest}
    (small : ∀ digit ∈ digits, digit < 58) (leading : digits.head? ≠ some 0)
    (ends : ∀ c ∈ rest.head?, base58Digit c = none)
    : (digits.map base58Char ++ rest).head? ≠ some (base58Char 0) := by
  intro first
  cases digits with
  | nil => cases (ends _ first).symm.trans (base58Digit_base58Char (by decide))
  | cons digit digits =>
    have same := congrArg base58Digit (Option.some.inj first)
    rw [base58Digit_base58Char (small digit mem_cons_self),
      base58Digit_base58Char (by decide)] at same
    exact leading same

/-- Digits without a leading zero, behind leading zeros and white space, up to a character that is
none: the string is decoded if white space follows, and its buffer is always large enough.
-/
theorem decodeBase58_eq {psz rest : List Byte} (zeroes) {digits : List Nat}
    (split : psz.dropWhile isSpace
      = replicate zeroes (base58Char 0) ++ (digits.map base58Char ++ rest))
    (small : ∀ digit ∈ digits, digit < 58) (leading : digits.head? ≠ some 0)
    (ends : ∀ c ∈ rest.head?, base58Digit c = none)
    : decodeBase58 psz = if rest.dropWhile isSpace = []
        then .ok (replicate zeroes 0 ++ numberBytes (Nat.ofDigits 58 digits.reverse))
        else .error .rejected := by
  obtain ⟨ones, others⟩ := span_replicate zeroes (base58Char 0) (head?_chars small leading ends)
  obtain ⟨result, ran, bytes⟩ := passes_initial (b := 256) (by decide) small
    ((Nat.pow_le_pow_right (by decide) (by simp)).trans
      (fits_of_rate (m := 58) 733 1000 (by decide) (by decide) (by decide +kernel)
        (digits.map base58Char ++ rest).length))
  simp only [decodeBase58, split, ones, others, decodeLoop_append small, ran, length_replicate]
  cases rest with
  | nil =>
    simp only [decodeLoop, bytes]
    rfl
  | cons c rest =>
    rw [decodeLoop, ends c rfl]
    by_cases space : isSpace c = true
    · simp only [space, if_true, bytes, ne_eq, ite_not]
      rfl
    · simp [space]

-- Round trip

theorem map_ofNat_toNat (vch : List Byte) : (vch.map BitVec.toNat).map (BitVec.ofNat 8) = vch := by
  simp [Function.comp_def]

/-- Digits without a leading zero are the digits of their number. -/
theorem digits_of_leading {b} (base : 1 < b) {digits}
    (small : ∀ digit ∈ digits, digit < b) (leading : digits.head? ≠ some 0)
    : (Nat.digits b (Nat.ofDigits b digits.reverse)).reverse = digits := by
  rw [Nat.digits_ofDigits b base, reverse_reverse]
  · exact fun digit inside => small digit (mem_reverse.mp inside)
  · intro nonempty zero
    rw [getLast_reverse] at zero
    exact leading (zero ▸ head?_eq_some_head _)

theorem numberBytes_bytesValue {vch} (leading : vch.head? ≠ some 0)
    : numberBytes (bytesValue vch) = vch := by
  rw [numberBytes, bytesValue, digits_of_leading (by decide) (toNat_map_lt vch), map_ofNat_toNat]
  cases vch with
  | nil => simp
  | cons byte rest =>
    exact fun zero => leading (congrArg some (BitVec.eq_of_toNat_eq (Option.some.inj zero)))

theorem head?_digits (b n) : (Nat.digits b n).reverse.head? ≠ some 0 := by
  rw [head?_reverse]
  rcases Nat.eq_zero_or_pos n with rfl | pos
  · simp
  have nonempty : Nat.digits b n ≠ [] := Nat.digits_ne_nil_iff_ne_zero.mpr (by omega)
  rw [getLast?_eq_some_getLast nonempty]
  exact fun zero => Nat.getLast_digit_ne_zero b (by omega) (Option.some.inj zero)

theorem bytesValue_numberBytes (n) : bytesValue (numberBytes n) = n := by
  have same : (Nat.digits 256 n).reverse.map (fun digit => (BitVec.ofNat 8 digit).toNat)
      = (Nat.digits 256 n).reverse := by
    conv_rhs => rw [← map_id (Nat.digits 256 n).reverse]
    apply map_congr_left
    intro digit inside
    rw [BitVec.toNat_ofNat]
    exact Nat.mod_eq_of_lt (Nat.digits_lt_base (by decide) (mem_reverse.mp inside))
  rw [bytesValue, numberBytes, map_map, Function.comp_def, same, reverse_reverse,
    Nat.ofDigits_digits]

theorem head?_numberBytes (n) : (numberBytes n).head? ≠ some 0 := by
  rw [numberBytes, head?_map]
  intro zero
  obtain ⟨digit, first, same⟩ := Option.map_eq_some_iff.mp zero
  have small := Nat.digits_lt_base (by decide) (mem_reverse.mp (mem_of_head? first))
  have value := congrArg BitVec.toNat same
  rw [BitVec.toNat_ofNat, Nat.mod_eq_of_lt small] at value
  exact head?_digits 256 n (first.trans (congrArg some value))

theorem encodeBase58_digits (zeroes) {digits : List Nat}
    (small : ∀ digit ∈ digits, digit < 58) (leading : digits.head? ≠ some 0)
    : encodeBase58 (replicate zeroes 0 ++ numberBytes (Nat.ofDigits 58 digits.reverse))
      = some (replicate zeroes (base58Char 0) ++ digits.map base58Char) := by
  obtain ⟨zeros, others⟩ := span_replicate zeroes (0 : Byte) (head?_numberBytes _)
  rw [encodeBase58_eq, zeros, others, length_replicate, bytesValue_numberBytes, base58Digits,
    digits_of_leading (by decide) small leading]

/-- A string is its leading copies of one byte and the rest, which starts with another. -/
theorem replicate_append_dropWhile (first) (vch : List Byte)
    : replicate (vch.takeWhile (· == first)).length first ++ vch.dropWhile (· == first) = vch
      ∧ (vch.dropWhile (· == first)).head? ≠ some first := by
  have copies : vch.takeWhile (· == first)
      = replicate (vch.takeWhile (· == first)).length first :=
    eq_replicate_of_mem (fun byte inside => by simpa using mem_takeWhile_imp inside)
  refine ⟨by rw [← copies, takeWhile_append_dropWhile], fun other => ?_⟩
  have kept := head?_dropWhile_not (· == first) vch
  rw [other] at kept
  simp at kept

theorem exists_digits (psz)
    : ∃ (digits : List Nat) (rest : List Byte), psz = digits.map base58Char ++ rest
      ∧ (∀ digit ∈ digits, digit < 58) ∧ ∀ c ∈ rest.head?, base58Digit c = none := by
  induction psz with
  | nil => exact ⟨[], [], rfl, by simp, by simp⟩
  | cons c psz ih =>
    rcases exists_of_base58Digit c with other | ⟨digit, small, rfl⟩
    · exact ⟨[], c :: psz, rfl, by simp, by simpa using other⟩
    · obtain ⟨digits, rest, rfl, smaller, ends⟩ := ih
      exact ⟨digit :: digits, rest, rfl, forall_mem_cons.mpr ⟨small, smaller⟩, ends⟩

theorem exists_of_encodeBase58 {vch chars} (encoded : encodeBase58 vch = some chars)
    : ∃ (zeroes : Nat) (digits : List Nat), (∀ digit ∈ digits, digit < 58) ∧ digits.head? ≠ some 0
      ∧ chars = replicate zeroes (base58Char 0) ++ digits.map base58Char
      ∧ vch = replicate zeroes 0 ++ numberBytes (Nat.ofDigits 58 digits.reverse) := by
  rw [encodeBase58_eq, Option.some.injEq] at encoded
  obtain ⟨zeros, other⟩ := replicate_append_dropWhile 0 vch
  refine ⟨_, _, fun digit inside => base58Digits_lt inside, head?_digits 58 _, encoded.symm, ?_⟩
  rw [base58Digits, reverse_reverse, Nat.ofDigits_digits, numberBytes_bytesValue other, zeros]

theorem char_of_encodeBase58 {vch chars} (encoded : encodeBase58 vch = some chars)
    {c} (inside : c ∈ chars)
    : ∃ digit < 58, base58Char digit = c := by
  obtain ⟨zeroes, digits, small, -, rfl, -⟩ := exists_of_encodeBase58 encoded
  rcases mem_append.mp inside with one | later
  · exact ⟨0, by decide, (eq_of_mem_replicate one).symm⟩
  · obtain ⟨digit, mem, same⟩ := mem_map.mp later
    exact ⟨digit, small digit mem, same⟩

/-- The string with white space around it. -/
def Padded (chars str : List Byte) : Prop :=
  ∃ before after, str = before ++ (chars ++ after) ∧ ∀ c ∈ before ++ after, isSpace c = true

theorem Padded.self (chars) : Padded chars chars := ⟨[], [], by simp, by simp⟩

/-- Every string is decoded to what encoding gives for it, or rejected. -/
theorem decodeBase58_cases (psz)
    : decodeBase58 psz = .error .rejected
      ∨ ∃ vch chars, decodeBase58 psz = .ok vch ∧ encodeBase58 vch = some chars
        ∧ Padded chars psz := by
  obtain ⟨ones, other⟩ := replicate_append_dropWhile (base58Char 0) (psz.dropWhile isSpace)
  obtain ⟨digits, rest, split, small, ends⟩ :=
    exists_digits ((psz.dropWhile isSpace).dropWhile (· == base58Char 0))
  rw [split] at ones other
  have leading : digits.head? ≠ some 0 := by
    intro zero
    rw [head?_append, head?_map, zero] at other
    exact other rfl
  rw [decodeBase58_eq _ ones.symm small leading ends]
  split
  · rename_i blank
    refine .inr ⟨_, _, rfl, encodeBase58_digits _ small leading, psz.takeWhile isSpace, rest,
      ?_, ?_⟩
    · rw [append_assoc, ones, takeWhile_append_dropWhile]
    · intro c inside
      rcases mem_append.mp inside with early | late
      · exact mem_takeWhile_imp early
      · exact dropWhile_eq_nil_iff.mp blank c late
  · exact .inl rfl

theorem decodeBase58_eq_ok_iff (psz vch : List Byte)
    : decodeBase58 psz = .ok vch ↔ ∃ chars, encodeBase58 vch = some chars ∧ Padded chars psz := by
  constructor
  · intro decoded
    rcases decodeBase58_cases psz with rejected | ⟨_, chars, same, encoded⟩
    · cases decoded.symm.trans rejected
    · cases decoded.symm.trans same
      exact ⟨chars, encoded⟩
  rintro ⟨chars, encoded, before, after, rfl, blank⟩
  obtain ⟨zeroes, digits, small, leading, shape, rfl⟩ := exists_of_encodeBase58 encoded
  rw [forall_mem_append] at blank
  have decoded {rest} (spaces : ∀ c ∈ rest, isSpace c = true)
      (split : (chars ++ after).dropWhile isSpace = chars ++ rest)
      : decodeBase58 (before ++ (chars ++ after))
        = .ok (replicate zeroes 0 ++ numberBytes (Nat.ofDigits 58 digits.reverse)) := by
    rw [← dropWhile_append_of_pos blank.1, shape, append_assoc _ _ rest] at split
    rw [shape, decodeBase58_eq zeroes split small leading
      (fun c first => base58Digit_of_isSpace (spaces c (mem_of_head? first))),
      if_pos (dropWhile_eq_nil_iff.mpr spaces)]
  cases chars with
  | nil => exact decoded (forall_mem_nil _) (dropWhile_eq_nil_iff.mpr blank.2)
  | cons c chars =>
    obtain ⟨digit, inside, rfl⟩ := char_of_encodeBase58 encoded mem_cons_self
    exact decoded blank.2 (by simp [isSpace_base58Char inside])

end Pqcoin
