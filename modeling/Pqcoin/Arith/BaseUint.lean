import Pqcoin.Lib.Radix

/-! The 256-bit unsigned integer `base_uint<256>`, as eight 32-bit words.
Every operator follows the word loops of the source, with its carries in 64 bits.
-/

namespace Pqcoin

open List

/-- `base_uint<256>`: the words `pn[0] .. pn[WIDTH - 1]`, least significant first. -/
structure BaseUint where
  pn : List (BitVec 32)
  width : pn.length = 8
  deriving DecidableEq

namespace BaseUint

variable (a : BaseUint)

abbrev WIDTH : Nat := 8

def toNat : Nat := Radix.value a.pn

def ofUint64 (b : BitVec 64) : BaseUint where
  pn := b.setWidth 32 :: (b >>> 32).setWidth 32 :: List.replicate 6 0
  width := rfl

def zero : BaseUint where
  pn := List.replicate 8 0
  width := rfl

/-- `operator~`. -/
def not : BaseUint where
  pn := a.pn.map (fun p => ~~~p)
  width := by rw [length_map, a.width]

/-- The loop of `operator++`: the increment moves on while a word wraps to zero. -/
def incLoop : List (BitVec 32) → List (BitVec 32)
  | [] => []
  | p :: rest => (p + 1) :: if p + 1 = 0 then incLoop rest else rest

def addLoop : List (BitVec 32) → List (BitVec 32) → BitVec 64 → List (BitVec 32)
  | p :: ps, q :: qs, carry =>
    let n := carry + p.setWidth 64 + q.setWidth 64
    n.setWidth 32 :: addLoop ps qs (n >>> 32)
  | _, _, _ => []

/-- The loop of `operator*=(uint32_t)`. -/
def mulU32Loop (b32 : BitVec 32) : List (BitVec 32) → BitVec 64 → List (BitVec 32)
  | [], _ => []
  | p :: rest, carry =>
    let n := carry + b32.setWidth 64 * p.setWidth 64
    n.setWidth 32 :: mulU32Loop b32 rest (n >>> 32)

/-- The inner loop of `operator*=`, on the words from `j` on: a row of the schoolbook product. -/
def mulRow (d : BitVec 32) : List (BitVec 32) → List (BitVec 32) → BitVec 64 → List (BitVec 32)
  | p :: ps, q :: qs, carry =>
    let n := carry + p.setWidth 64 + d.setWidth 64 * q.setWidth 64
    n.setWidth 32 :: mulRow d ps qs (n >>> 32)
  | _, _, _ => []

/-- The outer loop of `operator*=`: row `j` is the last to change word `j`. -/
def mulLoop (b : List (BitVec 32)) : List (BitVec 32) → List (BitVec 32) → List (BitVec 32)
  | d :: ds, pn =>
    match mulRow d pn b 0 with
    | p :: rest => p :: mulLoop b ds rest
    | [] => []
  | [], pn => pn

theorem length_incLoop (pn) : (incLoop pn).length = pn.length := by
  induction pn with
  | nil => rfl
  | cons p rest ih => simp only [incLoop, length_cons]; split <;> simp [ih]

theorem length_addLoop (ps qs carry) : (addLoop ps qs carry).length = min ps.length qs.length := by
  induction ps generalizing qs carry with
  | nil => simp [addLoop]
  | cons p ps ih => cases qs <;> simp [addLoop, ih, Nat.add_min_add_right]

theorem length_mulU32Loop (b32 pn carry) : (mulU32Loop b32 pn carry).length = pn.length := by
  induction pn generalizing carry with
  | nil => rfl
  | cons p rest ih => simp [mulU32Loop, ih]

theorem length_mulRow (d ps qs carry)
    : (mulRow d ps qs carry).length = min ps.length qs.length := by
  induction ps generalizing qs carry with
  | nil => simp [mulRow]
  | cons p ps ih => cases qs <;> simp [mulRow, ih, Nat.add_min_add_right]

theorem length_mulLoop {b ds pn} (covers : pn.length ≤ b.length) (inside : ds.length ≤ pn.length)
    : (mulLoop b ds pn).length = pn.length := by
  induction ds generalizing pn with
  | nil => rfl
  | cons d ds ih =>
    have length := length_mulRow d pn b 0
    rw [min_eq_left covers] at length
    rw [mulLoop]
    split
    · rename_i row
      rw [row, length_cons] at length
      rw [length_cons] at inside
      rw [length_cons, ih (by omega) (by omega), length]
    · rename_i row
      rw [← length, row]

def inc : BaseUint where
  pn := incLoop a.pn
  width := by rw [length_incLoop, a.width]

/-- `operator-` (unary): complement, then increment. -/
def neg : BaseUint := a.not.inc

/-- `operator+=`. -/
def add (b : BaseUint) : BaseUint where
  pn := addLoop a.pn b.pn 0
  width := by rw [length_addLoop, a.width, b.width]; rfl

/-- `operator-=`: add the negation. -/
def sub (b : BaseUint) : BaseUint := a.add b.neg

def mulU32 (b32 : BitVec 32) : BaseUint where
  pn := mulU32Loop b32 a.pn 0
  width := by rw [length_mulU32Loop, a.width]

/-- `operator*=`. -/
def mul (b : BaseUint) : BaseUint where
  pn := mulLoop b.pn a.pn (List.replicate 8 0)
  width := length_mulLoop (by rw [b.width]; rfl) (by rw [a.width]; rfl)

/-- The loop of `operator<<=`: word `i` of `a` lands in words `i + k` and `i + k + 1`. -/
def shiftLeftLoop (a : List (BitVec 32)) (k shift : Nat) : Nat → List (BitVec 32)
  | 0 => List.replicate WIDTH 0
  | i + 1 =>
    let pn := shiftLeftLoop a k shift i
    let pn :=
      if i + k + 1 < WIDTH ∧ shift ≠ 0 then
        pn.modify (i + k + 1) (· ||| (a.getD i 0 >>> (32 - shift)))
      else pn
    if i + k < WIDTH then pn.modify (i + k) (· ||| (a.getD i 0 <<< shift)) else pn

/-- The loop of `operator>>=`: word `i` of `a` lands in words `i - k` and `i - k - 1`. -/
def shiftRightLoop (a : List (BitVec 32)) (k shift : Nat) : Nat → List (BitVec 32)
  | 0 => List.replicate WIDTH 0
  | i + 1 =>
    let pn := shiftRightLoop a k shift i
    let pn :=
      if k + 1 ≤ i ∧ shift ≠ 0 then
        pn.modify (i - k - 1) (· ||| (a.getD i 0 <<< (32 - shift)))
      else pn
    if k ≤ i then pn.modify (i - k) (· ||| (a.getD i 0 >>> shift)) else pn

theorem length_shiftLeftLoop (a k shift n) : (shiftLeftLoop a k shift n).length = 8 := by
  induction n with
  | zero => rfl
  | succ i ih => simp only [shiftLeftLoop]; split <;> split <;> simp [ih]

theorem length_shiftRightLoop (a k shift n) : (shiftRightLoop a k shift n).length = 8 := by
  induction n with
  | zero => rfl
  | succ i ih => simp only [shiftRightLoop]; split <;> split <;> simp [ih]

/-- `operator<<=`. -/
def shiftLeft (shift : Nat) : BaseUint where
  pn := shiftLeftLoop a.pn (shift / 32) (shift % 32) WIDTH
  width := length_shiftLeftLoop ..

/-- `operator>>=`. -/
def shiftRight (shift : Nat) : BaseUint where
  pn := shiftRightLoop a.pn (shift / 32) (shift % 32) WIDTH
  width := length_shiftRightLoop ..

def compareLoop (a b : List (BitVec 32)) : Nat → Int
  | 0 => 0
  | i + 1 =>
    if a.getD i 0 < b.getD i 0 then -1
    else if b.getD i 0 < a.getD i 0 then 1
    else compareLoop a b i

def compareTo (b : BaseUint) : Int := compareLoop a.pn b.pn WIDTH

/-- `operator>`. -/
def gt (b : BaseUint) : Bool := decide (a.compareTo b > 0)

/-- `operator>=`. -/
def ge (b : BaseUint) : Bool := decide (a.compareTo b ≥ 0)

/-- `EqualTo(uint64_t b)`: the words above the low two are zero and the low two match. -/
def equalTo (b : BitVec 64) : Bool :=
  (a.pn.drop 2).all (· == 0)
    && a.pn.getD 1 0 == (b >>> 32).setWidth 32
    && a.pn.getD 0 0 == b.setWidth 32

/-- The inner loop of `bits()`: the highest set bit of a nonzero word, plus one. -/
def wordBits (p : BitVec 32) : Nat → Nat
  | 0 => 1
  | bits + 1 => if p.getLsbD (bits + 1) then bits + 2 else wordBits p bits

def bitsLoop (a : List (BitVec 32)) : Nat → Nat
  | 0 => 0
  | pos + 1 =>
    if a.getD pos 0 ≠ 0 then 32 * pos + wordBits (a.getD pos 0) 31 else bitsLoop a pos

/-- `bits()`: the position of the highest bit set plus one, or zero. -/
def bits : Nat := bitsLoop a.pn WIDTH

def getLow64 : BitVec 64 :=
  (a.pn.getD 0 0).setWidth 64 ||| (a.pn.getD 1 0).setWidth 64 <<< 32

def setBit (shift : Nat) : BaseUint where
  pn := a.pn.modify (shift / 32) (· ||| (1#32 <<< (shift % 32)))
  width := by rw [length_modify, a.width]

/-- The `while (shift >= 0)` loop of `operator/=`; the counter is `shift + 1`. -/
def divLoop : Nat → BaseUint → BaseUint → BaseUint → BaseUint
  | 0, _, _, quot => quot
  | shift + 1, num, div, quot =>
    if num.ge div then
      divLoop shift (num.sub div) (div.shiftRight 1) (quot.setBit shift)
    else
      divLoop shift num (div.shiftRight 1) quot

inductive UintError where
  | divisionByZero
  deriving DecidableEq

/-- `operator/=`: schoolbook shift and subtract. -/
def div (b : BaseUint) : Except UintError BaseUint :=
  let numBits := a.bits
  let divBits := b.bits
  if divBits = 0 then .error .divisionByZero
  else if divBits > numBits then .ok zero
  else
    let shift := numBits - divBits
    .ok (divLoop (shift + 1) a (b.shiftLeft shift) zero)

end BaseUint

end Pqcoin
