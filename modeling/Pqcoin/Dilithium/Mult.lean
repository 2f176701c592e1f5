import Pqcoin.Lib.Lanes
import Pqcoin.Lib.Negacyclic

/-! Polynomials of Dilithium mode 3, and the packed-lane products of `mult.cpp`: the
coefficients of several polynomials share the 64-bit words of one table.
-/

namespace Pqcoin.Dilithium

-- Parameters and polynomials

abbrev N : Nat := 256
abbrev K : Nat := 6
abbrev L : Nat := 5
abbrev ETA : Nat := 4
abbrev TAU : Nat := 49

instance : NeZero N := ⟨by decide⟩

/-- `poly`: the `int32_t` coefficients. -/
abbrev Poly := Fin N → BitVec 32

/-- `polyvecl` and `polyveck`. -/
abbrev PolyVec (count : Nat) := Fin count → Poly

def coeffs (p : Poly) (i : Fin N) : ℤ := (p i).toInt

/-- A challenge: exactly `TAU` coefficients are `1` or `-1`, and the others are `0`. -/
structure Challenge where
  poly : Poly
  ternary : ∀ i, poly i = 0 ∨ poly i = 1 ∨ poly i = -1
  weight : (Finset.univ.filter (fun i => poly i ≠ 0)).card = TAU

/-- The challenge whose first `TAU` coefficients are `1`. -/
instance : Inhabited Challenge where
  default :=
    {
      poly := fun i => if i.val < TAU then 1 else 0
      ternary := by
        intro i
        split
        · exact .inr (.inl rfl)
        · exact .inl rfl
      weight := by decide
    }

/-- A vector of polynomials with all coefficients between two bounds. -/
structure BoundedVec (count : Nat) (low high : ℤ) where
  vec : PolyVec count
  bounded : ∀ j i, low ≤ coeffs (vec j) i ∧ coeffs (vec j) i ≤ high

-- Tables

/-- A `uint64_t` table; the code uses the indices below `4 * N`. -/
abbrev Table := Nat → BitVec 64

/-- The inner loop of the `prepare` functions: each coefficient is pushed with its sign as
it is on the first word and negated on the second, above an offset.
-/
def pushLoop (width : Nat) (offset : BitVec 32)
    : List (BitVec 32) → BitVec 64 × BitVec 64 → BitVec 64 × BitVec 64
  | [], words => words
  | coeff :: rest, (word, word2) =>
    let temp := (offset + coeff).signExtend 64
    let temp2 := (offset - coeff).signExtend 64
    pushLoop width offset rest (word <<< width ||| temp, word2 <<< width ||| temp2)

/-- The coefficients `k` of the polynomials of a vector, in order. -/
def column {count : Nat} (vec : PolyVec count) (k : Fin N) : List (BitVec 32) :=
  List.ofFn (fun j => vec j k)

/-- How one table is laid out: the lane width and its mask, the offset of a lane, the word
with twice the offset in every lane, the number taken from a lane that is read, and whether
the entry `k + N` is cleared first.
-/
structure Layout where
  width : Nat
  laneMask : BitVec 64
  offset : BitVec 32
  mask : BitVec 64
  center : BitVec 32
  clears : Bool

/-- The body of the loop over `k`. Entry `k` is never cleared. -/
def prepareEntry (layout : Layout) {count : Nat} (vec : PolyVec count) (table : Table) (k : Fin N)
    : Table :=
  let start := if layout.clears then 0 else table (k + N)
  let (word, word2) := pushLoop layout.width layout.offset (column vec k) (start, table k)
  let table := Function.update table (k + N) word
  let table := Function.update table k word2
  let table := Function.update table (k + 3 * N) (layout.mask - word)
  Function.update table (k + 2 * N) (layout.mask - word2)

/-- The loop over `k` of the `prepare` functions. -/
def prepareTable (layout : Layout) {count : Nat} (vec : PolyVec count) (table : Table) : Table :=
  (List.finRange N).foldl (prepareEntry layout vec) table

/-- One round of the accumulation: the index `j - i + N` is taken in `uint32_t`. -/
def accumulate (c : Poly) (table : Table) (answer : Fin N → BitVec 64) (i : Fin N)
    : Fin N → BitVec 64 :=
  if c i = 1 then fun j => answer j + table (j + N - i)
  else if c i = -1 then fun j => answer j + table (j + 3 * N - i)
  else answer

/-- The accumulation of the `evaluate` functions. -/
def answers (c : Poly) (table : Table) : Fin N → BitVec 64 :=
  (List.finRange N).foldl (accumulate c table) (fun _ => 0)

def readLoop (layout : Layout) : Nat → BitVec 64 → List (BitVec 32)
  | 0, _ => []
  | count + 1, temp =>
    ((temp &&& layout.laneMask).setWidth 32 - layout.center)
      :: readLoop layout count (temp >>> layout.width)

/-- The lanes of all answers; lane `j` belongs to the polynomial `count - 1 - j`. -/
def evaluateTable (layout : Layout) (count : Nat) (c : Poly) (table : Table) : PolyVec count :=
  fun j i => (readLoop layout count (answers c table i)).getD (count - 1 - j) 0

-- The products of the signature scheme

/-- Nine-bit lanes for `s1`; the entries `k + N` are not cleared. -/
def layoutS1 : Layout where
  width := 9
  laneMask := 0x1FF
  offset := BitVec.ofNat 32 ETA
  mask := 0x8040201008
  center := BitVec.ofNat 32 (TAU * ETA)
  clears := false

def layoutS2 : Layout where
  width := 9
  laneMask := 0x1FF
  offset := BitVec.ofNat 32 ETA
  mask := 0x1008040201008
  center := BitVec.ofNat 32 (TAU * ETA)
  clears := true

def layoutT0 : Layout where
  width := 19
  laneMask := 0x7FFFF
  offset := 0x1000
  mask := 0x8000100002000
  center := 200704
  clears := true

def layoutT1 : Layout where
  width := 17
  laneMask := 0x1FFFF
  offset := 0x0400
  mask := 0x200010000800
  center := 50176
  clears := true

def prepareS1Table (s_table : Table) (s1 : PolyVec L) : Table := prepareTable layoutS1 s1 s_table

def evaluateCs1 (c : Poly) (s_table : Table) : PolyVec L := evaluateTable layoutS1 L c s_table

def prepareS2Table (s2_table : Table) (s2 : PolyVec K) : Table := prepareTable layoutS2 s2 s2_table

def evaluateCs2 (c : Poly) (s2_table : Table) : PolyVec K := evaluateTable layoutS2 K c s2_table

def lowerHalf (vec : PolyVec K) : PolyVec 3 := fun j => vec (Fin.castAdd 3 j)

def upperHalf (vec : PolyVec K) : PolyVec 3 := fun j => vec (Fin.natAdd 3 j)

def joinHalves (lower upper : PolyVec 3) : PolyVec K := Fin.append lower upper

def prepareT0Table (t00_table t01_table : Table) (t0 : PolyVec K) : Table × Table :=
  (prepareTable layoutT0 (lowerHalf t0) t00_table, prepareTable layoutT0 (upperHalf t0) t01_table)

def evaluateCt0 (c : Poly) (t0_tables : Table × Table) : PolyVec K :=
  joinHalves (evaluateTable layoutT0 3 c t0_tables.1) (evaluateTable layoutT0 3 c t0_tables.2)

def prepareT1Table (t10_table t11_table : Table) (t1 : PolyVec K) : Table × Table :=
  (prepareTable layoutT1 (lowerHalf t1) t10_table, prepareTable layoutT1 (upperHalf t1) t11_table)

def evaluateCt1 (c : Poly) (t1_tables : Table × Table) : PolyVec K :=
  joinHalves (evaluateTable layoutT1 3 c t1_tables.1) (evaluateTable layoutT1 3 c t1_tables.2)

end Pqcoin.Dilithium
