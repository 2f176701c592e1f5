import Pqcoin.Lib.SignedWord
import Pqcoin.Primitives.Transaction

/-! Fee rates of `amount.cpp`: which rate is stored for a fee and a size, and when the machine
word holds it.
-/

namespace Pqcoin

open SignedWord

structure FeeRate where
  nSatoshisPerK : Amount
  deriving DecidableEq

namespace FeeRate

/-- `CFeeRate(nFeePaid, nBytes)`, where the product wraps as the machine's does; `none` is its
failed assertion.
-/
def ofFee (nFeePaid : Amount) (nBytes : Nat) : Option FeeRate :=
  let nSize : Amount := BitVec.ofNat 64 nBytes
  if nBytes ≤ 2 ^ 63 - 1 then
    some ⟨if 0 < nSize.toInt then (nFeePaid * 1000).sdiv nSize else 0⟩
  else none

/-- `CFeeRate::GetFee`; the product wraps as the machine's does. -/
def getFee (rate : FeeRate) (nBytes : Nat) : Amount :=
  let nSize : Amount := BitVec.ofNat 64 nBytes
  let nFee := (rate.nSatoshisPerK * nSize).sdiv 1000
  if nFee = 0 ∧ nSize ≠ 0 then
    if 0 < rate.nSatoshisPerK.toInt then 1
    else if rate.nSatoshisPerK.toInt < 0 then -1
    else nFee
  else nFee

end FeeRate

-- Quotients

/-- Rounding towards zero exceeds the quotient by less than one. -/
theorem tdiv_mul_lt {a b : Int} (pos : 0 < b) : a.tdiv b * b < a + b := by
  have split := Int.mul_tdiv_add_tmod a b
  have rest := Int.lt_tmod_of_pos a pos
  rw [mul_comm]
  omega

/-- The order of quotients follows that of the fractions. -/
theorem div_le_div_of_mul_le {a b c d : Int} (first : 0 < b) (second : 0 < d) (le : a * d ≤ c * b)
    : a / b ≤ c / d := by
  rw [Int.le_ediv_iff_mul_le second]
  have below := Int.ediv_mul_le a (Int.ne_of_gt first)
  refine le_of_mul_le_mul_right ?_ first
  calc a / b * d * b = a / b * b * d := by ring
    _ ≤ a * d := mul_le_mul_of_nonneg_right below (Int.le_of_lt second)
    _ ≤ c * b := le

section Stored

variable {nFeePaid : Amount} {nBytes : Nat} {rate : FeeRate}

theorem toInt_size (inside : nBytes < 2 ^ 63) : (BitVec.ofNat 64 nBytes).toInt = nBytes := by
  rw [BitVec.toInt_ofNat', Int.bmod_eq_of_le] <;> push_cast <;> omega

/-- What the constructor stores for a size that is not zero. -/
theorem ofFee_eq_some (pos : 1 ≤ nBytes)
    : FeeRate.ofFee nFeePaid nBytes = some rate
      ↔ nBytes < 2 ^ 63 ∧ rate = ⟨(nFeePaid * 1000).sdiv (BitVec.ofNat 64 nBytes)⟩ := by
  rw [FeeRate.ofFee]
  by_cases inside : nBytes < 2 ^ 63
  · rw [if_pos (by omega), if_pos (by rw [toInt_size inside]; omega), Option.some.injEq]
    exact ⟨fun same => ⟨inside, same.symm⟩, fun same => same.2.symm⟩
  · rw [if_neg (by omega)]
    exact ⟨fun impossible => absurd impossible (by simp), fun stored => absurd stored.1 inside⟩

theorem stored_exact (nonneg : 0 ≤ nFeePaid.toInt) (fits : nFeePaid.toInt * 1000 < 2 ^ 63)
    (pos : 1 ≤ nBytes) (inside : nBytes < 2 ^ 63)
    : ((nFeePaid * 1000).sdiv (BitVec.ofNat 64 nBytes)).toInt
      = nFeePaid.toInt * 1000 / nBytes := by
  have thousand : (1000 : Amount).toInt = 1000 := by decide
  have product : (nFeePaid * 1000).toInt = nFeePaid.toInt * 1000 := by
    rw [toInt_mul, thousand]
    rw [Fits, thousand]
    omega
  rw [toInt_sdiv (by rw [product]; omega) (by rw [toInt_size inside]; omega), product,
    toInt_size inside]

/-- A product that does not fit loses at least `2 ^ 64`, more than two sizes, and so its quotient
is too small.
-/
theorem stored_lt (large : 2 ^ 63 ≤ nFeePaid.toInt * 1000) (pos : 1 ≤ nBytes)
    (inside : nBytes < 2 ^ 63)
    : ((nFeePaid * 1000).sdiv (BitVec.ofNat 64 nBytes)).toInt
      < nFeePaid.toInt * 1000 / nBytes := by
  have size := toInt_size inside
  have regular : BitVec.ofNat 64 nBytes ≠ -1#64 := by
    intro same
    rw [same] at size
    have minusOne : (-1#64).toInt = -1 := by decide
    omega
  have lost : (nFeePaid * 1000).toInt ≤ nFeePaid.toInt * 1000 - 2 ^ 64 := by
    have thousand : (1000 : Amount).toInt = 1000 := by decide
    rw [BitVec.toInt_mul, thousand, Int.bmod_def]
    split <;> omega
  rw [BitVec.toInt_sdiv_of_ne_or_ne _ _ (.inr regular), size]
  have above : (nFeePaid * 1000).toInt.tdiv nBytes * nBytes < (nFeePaid * 1000).toInt + nBytes :=
    tdiv_mul_lt (by omega)
  have below := Int.lt_ediv_add_one_mul_self (nFeePaid.toInt * 1000)
    (show (0 : Int) < nBytes by omega)
  refine lt_of_mul_lt_mul_right ?_ (show (0 : Int) ≤ nBytes by omega)
  rw [add_mul, one_mul] at below
  omega

theorem getFee_le (nonneg : 0 ≤ nFeePaid.toInt) (fits : nFeePaid.toInt * 1000 < 2 ^ 63)
    (pos : 1 ≤ nBytes) (inside : nBytes < 2 ^ 63)
    (stored : rate.nSatoshisPerK.toInt = nFeePaid.toInt * 1000 / nBytes)
    : (rate.getFee nBytes).toInt ≤ max nFeePaid.toInt 1 := by
  have size := toInt_size inside
  have below := Int.ediv_mul_le (nFeePaid.toInt * 1000) (show (nBytes : Int) ≠ 0 by omega)
  have rateNonneg : 0 ≤ nFeePaid.toInt * 1000 / nBytes := Int.ediv_nonneg (by omega) (by omega)
  have productNonneg := mul_nonneg rateNonneg (show (0 : Int) ≤ nBytes by omega)
  have product : (rate.nSatoshisPerK * BitVec.ofNat 64 nBytes).toInt
      = nFeePaid.toInt * 1000 / nBytes * nBytes := by
    rw [toInt_mul, stored, size]
    rw [stored, size, Fits]
    omega
  have thousand : (1000 : Amount).toInt = 1000 := by decide
  have fee : ((rate.nSatoshisPerK * BitVec.ofNat 64 nBytes).sdiv 1000).toInt ≤ nFeePaid.toInt := by
    rw [toInt_sdiv (by rw [product]; exact productNonneg) (by decide), product, thousand]
    omega
  have one : (1 : Amount).toInt = 1 := by decide
  rw [FeeRate.getFee]
  split
  · split
    · omega
    rw [if_neg (by omega)]
    omega
  · omega

theorem order_of_stored {other : Amount} {otherBytes : Nat} (first : 1 ≤ nBytes)
    (second : 1 ≤ otherBytes)
    (less : nFeePaid.toInt * 1000 / nBytes < other.toInt * 1000 / otherBytes)
    : nFeePaid.toInt * otherBytes < other.toInt * nBytes := by
  by_contra notLess
  refine absurd less (not_lt.mpr (div_le_div_of_mul_le (by omega) (by omega) ?_))
  linarith

end Stored

/-- A package whose rate is stored exactly: it is the quotient rounded down, it orders the
package as the true rates do against every other one that is stored exactly, and the fee
that it asks of the package is the fee paid at most, one unit apart.
-/
structure ExactRate (nFeePaid : Amount) (nBytes : Nat) (rate : FeeRate) : Prop where
  stored : rate.nSatoshisPerK.toInt = nFeePaid.toInt * 1000 / nBytes
  orders
    : ∀ other otherBytes otherRate,
        MoneyRange other → 1 ≤ otherBytes
        → FeeRate.ofFee other otherBytes = some otherRate
        → otherRate.nSatoshisPerK.toInt = other.toInt * 1000 / otherBytes
        → (rate.nSatoshisPerK.toInt < otherRate.nSatoshisPerK.toInt
            → nFeePaid.toInt * otherBytes < other.toInt * nBytes)
          ∧ (otherRate.nSatoshisPerK.toInt < rate.nSatoshisPerK.toInt
            → other.toInt * nBytes < nFeePaid.toInt * otherBytes)
  fee : (rate.getFee nBytes).toInt ≤ max nFeePaid.toInt 1

/-- The rate of a fee in the money range is stored exactly as long as a thousand times the fee
fits in the word.
-/
theorem feeRate_exact_iff (nFeePaid : Amount) (nBytes : Nat) (money : MoneyRange nFeePaid)
    (pos : 1 ≤ nBytes)
    : (∃ rate, FeeRate.ofFee nFeePaid nBytes = some rate ∧ ExactRate nFeePaid nBytes rate)
      ↔ nFeePaid.toInt * 1000 < 2 ^ 63 ∧ nBytes < 2 ^ 63 := by
  constructor
  · rintro ⟨rate, made, exact⟩
    obtain ⟨inside, rfl⟩ := (ofFee_eq_some pos).mp made
    refine ⟨?_, inside⟩
    by_contra large
    have less := stored_lt (not_lt.mp large) pos inside
    exact absurd exact.stored (ne_of_lt less)
  · rintro ⟨fits, inside⟩
    have stored := stored_exact money.1 fits pos inside
    refine ⟨⟨_⟩, (ofFee_eq_some pos).mpr ⟨inside, rfl⟩, stored, ?_,
      getFee_le money.1 fits pos inside stored⟩
    intro other otherBytes otherRate _ otherPositive _ otherStored
    rw [stored, otherStored]
    exact ⟨order_of_stored pos otherPositive, order_of_stored otherPositive pos⟩

/-- A fee of a hundredth of a coin for 226 bytes. -/
theorem feeRate_exact_iff_cent
    : ∃ rate, FeeRate.ofFee 1000000 226 = some rate ∧ ExactRate 1000000 226 rate :=
  (feeRate_exact_iff 1000000 226 (by decide) (by decide)).mpr (by decide)

/-- A hundred million coins for a thousand bytes are stored as a negative rate. -/
theorem large_fee_overflows
    : MoneyRange 10000000000000000
      ∧ FeeRate.ofFee 10000000000000000 1000 = some ⟨-8446744073709551⟩
      ∧ (-8446744073709551 : Amount).toInt < 10000000000000000 * 1000 / 1000 := by
  decide

end Pqcoin
