import Pqcoin.Lib.Folds
import Pqcoin.Lib.SignedWord
import Pqcoin.Dilithium.Mult

/-! The packed-lane products are the products in `ℤ[X] / (X ^ N + 1)`. -/

namespace Pqcoin.Dilithium
open Fin Finset Function Lanes SignedWord

/-- What makes a layout safe for coefficients up to its offset: the offset, twice the offset
and the center are what they are meant to be, `TAU` doubled offsets fit in a lane, and all
lanes fit in a word.
-/
structure Layout.Safe (layout : Layout) (count : Nat) (bound : ℤ) : Prop where
  nonneg : 0 ≤ bound
  offset : layout.offset.toInt = bound
  center : layout.center.toInt = TAU * bound
  laneMask : layout.laneMask.toNat = 2 ^ layout.width - 1
  narrow : layout.width < 31
  room : TAU * (2 * bound) < 2 ^ layout.width
  inside : layout.width * count ≤ 64
  mask : Holds layout.width layout.mask ((List.finRange count).reverse.map (fun _ => 2 * bound))

variable {layout : Layout} {count : Nat} {bound : ℤ}

/-- No integer of a lane leaves the range of `int32_t`. -/
theorem Layout.Safe.small (safe : layout.Safe count bound) : 2 * bound < 2 ^ 30 := by
  have power : (2 : ℤ) ^ layout.width ≤ 2 ^ 30 :=
    pow_le_pow_right₀ (by norm_num) (Nat.le_of_lt_succ safe.narrow)
  have room := safe.room
  have nonneg := safe.nonneg
  push_cast at room
  omega

-- Preparing a table

/-- A pushed lane is the sum, or the difference, of the offset and the coefficient. -/
theorem toNat_lane {x : BitVec 32} {n} (value : x.toInt = n) (nonneg : 0 ≤ n)
    : ((x.signExtend 64).toNat : ℤ) = n := by
  have extended : (x.signExtend 64).toInt = n := by
    rw [BitVec.toInt_signExtend_of_le (by decide), value]
  rw [toNat_of_nonneg (by omega), extended]

theorem holds_pushLoop (safe : layout.Safe count bound) (xs)
    (bounded : ∀ x ∈ xs, -bound ≤ x.toInt ∧ x.toInt ≤ bound) (words lanes lanes2)
    (sameLength : lanes.length = lanes2.length)
    (inside : layout.width * (xs.length + lanes.length) ≤ 64)
    (held : Holds layout.width words.1 lanes) (held2 : Holds layout.width words.2 lanes2)
    : Holds layout.width (pushLoop layout.width layout.offset xs words).1
        ((xs.map (fun x => bound + x.toInt)).reverse ++ lanes)
      ∧ Holds layout.width (pushLoop layout.width layout.offset xs words).2
        ((xs.map (fun x => bound - x.toInt)).reverse ++ lanes2) := by
  induction xs generalizing words lanes lanes2 with
  | nil => exact ⟨held, held2⟩
  | cons x rest ih =>
    have small := safe.small
    have room := safe.room
    obtain ⟨low, high⟩ := bounded x List.mem_cons_self
    have fits (n) (nonneg : 0 ≤ n) (doubled : n ≤ 2 * bound) : SignedWord.Fits 32 n := by
      constructor <;> omega
    have sum : (layout.offset + x).toInt = bound + x.toInt := by
      rw [toInt_add (by rw [safe.offset]; apply fits <;> omega), safe.offset]
    have diff : (layout.offset - x).toInt = bound - x.toInt := by
      rw [toInt_sub (by rw [safe.offset]; apply fits <;> omega), safe.offset]
    have temp := toNat_lane sum (by omega)
    have temp2 := toNat_lane diff (by omega)
    have narrow (n) (doubled : n ≤ 2 * bound) : n < 2 ^ layout.width := by
      push_cast at room
      have nonneg := safe.nonneg
      omega
    have space : layout.width * (lanes.length + 1) ≤ 64 :=
      le_trans (Nat.mul_le_mul_left _ (by simp)) inside
    have pushed := held.push ((layout.offset + x).signExtend 64)
      (by zify; rw [temp]; exact narrow _ (by omega)) space
    have pushed2 := held2.push ((layout.offset - x).signExtend 64)
      (by zify; rw [temp2]; exact narrow _ (by omega)) (by rwa [← sameLength])
    rw [temp] at pushed
    rw [temp2] at pushed2
    have rest := ih (fun y mem => bounded y (List.mem_cons_of_mem x mem))
      (_, _) _ _ (by simp [sameLength])
      (by simpa [Nat.add_assoc, Nat.add_comm 1] using inside) pushed pushed2
    simpa only [pushLoop, List.map_cons, List.reverse_cons, List.append_assoc,
      List.singleton_append] using rest

/-- The lanes of a word, the lowest one first. -/
abbrev lanesOf (f : Fin count → ℤ) : List ℤ := (List.finRange count).reverse.map f

/-- The four entries for `k` hold the lanes the evaluation expects. -/
structure Prepared (layout : Layout) (bound : ℤ) (vec : PolyVec count) (k : Fin N) (table : Table)
    : Prop where
  plus : Holds layout.width (table (k + N))
    (lanesOf (fun j => bound + coeffs (vec j) k))
  minus : Holds layout.width (table k)
    (lanesOf (fun j => bound - coeffs (vec j) k))
  negatedPlus : Holds layout.width (table (k + 3 * N))
    (lanesOf (fun j => bound - coeffs (vec j) k))
  negatedMinus : Holds layout.width (table (k + 2 * N))
    (lanesOf (fun j => bound + coeffs (vec j) k))

variable {vec : PolyVec count} (safe : layout.Safe count bound)
  (bounded : ∀ j i, -bound ≤ coeffs (vec j) i ∧ coeffs (vec j) i ≤ bound)

include safe bounded in
theorem holds_column (k) (words)
    : Holds layout.width (pushLoop layout.width layout.offset (column vec k) words).1
        (lanesOf (fun j => bound + coeffs (vec j) k))
      ∧ Holds layout.width (pushLoop layout.width layout.offset (column vec k) words).2
        (lanesOf (fun j => bound - coeffs (vec j) k)) := by
  have inColumn : ∀ x ∈ column vec k, -bound ≤ x.toInt ∧ x.toInt ≤ bound := by
    intro x mem
    obtain ⟨j, rfl⟩ := (List.mem_ofFn' _ _).mp mem
    exact bounded j k
  have pushed := holds_pushLoop safe (column vec k) inColumn words [] [] rfl
    (by simpa [column] using safe.inside) (holds_nil _) (holds_nil _)
  simpa only [column, List.ofFn_eq_map, List.map_map, List.append_nil, List.map_reverse,
    comp_def, coeffs] using pushed

include safe bounded in
/-- One round prepares its own four entries, whatever the table was. -/
theorem prepared_prepareEntry (table) (k)
    : Prepared layout bound vec k (prepareEntry layout vec table k) := by
  obtain ⟨plus, minus⟩ := holds_column safe bounded k
    (if layout.clears then 0 else table (k + N), table k)
  have inside : layout.width * (List.finRange count).reverse.length ≤ 64 := by
    simpa using safe.inside
  have negatedPlus := safe.mask.sub inside plus
  have negatedMinus := safe.mask.sub inside minus
  have flipPlus (x) : 2 * bound - (bound + x) = bound - x := by ring
  have flipMinus (x) : 2 * bound - (bound - x) = bound + x := by ring
  simp only [flipPlus, flipMinus] at negatedPlus negatedMinus
  have size : N = 256 := rfl
  constructor
  · simpa [prepareEntry, update_apply, size] using plus
  · simpa [prepareEntry, update_apply, size] using minus
  · simpa [prepareEntry, update_apply, size] using negatedPlus
  · simpa [prepareEntry, update_apply, size] using negatedMinus

/-- The rounds for other indices leave the four entries alone. -/
theorem Prepared.prepareEntry {table k}
    (prepared : Prepared layout bound vec k table) (i) (other : i ≠ k)
    : Prepared layout bound vec k (Dilithium.prepareEntry layout vec table i) := by
  have different : i.val ≠ k.val := fun same => other (Fin.ext same)
  have size : N = 256 := rfl
  have untouched (idx) (residue : idx % 256 = k.val)
      : Dilithium.prepareEntry layout vec table i idx = table idx := by
    simp only [Dilithium.prepareEntry, update_apply]
    rw [if_neg (by omega), if_neg (by omega), if_neg (by omega), if_neg (by omega)]
  have inside := k.isLt
  constructor
  · rw [untouched _ (by omega)]
    exact prepared.plus
  · rw [untouched _ (by omega)]
    exact prepared.minus
  · rw [untouched _ (by omega)]
    exact prepared.negatedPlus
  · rw [untouched _ (by omega)]
    exact prepared.negatedMinus

include safe bounded in
/-- After the loop every index is prepared. -/
theorem prepared_prepareTable (table : Table) (k)
    : Prepared layout bound vec k (prepareTable layout vec table) :=
  Folds.forall_of_establishes (fun table k => prepared_prepareEntry safe bounded table k)
    (fun _ i _ other prepared => prepared.prepareEntry i other) _ table k (List.mem_finRange k)

-- Evaluating against a prepared table

open Negacyclic (rotate)

/-- The difference of two indices, wrapped at `N`. -/
theorem val_sub_cases (j i : Fin N)
    : (i ≤ j ∧ (j - i).val = j.val - i.val) ∨ (¬ i ≤ j ∧ (j - i).val = j.val + N - i.val) := by
  have size : N = 256 := rfl
  have wrapped : (j - i).val = (N - i.val + j.val) % 256 := val_sub j i
  rw [le_def]
  omega

variable {table : Table} (prepared : ∀ k, Prepared layout bound vec k table)

include prepared in
/-- Both index formulas find the rotated coefficients: below `N` and from `3 * N` on with
their sign turned, so that the four blocks implement `X ^ N = -1`.
-/
theorem holds_rotated (i j : Fin N)
    : Holds layout.width (table (j + N - i))
        (lanesOf (fun v => bound + rotate i (coeffs (vec v)) j))
      ∧ Holds layout.width (table (j + 3 * N - i))
        (lanesOf (fun v => bound - rotate i (coeffs (vec v)) j)) := by
  have size : N = 256 := rfl
  have below := i.isLt
  rcases val_sub_cases j i with ⟨order, value⟩ | ⟨order, value⟩
  · have first : j.val + N - i.val = (j - i).val + N := by
      rw [le_def] at order
      omega
    have second : j.val + 3 * N - i.val = (j - i).val + 3 * N := by
      rw [le_def] at order
      omega
    simp only [rotate, if_pos order]
    rw [first, second]
    exact ⟨(prepared (j - i)).plus, (prepared (j - i)).negatedPlus⟩
  · have second : j.val + 3 * N - i.val = (j - i).val + 2 * N := by omega
    simp only [rotate, if_neg order, sub_neg_eq_add, ← sub_eq_add_neg]
    rw [← value, second]
    exact ⟨(prepared (j - i)).minus, (prepared (j - i)).negatedMinus⟩

/-- What round `i` adds to lane `v` of answer `j`: an offset for a nonzero coefficient, and
the coefficient's share of the product.
-/
def contribution (c : Poly) (bound : ℤ) (a : Fin N → ℤ) (j i : Fin N) : ℤ :=
  (if c i ≠ 0 then bound else 0) + coeffs c i * rotate i a j

include safe prepared in
/-- One round adds its contribution to every lane. -/
theorem holds_accumulate {c}
    (ternary : ∀ i, c i = 0 ∨ c i = 1 ∨ c i = -1) (i j : Fin N) {answer f}
    (held : Holds layout.width (answer j) (lanesOf f))
    : Holds layout.width (accumulate c table answer i j)
        ((List.finRange count).reverse.map
          (fun v => f v + contribution c bound (coeffs (vec v)) j i)) := by
  have inside : layout.width * (List.finRange count).reverse.length ≤ 64 := by
    simpa using safe.inside
  obtain ⟨plus, minus⟩ := holds_rotated prepared i j
  rcases ternary i with zero | one | minusOne
  · simpa [accumulate, contribution, coeffs, zero] using held
  · have value : coeffs c i = 1 := by rw [coeffs, one]; decide
    simpa [accumulate, contribution, value, one] using held.add inside plus
  · have value : coeffs c i = -1 := by rw [coeffs, minusOne]; decide
    have sum := held.add inside minus
    simpa [accumulate, contribution, value, minusOne, sub_eq_add_neg] using sum

include safe prepared in
theorem holds_foldl_accumulate {c}
    (ternary : ∀ i, c i = 0 ∨ c i = 1 ∨ c i = -1) (j) (rounds : List (Fin N))
    (answer : Fin N → BitVec 64) (f : Fin count → ℤ)
    (held : Holds layout.width (answer j) (lanesOf f))
    : Holds layout.width (rounds.foldl (accumulate c table) answer j)
        (lanesOf (fun v =>
          f v + (rounds.map (contribution c bound (coeffs (vec v)) j)).sum)) := by
  induction rounds generalizing answer f with
  | nil => simpa using held
  | cons i rest ih =>
    have next := ih _ _ (holds_accumulate safe prepared ternary i j held)
    simpa [add_assoc] using next

theorem sum_contribution (c : Challenge) (bound) (a : Fin N → ℤ) (j)
    : ∑ i, contribution c.poly bound a j i = TAU * bound + Negacyclic.mul (coeffs c.poly) a j := by
  simp only [contribution, sum_add_distrib, ← sum_filter, Finset.sum_const, c.weight, nsmul_eq_mul]
  rfl

/-- Every contribution of a bounded polynomial lies between nothing and two offsets. -/
theorem contribution_bounds (c : Challenge) {a} (bounded : ∀ i, -bound ≤ a i ∧ a i ≤ bound) (j i)
    : 0 ≤ contribution c.poly bound a j i
      ∧ contribution c.poly bound a j i ≤ if c.poly i ≠ 0 then 2 * bound else 0 := by
  have rotated : -bound ≤ rotate i a j ∧ rotate i a j ≤ bound := by
    have entry := bounded (j - i)
    rw [rotate]
    split <;> omega
  rcases c.ternary i with zero | one | minusOne
  · simp [contribution, coeffs, zero]
  · have value : coeffs c.poly i = 1 := by rw [coeffs, one]; decide
    have nonzero : c.poly i ≠ 0 := by rw [one]; decide
    rw [contribution, value, if_pos nonzero, if_pos nonzero]
    omega
  · have value : coeffs c.poly i = -1 := by rw [coeffs, minusOne]; decide
    have nonzero : c.poly i ≠ 0 := by rw [minusOne]; decide
    rw [contribution, value, if_pos nonzero, if_pos nonzero]
    omega

include safe in
/-- The lanes of a finished answer stay within their bits. -/
theorem product_bounds (c : Challenge) {a}
    (bounded : ∀ i, -bound ≤ a i ∧ a i ≤ bound) (j)
    : 0 ≤ TAU * bound + Negacyclic.mul (coeffs c.poly) a j
      ∧ TAU * bound + Negacyclic.mul (coeffs c.poly) a j < 2 ^ layout.width := by
  rw [← sum_contribution]
  constructor
  · exact sum_nonneg (fun i _ => (contribution_bounds c bounded j i).1)
  · calc ∑ i, contribution c.poly bound a j i
        ≤ ∑ i, if c.poly i ≠ 0 then 2 * bound else 0 :=
          sum_le_sum (fun i _ => (contribution_bounds c bounded j i).2)
      _ = TAU * (2 * bound) := by
          rw [← sum_filter, Finset.sum_const, c.weight, nsmul_eq_mul]
      _ < 2 ^ layout.width := safe.room

include safe prepared in
/-- Every finished answer holds, in each lane, the product above `TAU` offsets. -/
theorem holds_answers (c : Challenge) (j : Fin N)
    : Holds layout.width (answers c.poly table j)
        (lanesOf (fun v =>
          TAU * bound + Negacyclic.mul (coeffs c.poly) (coeffs (vec v)) j)) := by
  have full := holds_foldl_accumulate safe prepared c.ternary j (List.finRange N) (fun _ => 0)
    (fun _ => 0) holds_zero
  simpa only [answers, zero_add, ← sum_univ_def, sum_contribution] using full

-- Reading the lanes

include safe in
theorem map_readLoop (temp lanes)
    (held : Holds layout.width temp lanes) (small : ∀ x ∈ lanes, 0 ≤ x ∧ x < 2 ^ layout.width)
    : (readLoop layout lanes.length temp).map BitVec.toInt
      = lanes.map (fun x => x - TAU * bound) := by
  induction lanes generalizing temp with
  | nil => rfl
  | cons x rest ih =>
    obtain ⟨nonneg, below⟩ := small x List.mem_cons_self
    have bottom := held.head nonneg below
    have power : (2 : ℤ) ^ layout.width ≤ 2 ^ 30 :=
      pow_le_pow_right₀ (by norm_num) (Nat.le_of_lt_succ safe.narrow)
    have masked : ((temp &&& layout.laneMask).toNat : ℤ) = x := by
      rw [BitVec.toNat_and, safe.laneMask, Nat.and_two_pow_sub_one_eq_mod, bottom]
    have lane : ((temp &&& layout.laneMask).setWidth 32).toInt = x := by
      rw [BitVec.toInt_setWidth, masked]
      exact Int.bmod_eq_of_le (by omega) (by omega)
    have center := safe.center
    have room := safe.room
    have bound_nonnegative := safe.nonneg
    have read : ((temp &&& layout.laneMask).setWidth 32 - layout.center).toInt
        = x - TAU * bound := by
      have fits : SignedWord.Fits 32 (x - TAU * bound) := by
        push_cast at room ⊢
        constructor <;> omega
      rw [toInt_sub (by rwa [lane, center]), lane, center]
    have others := ih (temp >>> layout.width) (held.tail nonneg below)
      (fun y mem => small y (List.mem_cons_of_mem x mem))
    simp only [List.length_cons, readLoop, List.map_cons, read, others]

/-- Lane `count - 1 - v` belongs to polynomial `v`. -/
theorem getD_reverse_map (f : Fin count → ℤ) (v : Fin count)
    : (lanesOf f).getD (count - 1 - v) 0 = f v := by
  have inside := v.isLt
  have pos : ((List.finRange count).reverse)[count - 1 - v.val]? = some v := by
    rw [List.getElem?_reverse (by simp; omega), List.length_finRange,
      show count - 1 - (count - 1 - v.val) = v.val by omega]
    simp
  rw [List.getD_eq_getElem?_getD, List.getElem?_map, pos]
  rfl

include safe bounded in
/-- Preparing and evaluating gives the products, whatever the table held before. -/
theorem coeffs_evaluateTable (c : Challenge) (table) (v)
    : coeffs (evaluateTable layout count c.poly (prepareTable layout vec table) v)
      = Negacyclic.mul (coeffs c.poly) (coeffs (vec v)) := by
  funext j
  have prepared := prepared_prepareTable safe bounded table
  have held := holds_answers safe prepared c j
  have read := map_readLoop safe _ _ held (by
    intro x mem
    obtain ⟨v, _, rfl⟩ := List.mem_map.mp mem
    exact product_bounds safe c (bounded v) j)
  rw [List.length_map, List.length_reverse, List.length_finRange, List.map_map] at read
  calc coeffs (evaluateTable layout count c.poly (prepareTable layout vec table) v) j
      = ((readLoop layout count (answers c.poly (prepareTable layout vec table) j)).map
          BitVec.toInt).getD (count - 1 - v) 0 := by
        rw [coeffs, evaluateTable]
        exact (List.getD_map _ 0 BitVec.toInt).symm
    _ = Negacyclic.mul (coeffs c.poly) (coeffs (vec v)) j := by
        rw [read, getD_reverse_map, comp_apply, add_sub_cancel_left]

-- The four products

theorem layoutS1_safe : layoutS1.Safe L ETA := by
  constructor <;> decide

theorem layoutS2_safe : layoutS2.Safe K ETA := by
  constructor <;> decide

theorem layoutT0_safe : layoutT0.Safe 3 0x1000 := by
  constructor <;> decide

theorem layoutT1_safe : layoutT1.Safe 3 0x400 := by
  constructor <;> decide

/-- A vector joined from two tables has the products of both halves. -/
theorem coeffs_joinHalves {layout bound} (safe : layout.Safe 3 bound) (c : Challenge) {vec}
    (bounded : ∀ j i, -bound ≤ coeffs (vec j) i ∧ coeffs (vec j) i ≤ bound) (lower upper) (v)
    : coeffs
        (joinHalves
          (evaluateTable layout 3 c.poly (prepareTable layout (lowerHalf vec) lower))
          (evaluateTable layout 3 c.poly (prepareTable layout (upperHalf vec) upper)) v)
      = Negacyclic.mul (coeffs c.poly) (coeffs (vec v)) := by
  refine Fin.addCases (m := 3) (n := 3) (fun j => ?_) (fun j => ?_) v
  · rw [joinHalves, append_left]
    exact coeffs_evaluateTable safe (fun j i => bounded (Fin.castAdd 3 j) i) c lower j
  · rw [joinHalves, append_right]
    exact coeffs_evaluateTable safe (fun j i => bounded (Fin.natAdd 3 j) i) c upper j

/-- The components of `c * t0`, as `crypto_sign_signature` computes them. -/
theorem coeffs_evaluateCt0 (c : Challenge) (t0 : BoundedVec K (-2 ^ 12 + 1) (2 ^ 12))
    (t00_table t01_table v)
    : coeffs (evaluateCt0 c.poly (prepareT0Table t00_table t01_table t0.vec) v)
      = Negacyclic.mul (coeffs c.poly) (coeffs (t0.vec v)) := by
  have bounded (j) (i)
      : -0x1000 ≤ coeffs (t0.vec j) i ∧ coeffs (t0.vec j) i ≤ 0x1000 := by
    have bounds := t0.bounded j i
    omega
  have joined := coeffs_joinHalves layoutT0_safe c bounded t00_table t01_table v
  simpa only [evaluateCt0, prepareT0Table] using joined

/-- The components of `c * t1`, as `crypto_sign_verify` computes them. -/
theorem coeffs_evaluateCt1 (c : Challenge) (t1 : BoundedVec K 0 1023) (t10_table t11_table v)
    : coeffs (evaluateCt1 c.poly (prepareT1Table t10_table t11_table t1.vec) v)
      = Negacyclic.mul (coeffs c.poly) (coeffs (t1.vec v)) := by
  have bounded (j) (i)
      : -0x400 ≤ coeffs (t1.vec j) i ∧ coeffs (t1.vec j) i ≤ 0x400 := by
    have bounds := t1.bounded j i
    omega
  have joined := coeffs_joinHalves layoutT1_safe c bounded t10_table t11_table v
  simpa only [evaluateCt1, prepareT1Table] using joined

open Negacyclic (ofCoeffs ofCoeffs_eq_mul_iff)

/-- The products with the secret vectors are those of `ℤ[X] / (X ^ N + 1)`, for any former
contents of the tables.
-/
theorem secret_products_exact (c : Challenge) (s1 : BoundedVec L (-ETA) ETA)
    (s2 : BoundedVec K (-ETA) ETA) (s_table s2_table : Table)
    : (∀ v, ofCoeffs (coeffs (evaluateCs1 c.poly (prepareS1Table s_table s1.vec) v))
          = ofCoeffs (coeffs c.poly) * ofCoeffs (coeffs (s1.vec v)))
      ∧ ∀ v, ofCoeffs (coeffs (evaluateCs2 c.poly (prepareS2Table s2_table s2.vec) v))
          = ofCoeffs (coeffs c.poly) * ofCoeffs (coeffs (s2.vec v)) := by
  constructor
  · intro v
    exact ofCoeffs_eq_mul_iff.mpr (coeffs_evaluateTable layoutS1_safe s1.bounded c s_table v)
  · intro v
    exact ofCoeffs_eq_mul_iff.mpr (coeffs_evaluateTable layoutS2_safe s2.bounded c s2_table v)

/-- The products with the public vectors are those of `ℤ[X] / (X ^ N + 1)`, for any former
contents of the tables.
-/
theorem public_products_exact (c : Challenge) (t0 : BoundedVec K (-2 ^ 12 + 1) (2 ^ 12))
    (t1 : BoundedVec K 0 1023) (t00_table t01_table t10_table t11_table : Table)
    : (∀ v, ofCoeffs
            (coeffs (evaluateCt0 c.poly (prepareT0Table t00_table t01_table t0.vec) v))
          = ofCoeffs (coeffs c.poly) * ofCoeffs (coeffs (t0.vec v)))
      ∧ ∀ v, ofCoeffs
            (coeffs (evaluateCt1 c.poly (prepareT1Table t10_table t11_table t1.vec) v))
          = ofCoeffs (coeffs c.poly) * ofCoeffs (coeffs (t1.vec v)) := by
  constructor
  · intro v
    exact ofCoeffs_eq_mul_iff.mpr (coeffs_evaluateCt0 c t0 t00_table t01_table v)
  · intro v
    exact ofCoeffs_eq_mul_iff.mpr (coeffs_evaluateCt1 c t1 t10_table t11_table v)

end Pqcoin.Dilithium
