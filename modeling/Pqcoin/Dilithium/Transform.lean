import Pqcoin.Dilithium.Mult
import Pqcoin.Dilithium.Rounding
import Pqcoin.Lib.Butterfly
import Mathlib.Data.ZMod.Basic

/-! The number-theoretic transform, its inverse and the product of polynomials by both. Arrays
are functions of the index, of which the code uses those below `N`. Signed overflow of a sum, a
difference or a 64-bit product is `none`.
-/

namespace Pqcoin.Dilithium
open Butterfly Fin Int List Option SignedWord

-- The functions of the source

def QINV : ℤ := 58728449

def zetas : List ℤ := [
  0, 25847, -2608894, -518909, 237124, -777960, -876248, 466468, 1826347, 2353451, -359251,
  -2091905, 3119733, -2884855, 3111497, 2680103, 2725464, 1024112, -1079900, 3585928, -549488,
  -1119584, 2619752, -2108549, -2118186, -3859737, -1399561, -3277672, 1757237, -19422, 4010497,
  280005, 2706023, 95776, 3077325, 3530437, -1661693, -3592148, -2537516, 3915439, -3861115,
  -3043716, 3574422, -2867647, 3539968, -300467, 2348700, -539299, -1699267, -1643818, 3505694,
  -3821735, 3507263, -2140649, -1600420, 3699596, 811944, 531354, 954230, 3881043, 3900724,
  -2556880, 2071892, -2797779, -3930395, -1528703, -3677745, -3041255, -1452451, 3475950, 2176455,
  -1585221, -1257611, 1939314, -4083598, -1000202, -3190144, -3157330, -3632928, 126922, 3412210,
  -983419, 2147896, 2715295, -2967645, -3693493, -411027, -2477047, -671102, -1228525, -22981,
  -1308169, -381987, 1349076, 1852771, -1430430, -3343383, 264944, 508951, 3097992, 44288,
  -1100098, 904516, 3958618, -3724342, -8578, 1653064, -3249728, 2389356, -210977, 759969,
  -1316856, 189548, -3553272, 3159746, -1851402, -2409325, -177440, 1315589, 1341330, 1285669,
  -1584928, -812732, -1439742, -3019102, -3881060, -3628969, 3839961, 2091667, 3407706, 2316500,
  3817976, -3342478, 2244091, -2446433, -3562462, 266997, 2434439, -1235728, 3513181, -3520352,
  -3759364, -1197226, -3193378, 900702, 1859098, 909542, 819034, 495491, -1613174, -43260,
  -522500, -655327, -3122442, 2031748, 3207046, -3556995, -525098, -768622, -3595838, 342297,
  286988, -2437823, 4108315, 3437287, -3342277, 1735879, 203044, 2842341, 2691481, -2590150,
  1265009, 4055324, 1247620, 2486353, 1595974, -3767016, 1250494, 2635921, -3548272, -2994039,
  1869119, 1903435, -1050970, -1333058, 1237275, -3318210, -1430225, -451100, 1312455, 3306115,
  -1962642, -1279661, 1917081, -2546312, -1374803, 1500165, 777191, 2235880, 3406031, -542412,
  -2831860, -1671176, -1846953, -2584293, -3724270, 594136, -3776993, -2013608, 2432395, 2454455,
  -164721, 1957272, 3369112, 185531, -1207385, -3183426, 162844, 1616392, 3014001, 810149,
  1652634, -3694233, -1799107, -3038916, 3523897, 3866901, 269760, 2213111, -975884, 1717735,
  472078, -426683, 1723600, -1803090, 1910376, -1667432, -1104333, -260646, -3833893, -2939036,
  -2235985, -420899, -2286327, 183443, -976891, 1612842, -3545687, -554416, 3919660, -48306,
  -1362209, 3937738, 1400424, -846154, 1976782]

/-- The result of signed arithmetic in words of this width. -/
def checked (w : ℕ) (n : ℤ) : Option ℤ :=
  if -2 ^ (w - 1) ≤ n ∧ n < 2 ^ (w - 1) then some n else none

/-- `montgomery_reduce`; the product with `QINV` is taken modulo `2 ^ 32`. -/
def montgomeryReduce (a : ℤ) : Option ℤ := do
  let t := (a.bmod (2 ^ 32) * QINV).bmod (2 ^ 32)
  let product ← checked 64 (t * Q)
  let diff ← checked 64 (a - product)
  some ((diff / 2 ^ 32).bmod (2 ^ 32))

/-- The body of the inner loop of `ntt`, on `a[j]` and `a[j + len]`. -/
def butterfly (zeta low high : ℤ) : Option (ℤ × ℤ) := do
  let t ← montgomeryReduce (← checked 64 (zeta * high))
  let right ← checked 32 (low - t)
  let left ← checked 32 (low + t)
  some (left, right)

/-- The body of the inner loop of `invntt_tomont`. -/
def inverseButterfly (zeta low high : ℤ) : Option (ℤ × ℤ) := do
  let left ← checked 32 (low + high)
  let diff ← checked 32 (low - high)
  let right ← montgomeryReduce (← checked 64 (zeta * diff))
  some (left, right)

/-- The values of `j` for one `len`, block by block, each with the factor of its block. -/
def butterflies (zeta : ℕ → ℤ) (len blocks : ℕ) : List (ℤ × ℕ) :=
  (List.range blocks).flatMap fun s => (List.range len).map fun j => (zeta s, s * (2 * len) + j)

/-- The layers of `ntt` from `len = 2 ^ (e - 1)` down to `1`. With `blocks` blocks in a layer, `++k`
counts from `blocks` on.
-/
def nttLayers : ℕ → (ℕ → ℤ) → Option (ℕ → ℤ)
  | 0, a => some a
  | e + 1, a => do
    let blocks := N / 2 ^ (e + 1)
    nttLayers e (← pairLoop butterfly (2 ^ e)
      (butterflies (fun s => zetas.getD (blocks + s) 0) (2 ^ e) blocks) a)

def ntt (a : ℕ → ℤ) : Option (ℕ → ℤ) := nttLayers 8 a

/-- The layers of `invntt_tomont` from `len = 1` up to `2 ^ (e - 1)`; `--k` counts down from
`N / len`.
-/
def inverseLayers : ℕ → (ℕ → ℤ) → Option (ℕ → ℤ)
  | 0, a => some a
  | e + 1, a => do
    pairLoop inverseButterfly (2 ^ e) (butterflies (fun s => -zetas.getD (N / 2 ^ e - 1 - s) 0)
      (2 ^ e) (N / 2 ^ (e + 1))) (← inverseLayers e a)

/-- A loop that replaces each coefficient. -/
def eachCoefficient (f : ℕ → Option ℤ) : Option (ℕ → ℤ) := do
  let values ← (List.range N).mapM f
  some fun i => values.getD i 0

def invnttTomont (a : ℕ → ℤ) : Option (ℕ → ℤ) := do
  let a ← inverseLayers 8 a
  eachCoefficient fun j => do montgomeryReduce (← checked 64 (41978 * a j))

def pointwiseMontgomery (a b : ℕ → ℤ) : Option (ℕ → ℤ) :=
  eachCoefficient fun i => do montgomeryReduce (← checked 64 (a i * b i))

/-- A product as `test_mul.c` computes it. -/
def nttProduct (a b : ℕ → ℤ) : Option (ℕ → ℤ) := do
  invnttTomont (← pointwiseMontgomery (← ntt a) (← ntt b))

-- Montgomery reduction

theorem checked_eq {w n} (fits : Fits w n) : checked w n = some n := if_pos fits

/-- The inverse of `2 ^ 32` modulo `Q`. -/
def montInverse : ZMod Q := 8265825

theorem montInverse_spec : (2 : ZMod Q) ^ 32 * montInverse = 1 := by
  have inverse : ((2 ^ 32 * 8265825 : ℤ) : ZMod Q) = ((1 : ℤ) : ZMod Q) :=
    (ZMod.intCast_eq_intCast_iff _ _ _).mpr (by decide)
  push_cast at inverse
  exact inverse

theorem abs_product_lt {x y a b : ℤ} (left : |x| < a) (right : |y| < b) : |x * y| < a * b := by
  rw [abs_mul]
  exact mul_lt_mul'' left right (abs_nonneg _) (abs_nonneg _)

/-- `montgomery_reduce` divides by `2 ^ 32` modulo `Q`, without overflow. -/
theorem montgomeryReduce_spec {a : ℤ} (small : |a| < 2 ^ 31 * Q)
    : ∃ t, montgomeryReduce a = some t ∧ |t| < Q ∧ (t : ZMod Q) = a * montInverse := by
  rw [Q_eq, abs_lt] at small
  generalize factor : (a.bmod (2 ^ 32) * QINV).bmod (2 ^ 32) = t
  have least : -2 ^ 31 ≤ t := factor ▸ le_bmod (by decide)
  have most : t < 2 ^ 31 := factor ▸ bmod_lt (by decide)
  have exact : (2 ^ 32 : ℤ) ∣ a - t * Q := by
    have reduced : t % 2 ^ 32 = a * QINV % 2 ^ 32 := by
      rw [← factor]
      exact bmod_emod.trans (ModEq.mul_right _ bmod_emod)
    rw [Q_eq]
    rw [QINV] at reduced
    omega
  obtain ⟨m, quot⟩ := exact
  refine ⟨m, ?_, ?_, ?_⟩
  · have divided : (2 ^ 32 * m / 2 ^ 32 : ℤ) = m := mul_ediv_cancel_left m (by decide)
    rw [montgomeryReduce, factor, checked_eq (by rw [Fits, Q_eq]; omega), bind_eq_bind,
      bind_some, quot, checked_eq (by rw [Fits, ← quot, Q_eq]; omega),
      bind_some, divided]
    rw [Q_eq] at quot
    rw [bmod_eq_of_le (by omega) (by omega)]
  · rw [Q_eq] at quot ⊢
    rw [abs_lt]
    omega
  · have whole : ((a - t * Q : ℤ) : ZMod Q) = (2 ^ 32 * m : ℤ) := congrArg _ quot
    rw [cast_sub, cast_mul, cast_mul, cast_natCast, CharP.cast_eq_zero, cast_pow,
      cast_ofNat, mul_zero, sub_zero] at whole
    rw [whole, mul_right_comm, montInverse_spec, one_mul]

/-- A butterfly reduces a residue modulo `x ^ len - zeta` and modulo `x ^ len + zeta`. -/
theorem butterfly_spec {zeta low high bound : ℤ} (factor : |zeta| < Q) (lower : |low| < bound)
    (upper : |high| < bound) (room : bound + Q ≤ 2 ^ 31)
    : ∃ left right, butterfly zeta low high = some (left, right)
      ∧ (|left| < bound + Q ∧ |right| < bound + Q)
      ∧ (left : ZMod Q) = low + zeta * montInverse * high
      ∧ (right : ZMod Q) = low - zeta * montInverse * high := by
  have product := abs_product_lt factor upper
  have fits : |zeta * high| < 2 ^ 31 * Q := by
    refine product.trans_le ?_
    rw [Q_eq] at room ⊢
    omega
  obtain ⟨t, reduced, small, value⟩ := montgomeryReduce_spec fits
  rw [cast_mul] at value
  rw [Q_eq, abs_lt] at fits small
  rw [abs_lt] at lower
  rw [Q_eq] at room
  refine ⟨low + t, low - t, ?_, ?_, ?_, ?_⟩
  · rw [butterfly, checked_eq (by rw [Fits]; omega), bind_eq_bind, bind_some,
      reduced, bind_some, checked_eq (by rw [Fits]; omega),
      bind_some, checked_eq (by rw [Fits]; omega), bind_some]
  · rw [Q_eq, abs_lt, abs_lt]
    omega
  · rw [cast_add, value]
    ring
  · rw [cast_sub, value]
    ring

theorem inverseButterfly_spec {zeta low high bound : ℤ} (factor : |zeta| < Q)
    (lower : |low| < bound) (upper : |high| < bound) (above : Q ≤ bound) (room : 2 * bound ≤ 2 ^ 31)
    : ∃ left right, inverseButterfly zeta low high = some (left, right)
      ∧ (|left| < 2 * bound ∧ |right| < 2 * bound)
      ∧ (left : ZMod Q) = low + high
      ∧ (right : ZMod Q) = zeta * montInverse * (low - high) := by
  have diff : |low - high| < 2 * bound := by
    rw [abs_lt] at lower upper ⊢
    omega
  have product := abs_product_lt factor diff
  have fits : |zeta * (low - high)| < 2 ^ 31 * Q := by
    refine product.trans_le ?_
    rw [Q_eq]
    omega
  obtain ⟨t, reduced, small, value⟩ := montgomeryReduce_spec fits
  rw [cast_mul, cast_sub] at value
  rw [Q_eq, abs_lt] at fits small
  rw [abs_lt] at lower upper
  rw [Q_eq] at above
  refine ⟨low + high, t, ?_, ?_, cast_add .., ?_⟩
  · rw [inverseButterfly, checked_eq (by rw [Fits]; omega), bind_eq_bind, bind_some,
      checked_eq (by rw [Fits]; omega), bind_some,
      checked_eq (by rw [Fits]; omega), bind_some, reduced, bind_some]
  · rw [abs_lt, abs_lt]
    omega
  · rw [value]
    ring

-- Layers

theorem mem_butterflies {zeta len blocks pair}
    : pair ∈ butterflies zeta len blocks
      ↔ ∃ s < blocks, ∃ j < len, (zeta s, s * (2 * len) + j) = pair := by
  simp only [butterflies, mem_flatMap, List.mem_map, mem_range]

/-- The block and the place in it are those of the quotient and the remainder. -/
theorem butterfly_index {len s j} (inside : j < len)
    : (s * (2 * len) + j) / (2 * len) = s ∧ (s * (2 * len) + j) % (2 * len) = j := by
  have below : j < 2 * len := by omega
  constructor
  · rw [Nat.mul_comm, Nat.mul_add_div (by omega), Nat.div_eq_of_lt below, Nat.add_zero]
  · rw [Nat.mul_comm, Nat.mul_add_mod, Nat.mod_eq_of_lt below]

theorem nodup_butterflies (zeta : ℕ → ℤ) (len blocks)
    : ((butterflies zeta len blocks).map Prod.snd).Nodup := by
  simp only [butterflies, map_flatMap, List.map_map, Function.comp_def]
  refine nodup_flatMap.mpr ⟨fun s _ => ?_, ?_⟩
  · exact nodup_range.map fun i j same => Nat.add_left_cancel same
  · refine nodup_range.imp fun {s r} other i first second => ?_
    obtain ⟨j, inside, rfl⟩ := List.mem_map.mp first
    obtain ⟨k, within, same⟩ := List.mem_map.mp second
    rw [mem_range] at inside within
    refine other ?_
    rw [← (butterfly_index (s := s) inside).1, ← same, (butterfly_index within).1]

/-- All pairs of a layer are replaced as one butterfly does it. -/
theorem layer_spec {step} {zeta} {len blocks} {a} {P : ℕ → ℕ → ℤ → ℤ → Prop}
    (steps : ∀ s < blocks, ∀ j < len, ∃ left right,
      step (zeta s) (a (s * (2 * len) + j)) (a (s * (2 * len) + j + len)) = some (left, right)
        ∧ P s j left right)
    : ∃ after, pairLoop step len (butterflies zeta len blocks) a = some after
      ∧ ∀ s < blocks, ∀ j < len,
        P s j (after (s * (2 * len) + j)) (after (s * (2 * len) + j + len)) := by
  have apart : ∀ p ∈ butterflies zeta len blocks, ∀ q ∈ butterflies zeta len blocks,
      p.2 ≠ q.2 + len := by
    intro p listed q found same
    obtain ⟨s, -, j, inside, rfl⟩ := mem_butterflies.mp listed
    obtain ⟨r, -, k, within, rfl⟩ := mem_butterflies.mp found
    dsimp only at same
    have left := (butterfly_index (s := s) inside).2
    rw [same, Nat.add_assoc, Nat.mul_comm, Nat.mul_add_mod, Nat.mod_eq_of_lt (by omega)] at left
    omega
  have stepped : ∀ p ∈ butterflies zeta len blocks, ∃ left right,
      step p.1 (a p.2) (a (p.2 + len)) = some (left, right)
        ∧ P (p.2 / (2 * len)) (p.2 % (2 * len)) left right := by
    intro p listed
    obtain ⟨s, block, j, inside, rfl⟩ := mem_butterflies.mp listed
    dsimp only
    rw [(butterfly_index inside).1, (butterfly_index inside).2]
    exact steps s block j inside
  obtain ⟨after, ran, done, -⟩ :=
    pairLoop_spec (P := fun p => P (p.2 / (2 * len)) (p.2 % (2 * len)))
      (nodup_butterflies zeta len blocks) apart stepped
  refine ⟨after, ran, fun s block j inside => ?_⟩
  have placed := done _ (mem_butterflies.mpr ⟨s, block, j, inside, rfl⟩)
  dsimp only at placed
  rwa [(butterfly_index inside).1, (butterfly_index inside).2] at placed

/-- Every index of the array is in one pair of a layer. -/
theorem forall_index {len blocks} {P : ℕ → Prop}
    (pairs : ∀ s < blocks, ∀ j < len, P (s * (2 * len) + j) ∧ P (s * (2 * len) + j + len))
    : ∀ i < blocks * (2 * len), P i := by
  intro i inside
  have pos : 0 < 2 * len := Nat.pos_of_mul_pos_left (Nat.zero_lt_of_lt inside)
  have block : i / (2 * len) < blocks := Nat.div_lt_of_lt_mul (by rwa [Nat.mul_comm])
  have split := Nat.div_add_mod' i (2 * len)
  have rest := Nat.mod_lt i pos
  by_cases low : i % (2 * len) < len
  · have found := (pairs _ block _ low).1
    rwa [split] at found
  · have found := (pairs _ block (i % (2 * len) - len) (by omega)).2
    rwa [Nat.add_assoc, Nat.sub_add_cancel (Nat.le_of_not_lt low), split] at found

-- Roots of unity

/-- The factor of block `k`, without the Montgomery factor of the table. -/
def twiddle (k : ℕ) : ZMod Q := (zetas.getD k 0 : ℤ) * montInverse

/-- The blocks are numbered like the nodes of a heap: the square roots for the children of a node
are its factor and the negated factor.
-/
def root (k : ℕ) : ZMod Q :=
  if k = 1 then -1 else if k % 2 = 0 then twiddle (k / 2) else -twiddle (k / 2)

theorem root_left (k) : root (2 * k) = twiddle k := by
  rw [root, if_neg (by omega), if_pos (by omega), Nat.mul_div_cancel_left k (by decide)]

theorem root_right {k} (pos : 0 < k) : root (2 * k + 1) = -twiddle k := by
  rw [root, if_neg (by omega), if_neg (by omega), show (2 * k + 1) / 2 = k by omega]

theorem abs_zetas_lt (k) : |zetas.getD k 0| < Q := by
  have all : ∀ zeta ∈ zetas, |zeta| < Q := by decide +kernel
  rw [getD_eq_getElem?_getD]
  cases found : zetas[k]? with
  | none => decide
  | some zeta => exact all zeta (mem_of_getElem? found)

/-- An equation of integers modulo `Q`, without the Montgomery factors. -/
theorem mul_montInverse {x y : ℤ} (same : x % Q = 2 ^ 32 * y % Q)
    : (x : ZMod Q) * montInverse = y := by
  have whole : (x : ZMod Q) = (2 ^ 32 * y : ℤ) := (ZMod.intCast_eq_intCast_iff _ _ _).mpr same
  rw [whole, cast_mul, cast_pow, cast_ofNat, mul_right_comm, montInverse_spec, one_mul]

theorem twiddle_sq {k : ℕ} (pos : 0 < k) (inside : k < N) : twiddle k ^ 2 = root k := by
  have table : ∀ k < N, 0 < k → zetas.getD k 0 * zetas.getD k 0 % Q
      = 2 ^ 32 * (if k = 1 then -2 ^ 32 else if k % 2 = 0 then zetas.getD (k / 2) 0
          else -zetas.getD (k / 2) 0) % Q := by
    decide +kernel
  have square := mul_montInverse (table k inside pos)
  rw [cast_mul] at square
  rw [twiddle, sq, mul_mul_mul_comm, ← mul_assoc, square, root]
  split
  · rw [cast_neg, cast_pow, cast_ofNat, neg_mul, montInverse_spec]
  split
  · rfl
  · rw [cast_neg, neg_mul, twiddle]

/-- The factors of the inverse transform are the inverse ones. -/
theorem twiddle_inverse {e s : ℕ} (layer : e < 8) (inside : s < N / 2 ^ (e + 1))
    : ((-zetas.getD (N / 2 ^ e - 1 - s) 0 : ℤ) : ZMod Q) * montInverse
      * twiddle (N / 2 ^ (e + 1) + s) = 1 := by
  have table : ∀ e < 8, ∀ s < N / 2 ^ (e + 1),
      -zetas.getD (N / 2 ^ e - 1 - s) 0 * zetas.getD (N / 2 ^ (e + 1) + s) 0 % Q
        = 2 ^ 32 * 2 ^ 32 % Q := by
    decide +kernel
  have product := mul_montInverse (table e layer s inside)
  rw [cast_mul] at product
  rw [twiddle, mul_mul_mul_comm, ← mul_assoc, product, cast_pow, cast_ofNat, montInverse_spec]

-- The transforms

/-- The array holds the residues of a polynomial, block by block, up to a factor. -/
def Evaluates (c : ZMod Q) (p : ℕ → ZMod Q) (len blocks : ℕ) (a : ℕ → ℤ) : Prop :=
  ∀ s < blocks, ∀ j < len,
    (a (s * len + j) : ZMod Q) = c * residue p len blocks (root (blocks + s)) j

variable {c : ZMod Q} {p : ℕ → ZMod Q} {len blocks e : ℕ} {a : ℕ → ℤ}

/-- The two children of a block stand side by side. -/
theorem evaluates_double_iff (pos : 0 < blocks)
    : Evaluates c p len (2 * blocks) a
      ↔ ∀ s < blocks, ∀ j < len,
        (a (s * (2 * len) + j) : ZMod Q)
            = c * residue p len (2 * blocks) (twiddle (blocks + s)) j
          ∧ (a (s * (2 * len) + j + len) : ZMod Q)
            = c * residue p len (2 * blocks) (-twiddle (blocks + s)) j := by
  have left (s j) : s * (2 * len) + j = 2 * s * len + j := by ring
  have right (s j) : s * (2 * len) + j + len = (2 * s + 1) * len + j := by ring
  have node (s) : 2 * blocks + 2 * s = 2 * (blocks + s) := by ring
  constructor
  · intro evaluates s block j inside
    rw [right, left, ← root_right (by omega), ← root_left, ← node]
    exact ⟨evaluates (2 * s) (by omega) j inside, evaluates (2 * s + 1) (by omega) j inside⟩
  · intro pairs s block j inside
    obtain ⟨first, second⟩ := pairs (s / 2) (by omega) j inside
    rw [left, ← root_left, ← node] at first
    rw [right, ← root_right (by omega), ← node] at second
    rcases Nat.mod_two_eq_zero_or_one s with even | odd
    · rwa [show 2 * (s / 2) = s by omega] at first
    · rwa [Nat.add_assoc, show 2 * (s / 2) + 1 = s by omega] at second

/-- The sizes of a layer. -/
theorem layer_sizes (layer : e < 8)
    : N / 2 ^ e = 2 * (N / 2 ^ (e + 1)) ∧ N / 2 ^ (e + 1) * (2 * 2 ^ e) = N
      ∧ 0 < N / 2 ^ (e + 1) ∧ 2 * (N / 2 ^ (e + 1)) ≤ N := by
  revert e
  decide

/-- A layer of `ntt` reduces the residues, and adds less than `Q` to each of them. -/
theorem nttLayer_spec (layer : e < 8) {bound : ℤ}
    (evaluates : Evaluates c p (2 * 2 ^ e) (N / 2 ^ (e + 1)) a)
    (bounded : ∀ i < N, |a i| < bound) (room : bound + Q ≤ 2 ^ 31)
    : ∃ after, pairLoop butterfly (2 ^ e) (butterflies
          (fun s => zetas.getD (N / 2 ^ (e + 1) + s) 0) (2 ^ e) (N / 2 ^ (e + 1))) a = some after
      ∧ Evaluates c p (2 ^ e) (2 * (N / 2 ^ (e + 1))) after ∧ ∀ i < N, |after i| < bound + Q := by
  obtain ⟨-, whole, pos, most⟩ := layer_sizes layer
  revert evaluates whole pos most
  generalize N / 2 ^ (e + 1) = blocks
  generalize 2 ^ e = len
  intro evaluates whole pos most
  rw [← whole] at bounded
  obtain ⟨after, ran, done⟩ := @layer_spec butterfly
    (fun s => zetas.getD (blocks + s) 0) len blocks a
    (fun s j left right => (|left| < bound + Q ∧ |right| < bound + Q)
      ∧ (left : ZMod Q) = c * residue p len (2 * blocks) (twiddle (blocks + s)) j
      ∧ (right : ZMod Q) = c * residue p len (2 * blocks) (-twiddle (blocks + s)) j) (by
    intro s block j inside
    have last : (s + 1) * (2 * len) ≤ blocks * (2 * len) := Nat.mul_le_mul_right _ block
    rw [Nat.succ_mul] at last
    obtain ⟨left, right, stepped, bounds, first, second⟩ := butterfly_spec
      (abs_zetas_lt (blocks + s)) (bounded (s * (2 * len) + j) (by omega))
      (bounded (s * (2 * len) + j + len) (by omega)) room
    have square := twiddle_sq (k := blocks + s) (by omega) (by omega)
    have low := evaluates s block j (by omega)
    have high := evaluates s block (len + j) (by omega)
    rw [← Nat.add_assoc, Nat.add_right_comm] at high
    refine ⟨left, right, stepped, bounds, ?_, ?_⟩
    · rw [first, low, high, ← residue_split square, twiddle]
      ring
    · rw [second, low, high, ← residue_split_neg square, twiddle]
      ring)
  refine ⟨after, ran, (evaluates_double_iff pos).mpr fun s block j inside =>
    (done s block j inside).2, ?_⟩
  rw [← whole]
  exact forall_index fun s block j inside => (done s block j inside).1

/-- A layer of `invntt_tomont` undoes one of `ntt`, up to a factor of two. -/
theorem inverseLayer_spec (layer : e < 8) {bound : ℤ}
    (evaluates : Evaluates c p (2 ^ e) (2 * (N / 2 ^ (e + 1))) a)
    (bounded : ∀ i < N, |a i| < bound) (above : Q ≤ bound) (room : 2 * bound ≤ 2 ^ 31)
    : ∃ after, pairLoop inverseButterfly (2 ^ e) (butterflies
          (fun s => -zetas.getD (N / 2 ^ e - 1 - s) 0) (2 ^ e) (N / 2 ^ (e + 1))) a = some after
      ∧ Evaluates (c * 2) p (2 * 2 ^ e) (N / 2 ^ (e + 1)) after
      ∧ ∀ i < N, |after i| < 2 * bound := by
  obtain ⟨-, whole, pos, most⟩ := layer_sizes layer
  have inverse := fun s block => twiddle_inverse (e := e) (s := s) layer block
  revert evaluates whole pos most inverse
  generalize N / 2 ^ (e + 1) = blocks
  generalize 2 ^ e = len
  intro evaluates whole pos most inverse
  rw [← whole] at bounded
  rw [evaluates_double_iff pos] at evaluates
  obtain ⟨after, ran, done⟩ := @layer_spec inverseButterfly
    (fun s => -zetas.getD (N / len - 1 - s) 0) len blocks a
    (fun s j left right => (|left| < 2 * bound ∧ |right| < 2 * bound)
      ∧ (left : ZMod Q) = c * 2 * residue p (2 * len) blocks (root (blocks + s)) j
      ∧ (right : ZMod Q) = c * 2 * residue p (2 * len) blocks (root (blocks + s)) (len + j)) (by
    intro s block j inside
    have last : (s + 1) * (2 * len) ≤ blocks * (2 * len) := Nat.mul_le_mul_right _ block
    rw [Nat.succ_mul] at last
    have small : |-zetas.getD (N / len - 1 - s) 0| < Q := by
      rw [abs_neg]
      exact abs_zetas_lt _
    obtain ⟨left, right, stepped, bounds, first, second⟩ := inverseButterfly_spec small
      (bounded (s * (2 * len) + j) (by omega)) (bounded (s * (2 * len) + j + len) (by omega))
      above room
    have square := twiddle_sq (k := blocks + s) (by omega) (by omega)
    obtain ⟨low, high⟩ := evaluates s block j inside
    rw [← residue_split square] at low
    rw [← residue_split_neg square] at high
    refine ⟨left, right, stepped, bounds, ?_, ?_⟩
    · rw [first, low, high]
      ring
    · rw [second, low, high]
      linear_combination (c * 2 * residue p (2 * len) blocks (root (blocks + s)) (len + j))
        * inverse s block)
  refine ⟨after, ran, fun s block j inside => ?_, ?_⟩
  · by_cases low : j < len
    · exact (done s block j low).2.1
    have high := (done s block (j - len) (by omega)).2.2
    rwa [Nat.add_assoc, Nat.sub_add_cancel (Nat.le_of_not_lt low),
      Nat.add_sub_cancel' (Nat.le_of_not_lt low)] at high
  · rw [← whole]
    exact forall_index fun s block j inside => (done s block j inside).1

theorem nttLayers_spec {bound} (layers : e ≤ 8) (evaluates : Evaluates c p (2 ^ e) (N / 2 ^ e) a)
    (bounded : ∀ i < N, |a i| < bound) (room : bound + e * Q ≤ 2 ^ 31)
    : ∃ after, nttLayers e a = some after ∧ Evaluates c p 1 N after
      ∧ ∀ i < N, |after i| < bound + e * Q := by
  induction e generalizing a bound with
  | zero => exact ⟨a, rfl, evaluates, by simpa using bounded⟩
  | succ e ih =>
    rw [Nat.cast_succ, add_mul, one_mul] at room
    have later : 0 ≤ (e : ℤ) * Q := by positivity
    have doubled : Evaluates c p (2 * 2 ^ e) (N / 2 ^ (e + 1)) a := by rwa [← pow_succ']
    obtain ⟨middle, ran, halved, grown⟩ := nttLayer_spec layers doubled bounded (by omega)
    rw [← (layer_sizes layers).1] at halved
    obtain ⟨after, rest, evaluated, final⟩ := ih (by omega) halved grown (by omega)
    refine ⟨after, ?_, evaluated, fun i inside => ?_⟩
    · rw [nttLayers, ran]
      exact rest
    · rw [Nat.cast_succ, add_mul, one_mul, add_comm _ (Q : ℤ), ← add_assoc]
      exact final i inside

theorem inverseLayers_spec (layers : e ≤ 8) (evaluates : Evaluates c p 1 N a)
    (bounded : ∀ i < N, |a i| < Q)
    : ∃ after, inverseLayers e a = some after ∧ Evaluates (c * 2 ^ e) p (2 ^ e) (N / 2 ^ e) after
      ∧ ∀ i < N, |after i| < 2 ^ e * Q := by
  induction e with
  | zero => exact ⟨a, rfl, by simpa using evaluates, by simpa using bounded⟩
  | succ e ih =>
    have least : (1 : ℤ) ≤ 2 ^ e := one_le_pow₀ (by decide)
    have most : (2 : ℤ) ^ e ≤ 2 ^ 7 := pow_le_pow_right₀ (by decide) (by omega)
    obtain ⟨middle, previous, evaluated, grown⟩ := ih (by omega)
    rw [(layer_sizes layers).1] at evaluated
    obtain ⟨after, ran, doubled, final⟩ :=
      inverseLayer_spec layers evaluated grown (by rw [Q_eq]; omega) (by rw [Q_eq]; omega)
    refine ⟨after, ?_, ?_, fun i inside => ?_⟩
    · rw [inverseLayers, previous]
      exact ran
    · rwa [mul_assoc, ← pow_succ, ← pow_succ'] at doubled
    · rw [pow_succ', mul_assoc]
      exact final i inside

theorem eachCoefficient_spec {f} {P : ℕ → ℤ → Prop} (each : ∀ i < N, ∃ t, f i = some t ∧ P i t)
    : ∃ after, eachCoefficient f = some after ∧ ∀ i < N, P i (after i) := by
  choose value defined holds using each
  have values : (List.range N).mapM f
      = some ((List.range N).pmap value fun i inside => mem_range.mp inside) := by
    generalize_proofs inside
    revert inside
    generalize List.range N = indices
    intro inside
    induction indices with
    | nil => rfl
    | cons i rest ih =>
      rw [mapM_cons, defined i (inside i mem_cons_self),
        ih fun j listed => inside j (.tail _ listed)]
      rfl
  refine ⟨_, by rw [eachCoefficient, values]; rfl, fun i inside => ?_⟩
  rw [getD_eq_getElem _ _ (by simpa using inside), getElem_pmap]
  simpa using holds i inside

/-- Products that are reduced one by one. -/
theorem eachProduct_spec {x y : ℕ → ℤ} {A B : ℤ} (first : ∀ i < N, |x i| < A)
    (second : ∀ i < N, |y i| < B) (room : A * B ≤ 2 ^ 31 * Q)
    : ∃ after,
        eachCoefficient (fun i => do montgomeryReduce (← checked 64 (x i * y i))) = some after
        ∧ ∀ i < N, |after i| < Q ∧ (after i : ZMod Q) = x i * y i * montInverse := by
  refine eachCoefficient_spec
    (P := fun i t => |t| < Q ∧ (t : ZMod Q) = x i * y i * montInverse) fun i inside => ?_
  have fits := (abs_product_lt (first i inside) (second i inside)).trans_le room
  obtain ⟨t, reduced, bound, value⟩ := montgomeryReduce_spec fits
  rw [cast_mul] at value
  rw [Q_eq, abs_lt] at fits
  exact ⟨t, by rw [checked_eq (by rw [Fits]; omega)]; exact reduced, bound, value⟩

/-- The blocks of length one belong to the roots of `x ^ N + 1`. -/
theorem root_pow {d s} (depth : d ≤ 8) (inside : s < 2 ^ d) : root (2 ^ d + s) ^ 2 ^ d = -1 := by
  induction d generalizing s with
  | zero =>
    obtain rfl : s = 0 := by simpa using inside
    rfl
  | succ d ih =>
    have small : 2 ^ d ≤ 2 ^ 7 := Nat.pow_le_pow_right (by decide) (by omega)
    have parent := ih (s := s / 2) (by omega) (by omega)
    rw [← twiddle_sq (by omega) (by rw [N]; omega), ← pow_mul, ← pow_succ'] at parent
    rcases Nat.mod_two_eq_zero_or_one s with even | odd
    · rwa [show 2 ^ (d + 1) + s = 2 * (2 ^ d + s / 2) by omega, root_left]
    rw [show 2 ^ (d + 1) + s = 2 * (2 ^ d + s / 2) + 1 by omega, root_right (by omega),
      neg_pow, Even.neg_one_pow ⟨2 ^ d, by rw [pow_succ, mul_two]⟩, one_mul]
    exact parent

/-- The coefficients of an array, as a polynomial modulo `Q`. -/
def modQ (a : Fin N → ℤ) (n : ℕ) : ZMod Q := a (Fin.ofNat N n)

theorem residue_modQ (a : Fin N → ℤ) (r : ZMod Q)
    : residue (modQ a) 1 N r 0 = ∑ k : Fin N, (a k : ZMod Q) * r ^ (k : ℕ) := by
  rw [residue, ← sum_univ_eq_sum_range (fun q => modQ a (q * 1 + 0) * r ^ q) N]
  refine Finset.sum_congr rfl fun k _ => ?_
  rw [modQ, Nat.mul_one, Nat.add_zero, ofNat_eq_cast, cast_val_eq_self]

theorem ntt_spec (a : Fin N → ℤ) (small : ∀ i, |a i| < Q)
    : ∃ after, ntt (fun n => a (Fin.ofNat N n)) = some after ∧ Evaluates 1 (modQ a) 1 N after
      ∧ ∀ i < N, |after i| < 9 * Q := by
  have start : Evaluates 1 (modQ a) (2 ^ 8) (N / 2 ^ 8) (fun n => a (Fin.ofNat N n)) := by
    intro s block j inside
    obtain rfl : s = 0 := Nat.lt_one_iff.mp block
    rw [residue, show N / 2 ^ 8 = 1 from rfl, Finset.sum_range_one, pow_zero, mul_one, one_mul]
    rfl
  obtain ⟨after, ran, evaluates, bounded⟩ := nttLayers_spec le_rfl start (fun i _ => small _)
    (by decide)
  exact ⟨after, ran, evaluates, fun i inside => (bounded i inside).trans_eq (by ring)⟩

/-- The transform, the pointwise product and the inverse transform multiply modulo `x ^ 256 + 1`,
without overflow.
-/
theorem nttProduct_negacyclic (a b : Fin N → ℤ) (small : ∀ i, |a i| < Q) (small' : ∀ i, |b i| < Q)
    : ∃ result,
        nttProduct (fun n => a (Fin.ofNat N n)) (fun n => b (Fin.ofNat N n)) = some result
        ∧ ∀ i : Fin N, |result i| < Q ∧ result i ≡ Negacyclic.mul a b i [ZMOD Q] := by
  obtain ⟨left, ranLeft, evaluatesLeft, boundedLeft⟩ := ntt_spec a small
  obtain ⟨right, ranRight, evaluatesRight, boundedRight⟩ := ntt_spec b small'
  obtain ⟨product, multiplied, products⟩ :=
    eachProduct_spec boundedLeft boundedRight (by rw [Q_eq]; decide)
  have evaluates : Evaluates montInverse (modQ (Negacyclic.mul a b)) 1 N product := by
    intro s inside j first
    obtain rfl : j = 0 := Nat.lt_one_iff.mp first
    have power : root (N + s) ^ N = -1 := root_pow (d := 8) le_rfl inside
    have first := evaluatesLeft s inside 0 (by decide)
    have second := evaluatesRight s inside 0 (by decide)
    rw [Nat.mul_one, Nat.add_zero, one_mul, residue_modQ] at first second
    rw [Nat.mul_one, Nat.add_zero, (products s inside).2, first, second, residue_modQ, mul_comm,
      ← Negacyclic.sum_mul_pow power]
    have cast (k : Fin N) : ((Negacyclic.mul a b k : ℤ) : ZMod Q)
        = Negacyclic.mul (fun i => (a i : ZMod Q)) (fun i => (b i : ZMod Q)) k :=
      Negacyclic.map_product (castRingHom (ZMod Q)) a b k
    simp only [cast]
  obtain ⟨last, ranLast, evaluated, bounded⟩ :=
    inverseLayers_spec le_rfl evaluates fun i inside => (products i inside).1
  obtain ⟨result, scaled, results⟩ := eachProduct_spec (x := fun _ => 41978) (A := 41979)
    (fun _ _ => by decide) bounded (by rw [Q_eq]; decide)
  refine ⟨result, ?_, fun i => ⟨(results i i.isLt).1, ?_⟩⟩
  · rw [nttProduct, ranLeft, ranRight, bind_eq_bind, bind_some, bind_some,
      pointwiseMontgomery, multiplied, bind_some, invnttTomont, ranLast]
    exact scaled
  · have value := evaluated 0 (by decide) i i.isLt
    rw [Nat.zero_mul, Nat.zero_add, residue, show N / 2 ^ 8 = 1 from rfl, Finset.sum_range_one,
      Nat.zero_mul, Nat.zero_add, pow_zero, mul_one, modQ, ofNat_eq_cast,
      cast_val_eq_self] at value
    have factor : (41978 : ZMod Q) * (montInverse * 2 ^ 8) * montInverse = 1 := by
      have whole : ((41978 * (8265825 * 2 ^ 8) * 8265825 : ℤ) : ZMod Q) = ((1 : ℤ) : ZMod Q) :=
        (ZMod.intCast_eq_intCast_iff _ _ _).mpr (by decide)
      push_cast at whole
      rw [montInverse]
      linear_combination whole
    refine (ZMod.intCast_eq_intCast_iff _ _ _).mp ?_
    rw [(results i i.isLt).2, value, cast_ofNat]
    linear_combination ((Negacyclic.mul a b i : ℤ) : ZMod Q) * factor

/-- The product of all ones and their negation. -/
theorem nttProduct_negacyclic_ones
    : ∃ result, nttProduct (fun _ => 1) (fun _ => -1) = some result
      ∧ ∀ i : Fin N, |result i| < Q
        ∧ result i ≡ Negacyclic.mul (fun _ => 1) (fun _ => -1) i [ZMOD Q] :=
  nttProduct_negacyclic (fun _ => 1) (fun _ => -1) (fun _ => by decide) (fun _ => by decide)

end Pqcoin.Dilithium
