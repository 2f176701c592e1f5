import Pqcoin.Consensus.Merkle
import Pqcoin.Lib.PairTree

/-! The constant-space Merkle computation against the tree that is built level by level: the bits of
the counter say which subtrees are complete, and the branch holds the siblings below the subtree
with the matching leaf.
-/

namespace Pqcoin

open PairTree

def computeMerkleBranch (H : Hashing) (leaves : List Uint256) (pos : BitVec 32)
    : List Uint256 :=
  (merkleComputation H leaves pos).2.2

def computeMerkleRootFromBranch (H : Hashing) (hash : Uint256)
    : List Uint256 → BitVec 32 → Uint256
  | [], _ => hash
  | other :: rest, nIndex =>
    computeMerkleRootFromBranch H
      (if nIndex &&& 1 ≠ 0 then merkleNode H other hash else merkleNode H hash other) rest
      (nIndex >>> 1)

section Tree

variable (H : Hashing) (leaves : List Uint256) (branchpos : BitVec 32)

/-- What the variables say after some leaves: the stored subtrees are nodes of the tree, and if the
position is one of a leaf, the match level is that of the subtree with it.
-/
structure MerkleState.Holds (s : MerkleState) : Prop where
  inner : ∀ k, s.count.toNat / 2 ^ k % 2 = 1
    → s.inner k = nodeAt (merkleNode H) leaves k (s.count.toNat / 2 ^ k - 1)
  matched : branchpos.toNat < leaves.length → ∀ k, s.count.toNat / 2 ^ k % 2 = 1
    → (s.matchlevel = some k ↔ branchpos.toNat / 2 ^ k = s.count.toNat / 2 ^ k - 1)
  stored : branchpos.toNat < leaves.length → ∀ k, s.matchlevel = some k
    → s.count.toNat / 2 ^ k % 2 = 1
  branch : branchpos.toNat < leaves.length
    → s.pbranch = s.matchlevel.elim [] (siblings (merkleNode H) leaves branchpos.toNat)

/-- A hash on its way up is the node behind the subtrees that are stored at its level and above;
`count` is the counter rounded up to it.
-/
structure MerkleClimb.Climbs (s : MerkleState) (count : BitVec 32) (climb : MerkleClimb)
    : Prop where
  count : count.toNat = (s.count.toNat / 2 ^ climb.level + 1) * 2 ^ climb.level
  inside : s.count.toNat / 2 ^ climb.level < width (merkleNode H) leaves climb.level
  h : climb.h = nodeAt (merkleNode H) leaves climb.level (s.count.toNat / 2 ^ climb.level)
  tall : ∀ k < climb.level, 1 < width (merkleNode H) leaves k
  matched : branchpos.toNat < leaves.length
    → (climb.matchh = true
      ↔ branchpos.toNat / 2 ^ climb.level = s.count.toNat / 2 ^ climb.level)
  branch : branchpos.toNat < leaves.length
    → climb.pbranch = if climb.matchh then
        siblings (merkleNode H) leaves branchpos.toNat climb.level else s.pbranch
  passed : branchpos.toNat < leaves.length → climb.matchh = false
    → ∀ k < climb.level, s.matchlevel ≠ some k

variable {H leaves branchpos} {s : MerkleState} {count : BitVec 32} {climb : MerkleClimb}

variable (holds : s.Holds H leaves branchpos)

include holds in
/-- One step up, at a level where the counter has a subtree. -/
theorem MerkleClimb.Climbs.step (climbs : climb.Climbs H leaves branchpos s count)
    (odd : s.count.toNat / 2 ^ climb.level % 2 = 1) (compares)
    : (climb.step H s.inner s.matchlevel compares).Climbs H leaves branchpos s count := by
  obtain ⟨rounded, inside, node, tall, matched, branch, passed⟩ := climbs
  have inner := holds.inner climb.level odd
  have found := fun leaf => holds.matched leaf climb.level odd
  have half := halve s.count.toNat climb.level
  have stored := holds.branch
  generalize s.count.toNat / 2 ^ climb.level = j
    at half rounded inside node matched inner odd found
  refine ⟨?_, ?_, ?_, ?_, fun leaf => ?_, fun leaf => ?_, fun leaf other => ?_⟩
  · dsimp only [MerkleClimb.step]
    rw [rounded, half, pow_succ, mul_comm (2 ^ climb.level), ← mul_assoc]
    congr 1
    omega
  · dsimp only [MerkleClimb.step]
    rw [half, width_succ]
    omega
  · dsimp only [MerkleClimb.step]
    rw [half, nodeAt_succ (by omega), inner, node]
    congr 2 <;> omega
  · intro k below
    rcases Nat.lt_succ_iff_lt_or_eq.mp below with lower | rfl
    · exact tall k lower
    · omega
  · dsimp only [MerkleClimb.step]
    rw [half, halve, Bool.or_eq_true, beq_iff_eq, matched leaf, found leaf]
    generalize branchpos.toNat / 2 ^ climb.level = i
    omega
  · dsimp only [MerkleClimb.step]
    rw [siblings_succ, sibling, branch leaf]
    by_cases own : climb.matchh = true
    · have pos := (matched leaf).mp own
      simp only [own, if_true, Bool.true_or, pos, odd, inner]
    by_cases here : s.matchlevel = some climb.level
    · have pos := (found leaf).mp here
      simp only [own, here, if_true, Bool.false_eq_true, if_false, Bool.false_or, beq_self_eq_true,
        stored leaf, Option.elim_some, pos, node]
      rw [if_neg (by omega)]
      congr 3
      omega
    · simp [own, here]
  · simp only [MerkleClimb.step, Bool.or_eq_false_iff, beq_eq_false_iff_ne] at other
    intro k below
    rcases Nat.lt_succ_iff_lt_or_eq.mp below with lower | rfl
    · exact passed leaf other.1 k lower
    · exact other.2

theorem MerkleClimb.Climbs.getLsbD_iff (climbs : climb.Climbs H leaves branchpos s count)
    : count.getLsbD climb.level = true ↔ s.count.toNat / 2 ^ climb.level % 2 = 0 := by
  rw [BitVec.getLsbD, Nat.testBit_eq_decide_div_mod_eq, decide_eq_true_eq, climbs.count,
    Nat.mul_div_cancel _ (Nat.two_pow_pos _)]
  generalize s.count.toNat / 2 ^ climb.level = j
  omega

include holds in
/-- The loop ends at the lowest bit of the counter, by induction on the remaining levels. -/
theorem MerkleClimb.Climbs.run {compares} {fuel}
    (climbs : climb.Climbs H leaves branchpos s count) (enough : 32 ≤ climb.level + fuel)
    : (run H s.inner s.matchlevel compares count fuel climb).Climbs H leaves branchpos s count
      ∧ s.count.toNat / 2 ^ (run H s.inner s.matchlevel compares count fuel climb).level % 2 = 0
      ∧ climb.level ≤ (run H s.inner s.matchlevel compares count fuel climb).level := by
  induction fuel generalizing climb with
  | zero =>
    have high : 2 ^ 32 ≤ 2 ^ climb.level := Nat.pow_le_pow_right (by decide) enough
    have least : 2 ^ climb.level ≤ count.toNat := by
      rw [climbs.count]
      exact Nat.le_mul_of_pos_left _ (Nat.succ_pos _)
    exact absurd count.isLt (by omega)
  | succ fuel ih =>
    rw [MerkleClimb.run]
    split
    · rename_i bit
      exact ⟨climbs, climbs.getLsbD_iff.mp bit, le_rfl⟩
    rename_i bit
    rw [climbs.getLsbD_iff, Nat.mod_two_not_eq_zero] at bit
    obtain ⟨above, even, higher⟩ := ih (climbs.step holds bit compares)
      (by simp only [MerkleClimb.step]; omega)
    exact ⟨above, even, Nat.le_of_succ_le higher⟩

/-- The quotients of the next counter: above the lowest bit they stay. -/
theorem div_succ {n low} (rounded : n + 1 = (n / 2 ^ low + 1) * 2 ^ low)
    (even : n / 2 ^ low % 2 = 0) (k)
    : (k < low → (n + 1) / 2 ^ k % 2 = 0) ∧ (n + 1) / 2 ^ low = n / 2 ^ low + 1
      ∧ (low < k → (n + 1) / 2 ^ k = n / 2 ^ k) := by
  have here : (n + 1) / 2 ^ low = n / 2 ^ low + 1 := by
    rw [rounded, Nat.mul_div_cancel _ (Nat.two_pow_pos _)]
  refine ⟨fun below => ?_, here, fun above => ?_⟩
  · obtain ⟨d, rfl⟩ := Nat.exists_eq_add_of_lt below
    rw [rounded, show k + d + 1 = d + 1 + k by omega, pow_add, ← mul_assoc,
      Nat.mul_div_cancel _ (Nat.two_pow_pos _), pow_succ, ← mul_assoc, Nat.mul_mod_left]
  · obtain ⟨d, rfl⟩ := Nat.exists_eq_add_of_lt above
    rw [show low + d + 1 = low + 1 + d by omega, pow_add, ← Nat.div_div_eq_div_mul,
      ← Nat.div_div_eq_div_mul, halve, halve, here]
    congr 1
    omega

include holds in
theorem MerkleState.Holds.push (few : leaves.length < 2 ^ 31) (more : s.count.toNat < leaves.length)
    : (s.push H branchpos (nodeAt (merkleNode H) leaves 0 s.count.toNat)).Holds H leaves branchpos
      ∧ (s.push H branchpos (nodeAt (merkleNode H) leaves 0 s.count.toNat)).count.toNat
        = s.count.toNat + 1 := by
  have next : (s.count + 1).toNat = s.count.toNat + 1 := by
    rw [BitVec.toNat_add, Nat.mod_eq_of_lt (by simp; omega)]
    rfl
  have start : MerkleClimb.Climbs H leaves branchpos s (s.count + 1)
      ⟨0, nodeAt (merkleNode H) leaves 0 s.count.toNat, s.count == branchpos, s.mutated,
        s.pbranch⟩ := by
    refine ⟨?_, by simpa [width, level] using more, by simp, fun _ below => absurd below (by simp),
      fun _ => ?_, fun leaf => ?_, fun _ _ _ below => absurd below (by simp)⟩
    · dsimp only
      rw [next, pow_zero, Nat.div_one, mul_one]
    · dsimp only
      rw [beq_iff_eq, pow_zero, Nat.div_one, Nat.div_one, BitVec.toNat_inj]
      exact eq_comm
    · dsimp only
      split
      · rename_i own
        obtain rfl := eq_of_beq own
        rw [holds.branch leaf]
        cases level : s.matchlevel with
        | none => rfl
        | some k =>
          have odd := holds.stored leaf k level
          have before := (holds.matched leaf k odd).mp level
          generalize s.count.toNat / 2 ^ k = j at odd before
          omega
      · rfl
  obtain ⟨climbs, even, -⟩ := @start.run _ _ _ _ _ _ holds true 32 (by simp)
  simp only [MerkleState.push]
  refine ⟨?_, next⟩
  generalize MerkleClimb.run H s.inner s.matchlevel true (s.count + 1) 32 _ = climb at climbs even ⊢
  have rounded := climbs.count
  rw [next] at rounded
  have quotients := div_succ rounded even
  -- a bit of the next counter is the lowest one, or one that was set before
  have bits (k) (odd : (s.count.toNat + 1) / 2 ^ k % 2 = 1)
      : k = climb.level ∨ climb.level < k := by
    rcases Nat.lt_trichotomy k climb.level with below | same | above
    · rw [(quotients k).1 below] at odd
      cases odd
    · exact .inl same
    · exact .inr above
  refine ⟨fun k odd => ?_, fun leaf k odd => ?_, fun leaf k found => ?_, fun leaf => ?_⟩
  · rw [next] at odd ⊢
    rcases bits k odd with rfl | above
    · dsimp only
      rw [Function.update_self, climbs.h, (quotients 0).2.1, Nat.add_sub_cancel]
    rw [(quotients k).2.2 above] at odd ⊢
    dsimp only
    rw [Function.update_of_ne above.ne']
    exact holds.inner k odd
  · rw [next] at odd ⊢
    have own := climbs.matched leaf
    rcases bits k odd with rfl | above
    · rw [(quotients 0).2.1, Nat.add_sub_cancel, ← own]
      split
      · simp_all
      rename_i other
      refine ⟨fun level => ?_, fun same => absurd same other⟩
      rw [holds.stored leaf _ level] at even
      cases even
    · rw [(quotients k).2.2 above] at odd ⊢
      split
      · rename_i same
        refine ⟨fun level => absurd (Option.some.inj level) above.ne, fun before => ?_⟩
        obtain ⟨d, rfl⟩ := Nat.exists_eq_add_of_lt above
        rw [show climb.level + d + 1 = climb.level + (d + 1) by omega, pow_add,
          ← Nat.div_div_eq_div_mul, ← Nat.div_div_eq_div_mul, own.mp same] at before
        rw [show climb.level + d + 1 = climb.level + (d + 1) by omega, pow_add,
          ← Nat.div_div_eq_div_mul] at odd
        generalize s.count.toNat / 2 ^ climb.level / 2 ^ (d + 1) = j at odd before
        omega
      · exact holds.matched leaf k odd
  · rw [next]
    dsimp only at found
    split at found
    · cases found
      rw [(quotients 0).2.1]
      generalize s.count.toNat / 2 ^ climb.level = j at even
      omega
    · rename_i other
      have odd := holds.stored leaf k found
      rcases Nat.lt_trichotomy k climb.level with below | rfl | above
      · exact absurd found (climbs.passed leaf (by simpa using other) k below)
      · rw [odd] at even
        cases even
      · rwa [(quotients k).2.2 above]
  · dsimp only
    rw [climbs.branch leaf]
    split
    · rfl
    · exact holds.branch leaf

theorem holds_foldl (few : leaves.length < 2 ^ 31) {done rest}
    (whole : leaves = done ++ rest) (holds : s.Holds H leaves branchpos)
    (count : s.count.toNat = done.length)
    : (rest.foldl (MerkleState.push H branchpos) s).Holds H leaves branchpos
      ∧ (rest.foldl (MerkleState.push H branchpos) s).count.toNat = leaves.length := by
  induction rest generalizing done s with
  | nil => exact ⟨holds, by rw [List.foldl_nil, count, whole, List.append_nil]⟩
  | cons leaf rest ih =>
    have first : nodeAt (merkleNode H) leaves 0 s.count.toNat = leaf := by
      simp [nodeAt, level, whole, count]
    obtain ⟨pushed, next⟩ := holds.push few (by rw [whole, count]; simp)
    rw [first] at pushed next
    exact @ih _ (done ++ [leaf]) (by simp [whole]) pushed (by simp [next, count])

-- The sweep

variable (H leaves branchpos) in
/-- The hash of the sweep is the last node of its level, and `count` is the number of leaves that
its level has room for.
-/
structure MerkleClimb.Sweeps (s : MerkleState) (count : BitVec 32) (climb : MerkleClimb)
    : Prop where
  count : count.toNat = width (merkleNode H) leaves climb.level * 2 ^ climb.level
  odd : width (merkleNode H) leaves climb.level % 2 = 1
  h : climb.h
    = nodeAt (merkleNode H) leaves climb.level (width (merkleNode H) leaves climb.level - 1)
  tall : ∀ k < climb.level, 1 < width (merkleNode H) leaves k
  matched : branchpos.toNat < leaves.length
    → (climb.matchh = true ↔ branchpos.toNat / 2 ^ climb.level
      = width (merkleNode H) leaves climb.level - 1)
  branch : branchpos.toNat < leaves.length
    → climb.pbranch = if climb.matchh then
        siblings (merkleNode H) leaves branchpos.toNat climb.level else s.pbranch
  passed : branchpos.toNat < leaves.length → climb.matchh = false
    → ∀ k ≤ climb.level, s.matchlevel ≠ some k

include holds in
theorem MerkleClimb.Climbs.sweeps (whole : s.count.toNat = leaves.length)
    (climbs : climb.Climbs H leaves branchpos s count)
    (even : s.count.toNat / 2 ^ climb.level % 2 = 0)
    : climb.Sweeps H leaves branchpos s count := by
  have bounds := @width_bounds _ (merkleNode H) leaves climb.level
  have inside := climbs.inside
  have last : width (merkleNode H) leaves climb.level = s.count.toNat / 2 ^ climb.level + 1 := by
    rw [whole] at inside ⊢
    exact le_antisymm bounds.2 inside
  refine ⟨by rw [last, climbs.count], by rw [last]; omega, by rw [last, climbs.h]; rfl, climbs.tall,
    by rw [last]; exact climbs.matched, climbs.branch, fun leaf other k below found => ?_⟩
  rcases Nat.lt_or_eq_of_le below with lower | rfl
  · exact climbs.passed leaf other k lower found
  rw [holds.stored leaf _ found] at even
  cases even

theorem MerkleClimb.Sweeps.bit (sweeps : climb.Sweeps H leaves branchpos s count)
    : 2 ^ climb.level < 2 ^ 32 ∧ (1#32 <<< climb.level).toNat = 2 ^ climb.level := by
  have some : width (merkleNode H) leaves climb.level ≠ 0 := by
    have odd := sweeps.odd
    omega
  have low : 2 ^ climb.level < 2 ^ 32 := by
    refine lt_of_le_of_lt ?_ count.isLt
    rw [sweeps.count]
    exact Nat.le_mul_of_pos_left _ (Nat.pos_of_ne_zero some)
  refine ⟨low, ?_⟩
  rw [BitVec.toNat_shiftLeft, BitVec.toNat_ofNat, Nat.one_mod, Nat.one_shiftLeft,
    Nat.mod_eq_of_lt low]

/-- A node without a sibling is paired with itself. -/
theorem MerkleClimb.Sweeps.double (whole : s.count.toNat = leaves.length)
    (few : leaves.length < 2 ^ 31) (sweeps : climb.Sweeps H leaves branchpos s count)
    (lower : width (merkleNode H) leaves climb.level ≠ 1)
    : MerkleClimb.Climbs H leaves branchpos s (count + 1#32 <<< climb.level)
        { climb with
          level := climb.level + 1
          h := merkleNode H climb.h climb.h
          pbranch := if climb.matchh then climb.pbranch ++ [climb.h] else climb.pbranch } := by
  obtain ⟨-, bit⟩ := sweeps.bit
  obtain ⟨rounded, odd, node, tall, matched, branch, passed⟩ := sweeps
  have bounds := @width_bounds _ (merkleNode H) leaves climb.level
  have least : leaves.length / 2 ^ climb.level * 2 ^ climb.level ≤ leaves.length :=
    Nat.div_mul_le_self _ _
  have half := halve s.count.toNat climb.level
  have next := @width_succ _ (merkleNode H) leaves climb.level
  rw [whole] at half
  have below := fun leaf => @div_lt_width _ (merkleNode H) leaves climb.level branchpos.toNat leaf
  have pos := halve branchpos.toNat climb.level
  generalize leaves.length / 2 ^ climb.level = n at bounds least half
  generalize place : branchpos.toNat / 2 ^ climb.level = i at pos below matched
  have two : 2 * 2 ^ climb.level ≤ n * 2 ^ climb.level := Nat.mul_le_mul_right _ (by omega)
  have most : width (merkleNode H) leaves climb.level * 2 ^ climb.level
      ≤ (n + 1) * 2 ^ climb.level := Nat.mul_le_mul_right _ bounds.2
  have sum : (count + 1#32 <<< climb.level).toNat
      = (width (merkleNode H) leaves climb.level + 1) * 2 ^ climb.level := by
    rw [add_mul, one_mul] at most ⊢
    rw [BitVec.toNat_add, bit, rounded, Nat.mod_eq_of_lt (by omega)]
  refine ⟨?_, ?_, ?_, fun k inside => ?_, fun leaf => ?_, fun leaf => ?_,
    fun leaf other k inside => ?_⟩
  · dsimp only
    rw [sum, whole, half, pow_succ, mul_comm (2 ^ climb.level), ← mul_assoc]
    congr 1
    omega
  · dsimp only
    rw [whole, half, next]
    omega
  · dsimp only
    rw [whole, half, nodeAt_succ (by omega), node]
    congr 2 <;> omega
  · rcases Nat.lt_succ_iff_lt_or_eq.mp inside with lower | rfl
    · exact tall k lower
    · omega
  · have inside := below leaf
    dsimp only
    rw [whole, half, pos, matched leaf]
    omega
  · dsimp only
    rw [branch leaf, siblings_succ, sibling, place]
    by_cases own : climb.matchh = true
    · have last := (matched leaf).mp own
      simp only [own, if_true, node]
      rw [if_neg (by omega)]
      congr 3
      omega
    · simp only [own, Bool.false_eq_true, if_false]
  · exact passed leaf other k (Nat.lt_succ_iff.mp inside)

include holds in
/-- The sweep ends at the only node of a level, by induction on the remaining levels. -/
theorem MerkleClimb.Sweeps.sweep (whole : s.count.toNat = leaves.length)
    (few : leaves.length < 2 ^ 31) {fuel}
    (sweeps : climb.Sweeps H leaves branchpos s count) (enough : 32 ≤ climb.level + fuel)
    : ∃ last, (s.sweep H fuel count climb).Sweeps H leaves branchpos s last
      ∧ width (merkleNode H) leaves (s.sweep H fuel count climb).level = 1 := by
  induction fuel generalizing count climb with
  | zero =>
    have high : 2 ^ 32 ≤ 2 ^ climb.level := Nat.pow_le_pow_right (by decide) enough
    exact absurd sweeps.bit.1 (by omega)
  | succ fuel ih =>
    have top : count = 1#32 <<< climb.level
        ↔ width (merkleNode H) leaves climb.level = 1 := by
      rw [← BitVec.toNat_inj, sweeps.bit.2, sweeps.count]
      exact Nat.mul_eq_right (Nat.two_pow_pos _).ne'
    rw [MerkleState.sweep]
    split
    · rename_i same
      exact ⟨count, sweeps, top.mp same⟩
    rename_i lower
    have doubled := sweeps.double whole few (mt top.mpr lower)
    obtain ⟨climbs, even, higher⟩ := @doubled.run _ _ _ _ _ _ holds false 32 (by omega)
    exact ih (climbs.sweeps holds whole even) (by simp only at higher; omega)

/-- The sweep starts at the lowest subtree that is stored, by induction on the remaining levels. -/
theorem lowestLevel_spec (some : leaves ≠ []) {count}
    (whole : count.toNat = leaves.length) {fuel level} (enough : 32 ≤ level + fuel)
    (width_eq : leaves.length = width (merkleNode H) leaves level * 2 ^ level)
    (tall : ∀ k < level, 1 < width (merkleNode H) leaves k ∧ count.toNat / 2 ^ k % 2 = 0)
    : leaves.length = width (merkleNode H) leaves (lowestLevel count fuel level)
        * 2 ^ lowestLevel count fuel level
      ∧ width (merkleNode H) leaves (lowestLevel count fuel level) % 2 = 1
      ∧ ∀ k < lowestLevel count fuel level,
        1 < width (merkleNode H) leaves k ∧ count.toNat / 2 ^ k % 2 = 0 := by
  have quot : count.toNat / 2 ^ level = width (merkleNode H) leaves level := by
    rw [whole, width_eq, Nat.mul_div_cancel _ (Nat.two_pow_pos _)]
  have pos : 0 < width (merkleNode H) leaves level := by
    refine Nat.pos_of_ne_zero fun empty => some (List.eq_nil_of_length_eq_zero ?_)
    rw [width_eq, empty, Nat.zero_mul]
  induction fuel generalizing level with
  | zero =>
    have high : 2 ^ 32 ≤ 2 ^ level := Nat.pow_le_pow_right (by decide) enough
    rw [← quot, Nat.div_eq_of_lt (by omega)] at pos
    cases pos
  | succ fuel ih =>
    rw [lowestLevel]
    split
    · rename_i bit
      rw [BitVec.getLsbD, Nat.testBit_eq_decide_div_mod_eq, decide_eq_true_eq, quot] at bit
      exact ⟨width_eq, bit, tall⟩
    rename_i bit
    rw [BitVec.getLsbD, Nat.testBit_eq_decide_div_mod_eq, decide_eq_true_eq, quot,
      Nat.mod_two_not_eq_one] at bit
    have next := @width_succ _ (merkleNode H) leaves level
    have half : 2 * width (merkleNode H) leaves (level + 1)
        = width (merkleNode H) leaves level := by omega
    refine ih (by omega) ?_ (fun k below => ?_) ?_ (by omega)
    · rw [pow_succ, mul_comm (2 ^ level), ← mul_assoc, mul_comm _ 2, half, width_eq]
    · rcases Nat.lt_succ_iff_lt_or_eq.mp below with lower | rfl
      · exact tall k lower
      · exact ⟨by omega, by rw [quot, bit]⟩
    · rw [halve, quot]
      omega

/-- The last hash is the root, and the branch of a position holds the siblings up to it. -/
theorem merkleComputation_spec (some : leaves ≠ []) (few : leaves.length < 2 ^ 31)
    : (merkleComputation H leaves branchpos).1 = root (merkleNode H) leaves
      ∧ (branchpos.toNat < leaves.length
        → PairTree.climb (merkleNode H) branchpos.toNat (leaves.getD branchpos.toNat default)
            (merkleComputation H leaves branchpos).2.2
          = root (merkleNode H) leaves) := by
  have start : MerkleState.Holds H leaves branchpos ⟨0, fun _ => 0, none, false, []⟩ := by
    refine ⟨fun k odd => ?_, fun _ k odd => ?_, fun _ k found => (nomatch found), fun _ => rfl⟩ <;>
      simp at odd
  obtain ⟨holds, whole⟩ := holds_foldl few (List.nil_append leaves).symm start rfl
  rw [merkleComputation, if_neg (by simpa using some)]
  generalize leaves.foldl (MerkleState.push H branchpos) _ = s at holds whole ⊢
  obtain ⟨width_eq, odd, tall⟩ := @lowestLevel_spec H leaves some s.count whole 32 0 le_rfl
    (by simp [width, level]) (fun _ below => absurd below (by simp))
  dsimp only
  generalize lowestLevel s.count 32 0 = low at width_eq odd tall ⊢
  have quot : s.count.toNat / 2 ^ low = width (merkleNode H) leaves low := by
    rw [whole, width_eq, Nat.mul_div_cancel _ (Nat.two_pow_pos _)]
  have bit : s.count.toNat / 2 ^ low % 2 = 1 := by rw [quot, odd]
  have first : MerkleClimb.Sweeps H leaves branchpos s s.count
      ⟨low, s.inner low, s.matchlevel == .some low, s.mutated, s.pbranch⟩ := by
    refine ⟨by rw [whole, ← width_eq], odd, by rw [holds.inner low bit, quot],
      fun k below => (tall k below).1, fun leaf => ?_, fun leaf => ?_,
      fun leaf other k below found => ?_⟩
    · rw [beq_iff_eq, holds.matched leaf low bit, quot]
    · dsimp only
      split
      · rename_i same
        rw [holds.branch leaf, eq_of_beq same, Option.elim_some]
      · rfl
    · have set := holds.stored leaf k found
      rcases Nat.lt_or_eq_of_le below with lower | rfl
      · rw [(tall k lower).2] at set
        cases set
      · exact absurd found (by simpa using other)
  obtain ⟨last, swept, top⟩ := @first.sweep _ _ _ _ _ _ holds whole few 32 (by omega)
  generalize s.sweep H 32 s.count _ = climb at swept top ⊢
  have up := root_eq_nodeAt swept.tall top
  have node := swept.h
  rw [top] at node
  refine ⟨by rw [node, up], fun leaf => ?_⟩
  have below := @div_lt_width _ (merkleNode H) leaves climb.level branchpos.toNat leaf
  have zero : branchpos.toNat / 2 ^ climb.level = 0 := Nat.lt_one_iff.mp (by rwa [top] at below)
  have own : climb.matchh = true := by rw [swept.matched leaf, zero, top]
  rw [swept.branch leaf, if_pos own, up, ← zero]
  exact climb_siblings leaf climb.level

end Tree

-- The ways back to the root

theorem and_one_ne_zero (nIndex : BitVec 32) : nIndex &&& 1 ≠ 0 ↔ nIndex.toNat % 2 = 1 := by
  rw [Ne, ← BitVec.toNat_inj, BitVec.toNat_and]
  have one : (1 : BitVec 32).toNat = 1 := rfl
  have zero : (0 : BitVec 32).toNat = 0 := rfl
  rw [one, zero, Nat.and_one_is_mod, Nat.mod_two_not_eq_zero]

theorem computeMerkleRootFromBranch_eq_climb (H : Hashing) (hash) (vMerkleBranch nIndex)
    : computeMerkleRootFromBranch H hash vMerkleBranch nIndex
      = climb (merkleNode H) nIndex.toNat hash vMerkleBranch := by
  induction vMerkleBranch generalizing hash nIndex with
  | nil => rfl
  | cons other rest ih =>
    rw [computeMerkleRootFromBranch, ih, climb]
    simp only [and_one_ne_zero, BitVec.toNat_ushiftRight, Nat.shiftRight_one]

/-- The signed shift is the unsigned one for an index that is not negative. -/
theorem merkleBranchLoop_eq_climb (H : Hashing) {nIndex}
    (small : nIndex.toNat < 2 ^ 31) (hash vMerkleBranch)
    : AuxPow.merkleBranchLoop H hash vMerkleBranch nIndex
      = climb (merkleNode H) nIndex.toNat hash vMerkleBranch := by
  induction vMerkleBranch generalizing hash nIndex with
  | nil => rfl
  | cons other rest ih =>
    have pos : nIndex.msb = false := by
      rw [BitVec.msb_eq_false_iff_two_mul_lt]
      omega
    have half : (nIndex.sshiftRight 1).toNat = nIndex.toNat / 2 := by
      rw [BitVec.toNat_sshiftRight_of_msb_false pos, Nat.shiftRight_one]
    rw [AuxPow.merkleBranchLoop, ih (by omega), climb, half]
    simp only [and_one_ne_zero, merkleNode]
    split <;> rfl

/-- `ComputeMerkleRoot` is the root of the tree that is built level by level, and every branch of
`ComputeMerkleBranch` leads back to it.
-/
theorem merkle_root_and_branches (H : Hashing) (leaves : List Uint256) (some : leaves ≠ [])
    (few : leaves.length < 2 ^ 31)
    : (computeMerkleRoot H leaves).1 = root (merkleNode H) leaves
      ∧ ∀ pos : BitVec 32, pos.toNat < leaves.length →
        computeMerkleRootFromBranch H (leaves.getD pos.toNat default)
            (computeMerkleBranch H leaves pos) pos
          = root (merkleNode H) leaves
        ∧ AuxPow.checkMerkleBranch H (leaves.getD pos.toNat default)
            (computeMerkleBranch H leaves pos) pos
          = root (merkleNode H) leaves := by
  refine ⟨(merkleComputation_spec some few).1, fun pos inside => ?_⟩
  have back := (@merkleComputation_spec H _ pos some few).2 inside
  have idx : pos ≠ -1 := by
    rintro rfl
    exact absurd (inside.trans few) (by decide)
  rw [AuxPow.checkMerkleBranch, if_neg idx, computeMerkleRootFromBranch_eq_climb,
    merkleBranchLoop_eq_climb H (inside.trans few)]
  exact ⟨back, back⟩

def weighted : Hashing :=
  ⟨fun bytes => BitVec.ofNat 256 (bytes.foldl (fun n b => 3 * n + b.toNat) 0), fun _ => 0⟩

/-- Of three leaves the last one is taken twice. -/
theorem merkle_root_and_branches_three
    : (computeMerkleRoot weighted [1, 2, 3]).1
        = merkleNode weighted (merkleNode weighted 1 2) (merkleNode weighted 3 3)
      ∧ computeMerkleRootFromBranch weighted 3 (computeMerkleBranch weighted [1, 2, 3] 2) 2
        = merkleNode weighted (merkleNode weighted 1 2) (merkleNode weighted 3 3) := by
  have tree : root (merkleNode weighted) [1, 2, 3]
      = merkleNode weighted (merkleNode weighted 1 2) (merkleNode weighted 3 3) := by
    simp only [root, pairUp]
  rw [← tree]
  have all := merkle_root_and_branches weighted [1, 2, 3] (by decide) (by decide)
  exact ⟨all.1, (all.2 2 (by decide)).1⟩

end Pqcoin
