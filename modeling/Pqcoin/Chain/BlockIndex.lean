import Mathlib.Data.List.Sort
import Pqcoin.Primitives.Block

/-! Entries of the block index and the walks along their `pprev` and `pskip` links. -/

namespace Pqcoin

open BaseUint
open BaseUint (ofUint64 setCompact)

/-- `CBlockIndex`: the part that is fixed when the entry is made. Its `pprev` links spell out
the path to a root; the flags and counters that change later belong to the node.
-/
inductive BlockIndex where
  | root (hash : Uint256) (header : PureBlockHeader)
  | child (pprev : BlockIndex) (hash : Uint256) (header : PureBlockHeader)
  deriving DecidableEq

namespace BlockIndex

def hash : BlockIndex → Uint256
  | root hash _ => hash
  | child _ hash _ => hash

def header : BlockIndex → PureBlockHeader
  | root _ header => header
  | child _ _ header => header

def pprev : BlockIndex → Option BlockIndex
  | root _ _ => none
  | child pprev _ _ => some pprev

def nHeight : BlockIndex → Nat
  | root _ _ => 0
  | child pprev _ _ => pprev.nHeight + 1

def nBits (idx : BlockIndex) : BitVec 32 := idx.header.nBits

def getBlockTime (idx : BlockIndex) : Int := idx.header.getBlockTime

def path : BlockIndex → List BlockIndex
  | root hash header => [root hash header]
  | child pprev hash header => path pprev ++ [child pprev hash header]

-- Ancestors

def ancestor (height : Nat) : BlockIndex → Option BlockIndex
  | root hash header => if height = 0 then some (root hash header) else none
  | child pprev hash header =>
    if height = pprev.nHeight + 1 then some (child pprev hash header)
    else ancestor height pprev

def invertLowestOne (n : Nat) : Nat := n &&& (n - 1)

def getSkipHeight (height : Nat) : Nat :=
  if height < 2 then 0
  else if height &&& 1 ≠ 0 then invertLowestOne (invertLowestOne (height - 1)) + 1
  else invertLowestOne height

/-- Whether `GetAncestor` follows `pskip` rather than `pprev`. -/
def FollowsSkip (heightWalk height : Nat) : Prop :=
  let heightSkip := getSkipHeight heightWalk
  let heightSkipPrev := getSkipHeight (heightWalk - 1)
  heightSkip = height
  ∨ (height < heightSkip ∧ ¬ (heightSkipPrev + 2 < heightSkip ∧ height ≤ heightSkipPrev))

instance (heightWalk height : Nat) : Decidable (FollowsSkip heightWalk height) :=
  inferInstanceAs (Decidable (_ ∨ _))

/-- `GetAncestor`. The `pskip` of an entry is what `BuildSkip` stored in it: the ancestor of
its `pprev` at the skip height.
-/
def getAncestor (height : Nat) : BlockIndex → Option BlockIndex
  | root hash header => if height = 0 then some (root hash header) else none
  | child pprev hash header =>
    if height > pprev.nHeight + 1 then none
    else if height = pprev.nHeight + 1 then some (child pprev hash header)
    else
      match getAncestor (getSkipHeight (pprev.nHeight + 1)) pprev with
      | none => getAncestor height pprev
      | some pskip =>
        -- an ancestor of pprev is never above it; the second test is for termination
        if FollowsSkip (pprev.nHeight + 1) height ∧ pskip.nHeight ≤ pprev.nHeight then
          getAncestor height pskip
        else getAncestor height pprev
termination_by idx => idx.nHeight
decreasing_by all_goals (simp only [nHeight]; omega)

theorem ancestor_eq_none {height idx} (above : idx.nHeight < height)
    : ancestor height idx = none := by
  induction idx with
  | root hash header => exact if_neg (Nat.ne_of_gt above)
  | child pprev hash header ih =>
    rw [nHeight] at above
    rw [ancestor, if_neg (by omega), ih (by omega)]

theorem ancestor_eq_some {height idx} (within : height ≤ idx.nHeight)
    : ∃ found, ancestor height idx = some found ∧ found.nHeight = height := by
  induction idx with
  | root hash header =>
    rw [nHeight] at within
    exact ⟨root hash header, if_pos (by omega), by rw [nHeight]; omega⟩
  | child pprev hash header ih =>
    by_cases own : height = pprev.nHeight + 1
    · exact ⟨child pprev hash header, if_pos own, own.symm⟩
    rw [nHeight] at within
    obtain ⟨found, reached, level⟩ := ih (by omega)
    exact ⟨found, by rw [ancestor, if_neg own, reached], level⟩

theorem nHeight_of_ancestor {height idx found} (reached : ancestor height idx = some found)
    : found.nHeight = height := by
  by_cases within : height ≤ idx.nHeight
  · obtain ⟨other, same, level⟩ := ancestor_eq_some within
    rw [reached] at same
    cases same
    exact level
  · rw [ancestor_eq_none (by omega)] at reached
    cases reached

theorem ancestor_self (idx) : ancestor idx.nHeight idx = some idx := by
  cases idx with
  | root hash header => rfl
  | child pprev hash header => exact if_pos rfl

theorem ancestor_ancestor {low high idx middle} (ordered : low ≤ high)
    (reached : ancestor high idx = some middle)
    : ancestor low middle = ancestor low idx := by
  induction idx with
  | root hash header =>
    rw [ancestor] at reached
    split at reached
    · cases reached
      rfl
    · cases reached
  | child pprev hash header ih =>
    rw [ancestor] at reached
    split at reached
    · cases reached
      rfl
    rename_i below
    have inside : high ≤ pprev.nHeight := by
      by_contra outside
      rw [ancestor_eq_none (by omega)] at reached
      cases reached
    rw [ih reached, ancestor, if_neg (by omega)]

/-- Following `pskip` leads where following `pprev` does, by induction on the walk. -/
theorem getAncestor_eq (height idx) : getAncestor height idx = ancestor height idx := by
  fun_induction getAncestor height idx with
  | case1 hash header => rfl
  | case2 height hash header above => exact (if_neg above).symm
  | case3 height pprev hash header above => exact (ancestor_eq_none above).symm
  | case4 pprev hash header own => exact (if_pos rfl).symm
  | case5 height pprev hash header within below missing _ ih
  | case7 height pprev hash header within below pskip found stays _ ih =>
    rw [ih, ancestor, if_neg below]
  | case6 height pprev hash header within below pskip found follows skipped ih =>
    have ordered : height ≤ getSkipHeight (pprev.nHeight + 1) := by
      rcases follows.1 with reached | further
      · exact Nat.le_of_eq reached.symm
      · exact Nat.le_of_lt further.1
    rw [ih, ancestor, if_neg below, ancestor_ancestor ordered (skipped.symm.trans found)]

-- Paths

theorem mem_path_self (idx : BlockIndex) : idx ∈ idx.path := by
  cases idx <;> simp [path]

theorem mem_path_child {idx pprev hash header}
    : idx ∈ (child pprev hash header).path
      ↔ idx ∈ pprev.path ∨ idx = child pprev hash header := by
  simp [path]

theorem mem_path_of_ne {idx pprev hash header} (below : idx ∈ (child pprev hash header).path)
    (higher : child pprev hash header ≠ idx)
    : idx ∈ pprev.path :=
  (mem_path_child.mp below).resolve_right higher.symm

theorem mem_path_of_pprev {idx pprev : BlockIndex} (below : idx.pprev = some pprev)
    : pprev ∈ idx.path := by
  cases idx with
  | root hash header => cases below
  | child own hash header =>
    cases below
    exact mem_path_child.mpr (.inl (mem_path_self _))

/-- No entry is its own predecessor. -/
theorem ne_of_pprev {idx pprev : BlockIndex} (below : idx.pprev = some pprev)
    : pprev ≠ idx := by
  rintro rfl
  cases pprev with
  | root hash header => cases below
  | child lower hash header =>
    have same := congrArg nHeight (Option.some.inj below)
    rw [nHeight] at same
    omega

theorem eq_root_of_pprev {idx} (bottom : idx.pprev = none)
    : ∃ hash header, idx = root hash header := by
  cases idx with
  | root hash header => exact ⟨hash, header, rfl⟩
  | child pprev hash header => cases bottom

theorem exists_root (idx : BlockIndex) : ∃ root ∈ idx.path, root.pprev = none := by
  induction idx with
  | root hash header => exact ⟨_, mem_path_self _, rfl⟩
  | child pprev hash header ih =>
    obtain ⟨root, below, bottom⟩ := ih
    exact ⟨root, mem_path_child.mpr (.inl below), bottom⟩

theorem mem_path_trans {low middle high : BlockIndex} (lower : low ∈ middle.path)
    (upper : middle ∈ high.path)
    : low ∈ high.path := by
  induction high with
  | root hash header =>
    obtain rfl : middle = root hash header := by simpa [path] using upper
    exact lower
  | child pprev hash header ih =>
    rcases mem_path_child.mp upper with below | rfl
    · exact mem_path_child.mpr (.inl (ih below))
    · exact lower

theorem nHeight_le_of_mem_path {low high : BlockIndex} (mem : low ∈ high.path)
    : low.nHeight ≤ high.nHeight := by
  induction high with
  | root hash header =>
    obtain rfl : low = root hash header := by simpa [path] using mem
    exact Nat.le_refl _
  | child pprev hash header ih =>
    rcases mem_path_child.mp mem with below | rfl
    · exact Nat.le_succ_of_le (ih below)
    · exact Nat.le_refl _

/-- The entries of a path are the ancestors that a walk can find. -/
theorem mem_path_iff {low high : BlockIndex}
    : low ∈ high.path ↔ ancestor low.nHeight high = some low := by
  constructor
  · intro mem
    induction high with
    | root hash header =>
      obtain rfl : low = root hash header := by simpa [path] using mem
      rfl
    | child pprev hash header ih =>
      rcases mem_path_child.mp mem with below | rfl
      · have lower := nHeight_le_of_mem_path below
        rw [ancestor, if_neg (by omega), ih below]
      · exact ancestor_self _
  · intro found
    induction high with
    | root hash header =>
      rw [ancestor] at found
      split at found
      · cases found
        exact mem_path_self _
      · cases found
    | child pprev hash header ih =>
      rw [ancestor] at found
      split at found
      · cases found
        exact mem_path_self _
      · exact mem_path_child.mpr (.inl (ih found))

theorem mem_path_of_le {low middle high : BlockIndex} (lower : low ∈ high.path)
    (upper : middle ∈ high.path) (ordered : low.nHeight ≤ middle.nHeight)
    : low ∈ middle.path := by
  rw [mem_path_iff] at lower upper ⊢
  rw [ancestor_ancestor ordered upper, lower]

-- Median time and work

/-- The times of an entry and its ancestors, at most `count` of them. -/
def lastTimes : Nat → BlockIndex → List Int
  | 0, _ => []
  | _ + 1, root _ header => [header.getBlockTime]
  | count + 1, child pprev _ header => header.getBlockTime :: lastTimes count pprev

/-- `GetMedianTimePast`, with `nMedianTimeSpan = 11`. -/
def getMedianTimePast (idx : BlockIndex) : Int :=
  let times := (lastTimes 11 idx).insertionSort (· ≤ ·)
  times.getD (times.length / 2) 0

/-- `GetBlockProof`; a target without a flag is below `2 ^ 256 - 1`, so the division is
defined.
-/
def getBlockProof (nBits : BitVec 32) : BaseUint :=
  let bnTarget := BaseUint.setCompact nBits
  if bnTarget.fNegative || bnTarget.fOverflow || bnTarget.target.equalTo 0 then BaseUint.zero
  else
    match bnTarget.target.not.div (bnTarget.target.add (BaseUint.ofUint64 1)) with
    | .ok quot => quot.add (BaseUint.ofUint64 1)
    | .error _ => BaseUint.zero

/-- A target without a flag has a successor: it is short, or it ends in a zero byte. -/
theorem target_succ_lt {nBits} (fits : (setCompact nBits).fOverflow = false)
    : (setCompact nBits).target.toNat + 1 < 2 ^ 256 := by
  have small := compactMantissa_lt nBits
  rw [Bool.eq_false_iff, Ne, setCompact_fOverflow] at fits
  rw [toNat_setCompact, Nat.mod_eq_of_lt (by omega)]
  rw [compactMagnitude] at fits ⊢
  split at fits
  · have short := Nat.div_le_self (compactMantissa nBits) (256 ^ (3 - compactExponent nBits))
    rw [if_pos ‹_›]
    omega
  obtain ⟨more, exponent⟩ : ∃ more, compactExponent nBits - 3 = more + 1 :=
    ⟨compactExponent nBits - 4, by omega⟩
  rw [if_neg ‹_›]
  rw [exponent, pow_succ 256 more, ← Nat.mul_assoc] at fits ⊢
  omega

theorem toNat_getBlockProof {nBits} (nonneg : (setCompact nBits).fNegative = false)
    (fits : (setCompact nBits).fOverflow = false) (nonzero : (setCompact nBits).target.toNat ≠ 0)
    : (getBlockProof nBits).toNat = 2 ^ 256 / ((setCompact nBits).target.toNat + 1) := by
  have below := target_succ_lt fits
  rw [getBlockProof, nonneg, fits]
  generalize (setCompact nBits).target = target at *
  have next : (target.add (ofUint64 1)).toNat = target.toNat + 1 := by
    rw [toNat_add, toNat_ofUint64]
    exact Nat.mod_eq_of_lt below
  obtain ⟨quot, divided, value⟩ := div_eq target.not
    (target.add (ofUint64 1)) (by omega)
  have whole : 2 ^ 256 = 2 ^ 256 - 1 - target.toNat + (target.toNat + 1) := by omega
  have part : 2 ^ 256 / (target.toNat + 1) < 2 ^ 256 := Nat.div_lt_self (by decide) (by omega)
  rw [if_neg (by simpa using nonzero), divided, toNat_add, toNat_ofUint64, value, next, toNat_not]
  rw [whole, Nat.add_div_right _ (Nat.succ_pos _), ← whole] at part ⊢
  exact Nat.mod_eq_of_lt part

/-- The operators of `base_uint` compute in integers modulo `2 ^ 256`, a compact word keeps the
leading bytes of a value, and the work of a block is the number of hashes its target stands for.
-/
theorem bigInteger_exact
    : (∀ a b : BaseUint, (a.mul b).toNat = a.toNat * b.toNat % 2 ^ 256)
      ∧ (∀ (a : BaseUint) (b32 : BitVec 32), (a.mulU32 b32).toNat = a.toNat * b32.toNat % 2 ^ 256)
      ∧ (∀ a b : BaseUint, if b.toNat = 0 then a.div b = .error .divisionByZero
          else ∃ quot, a.div b = .ok quot ∧ quot.toNat = a.toNat / b.toNat)
      ∧ (∀ (a : BaseUint) (shift : Nat), (a.shiftLeft shift).toNat = a.toNat * 2 ^ shift % 2 ^ 256)
      ∧ (∀ (a : BaseUint) (shift : Nat), (a.shiftRight shift).toNat = a.toNat / 2 ^ shift)
      ∧ (∀ a : BaseUint,
          (BaseUint.setCompact (a.getCompact false)).target.toNat = BaseUint.leadingBytes a.toNat
          ∧ (BaseUint.setCompact (a.getCompact false)).fNegative = false
          ∧ (BaseUint.setCompact (a.getCompact false)).fOverflow = false)
      ∧ ∀ nBits, (BaseUint.setCompact nBits).fNegative = false
        → (BaseUint.setCompact nBits).fOverflow = false
        → (BaseUint.setCompact nBits).target.toNat ≠ 0
        → (getBlockProof nBits).toNat
          = 2 ^ 256 / ((BaseUint.setCompact nBits).target.toNat + 1) := by
  refine ⟨toNat_mul, toNat_mulU32, fun a b => ?_, toNat_shiftLeft,
    toNat_shiftRight, setCompact_getCompact, fun _ => toNat_getBlockProof⟩
  split
  · simp [div, ‹_›, Nat.size_zero]
  · exact div_eq a b (Nat.pos_of_ne_zero ‹_›)

def nChainWork : BlockIndex → BaseUint
  | root _ header => BaseUint.zero.add (getBlockProof header.nBits)
  | child pprev _ header => pprev.nChainWork.add (getBlockProof header.nBits)

end BlockIndex

end Pqcoin
