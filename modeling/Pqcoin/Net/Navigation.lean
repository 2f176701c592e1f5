import Pqcoin.Validation.Node

/-! The walks through the tree of block index entries, along `pskip` and to the place where
two branches meet.
-/

namespace Pqcoin

namespace BlockIndex

/-- What `BuildSkip` stores in an entry; a root has no skip pointer. -/
def pskip : BlockIndex → Option BlockIndex
  | root _ _ => none
  | child pprev _ _ => pprev.getAncestor (getSkipHeight (pprev.nHeight + 1))

/-- `GetAncestor` at a signed height. -/
def getAncestorAt (idx : BlockIndex) (height : Int) : Option BlockIndex :=
  if height > idx.nHeight ∨ height < 0 then none else idx.getAncestor height.toNat

def followPprev : Nat → BlockIndex → Option BlockIndex
  | 0, idx => some idx
  | steps + 1, idx => idx.pprev.bind (followPprev steps)

-- LastCommonAncestor

def lowered (idx : BlockIndex) (height : Nat) : Option BlockIndex :=
  if idx.nHeight > height then idx.getAncestor height else some idx

/-- The loop that steps back from two different entries, and where both walks end. -/
def meet : BlockIndex → Option BlockIndex → Option BlockIndex × Option BlockIndex
  | pa, none => (some pa, none)
  | root hash header, some pb =>
    if root hash header = pb then (some pb, some pb) else (none, pb.pprev)
  | child pprev hash header, some pb =>
    if child pprev hash header = pb then (some pb, some pb) else meet pprev pb.pprev

/-- `LastCommonAncestor`: the outer `none` is the failed assertion, the inner one `NULL`. -/
def lastCommonAncestor (pa pb : BlockIndex) : Option (Option BlockIndex) :=
  let ends :=
    match pa.lowered pb.nHeight, pb.lowered pa.nHeight with
    | some pa, pb => meet pa pb
    | none, pb => (none, pb)
  if ends.1 = ends.2 then some ends.1 else none

def Common (pa pb idx : BlockIndex) : Prop := idx ∈ pa.path ∧ idx ∈ pb.path

def HighestCommon (pa pb common : BlockIndex) : Prop :=
  Common pa pb common ∧ ∀ other, Common pa pb other → other.nHeight ≤ common.nHeight

variable {pa pb shared : BlockIndex}

theorem getSkipHeight_lt {height} (pos : 0 < height) : getSkipHeight height < height := by
  have lower (n) : invertLowestOne n ≤ n - 1 := Nat.and_le_right
  rw [getSkipHeight]
  split
  · exact pos
  split
  · have inner := lower (height - 1)
    have outer := lower (invertLowestOne (height - 1))
    omega
  · have inner := lower height
    omega

theorem ancestor_eq_followPprev {height} {idx} (within : height ≤ idx.nHeight)
    : ancestor height idx = followPprev (idx.nHeight - height) idx := by
  induction idx with
  | root hash header =>
    obtain rfl : height = 0 := Nat.le_zero.mp within
    rfl
  | child pprev hash header ih =>
    rw [nHeight] at within ⊢
    rw [ancestor]
    split
    · rename_i own
      rw [own, Nat.sub_self, followPprev]
    rw [Nat.succ_sub (by omega), ih (by omega)]
    rfl

theorem eq_of_mem_path (mem : pa ∈ pb.path) (level : pa.nHeight = pb.nHeight) : pa = pb := by
  rw [mem_path_iff, level, ancestor_self] at mem
  exact (Option.some.inj mem).symm

/-- The ancestor at a height spells out the part of the path up to that height. -/
theorem mem_path_getAncestor {idx : BlockIndex} {height} (within : height ≤ idx.nHeight)
    : ∃ found,
        idx.getAncestor height = some found
        ∧ found.nHeight = height
        ∧ ∀ low, low ∈ found.path ↔ low ∈ idx.path ∧ low.nHeight ≤ height := by
  obtain ⟨found, reached, level⟩ := ancestor_eq_some within
  have above : found ∈ idx.path := mem_path_iff.mpr (level.symm ▸ reached)
  refine ⟨found, (getAncestor_eq height idx).trans reached, level, fun low => ⟨?_, ?_⟩⟩
  · intro mem
    exact ⟨mem_path_trans mem above, level ▸ nHeight_le_of_mem_path mem⟩
  · rintro ⟨mem, lower⟩
    exact mem_path_of_le mem above (level.symm ▸ lower)

theorem lowered_spec (idx : BlockIndex) (height)
    : ∃ low,
        idx.lowered height = some low
        ∧ low.nHeight = min idx.nHeight height
        ∧ ∀ other, other ∈ low.path ↔ other ∈ idx.path ∧ other.nHeight ≤ height := by
  rw [lowered]
  split
  · rename_i higher
    rw [Nat.min_eq_right (Nat.le_of_lt higher)]
    exact mem_path_getAncestor (Nat.le_of_lt higher)
  refine ⟨idx, rfl, by omega, fun other => (and_iff_left_of_imp fun mem => ?_).symm⟩
  have below := nHeight_le_of_mem_path mem
  omega

theorem highestCommon_self (mem : pa ∈ pb.path) : HighestCommon pa pb pa :=
  ⟨⟨mem_path_self pa, mem⟩, fun _ both => nHeight_le_of_mem_path both.1⟩

theorem meet_spec (level : pa.nHeight = pb.nHeight) (both : Common pa pb shared)
    : ∃ common, meet pa (some pb) = (some common, some common) ∧ HighestCommon pa pb common := by
  induction pa generalizing pb with
  | root hash header =>
    obtain rfl : shared = root hash header := by simpa [path] using both.1
    obtain rfl := eq_of_mem_path both.2 level
    exact ⟨_, if_pos rfl, highestCommon_self both.2⟩
  | child pprev hash header ih =>
    by_cases met : child pprev hash header = pb
    · subst met
      exact ⟨_, if_pos rfl, highestCommon_self (mem_path_self _)⟩
    cases pb with
    | root hash' header' => cases level
    | child pprev' hash' header' =>
      -- neither entry is on the other's path, so what they share is below both
      have lower (other)
          : Common (child pprev hash header) (child pprev' hash' header') other
            ↔ Common pprev pprev' other := by
        rw [Common, mem_path_child, mem_path_child]
        constructor
        · rintro ⟨left | rfl, right⟩
          · rcases right with right | rfl
            · exact ⟨left, right⟩
            · exact absurd (eq_of_mem_path (mem_path_child.mpr (.inl left)) level.symm).symm met
          · exact absurd (eq_of_mem_path (mem_path_child.mpr right) level) met
        · rintro ⟨left, right⟩
          exact ⟨.inl left, .inl right⟩
      obtain ⟨common, reached, highest⟩ := ih (Nat.succ.inj level) ((lower shared).mp both)
      exact ⟨common, (if_neg met).trans reached, by simpa only [HighestCommon, lower] using highest⟩

theorem lastCommonAncestor_spec (both : Common pa pb shared)
    : ∃ common, lastCommonAncestor pa pb = some (some common) ∧ HighestCommon pa pb common := by
  obtain ⟨lowA, foundA, levelA, pathA⟩ := lowered_spec pa pb.nHeight
  obtain ⟨lowB, foundB, levelB, pathB⟩ := lowered_spec pb pa.nHeight
  have lower (other) : Common pa pb other ↔ Common lowA lowB other := by
    rw [Common, Common, pathA, pathB]
    constructor
    · rintro ⟨left, right⟩
      exact ⟨⟨left, nHeight_le_of_mem_path right⟩, right, nHeight_le_of_mem_path left⟩
    · rintro ⟨⟨left, -⟩, right, -⟩
      exact ⟨left, right⟩
  obtain ⟨common, met, highest⟩ :=
    meet_spec (by rw [levelA, levelB, Nat.min_comm]) ((lower shared).mp both)
  exact ⟨common, by simp [lastCommonAncestor, foundA, foundB, met],
    by simpa only [HighestCommon, lower] using highest⟩

end BlockIndex

open BlockIndex

namespace Node

variable {node : Node} {pindex shared : BlockIndex}

theorem findForkFrom_spec (both : Common pindex node.tip shared)
    : ∃ fork, node.findForkFrom pindex = some fork ∧ HighestCommon pindex node.tip fork := by
  induction pindex with
  | root hash header =>
    obtain rfl : shared = root hash header := by simpa [path] using both.1
    exact ⟨_, if_pos (mem_path_iff.mp both.2), highestCommon_self both.2⟩
  | child pprev hash header ih =>
    by_cases contained : node.Contains (child pprev hash header)
    · exact ⟨_, if_pos contained, highestCommon_self (mem_path_iff.mpr contained)⟩
    have lower (other)
        : Common (child pprev hash header) node.tip other ↔ Common pprev node.tip other := by
      rw [Common, mem_path_child]
      refine and_congr_left fun right => or_iff_left ?_
      rintro rfl
      exact contained (mem_path_iff.mp right)
    obtain ⟨fork, found, highest⟩ := ih ((lower shared).mp both)
    exact ⟨fork, (if_neg contained).trans found, by simpa only [HighestCommon, lower] using highest⟩

theorem findFork_spec (both : Common pindex node.tip shared)
    : ∃ fork, node.findFork pindex = some fork ∧ HighestCommon pindex node.tip fork := by
  obtain ⟨low, found, -, below⟩ := lowered_spec pindex node.tip.nHeight
  have walked : node.findFork pindex
      = (pindex.lowered node.tip.nHeight).bind node.findForkFrom := by
    rw [findFork, lowered]
    split <;> rfl
  have lower (other) : Common pindex node.tip other ↔ Common low node.tip other := by
    rw [Common, Common, below]
    exact and_congr_left fun right => (and_iff_left (nHeight_le_of_mem_path right)).symm
  obtain ⟨fork, forked, highest⟩ := findForkFrom_spec ((lower shared).mp both)
  rw [walked, found]
  exact ⟨fork, forked, by simpa only [HighestCommon, lower] using highest⟩

end Node

/-- Skip pointers lead to lower ancestors, `GetAncestor` steps along them or along `pprev` and
goes where `pprev` does, and two branches of one tree meet at their highest common entry.
-/
theorem navigation_exact
    : (∀ idx pprev : BlockIndex, idx.pprev = some pprev
        → ∃ target,
            idx.pskip = some target ∧ target ∈ idx.path ∧ target.nHeight < idx.nHeight
            ∧ ∀ height < idx.nHeight, idx.getAncestor height
              = (if FollowsSkip idx.nHeight height then target else pprev).getAncestor height)
      ∧ (∀ (idx : BlockIndex) (height : Int),
        idx.getAncestorAt height
          = if 0 ≤ height ∧ height ≤ idx.nHeight then
              followPprev (idx.nHeight - height.toNat) idx
            else none)
      ∧ ∀ genesis pa pb : BlockIndex, genesis ∈ pa.path → genesis ∈ pb.path
        → (∃ common, lastCommonAncestor pa pb = some (some common) ∧ HighestCommon pa pb common)
          ∧ ∀ node : Node, node.tip = pb
            → ∃ fork, node.findFork pa = some fork ∧ HighestCommon pa pb fork := by
  refine ⟨?_, ?_, ?_⟩
  · rintro (_ | ⟨pprev, hash, header⟩) _ above
    · cases above
    have lower := getSkipHeight_lt (Nat.succ_pos pprev.nHeight)
    obtain ⟨target, found, level, below⟩ := mem_path_getAncestor (Nat.le_of_lt_succ lower)
    have mem := ((below target).mp (mem_path_self target)).1
    cases above
    refine ⟨target, found, mem_path_child.mpr (.inl mem), level ▸ lower, fun height under => ?_⟩
    rw [nHeight] at under ⊢
    rw [getAncestor, if_neg (by omega), if_neg (by omega), found]
    have descends : target.nHeight ≤ pprev.nHeight := level ▸ Nat.le_of_lt_succ lower
    simp only [descends, and_true]
    split <;> rfl
  · intro idx height
    by_cases within : 0 ≤ height ∧ height ≤ idx.nHeight
    · rw [getAncestorAt, if_neg (by omega), if_pos within, getAncestor_eq,
        ancestor_eq_followPprev (by omega)]
    · rw [getAncestorAt, if_pos (by omega), if_neg within]
  · intro genesis pa pb left right
    refine ⟨lastCommonAncestor_spec ⟨left, right⟩, ?_⟩
    rintro node rfl
    exact Node.findFork_spec ⟨left, right⟩

end Pqcoin
