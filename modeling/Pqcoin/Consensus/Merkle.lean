import Pqcoin.Primitives.Block

/-! The constant-space Merkle computation of `consensus/merkle.cpp`. -/

namespace Pqcoin

def merkleNode (H : Hashing) (left right : Uint256) : Uint256 :=
  H.hash256 (bytesLE 32 left ++ bytesLE 32 right)

/-- A hash on its way up: its level, whether it depends on the matching leaf, and what was
seen and collected so far.
-/
structure MerkleClimb where
  level : Nat
  h : Uint256
  matchh : Bool
  mutated : Bool
  pbranch : List Uint256

/-- One step up: the hash is combined with the stored subtree of its level. Only the first
pass over the leaves compares the two for a mutation.
-/
def MerkleClimb.step (H : Hashing) (inner : Nat → Uint256) (matchlevel : Option Nat)
    (compares : Bool) (climb : MerkleClimb)
    : MerkleClimb where
  level := climb.level + 1
  h := merkleNode H (inner climb.level) climb.h
  matchh := climb.matchh || matchlevel == some climb.level
  mutated := climb.mutated || (compares && inner climb.level == climb.h)
  pbranch :=
    if climb.matchh then climb.pbranch ++ [inner climb.level]
    else if matchlevel = some climb.level then climb.pbranch ++ [climb.h]
    else climb.pbranch

/-- The loop "for each of the lower bits in count that are 0"; a nonzero 32-bit count ends
it within 32 steps.
-/
def MerkleClimb.run (H : Hashing) (inner : Nat → Uint256) (matchlevel : Option Nat)
    (compares : Bool) (count : BitVec 32)
    : Nat → MerkleClimb → MerkleClimb
  | 0, climb => climb
  | fuel + 1, climb =>
    if count.getLsbD climb.level then climb
    else run H inner matchlevel compares count fuel (climb.step H inner matchlevel compares)

/-- The variables of `MerkleComputation` between two leaves. -/
structure MerkleState where
  count : BitVec 32
  inner : Nat → Uint256
  matchlevel : Option Nat
  mutated : Bool
  pbranch : List Uint256

def MerkleState.push (H : Hashing) (branchpos : BitVec 32) (s : MerkleState) (leaf : Uint256)
    : MerkleState :=
  let matchh := s.count == branchpos
  let count := s.count + 1
  let climb := MerkleClimb.run H s.inner s.matchlevel true count 32
    ⟨0, leaf, matchh, s.mutated, s.pbranch⟩
  {
    count := count
    inner := Function.update s.inner climb.level climb.h
    matchlevel := if climb.matchh then some climb.level else s.matchlevel
    mutated := climb.mutated
    pbranch := climb.pbranch
  }

def lowestLevel (count : BitVec 32) : Nat → Nat → Nat
  | 0, level => level
  | fuel + 1, level => if count.getLsbD level then level else lowestLevel count fuel (level + 1)

/-- The final sweep over the rightmost branch: a hash without a sibling is combined with
itself, until it is the top one.
-/
def MerkleState.sweep (H : Hashing) (s : MerkleState)
    : Nat → BitVec 32 → MerkleClimb → MerkleClimb
  | 0, _, climb => climb
  | fuel + 1, count, climb =>
    if count = 1#32 <<< climb.level then climb
    else
      let count' := count + 1#32 <<< climb.level
      let doubled : MerkleClimb :=
        {
          climb with
          level := climb.level + 1
          h := merkleNode H climb.h climb.h
          pbranch := if climb.matchh then climb.pbranch ++ [climb.h] else climb.pbranch
        }
      sweep H s fuel count' (MerkleClimb.run H s.inner s.matchlevel false count' 32 doubled)

/-- `MerkleComputation`: the root, the mutation flag and the branch of a position. -/
def merkleComputation (H : Hashing) (leaves : List Uint256) (branchpos : BitVec 32)
    : Uint256 × Bool × List Uint256 :=
  if leaves.isEmpty then (0, false, [])
  else
    let s := leaves.foldl (MerkleState.push H branchpos) ⟨0, fun _ => 0, none, false, []⟩
    let level := lowestLevel s.count 32 0
    let top := s.sweep H 32 s.count
      ⟨level, s.inner level, s.matchlevel == some level, s.mutated, s.pbranch⟩
    (top.h, s.mutated, top.pbranch)

def computeMerkleRoot (H : Hashing) (leaves : List Uint256) : Uint256 × Bool :=
  let (root, mutated, _) := merkleComputation H leaves (-1)
  (root, mutated)

def blockMerkleRoot (H : Hashing) (vtx : List Transaction) : Uint256 × Bool :=
  computeMerkleRoot H (vtx.map (fun tx => tx.getHash H))

theorem computeMerkleRoot_singleton (H leaf) : computeMerkleRoot H [leaf] = (leaf, false) := by
  simp [computeMerkleRoot, merkleComputation, MerkleState.push, MerkleClimb.run, lowestLevel,
    MerkleState.sweep]

end Pqcoin
