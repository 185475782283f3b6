import Straks.Construction.Primitives
import Mathlib.Tactic.Ring

namespace Straks.Chain

/-- What `MerkleComputation` keeps between two leaves. -/
structure MerkleState where
  mutated : Bool
  /-- The number of leaves processed so far. -/
  count : Nat
  /-- The eager subtree hashes by level; those of clear bits in the count are stale. -/
  inner : Nat → Uint256
  /-- The level whose hash depends on the branch's leaf, once there is one. -/
  matchlevel : Option Nat
  pbranch : List Uint256

/-- The hash that moves up the right edge of the tree. -/
structure MerkleClimb where
  level : Nat
  h : Uint256
  /-- The hash depends on the leaf of the branch. -/
  matchh : Bool
  mutated : Bool
  pbranch : List Uint256

section Computation

variable (hashPair : Uint256 → Uint256 → Uint256)

/-- One step up: the hash joins the inner value of its level. -/
def combineInner (inner : Nat → Uint256) (matchlevel : Option Nat) (climb : MerkleClimb) : MerkleClimb where
  level := climb.level + 1
  h := hashPair (inner climb.level) climb.h
  matchh := climb.matchh || matchlevel == some climb.level
  mutated := climb.mutated
  pbranch :=
    if climb.matchh then climb.pbranch ++ [inner climb.level]
    else if matchlevel == some climb.level then climb.pbranch ++ [climb.h]
    else climb.pbranch

/-- The loop over the low clear bits of the count, which looks for equal neighbours. -/
def climbLeaf (state : MerkleState) (count : Nat) : Nat → MerkleClimb → MerkleClimb
  | 0, climb => climb
  | fuel + 1, climb =>
    if count.testBit climb.level then climb
    else
      let mutated := climb.mutated || state.inner climb.level == climb.h
      climbLeaf state count fuel { combineInner hashPair state.inner state.matchlevel climb with mutated := mutated }

/-- Processes one leaf. A positive count has fewer low clear bits than its own value. -/
def processLeaf (branchpos : Nat) (state : MerkleState) (leaf : Uint256) : MerkleState :=
  let count := state.count + 1
  let climb := climbLeaf hashPair state count count ⟨0, leaf, state.count == branchpos, state.mutated, state.pbranch⟩
  { mutated := climb.mutated
    count := count
    inner := Function.update state.inner climb.level climb.h
    matchlevel := if climb.matchh then some climb.level else state.matchlevel
    pbranch := climb.pbranch }

/-- The lowest level whose bit in the count is set. -/
def lowestLevel (count : Nat) : Nat → Nat → Nat
  | 0, level => level
  | fuel + 1, level => if count.testBit level then level else lowestLevel count fuel (level + 1)

/-- The sweep's loop joining the hash with the inner values above. -/
def climbSweep (state : MerkleState) (count : Nat) : Nat → MerkleClimb → MerkleClimb
  | 0, climb => climb
  | fuel + 1, climb =>
    if count.testBit climb.level then climb
    else climbSweep state count fuel (combineInner hashPair state.inner state.matchlevel climb)

/-- A hash that is not the top is joined with itself. -/
def combineSelf (climb : MerkleClimb) : MerkleClimb :=
  { climb with
    level := climb.level + 1
    h := hashPair climb.h climb.h
    pbranch := if climb.matchh then climb.pbranch ++ [climb.h] else climb.pbranch }

/-- The final sweep over the right edge of the tree. -/
def sweep (state : MerkleState) : Nat → Nat → MerkleClimb → MerkleClimb
  | 0, _, climb => climb
  | fuel + 1, count, climb =>
    if count = 2 ^ climb.level then climb
    else
      -- the count becomes what it would be if two entries at this level had existed
      let count' := count + 2 ^ climb.level
      sweep state fuel count' (climbSweep hashPair state count' count' (combineSelf hashPair climb))

/-- The root, the mutation flag and the branch of a list of leaves. -/
def merkleComputation (leaves : List Uint256) (branchpos : Nat) : Uint256 × Bool × List Uint256 :=
  if leaves.isEmpty then (0, false, [])
  else
    let state := leaves.foldl (processLeaf hashPair branchpos) ⟨false, 0, fun _ => 0, none, []⟩
    let level := lowestLevel state.count state.count 0
    let climb := sweep hashPair state state.count state.count
      ⟨level, state.inner level, state.matchlevel == some level, state.mutated, state.pbranch⟩
    (climb.h, climb.mutated, climb.pbranch)

/-- The root and whether neighbours were equal; the branch position is `-1`. -/
def computeMerkleRoot (leaves : List Uint256) : Uint256 × Bool :=
  let (root, mutated, _) := merkleComputation hashPair leaves 0xffffffff
  (root, mutated)

/-- The leaves are the hashes of the transactions. -/
def blockMerkleRoot (getHash : CTransaction → Uint256) (vtx : List CTransaction) : Uint256 × Bool :=
  computeMerkleRoot hashPair (vtx.map getHash)

/-- The witness hash of the coinbase is zero. -/
def blockWitnessMerkleRoot (getWitnessHash : CTransaction → Uint256) (vtx : List CTransaction) : Uint256 × Bool :=
  computeMerkleRoot hashPair (vtx.map getWitnessHash |>.set 0 0)

end Computation

end Straks.Chain
