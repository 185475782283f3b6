import Mathlib.Logic.Function.Iterate

namespace Straks.SkipList

/-- The ways in which a walk to an ancestor ends the program. -/
inductive WalkError where
  | assertion
  | nullPointer
  | endless
  deriving DecidableEq, Repr

/-- A block index pointer with the entry it leads to. -/
inductive CBlockIndex (Header : Type) where
  | null
  | entry (header : Header) (nHeight : Nat) (pprev pskip : CBlockIndex Header)

variable {Header : Type}

def CBlockIndex.isNull : CBlockIndex Header → Bool
  | .null => true
  | .entry .. => false

def CBlockIndex.nHeight : CBlockIndex Header → Nat
  | .null => 0
  | .entry _ nHeight _ _ => nHeight

def CBlockIndex.pprev : CBlockIndex Header → CBlockIndex Header
  | .null => .null
  | .entry _ _ pprev _ => pprev

/-- Turns the lowest one of a binary number into a zero. -/
def invertLowestOne (n : Nat) : Nat := n &&& (n - 1)

/-- The height to which the skip pointer of a height leads. -/
def getSkipHeight (height : Nat) : Nat :=
  if height < 2 then 0
  else if height &&& 1 ≠ 0 then invertLowestOne (invertLowestOne (height - 1)) + 1
  else invertLowestOne height

/-- The loop of `GetAncestor`. -/
def walkBack (height : Nat) : Nat → CBlockIndex Header → Nat → Except WalkError (CBlockIndex Header)
  | 0, pindexWalk, heightWalk => if heightWalk > height then .error .endless else .ok pindexWalk
  | fuel + 1, pindexWalk, heightWalk =>
    if heightWalk > height then
      match pindexWalk with
      | .null => .error .nullPointer
      | .entry _ _ pprev pskip =>
        let heightSkip := getSkipHeight heightWalk
        let heightSkipPrev := getSkipHeight (heightWalk - 1)
        -- the skip pointer is not taken where that of the previous block is better
        if pskip.isNull = false ∧ (heightSkip = height ∨ (heightSkip > height ∧
            ¬ ((heightSkipPrev : Int) < heightSkip - 2 ∧ heightSkipPrev ≥ height))) then
          walkBack height fuel pskip heightSkip
        else if pprev.isNull then .error .assertion
        else walkBack height fuel pprev (heightWalk - 1)
    else .ok pindexWalk

/-- As many turns as the block is high are enough for the loop. -/
def CBlockIndex.getAncestor (pindex : CBlockIndex Header) (height : Int) :
    Except WalkError (CBlockIndex Header) :=
  match pindex with
  | .null => .error .nullPointer
  | .entry _ nHeight _ _ =>
    if height > nHeight ∨ height < 0 then .ok .null else walkBack height.toNat nHeight pindex nHeight

/-- A new block gets its height from `pprev` and its skip pointer from `BuildSkip`. -/
def buildSkip (header : Header) (pprev : CBlockIndex Header) : Except WalkError (CBlockIndex Header) :=
  match pprev with
  | .null => .ok (.entry header 0 .null .null)
  | .entry _ nHeight _ _ => do
    let pskip ← pprev.getAncestor (getSkipHeight (nHeight + 1))
    .ok (.entry header (nHeight + 1) pprev pskip)

/-- The chain of the headers, the newest first. -/
def buildChain : List Header → Except WalkError (CBlockIndex Header)
  | [] => .ok .null
  | header :: older => do buildSkip header (← buildChain older)

end Straks.SkipList
