import Straks.Construction.Chain.Params
import Mathlib.Algebra.Group.Nat.Defs
import Mathlib.Data.List.Sort
import Mathlib.Data.Nat.Log

namespace Straks.Chain

/-- The ways in which the difficulty code stops the program. -/
inductive PowError where
  | assertion
  | nullPointer
  /-- The division of 256-bit numbers throws for a zero divisor. -/
  | divisionByZero
  deriving DecidableEq, Repr

/-- The position of the highest set bit, counted from one. -/
def bits (value : Nat) : Nat := if value = 0 then 0 else Nat.log2 value + 1

/-- The value of the compact form with its two flags. -/
structure Compact where
  value : Uint256
  fNegative : Bool
  fOverflow : Bool
  deriving DecidableEq

def setCompact (nCompact : UInt32) : Compact :=
  let nSize := nCompact.toNat / 2 ^ 24
  let mantissa := nCompact.toNat % 2 ^ 23
  let nWord := if nSize ≤ 3 then mantissa / 256 ^ (3 - nSize) else mantissa
  { value := if nSize ≤ 3 then BitVec.ofNat 256 nWord else BitVec.ofNat 256 nWord <<< (8 * (nSize - 3))
    fNegative := nWord ≠ 0 && nCompact.toNat / 2 ^ 23 % 2 == 1
    fOverflow := nWord ≠ 0 && (34 < nSize || (0xff < nWord && 33 < nSize) || (0xffff < nWord && 32 < nSize)) }

/-- A mantissa that would touch the sign bit moves one byte down. -/
def normalizeCompact (nCompact nSize : Nat) : Nat × Nat :=
  if nCompact / 2 ^ 23 % 2 = 1 then (nCompact / 256, nSize + 1) else (nCompact, nSize)

def getCompact (value : Uint256) : Except PowError UInt32 :=
  let nSize := (bits value.toNat + 7) / 8
  let nCompact :=
    if nSize ≤ 3 then value.toNat * 256 ^ (3 - nSize) else value.toNat / 256 ^ (nSize - 3)
  let normal := normalizeCompact (nCompact % 2 ^ 32) nSize
  if 2 ^ 23 ≤ normal.1 ∨ 256 ≤ normal.2 then .error .assertion
  else .ok (UInt32.ofNat (normal.1 + normal.2 * 2 ^ 24))

/-- The index fields read by the difficulty and time rules. -/
structure CBlockIndex where
  nHeight : Int
  nTime : UInt32
  nBits : UInt32
  nChainWork : Uint256
  deriving DecidableEq, Repr

def CBlockIndex.getBlockTime (block : CBlockIndex) : Int := block.nTime.toNat

/-- A block with its ancestors, the newest first. -/
abbrev Branch := List CBlockIndex

def nMedianTimeSpan : Nat := 11

variable (branch : Branch)

/-- The middle of the sorted times of the last eleven blocks, or of all. -/
def getMedianTimePast : Int :=
  let times := ((branch.take nMedianTimeSpan).map CBlockIndex.getBlockTime).insertionSort (· ≤ ·)
  times.getD (times.length / 2) 0

/-- The ancestor at a height is reached through `pprev`. -/
def getAncestor (height : Int) : Branch :=
  branch.dropWhile fun block => height < block.nHeight

def getBlockProof (nBits : UInt32) : Uint256 :=
  let target := setCompact nBits
  if target.fNegative || target.fOverflow || target.value == 0 then 0
  else (~~~target.value / (target.value + 1)) + 1

/-- Orders three blocks by time and takes the one in the middle. -/
def sortingNetwork (block0 block1 block2 : CBlockIndex) : CBlockIndex :=
  let first := if block0.nTime > block2.nTime then (block2, block0) else (block0, block2)
  let second := if first.1.nTime > block1.nTime then (block1, first.1) else (first.1, block1)
  if second.2.nTime > first.2.nTime then first.2 else second.2

def getSuitableBlock : Except PowError CBlockIndex :=
  match branch with
  | [] => .error .nullPointer
  | block2 :: rest =>
    if block2.nHeight < 3 then .error .assertion
    else
      match rest with
      | block1 :: block0 :: _ => .ok (sortingNetwork block0 block1 block2)
      | _ => .error .nullPointer

variable (params : ConsensusParams)

/-- The actual timespan stays between six and twenty-four target spacings. -/
def boundTimespan (nActualTimespan : Int) : Int :=
  if nActualTimespan > 24 * params.nPowTargetSpacing then 24 * params.nPowTargetSpacing
  else if nActualTimespan < 6 * params.nPowTargetSpacing then 6 * params.nPowTargetSpacing
  else nActualTimespan

def computeTarget (pindexFirst pindexLast : CBlockIndex) (params : ConsensusParams) :
    Except PowError Uint256 :=
  if ¬ pindexLast.nHeight > pindexFirst.nHeight then .error .assertion
  else
    let work := (pindexLast.nChainWork - pindexFirst.nChainWork) * BitVec.ofInt 256 params.nPowTargetSpacing
    if ¬ pindexLast.nTime > pindexFirst.nTime then .error .assertion
    else
      let nActualTimespan := boundTimespan params ((pindexLast.nTime - pindexFirst.nTime).toNat : Int)
      let divisor := BitVec.ofInt 256 nActualTimespan
      if divisor = 0 then .error .divisionByZero
      else
        let work := work / divisor
        if work = 0 then .error .divisionByZero else .ok (-work / work)

/-- On test networks a late block may have the lowest difficulty. -/
def allowsMinDifficulty (pindexPrev : CBlockIndex) (pblock : CBlockHeader) : Bool :=
  params.fPowAllowMinDifficultyBlocks &&
    pblock.getBlockTime > pindexPrev.getBlockTime + 2 * params.nPowTargetSpacing

def getNextWorkRequiredD106 (pblock : CBlockHeader) (params : ConsensusParams) :
    Except PowError UInt32 :=
  match branch with
  | [] => getCompact params.powLimit
  | pindexPrev :: _ =>
    if allowsMinDifficulty params pindexPrev pblock then getCompact params.powLimit
    else if ¬ pindexPrev.nHeight ≥ params.difficultyAdjustmentInterval then .error .assertion
    else do
      let pindexLast ← getSuitableBlock branch
      let pindexFirst ← getSuitableBlock (getAncestor branch (pindexPrev.nHeight - 12))
      let nextTarget ← computeTarget pindexFirst pindexLast params
      if nextTarget > params.powLimit then getCompact params.powLimit else getCompact nextTarget

/-- The source multiplies by the floating-point 1.05 and truncates, which agrees for small time differences. -/
def stretchTimespan (nActualTimespan : Int) : Int := Int.tdiv (21 * nActualTimespan) 20

def zmds (bnAvg : Uint256) (nLastBlockTime nFirstBlockTime : Int) (params : ConsensusParams) :
    Except PowError UInt32 :=
  let stretched := stretchTimespan (nLastBlockTime - nFirstBlockTime)
  let raised := if stretched < params.minActualTimespan then params.minActualTimespan else stretched
  let nActualTimespan := if raised > params.maxActualTimespan then params.maxActualTimespan else raised
  let divisor := BitVec.ofInt 256 params.averagingWindowTimespan
  if divisor = 0 then .error .divisionByZero
  else
    let bnNew := bnAvg / divisor * BitVec.ofInt 256 nActualTimespan
    getCompact (if bnNew > params.powLimit then params.powLimit else bnNew)

/-- The sum of the window's targets and the block below, if the chain reaches it. -/
def sumTargets : Nat → Branch → Uint256 → Option (Uint256 × Branch)
  | _, [], _ => none
  | 0, branch, bnTot => some (bnTot, branch)
  | count + 1, block :: rest, bnTot => sumTargets count rest (bnTot + (setCompact block.nBits).value)

def getNextWorkRequiredZMDS : Except PowError UInt32 :=
  match sumTargets params.nPowAveragingWindow.toNat branch 0 with
  | none => getCompact params.powLimit
  | some (bnTot, pindexFirst) =>
    let divisor := BitVec.ofInt 256 params.nPowAveragingWindow
    if divisor = 0 then .error .divisionByZero
    else zmds (bnTot / divisor) (getMedianTimePast branch) (getMedianTimePast pindexFirst) params

def getNextWorkRequired (pblock : CBlockHeader) (params : ConsensusParams) :
    Except PowError UInt32 :=
  match branch with
  | [] => getCompact params.powLimit
  | pindexLast :: _ =>
    if params.fPowNoRetargeting then .ok pindexLast.nBits
    else if pindexLast.nHeight ≤ params.fPowD106SwitchHeight then getNextWorkRequiredZMDS branch params
    else getNextWorkRequiredD106 branch pblock params

def timeTooOld (blockTime : Int) (branch : Branch) : Bool :=
  blockTime ≤ getMedianTimePast branch

def timeTooNew (blockTime nAdjustedTime : Int) : Bool :=
  blockTime > nAdjustedTime + 2 * 60 * 60

/-- The index entry of a header on top of a branch. -/
def indexHeader (block : CBlockHeader) (pindexPrev : CBlockIndex) : CBlockIndex where
  nHeight := pindexPrev.nHeight + 1
  nTime := block.nTime
  nBits := block.nBits
  nChainWork := pindexPrev.nChainWork + getBlockProof block.nBits

/-- The branch of a new header: the work of `pprev`, or zero, grows by the proof. -/
def addToBlockIndex (block : CBlockHeader) : Branch → Branch
  | [] => [⟨0, block.nTime, block.nBits, 0 + getBlockProof block.nBits⟩]
  | pindexPrev :: rest => indexHeader block pindexPrev :: pindexPrev :: rest

end Straks.Chain
