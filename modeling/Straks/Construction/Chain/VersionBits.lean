import Straks.Construction.Chain.Pow

namespace Straks.VersionBits

inductive ThresholdState where
  | defined | started | lockedIn | active | failed
  deriving DecidableEq, Repr

/-- The index entry of a block with the version of its header. -/
structure VersionIndex extends Chain.CBlockIndex where
  nVersion : Int32
  deriving DecidableEq

/-- A pointer to an index entry: the block and its ancestors, the newest first. The empty list is null. -/
abbrev IndexPointer := List VersionIndex

def getMedianTimePast (pindex : IndexPointer) : Int :=
  Chain.getMedianTimePast (pindex.map VersionIndex.toCBlockIndex)

/-- The ancestor at a height, or the null pointer. -/
def getAncestor (pindex : IndexPointer) (height : Int) : IndexPointer :=
  match pindex with
  | [] => []
  | block :: _ =>
    if height > block.nHeight ∨ height < 0 then []
    else pindex.dropWhile fun ancestor => height < ancestor.nHeight

/-- What a deployment fixes of the threshold logic. -/
structure ThresholdConditionChecker where
  condition : VersionIndex → Bool
  beginTime : Int
  endTime : Int
  period : Int
  threshold : Int

/-- The cached state of the block after an index entry. -/
abbrev ThresholdConditionCache := IndexPointer → Option ThresholdState

def ThresholdConditionCache.insert (cache : ThresholdConditionCache) (pindex : IndexPointer) (state : ThresholdState) :
    ThresholdConditionCache :=
  fun other => if other = pindex then some state else cache other

section Checker

variable (checker : ThresholdConditionChecker) (pindexPrev : IndexPointer)

/-- The last block of the period before that of the next block. -/
def periodParent : IndexPointer :=
  match pindexPrev with
  | [] => []
  | block :: _ => getAncestor pindexPrev (block.nHeight - (block.nHeight + 1) % checker.period)

/-- The blocks of the period that ends with `pindexPrev` and signal. -/
def countSignals : Int :=
  (pindexPrev.take checker.period.toNat).countP checker.condition

/-- The state of the period after `pindexPrev`, given that of the period before. -/
def nextState (state : ThresholdState) (pindexPrev : IndexPointer) : ThresholdState :=
  match state with
  | .defined =>
    if getMedianTimePast pindexPrev ≥ checker.endTime then .failed
    else if getMedianTimePast pindexPrev ≥ checker.beginTime then .started
    else .defined
  | .started =>
    if getMedianTimePast pindexPrev ≥ checker.endTime then .failed
    else if countSignals checker pindexPrev ≥ checker.threshold then .lockedIn
    else .started
  | .lockedIn => .active
  | .failed => .failed
  | .active => .active

/-- Walks back in periods to a known state and stacks the entries to compute. -/
def walkBackward : Nat → ThresholdConditionCache → IndexPointer → List IndexPointer →
    Option (ThresholdConditionCache × IndexPointer × List IndexPointer)
  | 0, _, _, _ => none
  | fuel + 1, cache, pindexPrev, vToCompute =>
    if (cache pindexPrev).isSome then some (cache, pindexPrev, vToCompute)
    else
      match pindexPrev with
      | [] => some (cache.insert [] .defined, [], vToCompute)
      | block :: _ =>
        -- an optimization: every earlier block is before the start time as well
        if getMedianTimePast pindexPrev < checker.beginTime then
          some (cache.insert pindexPrev .defined, pindexPrev, vToCompute)
        else
          walkBackward fuel cache (getAncestor pindexPrev (block.nHeight - checker.period)) (pindexPrev :: vToCompute)

/-- Walks forward and caches the states of the stacked entries. -/
def walkForward : ThresholdConditionCache → ThresholdState → List IndexPointer → ThresholdState × ThresholdConditionCache
  | cache, state, [] => (state, cache)
  | cache, state, pindexPrev :: vToCompute =>
    let stateNext := nextState checker state pindexPrev
    walkForward (cache.insert pindexPrev stateNext) stateNext vToCompute

/-- The state of the next block, unless the assertion fails or the walk does not end. -/
def getStateFor (cache : ThresholdConditionCache) :
    Option (ThresholdState × ThresholdConditionCache) := do
  let parent := periodParent checker pindexPrev
  let (cache, known, vToCompute) ← walkBackward checker (parent.length + 1) cache parent []
  let state ← cache known
  return walkForward checker cache state vToCompute

/-- Walks back over whole periods while their state is the initial one. -/
def walkSince (initialState : ThresholdState) : Nat → IndexPointer → ThresholdConditionCache →
    Option (Int × ThresholdConditionCache)
  | 0, _, _ => none
  | _ + 1, [], _ => none
  | fuel + 1, block :: older, cache =>
    let previousPeriodParent := getAncestor (block :: older) (block.nHeight - checker.period)
    if previousPeriodParent = [] then some (block.nHeight + 1, cache)
    else do
      let (state, cache) ← getStateFor checker previousPeriodParent cache
      if state = initialState then walkSince initialState fuel previousPeriodParent cache
      else return (block.nHeight + 1, cache)

def getStateSinceHeightFor (cache : ThresholdConditionCache) :
    Option (Int × ThresholdConditionCache) := do
  let (initialState, cache) ← getStateFor checker pindexPrev cache
  if initialState = .defined then return (0, cache)
  else walkSince checker initialState (pindexPrev.length + 1) (periodParent checker pindexPrev) cache

/-- The cache after a sequence of calls. -/
def cacheAfter (calls : List IndexPointer) : Option ThresholdConditionCache :=
  calls.foldlM (fun cache pindexPrev => (getStateFor checker pindexPrev cache).map Prod.snd) fun _ => none

end Checker

structure BIP9Deployment where
  bit : Nat
  nStartTime : Int
  nTimeout : Int
  nOverrideRuleChangeActivationThreshold : UInt32
  nOverrideMinerConfirmationWindow : UInt32

/-- The parameters the witness deployment depends on. -/
structure DeploymentParams where
  nRuleChangeActivationThreshold : UInt32
  nMinerConfirmationWindow : UInt32
  BIP102HeightDelta : Int
  segwit : BIP9Deployment

def versionbitsTopBits : BitVec 32 := 0x20000000

def versionbitsTopMask : BitVec 32 := 0xE0000000

def BIP9Deployment.mask (deployment : BIP9Deployment) : BitVec 32 := 1 <<< deployment.bit

variable (params : DeploymentParams)

/-- The threshold logic of the witness deployment. -/
def DeploymentParams.checker : ThresholdConditionChecker where
  condition := fun pindex => pindex.nVersion.toBitVec &&& versionbitsTopMask == versionbitsTopBits &&
    pindex.nVersion.toBitVec &&& params.segwit.mask != 0
  beginTime := params.segwit.nStartTime
  endTime := params.segwit.nTimeout
  period :=
    if params.segwit.nOverrideMinerConfirmationWindow > 0 then params.segwit.nOverrideMinerConfirmationWindow.toNat
    else params.nMinerConfirmationWindow.toNat
  threshold :=
    if params.segwit.nOverrideRuleChangeActivationThreshold > 0 then
      params.segwit.nOverrideRuleChangeActivationThreshold.toNat
    else params.nRuleChangeActivationThreshold.toNat

variable (pindexPrev : IndexPointer)

def versionBitsState (cache : ThresholdConditionCache) :
    Option (ThresholdState × ThresholdConditionCache) :=
  getStateFor params.checker pindexPrev cache

def isWitnessEnabled (cache : ThresholdConditionCache) :
    Option (Bool × ThresholdConditionCache) := do
  let (state, cache) ← versionBitsState params pindexPrev cache
  return (state == .active, cache)

/-- The assertion needs a block. -/
def isWitnessSeasoned (cache : ThresholdConditionCache) :
    Option (Bool × ThresholdConditionCache) :=
  match pindexPrev with
  | [] => none
  | block :: _ => do
    let nHeight := block.nHeight + 1
    let pindexForkBuffer := getAncestor pindexPrev (nHeight - params.BIP102HeightDelta)
    let (state, cache) ← versionBitsState params pindexForkBuffer cache
    return (state == .active, cache)

end Straks.VersionBits
