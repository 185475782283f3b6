import Straks.Construction.Activation.BlockIndex
import Straks.Library.Candidates
import Mathlib.Algebra.Ring.Nat

namespace Straks.Activation

inductive ChainError where
  | assertion
  /-- A loop of the source does not end within the allowed turns. -/
  | outOfFuel
  deriving DecidableEq, Repr

/-- Walks down to the active chain for the first unusable block. -/
def findUnusable (state : ChainState) : List Uint256 → Except ChainError (Option Uint256)
  | [] => .ok none
  | pindexTest :: below =>
    if state.contains pindexTest then .ok none
    else if (state.index pindexTest).nChainTx = 0 ∧ (state.index pindexTest).nHeight ≠ 0 then .error .assertion
    else if (state.index pindexTest).failed || !(state.index pindexTest).fHaveData then .ok (some pindexTest)
    else findUnusable state below

/-- A block above an unusable one is no candidate; above a missing one it waits. -/
def removeUnusable (fFailedChain : Bool) (state : ChainState) (pindexFailed : Uint256) : ChainState :=
  if fFailedChain then
    (state.modify pindexFailed fun entry => { entry with fFailedChild := true }).eraseCandidate pindexFailed
  else
    { state with
      mapBlocksUnlinked := state.mapBlocksUnlinked ++
        ((state.index pindexFailed).pprev.map fun prev => (prev, pindexFailed)).toList }.eraseCandidate pindexFailed

/-- Takes the blocks from the best candidate down to the unusable one out. -/
def removeBranch (state : ChainState) (pindexNew pindexTest : Uint256) : ChainState :=
  (((state.branch pindexNew).takeWhile (· ≠ pindexTest)).foldl
    (removeUnusable (state.index pindexTest).failed) state).eraseCandidate pindexTest

/-- `CChain::FindFork`: the last block shared with the active chain. -/
def findFork (state : ChainState) (pindex : Uint256) : Option Uint256 :=
  ((state.branch pindex).drop ((state.branch pindex).length - state.chainActive.length)).find? state.contains

/-- The assertion of `InvalidChainFound`. -/
def invalidChainFound (state : ChainState) : Except ChainError Unit :=
  if state.tip = none then .error .assertion else .ok ()

def invalidBlockFound (state : ChainState) (pindex : Uint256) (corruptionPossible : Bool) :
    Except ChainError ChainState :=
  if corruptionPossible then .ok state
  else do
    let marked := (state.modify pindex fun entry => { entry with fFailedValid := true }).eraseCandidate pindex
    invalidChainFound marked
    return marked

/-- How an attempt to connect a tip ends. -/
inductive Connection where
  | connected
  | invalid (corruptionPossible : Bool)
  | systemError
  deriving DecidableEq, Repr

/-- How `ActivateBestChainStep` ends: all blocks of a list connected, a better tip, an invalid block, or a failure. -/
inductive Progress where
  | complete
  | better
  | invalidFound
  | failure
  deriving DecidableEq, Repr

/-- What `ActivateBestChain` returns, and whether a shutdown stopped it. -/
structure ActivationResult where
  fSuccess : Bool
  fInterrupted : Bool
  state : ChainState

section BestChain

variable (env : NodeEnv)

/-- Every turn but the last erases the best candidate. -/
def findMostWorkChain : Nat → ChainState → Except ChainError (Option Uint256 × ChainState)
  | 0, _ => .error .outOfFuel
  | fuel + 1, state =>
    match Candidates.last (state.worse env) state.setBlockIndexCandidates with
    | none => .ok (none, state)
    | some pindexNew => do
      match ← findUnusable state (state.branch pindexNew) with
      | none => return (some pindexNew, state)
      | some pindexTest => findMostWorkChain fuel (removeBranch state pindexNew pindexTest)

variable (state : ChainState)

def pruneBlockIndexCandidates : Except ChainError ChainState :=
  match state.tip with
  | none => .error .assertion
  | some tip =>
    let kept := state.setBlockIndexCandidates.filter fun candidate => !state.worse env candidate tip
    if kept.isEmpty then .error .assertion else .ok { state with setBlockIndexCandidates := kept }

def disconnectTip : Except ChainError (Bool × ChainState) :=
  match state.tip with
  | none => .error .assertion
  | some pindexDelete =>
    if env.systemError state.clock then .ok (false, state.tick)
    else .ok (true, state.tick.setTip (state.index pindexDelete).pprev)

/-- Disconnects blocks until the tip is the fork. -/
def disconnectToFork (pindexFork : Option Uint256) : Nat → ChainState → Except ChainError (Bool × ChainState)
  | 0, _ => .error .outOfFuel
  | fuel + 1, state =>
    if state.tip = none ∨ state.tip = pindexFork then .ok (true, state)
    else do
      let disconnected ← disconnectTip env state
      if disconnected.1 then disconnectToFork pindexFork fuel disconnected.2 else return (false, disconnected.2)

def connectTip (pindexNew : Uint256) : Except ChainError (Connection × ChainState) :=
  if (state.index pindexNew).pprev ≠ state.tip then .error .assertion
  else if env.systemError state.clock then .ok (.systemError, state.tick)
  else match env.connectBlock pindexNew with
  | .valid => .ok (.connected, state.tick.setTip (some pindexNew))
  | .invalid corruptionPossible => do
    let marked ← invalidBlockFound state.tick pindexNew corruptionPossible
    return (.invalid corruptionPossible, marked)

/-- The tip has more work than at the start of the step. -/
def inBetterPosition (pindexOldTip : Option Uint256) : Bool :=
  pindexOldTip.all fun oldTip =>
    state.tip.any fun tip => decide ((state.index tip).nChainWork > (state.index oldTip).nChainWork)

/-- Connects the blocks of one batch, the lowest first. -/
def connectBlocks (pindexOldTip : Option Uint256) :
    ChainState → List Uint256 → Except ChainError (Progress × ChainState)
  | state, [] => .ok (.complete, state)
  | state, pindexConnect :: above => do
    let result ← connectTip env state pindexConnect
    match result.1 with
    | .systemError => return (.failure, result.2)
    | .invalid corruptionPossible =>
      if corruptionPossible then return (.invalidFound, result.2)
      else do
        invalidChainFound result.2
        return (.invalidFound, result.2)
    | .connected => do
      let pruned ← pruneBlockIndexCandidates env result.2
      if inBetterPosition pruned pindexOldTip then return (.better, pruned)
      else connectBlocks pindexOldTip pruned above

/-- Connects batches of 32 blocks. -/
def connectBatches (pindexOldTip : Option Uint256) :
    Nat → ChainState → List Uint256 → Except ChainError (Progress × ChainState)
  | 0, _, _ => .error .outOfFuel
  | fuel + 1, state, vpindexToConnect =>
    if vpindexToConnect.isEmpty then .ok (.complete, state)
    else do
      let result ← connectBlocks env pindexOldTip state (vpindexToConnect.take 32)
      if result.1 = .complete then connectBatches pindexOldTip fuel result.2 (vpindexToConnect.drop 32)
      else return result

def activateBestChainStep (pindexMostWork : Uint256) :
    Except ChainError (Progress × ChainState) := do
  let pindexFork := findFork state pindexMostWork
  let disconnected ← disconnectToFork env pindexFork (state.chainActive.length + 1) state
  if !disconnected.1 then return (.failure, disconnected.2)
  else
    -- the blocks above the height of the fork, or all of them
    let nShared := (pindexFork.map fun fork => (state.index fork).nHeight + 1).getD 0
    let path := (state.branch pindexMostWork).reverse.drop nShared
    connectBatches env state.tip (path.length + 1) disconnected.2 path

/-- The most work chain worked towards, or else the best candidate. -/
def chooseMostWork (pindexMostWork : Option Uint256) :
    Except ChainError (Option Uint256 × ChainState) :=
  match pindexMostWork with
  | some most => .ok (some most, state)
  | none => findMostWorkChain env (state.setBlockIndexCandidates.length + 1) state

/-- The loop ends when the tip is the block worked towards; then the state is flushed. -/
def activateBestChain : Nat → ChainState → Option Uint256 → Except ChainError ActivationResult
  | 0, _, _ => .error .outOfFuel
  | fuel + 1, state, pindexMostWork =>
    if env.shutdownRequested state.clock then .ok ⟨!env.systemError state.clock, true, state⟩
    else do
      let chosen ← chooseMostWork env state pindexMostWork
      match chosen.1 with
      | none => return ⟨true, false, chosen.2⟩
      | some most =>
        if chosen.2.tip = some most then return ⟨true, false, chosen.2⟩
        else do
          let step ← activateBestChainStep env chosen.2 most
          if step.1 = .failure then return ⟨false, false, step.2⟩
          else
            let next := if step.1 = .invalidFound then none else some most
            if step.2.tip = next then return ⟨!env.systemError step.2.clock, false, step.2⟩
            else activateBestChain fuel step.2 next

/-- Accepts the block and activates the best chain, with what the source returns. -/
def processNewBlock (fuel : Nat) (state : ChainState) (block : BlockArrival) :
    Except ChainError (Bool × ChainState) :=
  if !block.fChecked then .ok (false, state)
  else
    let accepted := acceptBlock env state block
    if !accepted.1 then .ok (false, accepted.2)
    else do
      let activation ← activateBestChain env fuel accepted.2 none
      return (activation.fSuccess, activation.state)

end BestChain

/-- What can happen to the block tree. -/
inductive Event where
  | headers (headers : List HeaderArrival)
  | block (block : BlockArrival)
  | activate

/-- The transactions the blocks of a history carry. -/
def receivedTransactions (events : List Event) : Nat :=
  (events.map fun event => match event with
    | .block block => block.nTx
    | _ => 0).sum

/-- The states after a history of arrivals, the latest first. -/
inductive History (env : NodeEnv) (genesis : BlockArrival) : List Event → ChainState → Prop where
  | start : History env genesis [] (initBlockIndex env genesis)
  | headers {events : List Event} {state : ChainState} (before : History env genesis events state)
      (headers : List HeaderArrival) :
      History env genesis (.headers headers :: events) (processNewBlockHeaders env state headers)
  | block {events : List Event} {state : ChainState} (before : History env genesis events state)
      (block : BlockArrival) {fuel : Nat} {result : Bool × ChainState}
      (processed : processNewBlock env fuel state block = .ok result) :
      History env genesis (.block block :: events) result.2
  | activate {events : List Event} {state : ChainState} (before : History env genesis events state) {fuel : Nat}
      {result : ActivationResult} (activated : activateBestChain env fuel state none = .ok result) :
      History env genesis (.activate :: events) result.state

/-- The entry without the bits of `BLOCK_FAILED_MASK`. -/
def CBlockIndex.clearFailed (pindex : CBlockIndex) : CBlockIndex :=
  { pindex with fFailedValid := false, fFailedChild := false }

/-- `CBlockIndex::GetAncestor`: the block of the branch at a height, if any. -/
def ChainState.getAncestor (state : ChainState) (hash : Uint256) (height : Nat) : Option Uint256 :=
  if height > (state.index hash).nHeight then none
  else (state.branch hash)[(state.index hash).nHeight - height]?

/-- The tip is about to be disconnected for a block below it. -/
def markTip (state : ChainState) : ChainState :=
  match state.tip with
  | none => state
  | some pindexWalk =>
    (state.modify pindexWalk fun entry => { entry with fFailedChild := true }).eraseCandidate pindexWalk

section Invalidate

variable (env : NodeEnv)

/-- Marks and disconnects the tip while the block is in the active chain. -/
def disconnectInvalid (pindex : Uint256) : Nat → ChainState → Except ChainError (Bool × ChainState)
  | 0, _ => .error .outOfFuel
  | fuel + 1, state =>
    if state.contains pindex then do
      let disconnected ← disconnectTip env (markTip state)
      if disconnected.1 then disconnectInvalid pindex fuel disconnected.2 else return (false, disconnected.2)
    else .ok (true, state)

/-- A usable block no worse than the tip is a candidate again. -/
def readdCandidate (tip : Uint256) (state : ChainState) (hash : Uint256) : ChainState :=
  if (state.index hash).isValid blockValidTransactions && decide ((state.index hash).nChainTx ≠ 0) &&
      !state.worse env hash tip then
    state.insertCandidate hash
  else state

def invalidateBlock (state : ChainState) (pindex : Uint256) : Except ChainError (Bool × ChainState) := do
  let marked := (state.modify pindex fun entry => { entry with fFailedValid := true }).eraseCandidate pindex
  let disconnected ← disconnectInvalid env pindex (state.chainActive.length + 1) marked
  if !disconnected.1 then return (false, disconnected.2)
  else match disconnected.2.tip with
  -- without a tip the source follows a null pointer
  | none => .error .assertion
  | some tip => do
    let readded := disconnected.2.mapBlockIndex.foldl (readdCandidate env tip) disconnected.2
    invalidChainFound readded
    return (true, readded)

/-- One turn over the index: a descendant loses its marks and may be a candidate again. -/
def reviveBlock (pindex : Uint256) (state : ChainState) (hash : Uint256) : Except ChainError ChainState :=
  if !(state.index hash).isValid blockValidTransactions &&
      decide (state.getAncestor hash (state.index pindex).nHeight = some pindex) then
    let cleared := state.modify hash CBlockIndex.clearFailed
    if (cleared.index hash).isValid blockValidTransactions && decide ((cleared.index hash).nChainTx ≠ 0) then
      match cleared.tip with
      | none => .error .assertion
      | some tip => .ok (if cleared.worse env tip hash then cleared.insertCandidate hash else cleared)
    else .ok cleared
  else .ok state

/-- The block, its descendants and ancestors lose their marks. -/
def resetBlockFailureFlags (state : ChainState) (pindex : Uint256) : Except ChainError ChainState := do
  let revived ← state.mapBlockIndex.foldlM (reviveBlock env pindex) state
  return (revived.branch pindex).foldl (fun state hash => state.modify hash CBlockIndex.clearFailed) revived

/-- The remote call. A failed disconnection may leave an error, and then no chain is activated. -/
def invalidateblock (fuel : Nat) (state : ChainState) (hash : Uint256) (fStateError : Bool) :
    Except ChainError ChainState :=
  if state.mapBlockIndex.contains hash then do
    let invalidated ← invalidateBlock env state hash
    if !invalidated.1 && fStateError then return invalidated.2
    else do
      let activation ← activateBestChain env fuel invalidated.2 none
      return activation.state
  else .ok state

def reconsiderblock (fuel : Nat) (state : ChainState) (hash : Uint256) : Except ChainError ChainState :=
  if state.mapBlockIndex.contains hash then do
    let reset ← resetBlockFailureFlags env state hash
    let activation ← activateBestChain env fuel reset none
    return activation.state
  else .ok state

end Invalidate

/-- What the network and operator ask of the block index. -/
inductive Operation where
  | event (event : Event)
  | invalidateblock (hash : Uint256) (fStateError : Bool)
  | reconsiderblock (hash : Uint256)

/-- An operation of a node with a fixed genesis block, with the node's answers and the turns of the activation. -/
structure Request (hashGenesisBlock : Uint256) where
  env : NodeEnv
  genesis : env.hashGenesisBlock = hashGenesisBlock
  fuel : Nat
  operation : Operation

def handleEvent (env : NodeEnv) (fuel : Nat) (state : ChainState) : Event → Except ChainError ChainState
  | .headers headers => .ok (processNewBlockHeaders env state headers)
  | .block block => do
    let processed ← processNewBlock env fuel state block
    return processed.2
  | .activate => do
    let activation ← activateBestChain env fuel state none
    return activation.state

def handle {hashGenesisBlock : Uint256} (state : ChainState) (request : Request hashGenesisBlock) :
    Except ChainError ChainState :=
  match request.operation with
  | .event event => handleEvent request.env request.fuel state event
  | .invalidateblock hash fStateError => invalidateblock request.env request.fuel state hash fStateError
  | .reconsiderblock hash => reconsiderblock request.env request.fuel state hash

end Straks.Activation
