import Straks.Construction.Primitives

namespace Straks.Activation

/-- The index fields that decide which chain becomes active. -/
structure CBlockIndex where
  /-- The entries behind `pprev`, the predecessor first. -/
  ancestors : List Uint256
  nChainWork : Nat
  nTx : Nat
  /-- The transactions of the branch in 32 bits; zero while a block is missing. -/
  nChainTx : Nat
  nSequenceId : Int
  /-- The level in the bits of `BLOCK_VALID_MASK`. -/
  nValid : Nat
  fHaveData : Bool
  fFailedValid : Bool
  fFailedChild : Bool
  deriving DecidableEq, Repr

namespace CBlockIndex

/-- A new entry before its first fields are set. -/
def null : CBlockIndex := ⟨[], 0, 0, 0, 0, 0, false, false, false⟩

variable (pindex : CBlockIndex)

def pprev : Option Uint256 := pindex.ancestors.head?

def nHeight : Nat := pindex.ancestors.length

/-- The bits of `BLOCK_FAILED_MASK`. -/
def failed : Bool := pindex.fFailedValid || pindex.fFailedChild

def isValid (nUpTo : Nat) : Bool := !pindex.failed && decide (nUpTo ≤ pindex.nValid)

def raiseValidity (nUpTo : Nat) : CBlockIndex :=
  if pindex.failed then pindex else if pindex.nValid < nUpTo then { pindex with nValid := nUpTo } else pindex

end CBlockIndex

def blockValidTree : Nat := 2

def blockValidTransactions : Nat := 3

def minBlocksToKeep : Nat := 100

/-- What `ConnectBlock` says of a block on top of its branch. -/
inductive Verdict where
  | valid
  | invalid (corruptionPossible : Bool)
  deriving DecidableEq, Repr

/-- What the rest of the node answers: the genesis hash, the addresses of entries, the verdict on each block, system
errors and shutdown requests. -/
structure NodeEnv where
  hashGenesisBlock : Uint256
  address : Uint256 → Nat
  connectBlock : Uint256 → Verdict
  systemError : Nat → Bool
  shutdownRequested : Nat → Bool

/-- The block tree and the active chain. -/
structure ChainState where
  mapBlockIndex : List Uint256
  /-- The entry a hash leads to. -/
  index : Uint256 → CBlockIndex
  /-- The tip comes first. -/
  chainActive : List Uint256
  setBlockIndexCandidates : List Uint256
  mapBlocksUnlinked : List (Uint256 × Uint256)
  nBlockSequenceId : Int
  /-- Counts the attempts to connect or disconnect a tip. -/
  clock : Nat

namespace ChainState

def empty : ChainState := ⟨[], fun _ => CBlockIndex.null, [], [], [], 1, 0⟩

variable (state : ChainState)

def tip : Option Uint256 := state.chainActive.head?

variable (hash : Uint256)

/-- `CChain::Contains`. -/
def contains : Bool := decide (hash ∈ state.chainActive)

/-- A block and the blocks below it. -/
def branch : List Uint256 := hash :: (state.index hash).ancestors

def modify (change : CBlockIndex → CBlockIndex) : ChainState :=
  { state with index := Function.update state.index hash (change (state.index hash)) }

def eraseCandidate : ChainState :=
  { state with setBlockIndexCandidates := state.setBlockIndexCandidates.filter (· ≠ hash) }

def insertCandidate : ChainState :=
  { state with setBlockIndexCandidates := state.setBlockIndexCandidates.insert hash }

def tick : ChainState := { state with clock := state.clock + 1 }

/-- `CChain::SetTip`. -/
def setTip (pindex : Option Uint256) : ChainState :=
  { state with chainActive := (pindex.map state.branch).getD [] }

end ChainState

/-- `CBlockIndexWorkComparator`: the first entry is worse. -/
def ChainState.worse (env : NodeEnv) (state : ChainState) (pa pb : Uint256) : Bool :=
  if (state.index pa).nChainWork > (state.index pb).nChainWork then false
  else if (state.index pa).nChainWork < (state.index pb).nChainWork then true
  -- the earlier one is better
  else if (state.index pa).nSequenceId < (state.index pb).nSequenceId then false
  else if (state.index pa).nSequenceId > (state.index pb).nSequenceId then true
  else if env.address pa < env.address pb then false
  else if env.address pa > env.address pb then true
  else false

/-- A header as `AcceptBlockHeader` sees it. -/
structure HeaderArrival where
  hash : Uint256
  hashPrevBlock : Uint256
  /-- `GetBlockProof`, positive for a target that passed the proof-of-work check. -/
  nProof : Nat
  positive : 0 < nProof
  /-- `CheckBlockHeader`, the checkpoints and `ContextualCheckBlockHeader`. -/
  fAcceptable : Bool

inductive CheckResult where
  | passed
  | rejected (corruptionPossible : Bool)
  deriving DecidableEq, Repr

/-- A block as `ProcessNewBlock` sees it. -/
structure BlockArrival extends HeaderArrival where
  /-- The number of its transactions. -/
  nTx : Nat
  fRequested : Bool
  /-- The first `CheckBlock`. -/
  fChecked : Bool
  /-- `CheckBlock` and `ContextualCheckBlock` in `AcceptBlock`. -/
  check : CheckResult
  /-- A block without transactions is rejected. -/
  nonempty : check = .passed → 0 < nTx

def addToBlockIndex (state : ChainState) (header : HeaderArrival) : ChainState :=
  if header.hash ∈ state.mapBlockIndex then state
  else
    let known := header.hashPrevBlock ∈ state.mapBlockIndex
    let new : CBlockIndex := { CBlockIndex.null with
      ancestors := if known then state.branch header.hashPrevBlock else []
      nChainWork := (if known then (state.index header.hashPrevBlock).nChainWork else 0) + header.nProof }
    { state with
      mapBlockIndex := header.hash :: state.mapBlockIndex
      index := Function.update state.index header.hash (new.raiseValidity blockValidTree) }

section Arrivals

variable (env : NodeEnv) (state : ChainState)

/-- One turn of the loop over the queue of linkable blocks. -/
def linkBlock (pindex : Uint256) : ChainState :=
  let nPrevChainTx := (((state.index pindex).pprev.map state.index).map CBlockIndex.nChainTx).getD 0
  let linked := { state.modify pindex fun entry => { entry with
      nChainTx := (nPrevChainTx + entry.nTx) % 4294967296
      nSequenceId := state.nBlockSequenceId } with nBlockSequenceId := state.nBlockSequenceId + 1 }
  if linked.tip.all fun tip => !linked.worse env pindex tip then linked.insertCandidate pindex else linked

/-- Links the queued blocks and those waiting for them. -/
def linkBlocks : Nat → ChainState → List Uint256 → ChainState
  | 0, state, _ => state
  | _, state, [] => state
  | fuel + 1, state, pindex :: queue =>
    let linked := linkBlock env state pindex
    linkBlocks fuel { linked with
        mapBlocksUnlinked := linked.mapBlocksUnlinked.filter fun pair => pair.1 ≠ pindex }
      (queue ++ (linked.mapBlocksUnlinked.filter fun pair => pair.1 = pindex).map Prod.snd)

/-- The block is genesis, or its predecessor is linked. -/
def prevLinked (pindex : Uint256) : Bool :=
  (state.index pindex).pprev.all fun prev => (state.index prev).nChainTx ≠ 0

def receivedBlockTransactions (pindexNew : Uint256) (nTx : Nat) : ChainState :=
  let stored := state.modify pindexNew fun entry =>
    { entry with nTx := nTx, nChainTx := 0, fHaveData := true }.raiseValidity blockValidTransactions
  if prevLinked stored pindexNew then linkBlocks env (stored.mapBlocksUnlinked.length + 1) stored [pindexNew]
  else match (stored.index pindexNew).pprev with
  | some prev =>
    if (stored.index prev).isValid blockValidTree then
      { stored with mapBlocksUnlinked := stored.mapBlocksUnlinked ++ [(prev, pindexNew)] }
    else stored
  | none => stored

def acceptBlockHeader (header : HeaderArrival) : Bool × ChainState :=
  if header.hash ≠ env.hashGenesisBlock then
    if header.hash ∈ state.mapBlockIndex then (!(state.index header.hash).failed, state)
    else if !header.fAcceptable then (false, state)
    else if header.hashPrevBlock ∉ state.mapBlockIndex then (false, state)
    else if (state.index header.hashPrevBlock).failed then (false, state)
    else (true, addToBlockIndex state header)
  else (true, addToBlockIndex state header)

/-- An unrequested block is processed only if new, with more work than the tip and near it. -/
def fUnwanted (block : BlockArrival) : Bool :=
  !block.fRequested && (decide ((state.index block.hash).nTx ≠ 0) ||
    (state.tip.any fun tip => (state.index block.hash).nChainWork ≤ (state.index tip).nChainWork) ||
    decide ((state.index block.hash).nHeight + 1 > state.chainActive.length + minBlocksToKeep))

def acceptBlock (block : BlockArrival) : Bool × ChainState :=
  let header := acceptBlockHeader env state block.toHeaderArrival
  if !header.1 then (false, header.2)
  else if (header.2.index block.hash).fHaveData || fUnwanted header.2 block then (true, header.2)
  else match block.check with
  | .rejected corruptionPossible =>
    (false, if corruptionPossible then header.2
      else header.2.modify block.hash fun entry => { entry with fFailedValid := true })
  | .passed => (true, receivedBlockTransactions env header.2 block.hash block.nTx)

/-- Stops at the first header that is not accepted. -/
def processNewBlockHeaders (state : ChainState) : List HeaderArrival → ChainState
  | [] => state
  | header :: rest =>
    let accepted := acceptBlockHeader env state header
    if accepted.1 then processNewBlockHeaders accepted.2 rest else accepted.2

/-- The genesis block is stored but not yet connected. -/
def initBlockIndex (genesis : BlockArrival) : ChainState :=
  receivedBlockTransactions env (addToBlockIndex ChainState.empty genesis.toHeaderArrival) genesis.hash genesis.nTx

end Arrivals

end Straks.Activation
