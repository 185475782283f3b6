import Straks.Construction.Net.PartialBlock

namespace Straks.Net
open Chain Function

abbrev NodeId := Int

def maxBlocksInTransitPerPeer : Nat := 16

/-- An entry of `mapBlocksInFlight` with its queued part. -/
structure BlockInFlight where
  nodeid : NodeId
  partialBlock : Option PartiallyDownloadedBlock

/-- The blocks requested from a peer, in order. -/
structure CNodeState where
  vBlocksInFlight : List Uint256
  nBlocksInFlight : Nat

/-- What the node remembers about requested blocks. -/
structure DownloadState where
  mapBlocksInFlight : Uint256 → Option BlockInFlight
  nodeState : NodeId → CNodeState

/-- No block has been requested. -/
def DownloadState.initial : DownloadState := ⟨fun _ => none, fun _ => ⟨[], 0⟩⟩

/-- What handling an event does outside of the download state. -/
inductive Effect where
  | getHeaders
  | getData (hashes : List Uint256)
  | getBlockTxn (blockhash : Uint256) (indexes : List Nat)
  | misbehaving (howmuch : Nat)
  | processNewBlock (block : CBlock) (fForceProcessing : Bool)

/-- The distinct blocks of a branch, in the order of a loop. -/
structure BranchWalk where
  blocks : List Uint256
  nodup : blocks.Nodup

namespace DownloadState

variable (state : DownloadState) (hash : Uint256)

def inFlight : Bool := (state.mapBlocksInFlight hash).isSome

/-- The partial block of a queued block is replaced. -/
def setPartialBlock (entry : BlockInFlight)
    (partialBlock : PartiallyDownloadedBlock) : DownloadState :=
  { state with
    mapBlocksInFlight :=
      update state.mapBlocksInFlight hash (some { entry with partialBlock := some partialBlock }) }

def markBlockAsReceived : Bool × DownloadState :=
  match state.mapBlocksInFlight hash with
  | none => (false, state)
  | some entry =>
    let node := state.nodeState entry.nodeid
    (true,
      { mapBlocksInFlight := update state.mapBlocksInFlight hash none
        nodeState := update state.nodeState entry.nodeid
          ⟨node.vBlocksInFlight.erase hash, node.nBlocksInFlight - 1⟩ })

variable (nodeid : NodeId)

/-- The block is queued for the peer behind the others. -/
def queueBlock (hash : Uint256) (entry : BlockInFlight) : DownloadState :=
  let node := state.nodeState nodeid
  { mapBlocksInFlight := update state.mapBlocksInFlight hash (some entry)
    nodeState := update state.nodeState nodeid
      ⟨node.vBlocksInFlight ++ [hash], node.nBlocksInFlight + 1⟩ }

/-- Whether the block is newly in flight from this peer. Only for a caller asking for the entry it gets a partial
block. -/
def markBlockAsInFlight (hash : Uint256) (pit : Bool) :
    Except DownloadError (Bool × BlockInFlight × DownloadState) :=
  match (state.mapBlocksInFlight hash).filter fun entry => entry.nodeid == nodeid with
  -- the entry is written through `pit` before it is known not to be null
  | some entry => if pit then .ok (false, entry, state) else .error .undefined
  | none =>
    let entry : BlockInFlight := ⟨nodeid, if pit then some .new else none⟩
    .ok (true, entry, (state.markBlockAsReceived hash).2.queueBlock nodeid hash entry)

/-- Blocks are requested in order until the peer has too many. -/
def fetchBlocks (pfrom : NodeId) : List Uint256 → DownloadState → Except DownloadError (List Uint256 × DownloadState)
  | [], state => .ok ([], state)
  | hash :: rest, state =>
    if (state.nodeState pfrom).nBlocksInFlight ≥ maxBlocksInTransitPerPeer then .ok ([], state)
    else do
      let (_, _, state) ← state.markBlockAsInFlight pfrom hash false
      let (vGetData, state) ← fetchBlocks pfrom rest state
      .ok (hash :: vGetData, state)

/-- The download part of "headers". The walk leads from the last header over blocks without data to the active chain,
and is empty when nothing is fetched directly. -/
def directFetch (pfrom : NodeId) (walk : BranchWalk) :
    Except DownloadError (DownloadState × List Effect) := do
  let vToFetch := (walk.blocks.filter fun hash => !state.inFlight hash).take (maxBlocksInTransitPerPeer + 1)
  let (vGetData, state) ← fetchBlocks pfrom vToFetch.reverse state
  .ok (state, if vGetData.isEmpty then [] else [.getData vGetData])

/-- The download part of `SendMessages`, over the visited blocks. -/
def sendMessages (pto : NodeId) (walk : BranchWalk) :
    Except DownloadError (DownloadState × List Effect) := do
  let count := maxBlocksInTransitPerPeer - (state.nodeState pto).nBlocksInFlight
  let vToDownload := (walk.blocks.filter fun hash => !state.inFlight hash).take count
  let (vGetData, state) ← fetchBlocks pto vToDownload state
  .ok (state, if vGetData.isEmpty then [] else [.getData vGetData])

def finalizeNode : DownloadState where
  mapBlocksInFlight hash :=
    if (state.nodeState nodeid).vBlocksInFlight.contains hash then none else state.mapBlocksInFlight hash
  nodeState := update state.nodeState nodeid ⟨[], 0⟩

/-- The peer can be asked for the transactions of the block. -/
def mayFetchFrom (pfrom : NodeId) (hash : Uint256) : Bool :=
  match state.mapBlocksInFlight hash with
  | none => decide ((state.nodeState pfrom).nBlocksInFlight < maxBlocksInTransitPerPeer)
  | some entry => entry.nodeid == pfrom

end DownloadState

/-- The positions for which `IsTxAvailable` returns false. -/
def missingIndexes (partialBlock : PartiallyDownloadedBlock) : List Nat → Except DownloadError (List Nat)
  | [] => .ok []
  | i :: rest => do
    let available ← partialBlock.isTxAvailable i
    let indexes ← missingIndexes partialBlock rest
    .ok (if available then indexes else i :: indexes)

/-- The handler of "blocktxn". -/
def processBlockTxn (env : BlockEnv) (state : DownloadState) (pfrom : NodeId) (resp : BlockTransactions) :
    Except DownloadError (DownloadState × List Effect) :=
  match state.mapBlocksInFlight resp.blockhash with
  | none => .ok (state, [])
  | some ⟨_, none⟩ => .ok (state, [])
  | some ⟨nodeid, some partialBlock⟩ =>
    if nodeid ≠ pfrom then .ok (state, [])
    else do
      let filled ← partialBlock.fillBlock env resp.txn
      let state := state.setPartialBlock resp.blockhash ⟨nodeid, some partialBlock⟩ filled.partialBlock
      match filled.result with
      -- the message loop catches the exception
      | .threw => .ok (state, [])
      | .returned .invalid => .ok ((state.markBlockAsReceived resp.blockhash).2, [.misbehaving 100])
      | .returned .failed => .ok (state, [.getData [resp.blockhash]])
      | .returned _ =>
        .ok ((state.markBlockAsReceived resp.blockhash).2,
          filled.block.toList.map fun block => .processNewBlock block true)

/-- What the node answers while a compact block is handled. -/
structure CmpctView where
  sources : TxSources
  env : BlockEnv
  /-- The block before is in `mapBlockIndex`. -/
  prevKnown : Bool
  /-- The score when `ProcessNewBlockHeaders` finds the header invalid. -/
  headerInvalid : Option Nat
  fHaveData : Bool
  nChainWork : Nat
  nTx : Nat
  nHeight : Int
  tipChainWork : Nat
  tipHeight : Int
  canDirectFetch : Bool
  isWitnessEnabled : Bool
  fSupportsDesiredCmpctVersion : Bool
  /-- The block has valid transactions after `ProcessNewBlock`. -/
  validAfterwards : Bool
  /-- What the handler of "headers" would fetch. -/
  walk : BranchWalk

variable (view : CmpctView) (state : DownloadState) (pfrom : NodeId) (hash : Uint256)

/-- The compact block's transactions are looked up, then requested or put together. -/
def readCompactBlock
    (entry : BlockInFlight) (cmpctblock : CBlockHeaderAndShortTxIDs) :
    Except DownloadError (DownloadState × List Effect) := do
  let (status, partialBlock) ← (entry.partialBlock.getD .new).initData view.sources cmpctblock
  let state := state.setPartialBlock hash entry partialBlock
  match status with
  | .invalid => .ok ((state.markBlockAsReceived hash).2, [.misbehaving 100])
  | .failed => .ok (state, [.getData [hash]])
  | _ =>
    let indexes ← missingIndexes partialBlock (List.range cmpctblock.blockTxCount)
    -- with nothing to request the handler of "blocktxn" goes on
    if indexes.isEmpty then processBlockTxn view.env state pfrom ⟨hash, []⟩
    else .ok (state, [.getBlockTxn hash indexes])

variable (cmpctblock : CBlockHeaderAndShortTxIDs)

/-- The block is queued for the peer, unless its compact block is being completed. -/
def fetchCompactBlock : Except DownloadError (DownloadState × List Effect) := do
  let (added, entry, state) ← state.markBlockAsInFlight pfrom hash true
  if !added && entry.partialBlock.isSome then .ok (state, [])
  else readCompactBlock view state pfrom hash entry cmpctblock

/-- The block is built without a request if nothing is missing. -/
def reconstructBlock :
    Except DownloadError (DownloadState × List Effect) := do
  let (status, tempBlock) ← PartiallyDownloadedBlock.new.initData view.sources cmpctblock
  if status ≠ .ok then .ok (state, [])
  else
    let filled ← tempBlock.fillBlock view.env []
    match filled.result, filled.block with
    | .returned .ok, some block =>
      let received := state.markBlockAsReceived (view.env.getBlockHash block.toCBlockHeader)
      .ok (if view.validAfterwards then received.2 else state, [.processNewBlock block true])
    | _, _ => .ok (state, [])

/-- The handler of "cmpctblock". -/
def processCmpctBlock : Except DownloadError (DownloadState × List Effect) :=
  let hash := view.env.getBlockHash cmpctblock.header
  if !view.prevKnown then .ok (state, if view.env.isInitialBlockDownload then [] else [.getHeaders])
  else match view.headerInvalid with
  | some nDoS => .ok (state, if nDoS > 0 then [.misbehaving nDoS] else [])
  | none =>
    if view.fHaveData then .ok (state, [])
    else if view.nChainWork ≤ view.tipChainWork ∨ view.nTx ≠ 0 then
      .ok (state, if state.inFlight hash then [.getData [hash]] else [])
    else if !state.inFlight hash && !view.canDirectFetch then .ok (state, [])
    else if view.isWitnessEnabled && !view.fSupportsDesiredCmpctVersion then .ok (state, [])
    else if view.nHeight ≤ view.tipHeight + 2 then
      if state.mayFetchFrom pfrom hash then fetchCompactBlock view state pfrom hash cmpctblock
      else reconstructBlock view state cmpctblock
    else if state.inFlight hash then .ok (state, [.getData [hash]])
    else state.directFetch pfrom view.walk

/-- The handler of "block". -/
def processBlock (block : CBlock) (forceProcessing : Bool) :
    DownloadState × List Effect :=
  let received := state.markBlockAsReceived hash
  (received.2, [.processNewBlock block (forceProcessing || received.1)])

/-- What changes the download state: messages of peers, requests, and the end of a connection. -/
inductive Event where
  | cmpctblock (view : CmpctView) (pfrom : NodeId) (cmpctblock : CBlockHeaderAndShortTxIDs)
  | blocktxn (env : BlockEnv) (pfrom : NodeId) (resp : BlockTransactions)
  | block (env : BlockEnv) (block : CBlock) (fWhitelisted : Bool)
  | headers (pfrom : NodeId) (walk : BranchWalk)
  | sendMessages (pto : NodeId) (walk : BranchWalk)
  | finalizeNode (nodeid : NodeId)

def processEvent : Event → Except DownloadError (DownloadState × List Effect)
  | .cmpctblock view pfrom cmpctblock => processCmpctBlock view state pfrom cmpctblock
  | .blocktxn env pfrom resp => processBlockTxn env state pfrom resp
  | .block env block fWhitelisted =>
    .ok (processBlock state (env.getBlockHash block.toCBlockHeader) block
      (fWhitelisted && !env.isInitialBlockDownload))
  | .headers pfrom walk => state.directFetch pfrom walk
  | .sendMessages pto walk => state.sendMessages pto walk
  | .finalizeNode nodeid => .ok (state.finalizeNode nodeid, [])

/-- The download state after an event. -/
def downloadStep (event : Event) : Except DownloadError DownloadState :=
  (processEvent state event).map Prod.fst

end Straks.Net
