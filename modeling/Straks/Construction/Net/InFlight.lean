import Straks.Construction.Primitives
import Mathlib.Data.Finset.Basic
import Mathlib.Data.List.AList

namespace Straks.Net.InFlight

abbrev NodeId := Int

/-- A queued block. Iterators refer to its list node. -/
structure QueuedBlock where
  address : Nat
  hash : Uint256
  fValidatedHeaders : Bool
  deriving DecidableEq

structure CNodeState where
  vBlocksInFlight : List QueuedBlock
  nBlocksInFlight : Int
  nBlocksInFlightValidHeaders : Int
  fPreferredDownload : Bool

/-- A peer that has just connected. -/
def CNodeState.new : CNodeState := ⟨[], 0, 0, false⟩

/-- What the node remembers about peers and requested blocks. -/
structure DownloadState where
  /-- The keys of `mapNodeState`; `nodeState` has its values. -/
  connected : Finset NodeId
  nodeState : NodeId → CNodeState
  mapBlocksInFlight : AList fun _ : Uint256 => NodeId × Nat
  nPreferredDownload : Int
  nPeersWithValidatedDownloads : Int
  /-- The address of the next list node. -/
  freeAddress : Nat

def DownloadState.initial : DownloadState := ⟨∅, fun _ => .new, ∅, 0, 0, 0⟩

inductive DownloadError where
  /-- An assertion of `FinalizeNode` fails. -/
  | assertion
  /-- An iterator or an entry of the table refers to nothing. -/
  | danglingReference
  /-- The caller names an unconnected peer, or lacks room for a repeated block's iterator. -/
  | misuse
  deriving DecidableEq

namespace DownloadState

variable (state : DownloadState) (nodeid : NodeId)

def setNode (node : CNodeState) : DownloadState :=
  { state with nodeState := Function.update state.nodeState nodeid node }

/-- A peer connects; nothing happens if the number is in use. -/
def initializeNode : DownloadState :=
  if nodeid ∈ state.connected then state
  else { state.setNode nodeid .new with connected := insert nodeid state.connected }

def updatePreferredDownload (fInbound fWhitelisted fOneShot fClient : Bool) :
    Except DownloadError DownloadState :=
  if nodeid ∉ state.connected then .error .misuse
  else
    let node := state.nodeState nodeid
    let fPreferredDownload := (!fInbound || fWhitelisted) && !fOneShot && !fClient
    .ok { state.setNode nodeid { node with fPreferredDownload } with
      nPreferredDownload := state.nPreferredDownload - node.fPreferredDownload.toNat + fPreferredDownload.toNat }

def finalizeNode : Except DownloadError DownloadState :=
  if nodeid ∉ state.connected then .error .misuse
  else
    let node := state.nodeState nodeid
    let later := { state with
      connected := state.connected.erase nodeid
      mapBlocksInFlight := node.vBlocksInFlight.foldl (fun table entry => table.erase entry.hash) state.mapBlocksInFlight
      nPreferredDownload := state.nPreferredDownload - node.fPreferredDownload.toNat
      nPeersWithValidatedDownloads :=
        state.nPeersWithValidatedDownloads - (decide (node.nBlocksInFlightValidHeaders ≠ 0)).toNat }
    if later.nPeersWithValidatedDownloads < 0 then .error .assertion
    else if later.connected = ∅ ∧ ¬ (later.mapBlocksInFlight.keys = [] ∧ later.nPreferredDownload = 0 ∧
        later.nPeersWithValidatedDownloads = 0) then .error .assertion
    else .ok later

/-- The state without the entry, and whether the block was requested. -/
def markBlockAsReceived (hash : Uint256) : Except DownloadError (Bool × DownloadState) :=
  match state.mapBlocksInFlight.lookup hash with
  | none => .ok (false, state)
  | some (nodeid, address) =>
    if nodeid ∉ state.connected then .error .danglingReference
    else
      let node := state.nodeState nodeid
      match node.vBlocksInFlight.find? fun entry => entry.address = address with
      | none => .error .danglingReference
      | some entry =>
        let nBlocksInFlightValidHeaders := node.nBlocksInFlightValidHeaders - entry.fValidatedHeaders.toNat
        .ok (true, { state.setNode nodeid { node with
            vBlocksInFlight := node.vBlocksInFlight.filter fun other => other.address ≠ address
            nBlocksInFlight := node.nBlocksInFlight - 1
            nBlocksInFlightValidHeaders } with
          mapBlocksInFlight := state.mapBlocksInFlight.erase hash
          nPeersWithValidatedDownloads :=
            -- the last validated block of the queue has been received
            if nBlocksInFlightValidHeaders = 0 ∧ entry.fValidatedHeaders then state.nPeersWithValidatedDownloads - 1
            else state.nPeersWithValidatedDownloads })

/-- Requests a block, with or without its index entry and room for the iterator. -/
def markBlockAsInFlight (hash : Uint256) (pindex pit : Bool) :
    Except DownloadError (Bool × DownloadState) :=
  if nodeid ∉ state.connected then .error .misuse
  else if (state.mapBlocksInFlight.lookup hash).any fun place => place.1 = nodeid then
    if pit then .ok (false, state) else .error .misuse
  else do
    let (_, state) ← state.markBlockAsReceived hash
    let node := state.nodeState nodeid
    let nBlocksInFlightValidHeaders := node.nBlocksInFlightValidHeaders + pindex.toNat
    return (true, { state.setNode nodeid { node with
        vBlocksInFlight := node.vBlocksInFlight ++ [⟨state.freeAddress, hash, pindex⟩]
        nBlocksInFlight := node.nBlocksInFlight + 1
        nBlocksInFlightValidHeaders } with
      mapBlocksInFlight := state.mapBlocksInFlight.insert hash (nodeid, state.freeAddress)
      nPeersWithValidatedDownloads := if nBlocksInFlightValidHeaders = 1 ∧ pindex then
        state.nPeersWithValidatedDownloads + 1 else state.nPeersWithValidatedDownloads
      freeAddress := state.freeAddress + 1 })

end DownloadState

inductive Event where
  | initializeNode (nodeid : NodeId)
  | updatePreferredDownload (nodeid : NodeId) (fInbound fWhitelisted fOneShot fClient : Bool)
  | finalizeNode (nodeid : NodeId)
  | markBlockAsInFlight (nodeid : NodeId) (hash : Uint256) (pindex pit : Bool)
  | markBlockAsReceived (hash : Uint256)

def downloadStep (state : DownloadState) : Event → Except DownloadError DownloadState
  | .initializeNode nodeid => .ok (state.initializeNode nodeid)
  | .updatePreferredDownload nodeid fInbound fWhitelisted fOneShot fClient =>
    state.updatePreferredDownload nodeid fInbound fWhitelisted fOneShot fClient
  | .finalizeNode nodeid => state.finalizeNode nodeid
  | .markBlockAsInFlight nodeid hash pindex pit => (state.markBlockAsInFlight nodeid hash pindex pit).map Prod.snd
  | .markBlockAsReceived hash => (state.markBlockAsReceived hash).map Prod.snd

end Straks.Net.InFlight
