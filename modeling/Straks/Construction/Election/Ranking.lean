import Straks.Construction.Election.Announcement
import Straks.Library.Ranking

namespace Straks.Election

open Ranking

/-- The hashes of the active chain, the tip first. -/
abbrev ActiveChain := List Uint256

abbrev BlockHashes := AList fun _ : Int => Uint256

/-- The walk from the tip ends above the genesis block. -/
def readBack (nBlocksAgo : Int) : Int → ActiveChain → Option Uint256
  | n, hash :: below :: rest => if n ≥ nBlocksAgo then some hash else readBack nBlocksAgo (n + 1) (below :: rest)
  | _, _ => none

/-- Answers are remembered under the height asked for. -/
def getBlockHash (chainActive : ActiveChain) (nBlockHeight : Int) : StateM BlockHashes (Option Uint256) :=
  fun mapCacheBlockHashes =>
    if chainActive.isEmpty then (none, mapCacheBlockHashes)
    else
      let nHeight : Int := chainActive.length - 1
      let nBlockHeight := if nBlockHeight = 0 then nHeight else nBlockHeight
      match mapCacheBlockHashes.lookup nBlockHeight with
      | some hash => (some hash, mapCacheBlockHashes)
      | none =>
        if nHeight = 0 ∨ nHeight + 1 < nBlockHeight then (none, mapCacheBlockHashes)
        else
          match readBack (if nBlockHeight > 0 then nHeight + 1 - nBlockHeight else 0) 0 chainActive with
          | some hash => (some hash, mapCacheBlockHashes.insert nBlockHeight hash)
          | none => (none, mapCacheBlockHashes)

/-- The hash of one number, and of one number followed by another. -/
structure ScoreHash where
  hash : Uint256 → Uint256
  hashPair : Uint256 → Uint256 → Uint256

/-- The distance of the block's hashes with and without the collateral. -/
def scoreDistance (hashes : ScoreHash) (hash : Uint256) (vin : CTxIn) : Uint256 :=
  let aux := vin.prevout.hash + BitVec.ofNat 256 vin.prevout.n.toNat
  let hash2 := hashes.hash hash
  let hash3 := hashes.hashPair hash aux
  if hash3 > hash2 then hash3 - hash2 else hash2 - hash3

def calculateScore (hashes : ScoreHash) (chainActive : ActiveChain) (vin : CTxIn) (nBlockHeight : Int) :
    StateM BlockHashes Uint256 := do
  if chainActive.isEmpty then return 0
  else
    match ← getBlockHash chainActive nBlockHeight with
    | some hash => return scoreDistance hashes hash vin
    | none => return 0

/-- Only the first four bytes of a score are compared. -/
def scoreWord (score : Uint256) : Nat := score.toNat % 2 ^ 32

/-- What a node brings to a ranking. -/
structure Ranker where
  env : Env
  hashes : ScoreHash
  chainActive : ActiveChain
  view : View

/-- The entry after the scan: only active masternodes are checked. -/
def Ranker.visit (ranker : Ranker) (fOnlyActive : Bool) (mn : CMasternode) : CMasternode :=
  if fOnlyActive then mn.check ranker.env ranker.view else mn

/-- The scan for a ranking: the list afterwards, and the eligible scores. -/
def Ranker.scan (ranker : Ranker) (nBlockHeight minProtocol : Int) (fOnlyActive : Bool) :
    List CMasternode → StateM BlockHashes (List CMasternode × List (Nat × CTxIn))
  | [] => return ([], [])
  | mn :: rest => do
    if mn.protocolVersion < minProtocol then
      let (entries, scores) ← ranker.scan nBlockHeight minProtocol fOnlyActive rest
      return (mn :: entries, scores)
    else if fOnlyActive && !(ranker.visit fOnlyActive mn).isEnabled then
      let (entries, scores) ← ranker.scan nBlockHeight minProtocol fOnlyActive rest
      return (ranker.visit fOnlyActive mn :: entries, scores)
    else
      let n ← calculateScore ranker.hashes ranker.chainActive mn.vin nBlockHeight
      let (entries, scores) ← ranker.scan nBlockHeight minProtocol fOnlyActive rest
      return (ranker.visit fOnlyActive mn :: entries, (scoreWord n, mn.vin) :: scores)

def rankOf (vin : CTxIn) : Int → List CTxIn → Int
  | _, [] => -1
  | rank, other :: rest => if sameTxIn other vin then rank + 1 else rankOf vin (rank + 1) rest

def getMasternodeRank (ranker : Ranker) (sorter : Sorter Nat CTxIn) (man : MasternodeMan) (vin : CTxIn)
    (nBlockHeight minProtocol : Int) (fOnlyActive : Bool) : StateM BlockHashes (Int × MasternodeMan) := do
  match ← getBlockHash ranker.chainActive nBlockHeight with
  | none => return (-1, man)
  | some _ =>
    let (entries, scores) ← ranker.scan nBlockHeight minProtocol fOnlyActive man.vMasternodes
    return (rankOf vin 0 ((sorter.sort scores).map Prod.snd), { man with vMasternodes := entries })

def inputAtRank (nRank : Int) : Int → List CTxIn → Option CTxIn
  | _, [] => none
  | rank, vin :: rest => if rank + 1 = nRank then some vin else inputAtRank nRank (rank + 1) rest

/-- Unlike `getMasternodeRank`, the function does not test that the block is known. -/
def getMasternodeByRank (ranker : Ranker) (sorter : Sorter Nat CTxIn) (man : MasternodeMan)
    (nRank nBlockHeight minProtocol : Int) (fOnlyActive : Bool) :
    StateM BlockHashes (Option CMasternode × MasternodeMan) := do
  let (entries, scores) ← ranker.scan nBlockHeight minProtocol fOnlyActive man.vMasternodes
  let man := { man with vMasternodes := entries }
  return ((inputAtRank nRank 0 ((sorter.sort scores).map Prod.snd)).bind man.find, man)

/-- The chain changes at its tip, and hashes are asked for. -/
inductive ChainEvent where
  | connectTip (hash : Uint256)
  | disconnectTip
  | query (nBlockHeight : Int)

structure ChainNode where
  chainActive : ActiveChain
  mapCacheBlockHashes : BlockHashes

def ChainNode.start : ChainNode := ⟨[], ∅⟩

/-- Nothing but a query touches the remembered answers. -/
def ChainNode.step (node : ChainNode) : ChainEvent → ChainNode
  | .connectTip hash => { node with chainActive := hash :: node.chainActive }
  | .disconnectTip => { node with chainActive := node.chainActive.tail }
  | .query nBlockHeight =>
    { node with mapCacheBlockHashes := (getBlockHash node.chainActive nBlockHeight node.mapCacheBlockHashes).2 }

end Straks.Election
