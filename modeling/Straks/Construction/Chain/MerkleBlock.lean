import Straks.Construction.Chain.ConnectBlock
import Straks.Construction.Chain.Merkle

namespace Straks.Chain

/-- A subset of the ids of a block, with the hashes up to its root. -/
structure CPartialMerkleTree where
  nTransactions : Nat
  /-- Whether each visited node is the parent of a matched transaction. -/
  vBits : List Bool
  /-- The hashes of the nodes that are not descended into. -/
  vHash : List Uint256
  fBad : Bool
  deriving DecidableEq

/-- The number of nodes at a height. -/
def calcTreeWidth (nTransactions height : Nat) : Nat := (nTransactions + 2 ^ height - 1) / 2 ^ height

/-- The loop for the first height with a single node. -/
def findHeight (nTransactions : Nat) : Nat → Nat → Nat
  | 0, nHeight => nHeight
  | fuel + 1, nHeight =>
    if calcTreeWidth nTransactions nHeight > 1 then findHeight nTransactions fuel (nHeight + 1) else nHeight

def treeHeight (nTransactions : Nat) : Nat := findHeight nTransactions nTransactions 0

section Tree

variable (hashPair : Uint256 → Uint256 → Uint256)

/-- The hash of a node; at height zero the ids themselves. -/
def calcHash (nTransactions : Nat) (vTxid : List Uint256) : Nat → Nat → Uint256
  | 0, pos => vTxid.getD pos 0
  | height + 1, pos =>
    let left := calcHash nTransactions vTxid height (pos * 2)
    let right :=
      if pos * 2 + 1 < calcTreeWidth nTransactions height then calcHash nTransactions vTxid height (pos * 2 + 1)
      else left
    hashPair left right

/-- Some transaction under the node is matched. -/
def parentOfMatch (nTransactions : Nat) (vMatch : List Bool) (height pos : Nat) : Bool :=
  (List.range' (pos * 2 ^ height) (2 ^ height)).any fun p => decide (p < nTransactions) && vMatch.getD p false

/-- Stores the bits and hashes of the nodes depth first. -/
def traverseAndBuild (vTxid : List Uint256) (vMatch : List Bool) :
    Nat → Nat → CPartialMerkleTree → CPartialMerkleTree
  | 0, pos, tree =>
    { tree with
      vBits := tree.vBits ++ [parentOfMatch tree.nTransactions vMatch 0 pos]
      vHash := tree.vHash ++ [calcHash hashPair tree.nTransactions vTxid 0 pos] }
  | height + 1, pos, tree =>
    let fParentOfMatch := parentOfMatch tree.nTransactions vMatch (height + 1) pos
    let stored := { tree with vBits := tree.vBits ++ [fParentOfMatch] }
    if !fParentOfMatch then
      { stored with vHash := stored.vHash ++ [calcHash hashPair tree.nTransactions vTxid (height + 1) pos] }
    else
      let left := traverseAndBuild vTxid vMatch height (pos * 2) stored
      if pos * 2 + 1 < calcTreeWidth tree.nTransactions height then
        traverseAndBuild vTxid vMatch height (pos * 2 + 1) left
      else left

/-- The partial tree of ids and the mask of the matched ones, with a 32-bit count. -/
def CPartialMerkleTree.build (vTxid : List Uint256) (vMatch : List Bool) : CPartialMerkleTree :=
  let nTransactions := vTxid.length % 4294967296
  traverseAndBuild hashPair vTxid vMatch (treeHeight nTransactions) 0 ⟨nTransactions, [], [], false⟩

/-- What the extraction has used and found so far. -/
structure Extraction where
  nBitsUsed : Nat
  nHashUsed : Nat
  vMatch : List Uint256
  vnIndex : List Nat
  fBad : Bool
  deriving DecidableEq

/-- Uses the next hash; at height zero a marked one is a match. -/
def useHash (vHash : List Uint256) (pos : Nat) (fMatched : Bool) (state : Extraction) : Uint256 × Extraction :=
  match vHash[state.nHashUsed]? with
  | none => (0, { state with fBad := true })
  | some hash =>
    let used := { state with nHashUsed := state.nHashUsed + 1 }
    if fMatched then (hash, { used with vMatch := used.vMatch ++ [hash], vnIndex := used.vnIndex ++ [pos] })
    else (hash, used)

/-- Walks over the stored nodes and returns the hash of the node. -/
def traverseAndExtract (tree : CPartialMerkleTree) : Nat → Nat → Extraction → Uint256 × Extraction
  | height, pos, state =>
    match tree.vBits[state.nBitsUsed]? with
    | none => (0, { state with fBad := true })
    | some fParentOfMatch =>
      let visited := { state with nBitsUsed := state.nBitsUsed + 1 }
      match height with
      | 0 => useHash tree.vHash pos fParentOfMatch visited
      | height + 1 =>
        if !fParentOfMatch then useHash tree.vHash pos false visited
        else
          let (left, state) := traverseAndExtract tree height (pos * 2) visited
          if pos * 2 + 1 < calcTreeWidth tree.nTransactions height then
            let (right, state) := traverseAndExtract tree height (pos * 2 + 1) state
            -- the two branches never cover the same transactions
            (hashPair left right, { state with fBad := state.fBad || right == left })
          else (hashPair left left, state)

/-- What `ExtractMatches` returns and leaves; a zero root stands for a failure. -/
structure ExtractedMatches where
  hashMerkleRoot : Uint256
  vMatch : List Uint256
  vnIndex : List Nat
  deriving DecidableEq

/-- The matched ids, their positions and the root. Only the first vector is cleared. -/
def extractMatches (tree : CPartialMerkleTree) (vnIndex : List Nat) : ExtractedMatches :=
  if tree.nTransactions = 0 then ⟨0, [], vnIndex⟩
  else if tree.nTransactions > maxBlockVtx then ⟨0, [], vnIndex⟩
  else if tree.vHash.length > tree.nTransactions then ⟨0, [], vnIndex⟩
  else if tree.vBits.length < tree.vHash.length then ⟨0, [], vnIndex⟩
  else
    let (hashMerkleRoot, state) :=
      traverseAndExtract hashPair tree (treeHeight tree.nTransactions) 0 ⟨0, 0, [], vnIndex, tree.fBad⟩
    if state.fBad then ⟨0, state.vMatch, state.vnIndex⟩
    -- all bits are consumed except for the padding of the last byte
    else if (state.nBitsUsed + 7) / 8 ≠ (tree.vBits.length + 7) / 8 then ⟨0, state.vMatch, state.vnIndex⟩
    else if state.nHashUsed ≠ tree.vHash.length then ⟨0, state.vMatch, state.vnIndex⟩
    else ⟨hashMerkleRoot, state.vMatch, state.vnIndex⟩

end Tree

end Straks.Chain
