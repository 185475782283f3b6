import Straks.Construction.Chain.ConnectBlock
import Straks.Construction.Serialize.Stream

namespace Straks.Net
open Chain

/-- The results of `InitData` and `FillBlock`. -/
inductive ReadStatus where
  | ok
  /-- The peer sends a bogus object. -/
  | invalid
  | failed
  /-- Only `FillBlock` returns this status. -/
  | checkBlockFailed
  deriving DecidableEq, Repr

/-- The ways in which the partial block code does not return. -/
inductive DownloadError where
  /-- An `assert` fails and the node stops. -/
  | assertion
  /-- A vector is accessed out of bounds, or null is followed. -/
  | undefined
  /-- A loop has no end. -/
  | diverges
  deriving DecidableEq, Repr

/-- The header that `SetNull` leaves. -/
def nullHeader : CBlockHeader := ⟨0, 0, 0, 0, 0, 0⟩

/-- The offset counts from after the last prefilled transaction. -/
structure PrefilledTransaction where
  index : UInt16
  tx : CTransaction

structure CBlockHeaderAndShortTxIDs where
  header : CBlockHeader
  nonce : UInt64
  shorttxids : List UInt64
  prefilledtxn : List PrefilledTransaction

def CBlockHeaderAndShortTxIDs.blockTxCount (cmpctblock : CBlockHeaderAndShortTxIDs) : Nat :=
  cmpctblock.shorttxids.length + cmpctblock.prefilledtxn.length

structure BlockTransactions where
  blockhash : Uint256
  txn : List CTransaction

/-- Where `InitData` looks transactions up, with hash functions and hash table. -/
structure TxSources where
  /-- The two halves of the hash of the header and the nonce. -/
  shortTxIDSelector : CBlockHeader → UInt64 → UInt64 × UInt64
  sipHashUint256 : UInt64 → UInt64 → Uint256 → UInt64
  getWitnessHash : CTransaction → Uint256
  /-- The size of the bucket of a key in a table of these keys. -/
  bucketSize : List UInt64 → UInt64 → Nat
  vTxHashes : List (Uint256 × CTransaction)
  extraTxn : List (Uint256 × CTransaction)

def TxSources.getShortID (sources : TxSources) (cmpctblock : CBlockHeaderAndShortTxIDs) (txhash : Uint256) : UInt64 :=
  let selector := sources.shortTxIDSelector cmpctblock.header cmpctblock.nonce
  sources.sipHashUint256 selector.1 selector.2 txhash &&& 0xffffffffffff

structure PartiallyDownloadedBlock where
  header : CBlockHeader
  txnAvailable : List (Option CTransaction)
  prefilledCount : Nat
  mempoolCount : UInt64
  extraCount : UInt64

def PartiallyDownloadedBlock.new : PartiallyDownloadedBlock := ⟨nullHeader, [], 0, 0, 0⟩

/-- The element of a vector. -/
def readAt {Value : Type} (values : List Value) (position : Nat) : Except DownloadError Value :=
  match values[position]? with
  | some value => .ok value
  | none => .error .undefined

/-- An assignment to an element of a vector. -/
def writeAt {Value : Type} (values : List Value) (position : Nat) (value : Value) :
    Except DownloadError (List Value) :=
  if position < values.length then .ok (values.set position value) else .error .undefined

/-- The loop over the prefilled transactions stops at one null or too far ahead. -/
def placePrefilled (shortCount : Nat) : Nat → Int → List PrefilledTransaction → List (Option CTransaction) →
    Except DownloadError (Bool × List (Option CTransaction))
  | _, _, [], txnAvailable => .ok (true, txnAvailable)
  | i, lastprefilledindex, prefilled :: rest, txnAvailable =>
    let lastprefilledindex := lastprefilledindex + prefilled.index.toNat + 1
    if prefilled.tx.isNull then .ok (false, txnAvailable)
    else if lastprefilledindex > 65535 then .ok (false, txnAvailable)
    else if lastprefilledindex > shortCount + i then .ok (false, txnAvailable)
    else do
      let txnAvailable ← writeAt txnAvailable lastprefilledindex.toNat (some prefilled.tx)
      placePrefilled shortCount (i + 1) lastprefilledindex rest txnAvailable

/-- `while (txn_available[i + index_offset]) index_offset++`. With 16 bits the offset is back after 65536 rounds
without end. -/
def skipAvailable (txnAvailable : List (Option CTransaction)) (i : Nat) :
    Nat → UInt16 → Except DownloadError UInt16
  | 0, _ => .error .diverges
  | rounds + 1, indexOffset => do
    let tx ← readAt txnAvailable (i + indexOffset.toNat)
    if tx.isSome then skipAvailable txnAvailable i rounds (indexOffset + 1) else .ok indexOffset

/-- The positions the short ids stand for. -/
abbrev ShortIds := AList fun _ : UInt64 => UInt16

/-- Each short id gets the next free position, until a bucket becomes too large. -/
def assignPositions (sources : TxSources) (txnAvailable : List (Option CTransaction)) :
    Nat → UInt16 → List UInt64 → ShortIds → Except DownloadError (Bool × ShortIds)
  | _, _, [], shorttxids => .ok (true, shorttxids)
  | i, indexOffset, shortid :: rest, shorttxids => do
    let indexOffset ← skipAvailable txnAvailable i 65536 indexOffset
    let shorttxids := shorttxids.insert shortid (UInt16.ofNat (i + indexOffset.toNat))
    if sources.bucketSize shorttxids.keys shortid > 12 then .ok (false, shorttxids)
    else assignPositions sources txnAvailable (i + 1) indexOffset rest shorttxids

/-- What changes while transactions are matched with short ids. -/
structure Matching where
  txnAvailable : List (Option CTransaction)
  haveTxn : List Bool
  mempoolCount : UInt64
  extraCount : UInt64

variable (matching : Matching) (position : Nat)

/-- A first match takes the position. -/
def Matching.place (tx : CTransaction) : Except DownloadError Matching := do
  let txnAvailable ← writeAt matching.txnAvailable position (some tx)
  let haveTxn ← writeAt matching.haveTxn position true
  .ok ⟨txnAvailable, haveTxn, matching.mempoolCount + 1, matching.extraCount⟩

/-- A second match makes the position one to request. -/
def Matching.reset : Except DownloadError Matching := do
  let txnAvailable ← writeAt matching.txnAvailable position none
  .ok ⟨txnAvailable, matching.haveTxn, matching.mempoolCount - 1, matching.extraCount⟩

/-- A pool transaction whose short id stands for a position. -/
def matchMempoolTx (tx : CTransaction) : Except DownloadError Matching := do
  let matched ← readAt matching.haveTxn position
  if !matched then matching.place position tx
  else
    let found ← readAt matching.txnAvailable position
    if found.isSome then matching.reset position else .ok matching

/-- An extra transaction whose short id stands for a position. -/
def matchExtraTx (sources : TxSources) (matching : Matching) (position : Nat) (tx : CTransaction) :
    Except DownloadError Matching := do
  let matched ← readAt matching.haveTxn position
  if !matched then
    let matching ← matching.place position tx
    .ok { matching with extraCount := matching.extraCount + 1 }
  else
    let found ← readAt matching.txnAvailable position
    -- the same transaction in both pools is not a collision
    if found.any fun other => sources.getWitnessHash other != sources.getWitnessHash tx then
      let matching ← matching.reset position
      .ok { matching with extraCount := matching.extraCount - 1 }
    else .ok matching

/-- One round of the loop over a pool. -/
def matchTx (getShortID : Uint256 → UInt64)
    (matchAt : Matching → Nat → CTransaction → Except DownloadError Matching) (shorttxids : ShortIds)
    (matching : Matching) (pooled : Uint256 × CTransaction) : Except DownloadError Matching :=
  match shorttxids.lookup (getShortID pooled.1) with
  | none => .ok matching
  | some position => matchAt matching position.toNat pooled.2

/-- The loop over a pool, ended early when all ids are matched. -/
def matchPool (getShortID : Uint256 → UInt64)
    (matchAt : Matching → Nat → CTransaction → Except DownloadError Matching) (shorttxids : ShortIds) :
    List (Uint256 × CTransaction) → Matching → Except DownloadError Matching
  | [], matching => .ok matching
  | pooled :: rest, matching => do
    let matching ← matchTx getShortID matchAt shorttxids matching pooled
    if matching.mempoolCount = UInt64.ofNat shorttxids.keys.length then .ok matching
    else matchPool getShortID matchAt shorttxids rest matching

namespace PartiallyDownloadedBlock

/-- The part of `InitData` after the prefilled transactions. -/
def matchShortIds (sources : TxSources) (partialBlock : PartiallyDownloadedBlock)
    (cmpctblock : CBlockHeaderAndShortTxIDs) : Except DownloadError (ReadStatus × PartiallyDownloadedBlock) := do
  let (even, shorttxids) ← assignPositions sources partialBlock.txnAvailable 0 0 cmpctblock.shorttxids ∅
  if !even then .ok (.failed, partialBlock)
  -- two of the short ids are the same
  else if shorttxids.keys.length ≠ cmpctblock.shorttxids.length then .ok (.failed, partialBlock)
  else
    let getShortID := sources.getShortID cmpctblock
    let matching ← matchPool getShortID matchMempoolTx shorttxids sources.vTxHashes
      ⟨partialBlock.txnAvailable, List.replicate partialBlock.txnAvailable.length false, partialBlock.mempoolCount,
        partialBlock.extraCount⟩
    let matching ← matchPool getShortID (matchExtraTx sources) shorttxids sources.extraTxn matching
    .ok (.ok, { partialBlock with
      txnAvailable := matching.txnAvailable
      mempoolCount := matching.mempoolCount
      extraCount := matching.extraCount })

def initData (sources : TxSources) (partialBlock : PartiallyDownloadedBlock)
    (cmpctblock : CBlockHeaderAndShortTxIDs) : Except DownloadError (ReadStatus × PartiallyDownloadedBlock) :=
  if cmpctblock.header.isNull ∨ (cmpctblock.shorttxids.isEmpty ∧ cmpctblock.prefilledtxn.isEmpty) then
    .ok (.invalid, partialBlock)
  else if cmpctblock.blockTxCount > maxBlockVtx then .ok (.invalid, partialBlock)
  else if ¬ (partialBlock.header.isNull ∧ partialBlock.txnAvailable.isEmpty) then .error .assertion
  else do
    let (placed, txnAvailable) ← placePrefilled cmpctblock.shorttxids.length 0 (-1) cmpctblock.prefilledtxn
      (List.replicate cmpctblock.blockTxCount none)
    let partialBlock := { partialBlock with header := cmpctblock.header, txnAvailable := txnAvailable }
    if !placed then .ok (.invalid, partialBlock)
    else matchShortIds sources { partialBlock with prefilledCount := cmpctblock.prefilledtxn.length } cmpctblock

def isTxAvailable (partialBlock : PartiallyDownloadedBlock) (index : Nat) : Except DownloadError Bool :=
  if partialBlock.header.isNull then .error .assertion
  else match partialBlock.txnAvailable[index]? with
    | some tx => .ok tx.isSome
    | none => .error .assertion

end PartiallyDownloadedBlock

/-- The loop of `FillBlock`: what is left available, the block's transactions, and what is left of the message, unless
too few. -/
def takeTransactions : List (Option CTransaction) → List CTransaction →
    List (Option CTransaction) × Option (List CTransaction × List CTransaction)
  | [], vtxMissing => ([], some ([], vtxMissing))
  | none :: txnAvailable, [] => (none :: txnAvailable, none)
  | none :: txnAvailable, tx :: vtxMissing =>
    let taken := takeTransactions txnAvailable vtxMissing
    (none :: taken.1, taken.2.map fun filled => (tx :: filled.1, filled.2))
  -- an available transaction is moved out
  | some tx :: txnAvailable, vtxMissing =>
    let taken := takeTransactions txnAvailable vtxMissing
    (none :: taken.1, taken.2.map fun filled => (tx :: filled.1, filled.2))

/-- How a call of `FillBlock` ends. -/
inductive FillResult where
  | returned (status : ReadStatus)
  /-- `CheckBlock` throws an exception. -/
  | threw
  deriving DecidableEq, Repr

/-- The last part of `FillBlock`. -/
def checkFilled (env : BlockEnv) (block : CBlock) : FillResult :=
  match checkBlock env block true true with
  | .ok () => .returned .ok
  | .error (.reject reject) => .returned (if reject.corruptionPossible then .failed else .checkBlockFailed)
  | .error _ => .threw

/-- A result of `FillBlock` with the partial block and the complete block. -/
structure Filled where
  result : FillResult
  partialBlock : PartiallyDownloadedBlock
  block : Option CBlock

def PartiallyDownloadedBlock.fillBlock (env : BlockEnv) (partialBlock : PartiallyDownloadedBlock)
    (vtxMissing : List CTransaction) : Except DownloadError Filled :=
  if partialBlock.header.isNull then .error .assertion
  else match takeTransactions partialBlock.txnAvailable vtxMissing with
    | (txnAvailable, none) =>
      .ok ⟨.returned .invalid, { partialBlock with txnAvailable := txnAvailable }, none⟩
    | (_, some (vtx, left)) =>
      -- `FillBlock` cannot be called again
      let consumed := { partialBlock with header := nullHeader, txnAvailable := [] }
      let block : CBlock := { partialBlock.header with vtx := vtx }
      if !left.isEmpty then .ok ⟨.returned .invalid, consumed, none⟩
      else .ok ⟨checkFilled env block, consumed, some block⟩

open Serialize Wire

/-- The positions of the transactions a node asks for. -/
structure BlockTransactionsRequest where
  blockhash : Uint256
  indexes : List UInt16
  deriving DecidableEq, Repr

def readIndex : Reader StreamError UInt16 := do
  let index ← readCompactSize
  if 0xffff < index then throw .indexOverflowed else return UInt16.ofNat index

/-- Makes indexes of the differences. The offset has 16 bits too. -/
def addOffsets : UInt16 → List UInt16 → Except StreamError (List UInt16)
  | _, [] => .ok []
  | offset, index :: rest =>
    if 0xffff < index.toNat + offset.toNat then .error .indexesOverflowed
    else do
      let index := index + offset
      let rest ← addOffsets (index + 1) rest
      .ok (index :: rest)

/-- The vector of indexes grows by 1000 at a time, which only bounds a short stream's memory. -/
def unserializeRequest : Reader StreamError BlockTransactionsRequest := do
  let blockhash ← readData 32
  let indexes ← readVector readIndex
  let indexes ← addOffsets 0 indexes
  return ⟨BitVec.ofNat 256 blockhash, indexes⟩

/-- The difference of an index and the one expected, in 64 bits. -/
def differences : Nat → List UInt16 → List Nat
  | _, [] => []
  | next, index :: rest => (((index.toNat : Int) - next) % 2 ^ 64).toNat :: differences (index.toNat + 1) rest

def serializeRequest (request : BlockTransactionsRequest) : List UInt8 :=
  littleEndian 32 request.blockhash.toNat ++
    (writeCompactSize request.indexes.length ++ (differences 0 request.indexes).flatMap writeCompactSize)

end Straks.Net
