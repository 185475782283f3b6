import Straks.Construction.Chain.ConnectBlock
import Straks.Library.VarInt

namespace Straks.Chain
open Coins VarInt

/-- `WriteVarInt` for `int`, with a signed comparison: a negative number ends after one group. -/
def writeVarIntSigned (n : Int) (rest : List UInt8) : List UInt8 :=
  if n ≤ 0x7f then UInt8.ofNat (n % 128).toNat :: rest else writeVarInt n.toNat rest

/-- The numbers of an undo record in the undo file, before the compressed output. -/
def CTxInUndo.serialize (undo : CTxInUndo) : List UInt8 :=
  writeVarInt ((undo.nHeight * 2 + if undo.fCoinBase then 1 else 0) % 4294967296)
    (if undo.nHeight > 0 then writeVarIntSigned undo.nVersion.toInt [] else [])

/-- The record the undo file gives back for an output. -/
def CTxInUndo.unserialize (txout : CTxOut) (stream : List UInt8) : Option CTxInUndo := do
  let (nCode, stream) ← readVarInt 32 0 stream
  if nCode / 2 > 0 then
    let (nVersion, _) ← readVarInt 32 0 stream
    return ⟨txout, nCode % 2 == 1, nCode / 2, Int32.ofInt nVersion⟩
  else return ⟨txout, nCode % 2 == 1, 0, 0⟩

/-- `UndoWriteToDisk` and `UndoReadFromDisk` of one record. -/
def CTxInUndo.reread (undo : CTxInUndo) : Option CTxInUndo := CTxInUndo.unserialize undo.txout undo.serialize

/-- What the undo file gives back for a block. -/
def rereadUndo (vtxundo : List (List CTxInUndo)) : Option (List (List CTxInUndo)) :=
  vtxundo.mapM fun vprevout => vprevout.mapM CTxInUndo.reread

inductive DisconnectError where
  | assertion
  /-- "failure reading undo data" -/
  | undoUnreadable
  /-- "block and undo data inconsistent" -/
  | blockInconsistent
  /-- "transaction and undo data inconsistent" -/
  | transactionInconsistent
  deriving DecidableEq, Repr

/-- An output put back at its position, past the end if need be. -/
def restoreOutput (vout : List CTxOut) (nPos : Nat) (txout : CTxOut) : List CTxOut :=
  (vout ++ List.replicate (nPos + 1 - vout.length) CTxOut.null).set nPos txout

/-- The entry an undo record adds its output to, and whether it is as expected. -/
def entryToRestore (undo : CTxInUndo) (coins : CCoins) : Bool × CCoins :=
  -- a height in the record: the output was the last unspent one of its transaction
  if undo.nHeight ≠ 0 then (coins.isPruned, ⟨undo.fCoinBase, [], undo.nHeight, undo.nVersion⟩)
  else (!coins.isPruned, coins)

/-- Restores a spent output and tells whether the view was as expected. -/
def applyTxInUndo (undo : CTxInUndo) (view : UtxoSet) (out : COutPoint) : Bool × UtxoSet :=
  let entry := entryToRestore undo ((view.getCoins out.hash).getD CCoins.clear)
  (entry.1 && !entry.2.isAvailable out.n.toNat,
    view.store out.hash { entry.2 with vout := restoreOutput entry.2.vout out.n.toNat undo.txout })

/-- Restores the inputs of a transaction, the last first. -/
def restoreInputs (view : UtxoSet) : List (CTxIn × CTxInUndo) → Bool × UtxoSet
  | [] => (true, view)
  | (txin, undo) :: rest =>
    let later := restoreInputs view rest
    let here := applyTxInUndo undo later.2 txin.prevout
    (later.1 && here.1, here.2)

/-- The entry as `DisconnectBlock` compares it: without unspendable outputs, and with a negative version corrected,
which the database does not keep. -/
def outsToCompare (outs outsBlock : CCoins) : CCoins :=
  if outsBlock.nVersion < 0 then { outs.clearUnspendable with nVersion := outsBlock.nVersion }
  else outs.clearUnspendable

/-- Removes the outputs of a transaction and restores its inputs. -/
def disconnectTransaction (getHash : CTransaction → Uint256) (nHeight : Int) (view : UtxoSet) (tx : CTransaction)
    (txundo : Option (List CTxInUndo)) : Except DisconnectError (Bool × UtxoSet) :=
  let outs := (view.getCoins (getHash tx)).getD CCoins.clear
  let outsBlock := CCoins.fromTx tx nHeight
  let matching := (outsToCompare outs outsBlock).same outsBlock
  let removed := view.store (getHash tx) CCoins.clear
  match txundo with
  | none => .ok (matching, removed)
  | some vprevout =>
    if vprevout.length ≠ tx.vin.length then .error .transactionInconsistent
    else
      let restored := restoreInputs removed (tx.vin.zip vprevout)
      .ok (matching && restored.1, restored.2)

/-- Disconnects transactions from the last to the first. -/
def disconnectTransactions (getHash : CTransaction → Uint256) (nHeight : Int) (view : UtxoSet) :
    List (CTransaction × Option (List CTxInUndo)) → Except DisconnectError (Bool × UtxoSet)
  | [] => .ok (true, view)
  | (tx, txundo) :: rest => do
    let later ← disconnectTransactions getHash nHeight view rest
    let here ← disconnectTransaction getHash nHeight later.2 tx txundo
    return (later.1 && here.1, here.2)

/-- Undoes a block in a view with its undo data. -/
def disconnectBlock (getHash : CTransaction → Uint256) (block : CBlock) (pindex : ConnectIndex) (view : ChainView)
    (vtxundo : List (List CTxInUndo)) : Except DisconnectError (Bool × ChainView) :=
  if pindex.hashBlock ≠ view.bestBlock then .error .assertion
  else match rereadUndo vtxundo with
  | none => .error .undoUnreadable
  | some vtxundo =>
    if vtxundo.length + 1 ≠ block.vtx.length then .error .blockInconsistent
    else do
      let undone ← disconnectTransactions getHash pindex.nHeight view.utxo
        (block.vtx.zip (none :: vtxundo.map some))
      return (undone.1, ⟨undone.2, pindex.hashPrevBlock⟩)

end Straks.Chain
