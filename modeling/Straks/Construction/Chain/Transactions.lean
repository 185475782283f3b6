import Straks.Construction.Coins.Coins

namespace Straks.Chain
open Coins

/-- What a validation state records about a rejection. -/
structure Reject where
  nDoS : Nat
  chRejectCode : Nat
  strRejectReason : String
  corruptionPossible : Bool
  deriving DecidableEq, Repr

/-- The ways in which validation does not succeed. -/
inductive BlockError where
  | reject (reject : Reject)
  /-- An `assert` fails and the node stops. -/
  | assertion
  /-- `GetValueOut` throws `std::runtime_error`. -/
  | valueOutOfRange
  deriving DecidableEq, Repr

def rejectInvalid : Nat := 0x10

/-- A violated rule that corrupted data cannot explain. -/
def dos (nDoS : Nat) (strRejectReason : String) : BlockError :=
  .reject ⟨nDoS, rejectInvalid, strRejectReason, false⟩

def maxTxBaseSize : Nat := 1000000

def coinbaseMaturity : Int := 100

/-- The number of bytes of a length prefix. -/
def compactSizeLength (n : Nat) : Nat :=
  if n < 253 then 1 else if n ≤ 0xffff then 3 else if n ≤ 0xffffffff then 5 else 9

def scriptSize (script : CScript) : Nat := compactSizeLength script.length + script.length

variable (tx : CTransaction)

/-- The size of a transaction without its witnesses. -/
def baseSize : Nat :=
  4 + compactSizeLength tx.vin.length + (tx.vin.map fun txin => 36 + scriptSize txin.scriptSig + 4).sum +
    compactSizeLength tx.vout.length + (tx.vout.map fun txout => 8 + scriptSize txout.scriptPubKey).sum + 4

/-- Every output and every running total of them is in range. -/
def checkOutputs : CAmount → List CTxOut → Except BlockError Unit
  | _, [] => .ok ()
  | nValueOut, txout :: rest =>
    if txout.nValue < 0 then .error (dos 100 "bad-txns-vout-negative")
    else if txout.nValue > maxMoney then .error (dos 100 "bad-txns-vout-toolarge")
    else if !moneyRange (nValueOut + txout.nValue) then .error (dos 100 "bad-txns-txouttotal-toolarge")
    else checkOutputs (nValueOut + txout.nValue) rest

/-- A coinbase has a short script; any other transaction names what it spends. -/
def checkInputForms : Except BlockError Unit :=
  if tx.isCoinBase then
    if tx.vin.any fun txin => decide (txin.scriptSig.length < 2 ∨ txin.scriptSig.length > 100) then
      .error (dos 100 "bad-cb-length")
    else .ok ()
  else if tx.vin.any fun txin => txin.prevout.isNull then .error (dos 10 "bad-txns-prevout-null")
  else .ok ()

def checkTransaction (fCheckDuplicateInputs : Bool) : Except BlockError Unit :=
  if tx.vin.isEmpty then .error (dos 10 "bad-txns-vin-empty")
  else if tx.vout.isEmpty then .error (dos 10 "bad-txns-vout-empty")
  else if baseSize tx > maxTxBaseSize then .error (dos 100 "bad-txns-oversize")
  else do
    checkOutputs 0 tx.vout
    if fCheckDuplicateInputs ∧ ¬ (tx.vin.map CTxIn.prevout).Nodup then .error (dos 100 "bad-txns-inputs-duplicate")
    else checkInputForms tx

def addValueOut : CAmount → List CTxOut → Except BlockError CAmount
  | nValueOut, [] => .ok nValueOut
  | nValueOut, txout :: rest =>
    if !moneyRange txout.nValue || !moneyRange (nValueOut + txout.nValue) then .error .valueOutOfRange
    else addValueOut (nValueOut + txout.nValue) rest

/-- The sum of the outputs; a value or total out of range throws. -/
def getValueOut : Except BlockError CAmount := addValueOut 0 tx.vout

variable (view : UtxoSet)

/-- The output an outpoint names, while it is unspent. -/
def getOutput (prevout : COutPoint) : Option CTxOut :=
  (view.getCoins prevout.hash).bind fun coins =>
    if coins.isAvailable prevout.n.toNat then coins.vout[prevout.n.toNat]? else none

variable (tx : CTransaction)

def haveInputs : Bool :=
  tx.isCoinBase || tx.vin.all fun txin => (getOutput view txin.prevout).isSome

/-- `GetOutputFor` asserts that the output is unspent. -/
def getOutputFor (txin : CTxIn) : Except BlockError CTxOut :=
  match getOutput view txin.prevout with
  | some txout => .ok txout
  | none => .error .assertion

def addValueIn (view : UtxoSet) : CAmount → List CTxIn → Except BlockError CAmount
  | nResult, [] => .ok nResult
  | nResult, txin :: rest => do
    let txout ← getOutputFor view txin
    addValueIn view (nResult + txout.nValue) rest

def getValueIn : Except BlockError CAmount :=
  if tx.isCoinBase then .ok 0 else addValueIn view 0 tx.vin

/-- The rules for each spent output: maturity, then the ranges. -/
def checkSpentOutputs (view : UtxoSet) (nSpendHeight : Int) : CAmount → List CTxIn → Except BlockError CAmount
  | nValueIn, [] => .ok nValueIn
  | nValueIn, txin :: rest =>
    match view.getCoins txin.prevout.hash with
    | none => .error .assertion
    | some coins =>
      if coins.fCoinBase && nSpendHeight - coins.nHeight < coinbaseMaturity then
        .error (dos 0 "bad-txns-premature-spend-of-coinbase")
      else do
        let txout ← getOutputFor view txin
        if !moneyRange txout.nValue || !moneyRange (nValueIn + txout.nValue) then
          .error (dos 100 "bad-txns-inputvalues-outofrange")
        else checkSpentOutputs view nSpendHeight (nValueIn + txout.nValue) rest

def checkTxInputs (nSpendHeight : Int) : Except BlockError Unit :=
  if !haveInputs view tx then .error (.reject ⟨0, 0, "", false⟩)
  else do
    let nValueIn ← checkSpentOutputs view nSpendHeight 0 tx.vin
    let nValueOut ← getValueOut tx
    if nValueIn < nValueOut then .error (dos 100 "bad-txns-in-belowout")
    else if nValueIn - nValueOut < 0 then .error (dos 100 "bad-txns-fee-negative")
    else if !moneyRange (nValueIn - nValueOut) then .error (dos 100 "bad-txns-fee-outofrange")
    else .ok ()

/-- What restores a spent output. The rest is zero unless it was the last unspent one of its transaction. -/
structure CTxInUndo where
  txout : CTxOut
  fCoinBase : Bool
  nHeight : Nat
  nVersion : Int32
  deriving DecidableEq

/-- The undo record of a spend leaving these coins, with an unsigned height. -/
def undoRecord (txout : CTxOut) (left : CCoins) : CTxInUndo :=
  if left.vout.isEmpty then ⟨txout, left.fCoinBase, (left.nHeight % 4294967296).toNat, left.nVersion⟩
  else ⟨txout, false, 0, 0⟩

/-- Marks an outpoint spent and makes its undo data. -/
def spendInput (prevout : COutPoint) : Except BlockError (UtxoSet × CTxInUndo) :=
  let coins := (view.getCoins prevout.hash).getD CCoins.clear
  match coins.vout[prevout.n.toNat]? with
  | none => .error .assertion
  | some txout =>
    if txout.isNull then .error .assertion
    else
      let left := (coins.spend prevout.n.toNat).2
      .ok (view.store prevout.hash left, undoRecord txout left)

def spendInputs : UtxoSet → List CTxIn → Except BlockError (UtxoSet × List CTxInUndo)
  | view, [] => .ok (view, [])
  | view, txin :: rest => do
    let (view, undo) ← spendInput view txin.prevout
    let (view, undos) ← spendInputs view rest
    return (view, undo :: undos)

/-- A coinbase spends nothing. -/
def markInputsSpent : Except BlockError (UtxoSet × List CTxInUndo) :=
  if tx.isCoinBase then .ok (view, []) else spendInputs view tx.vin

/-- Spends the inputs of a transaction and adds its outputs. -/
def updateCoins (txid : Uint256) (nHeight : Int) :
    Except BlockError (UtxoSet × List CTxInUndo) := do
  let (view, vprevout) ← markInputsSpent view tx
  return (view.store txid (CCoins.fromTx tx nHeight), vprevout)

end Straks.Chain
