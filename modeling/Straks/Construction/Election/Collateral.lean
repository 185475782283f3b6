import Straks.Construction.Chain.Transactions
import Straks.Construction.SignHelper

namespace Straks.Election

open Chain Coins

/-- The coins a masternode locks up. -/
def masternodeAmount : CAmount := 15000

inductive Network where
  | main
  | testnet
  | regtest
  deriving DecidableEq, Repr

structure CService where
  ip : BitVec 128
  port : UInt16
  deriving DecidableEq, Repr

/-- What the masternode code takes from the program and the configuration. -/
structure Env where
  signer : SignHelper
  getHash : CTransaction → Uint256
  serviceToString : CService → List Char
  network : Network
  fProUserModeDarksendInstantX2 : Bool
  fEnableReplacement : Bool
  collateralPubKey : CScript

/-- The transactions and coins of a node at a message. -/
structure CoinsView where
  /-- The unspent outputs of the active chain and the pool. -/
  utxo : UtxoSet
  nTipHeight : Int
  /-- The memory pool has a transaction with the hash. -/
  poolExists : Uint256 → Bool
  /-- The transaction of the memory pool that spends the output. -/
  mapNextTx : COutPoint → Option CTransaction
  getTransaction : Uint256 → Option CTransaction
  /-- What is unspent of a transaction are its outputs. -/
  unspentOf : ∀ prevout tx txout, getTransaction prevout.hash = some tx → getOutput utxo prevout = some txout →
    tx.vout[prevout.n.toNat]? = some txout

variable (signer : SignHelper)

/-- The script that pays to the hash of a key. -/
def getScriptForKey (pubkey : CPubKey) : CScript :=
  [0x76, 0xa9, 20] ++ littleEndian 20 (signer.getID pubkey).toNat ++ [0x88, 0xac]

/-- The output has the locked amount and pays to the key. -/
def isCollateral (pubkey : CPubKey) (out : CTxOut) : Bool :=
  out.nValue == masternodeAmount * coin && out.scriptPubKey == getScriptForKey signer pubkey

/-- Any output of the transaction will do. Without one the function lacks a `return`, and its result is arbitrary. -/
def isVinAssociatedWithPubkey (view : CoinsView) (unspecified : Bool) (vin : CTxIn)
    (pubkey : CPubKey) : Bool :=
  match view.getTransaction vin.prevout.hash with
  | some txVin => if txVin.vout.any (isCollateral signer pubkey) then true else unspecified
  | none => false

def rejectDuplicate : Nat := 0x12

def rejectAlreadyKnown : Nat := 0x101

def rejectConflict : Nat := 0x102

/-- A transaction that is turned away without any blame. -/
def invalid (chRejectCode : Nat) (strRejectReason : String) : BlockError :=
  .reject ⟨0, chRejectCode, strRejectReason, false⟩

/-- The output's spender in the pool does not allow replacement. -/
def conflicts (env : Env) (view : CoinsView) (txin : CTxIn) : Bool :=
  match view.mapNextTx txin.prevout with
  | some conflicting => !(env.fEnableReplacement && conflicting.vin.any fun txin => txin.nSequence < 0xfffffffe)
  | none => false

/-- Whether a transaction could spend its inputs, signatures aside. -/
def acceptableInputs (env : Env) (view : CoinsView) (tx : CTransaction) : Except BlockError Unit := do
  checkTransaction tx true
  if tx.isCoinBase then .error (dos 100 "coinbase")
  else if view.poolExists (env.getHash tx) then .error (invalid rejectAlreadyKnown "txn-already-in-mempool")
  else if tx.vin.any (conflicts env view) then .error (invalid rejectConflict "txn-mempool-conflict")
  else if (view.utxo.getCoins (env.getHash tx)).isSome then .error (invalid rejectAlreadyKnown "txn-already-known")
  else if !tx.vin.all fun txin => (view.utxo.getCoins txin.prevout.hash).isSome then .error (invalid 0 "")
  else if !haveInputs view.utxo tx then .error (invalid rejectDuplicate "bad-txns-inputs-spent")
  else do
    let _ ← getValueIn view.utxo tx
    checkTxInputs view.utxo tx (view.nTipHeight + 1)

/-- The transaction that would spend the collateral. -/
def collateralTransaction (env : Env) (vin : CTxIn) : CTransaction :=
  ⟨2, [vin], [⟨masternodeAmount * coin, env.collateralPubKey⟩], 0⟩

/-- The confirmations of the named transaction, and -1 without coins of it. -/
def getInputAge (view : CoinsView) (vin : CTxIn) : Int :=
  match view.utxo.getCoins vin.prevout.hash with
  | some coins => if coins.nHeight < 0 then 0 else view.nTipHeight + 1 - coins.nHeight
  | none => -1

/-- The age a masternode remembers of its collateral, and the tip at which it looked. -/
structure InputAgeCache where
  cacheInputAge : Int
  cacheInputAgeBlock : Int

/-- The age is looked up while it is 0, and later follows the tip. -/
def getMasternodeInputAge (vin : CTxIn) (cache : InputAgeCache) : Option CoinsView → Int × InputAgeCache
  | none => (0, cache)
  | some view =>
    let cache := if cache.cacheInputAge = 0 then ⟨getInputAge view vin, view.nTipHeight⟩ else cache
    (cache.cacheInputAge + (view.nTipHeight - cache.cacheInputAgeBlock), cache)

end Straks.Election
