import Straks.Construction.Chain.Params
import Straks.Construction.Chain.Transactions

namespace Straks.Chain
open Coins

def preSubsidyHeight : Int := 10080

/-- The block reward without the fees. -/
def getBlockSubsidy (nHeight : Int) : CAmount :=
  -- the swap and development allocation
  if nHeight = 1 then 41250000 * coin
  else if nHeight > 1 ∧ nHeight ≤ preSubsidyHeight then 0
  -- the hard supply limit
  else if nHeight > 10885080 then 0
  else 10 * coin

def maxBlockSerializedSize : Nat := 16000000

def maxBlockVtx : Nat := 400000

def maxBlockSigOpsCost (fSegwitSeasoned : Bool) : Nat := if fSegwitSeasoned then 320000 else 80000

def witnessScaleFactor : Nat := 4

def lockTimeThreshold : Nat := 500000000

/-- What the rest of the node answers: hashes, signature checks, version bits, the masternode list and the floating
point parts of the payment rules. -/
structure BlockEnv where
  params : ConsensusParams
  getBlockHash : CBlockHeader → Uint256
  hashGenesisBlock : Uint256
  checkProofOfWork : CBlockHeader → Bool
  /-- The root and whether the transactions repeat themselves. -/
  blockMerkleRoot : List CTransaction → Uint256 × Bool
  legacySigOpCount : CTransaction → Nat
  sigOpCost : UtxoSet → CTransaction → Nat
  sequenceLocks : CTransaction → List Int → Bool
  scriptsVerify : UtxoSet → CTransaction → Bool
  nLockTimeCutoff : Int
  /-- The witness commitment, size and weight rules of `ContextualCheckBlock`. -/
  contextualWitnessRules : CBlock → Except BlockError Unit
  fSegwitSeasoned : Bool
  missesSegwitSignal : Bool
  /-- The ancestor at the activation height is not the expected one. -/
  unknownBIP34Ancestor : Bool
  tip : Option (Uint256 × Int)
  isInitialBlockDownload : Bool
  treasuryRewardScript : Int → CScript
  /-- The product with 0.05. -/
  treasuryShare : CAmount → CAmount
  /-- The first amount is above 0.6 times the second. -/
  aboveMasternodeLimit : CAmount → CAmount → Bool
  getBlockPayee : Int → Option CScript
  getMasternodePayment : Int → CAmount → CAmount

variable (block : CBlock)

/-- The outputs of the first transaction. -/
def coinbaseOutputs : List CTxOut := (block.vtx.head?.map CTransaction.vout).getD []

variable (env : BlockEnv)

/-- The payee a height requires, if it requires one. -/
def requiredPayee (nHeight : Int) : Option CScript :=
  (env.getBlockPayee nHeight).filter fun payee => !payee.isEmpty

/-- The masternode payment rule of `CheckBlock`, for a block on the active chain. -/
def checkBlockPayment (block : CBlock) : Except BlockError Unit :=
  match env.tip with
  | none => .ok ()
  | some (hash, nHeight) =>
    if nHeight < env.params.MasternodePaymentStartHeight ∨ hash ≠ block.hashPrevBlock then .ok ()
    else do
      let nValueOut ← addValueOut 0 (coinbaseOutputs block)
      let nValue := nValueOut - env.treasuryShare (getBlockSubsidy (nHeight + 1))
      match env.isInitialBlockDownload, requiredPayee env (nHeight + 1) with
      | false, some payee =>
        if (coinbaseOutputs block).any fun output =>
            output.scriptPubKey == payee && !env.aboveMasternodeLimit output.nValue nValue then .ok ()
        else .error (.reject ⟨100, 0, "", false⟩)
      | _, _ => .ok ()

def checkTransactions : List CTransaction → Except BlockError Unit
  | [] => .ok ()
  | tx :: rest => do
    checkTransaction tx true
    checkTransactions rest

def blockBaseSize : Nat :=
  80 + compactSizeLength block.vtx.length + (block.vtx.map baseSize).sum

/-- The first transaction is a coinbase, the others are not. -/
def checkCoinbases : List CTransaction → Except BlockError Unit
  | [] => .error (dos 100 "bad-cb-missing")
  | coinbase :: rest =>
    if !coinbase.isCoinBase then .error (dos 100 "bad-cb-missing")
    else if rest.any CTransaction.isCoinBase then .error (dos 100 "bad-cb-multiple")
    else .ok ()

def checkMerkleRoot (block : CBlock) (fCheckMerkleRoot : Bool) : Except BlockError Unit :=
  if !fCheckMerkleRoot then .ok ()
  else if block.hashMerkleRoot ≠ (env.blockMerkleRoot block.vtx).1 then
    .error (.reject ⟨100, rejectInvalid, "bad-txnmrklroot", true⟩)
  else if (env.blockMerkleRoot block.vtx).2 then
    .error (.reject ⟨100, rejectInvalid, "bad-txns-duplicate", true⟩)
  else .ok ()

def checkBlock (block : CBlock) (fCheckPOW fCheckMerkleRoot : Bool) : Except BlockError Unit := do
  if fCheckPOW && !env.checkProofOfWork block.toCBlockHeader then .error (dos 50 "high-hash")
  else
    checkMerkleRoot env block fCheckMerkleRoot
    if block.vtx.isEmpty ∨ block.vtx.length > maxBlockVtx ∨
        blockBaseSize block * witnessScaleFactor > maxBlockSerializedSize then .error (dos 100 "bad-blk-length")
    else
      checkCoinbases block.vtx
      checkBlockPayment env block
      checkTransactions block.vtx
      if (block.vtx.map env.legacySigOpCount).sum * witnessScaleFactor > maxBlockSigOpsCost true then
        .error (dos 100 "bad-blk-sigops")
      else .ok ()

def isFinalTx (tx : CTransaction) (nBlockHeight nBlockTime : Int) : Bool :=
  tx.nLockTime == 0 ||
    decide ((tx.nLockTime.toNat : Int) < if tx.nLockTime.toNat < lockTimeThreshold then nBlockHeight else nBlockTime) ||
    tx.vin.all fun txin => txin.nSequence == 0xffffffff

/-- The coinbase starts with the height of its block. -/
def startsWithHeight (nHeight : Int) : Bool :=
  match block.vtx.head?.bind fun coinbase => coinbase.vin.head? with
  | some txin => (Script.pushInt64 [] nHeight).isPrefixOf txin.scriptSig
  | none => false

def contextualCheckBlock (block : CBlock) (nHeight : Int) : Except BlockError Unit :=
  if block.vtx.any fun tx => !isFinalTx tx nHeight env.nLockTimeCutoff then .error (dos 10 "bad-txns-nonfinal")
  else if env.params.BIP34Height ≤ nHeight ∧ !startsWithHeight block nHeight then
    .error (dos 100 "bad-cb-height")
  else env.contextualWitnessRules block

/-- The unspent outputs and the block they are counted up to. -/
structure ChainView where
  utxo : UtxoSet
  bestBlock : Uint256

/-- The index fields read by `ConnectBlock`, some of the predecessor. -/
structure ConnectIndex where
  nHeight : Int
  hashBlock : Uint256
  /-- The entry has a hash; `CreateNewBlock` tests blocks without one. -/
  phashBlock : Bool
  hashPrevBlock : Uint256
  prevMoneySupply : CAmount

/-- What the loop over the transactions carries along. -/
structure ConnectState where
  view : UtxoSet
  vtxundo : List (List CTxInUndo)
  nFees : CAmount
  nValueOut : CAmount
  nValueIn : CAmount
  nSigOpsCost : Nat

/-- What a connected block leaves: view, index entry and undo data. -/
structure Connected where
  view : ChainView
  vtxundo : List (List CTxInUndo)
  nMint : CAmount
  nMoneySupply : CAmount

section Connect

variable (getHash : CTransaction → Uint256) (env : BlockEnv) (view : UtxoSet)

/-- The rules for spent outputs checked before values are counted. -/
def checkInputsPresent (tx : CTransaction) : Except BlockError Unit :=
  if tx.isCoinBase then .ok ()
  else if !haveInputs view tx then .error (dos 100 "bad-txns-inputs-missingorspent")
  else if !env.sequenceLocks tx (tx.vin.map fun txin =>
      ((view.getCoins txin.prevout.hash).map CCoins.nHeight).getD 0) then .error (dos 100 "bad-txns-nonfinal")
  else .ok ()

/-- The value and fee of the inputs; a coinbase has neither. -/
def checkInputs (tx : CTransaction) (nHeight : Int) : Except BlockError (CAmount × CAmount) :=
  if tx.isCoinBase then .ok (0, 0)
  else do
    let nValueIn ← getValueIn view tx
    let nValueOut ← getValueOut tx
    checkTxInputs view tx nHeight
    if !env.scriptsVerify view tx then .error (dos 100 "mandatory-script-verify-flag-failed")
    else return (nValueIn, nValueIn - nValueOut)

variable (nHeight : Int)

/-- One turn of the transaction loop; the first stores no undo data. -/
def connectTransaction (first : Bool) (state : ConnectState) (tx : CTransaction) :
    Except BlockError ConnectState := do
  checkInputsPresent env state.view tx
  if state.nSigOpsCost + env.sigOpCost state.view tx > maxBlockSigOpsCost env.fSegwitSeasoned then
    .error (dos 100 "bad-blk-sigops")
  else
    let (nValueIn, nFee) ← checkInputs env state.view tx nHeight
    let nValueOut ← getValueOut tx
    let (view, vprevout) ← updateCoins state.view tx (getHash tx) nHeight
    return {
      view := view
      vtxundo := if first then state.vtxundo else state.vtxundo ++ [vprevout]
      nFees := state.nFees + nFee
      nValueOut := state.nValueOut + nValueOut
      nValueIn := state.nValueIn + nValueIn
      nSigOpsCost := state.nSigOpsCost + env.sigOpCost state.view tx }

def connectTransactions (nHeight : Int) : Bool → ConnectState → List CTransaction → Except BlockError ConnectState
  | _, state, [] => .ok state
  | first, state, tx :: rest => do
    let state ← connectTransaction getHash env nHeight first state tx
    connectTransactions nHeight false state rest

/-- Blocks without a hash must not overwrite transactions with unspent outputs. -/
def checkOverwrite (pindex : ConnectIndex) (block : CBlock) : Except BlockError Unit :=
  if !pindex.phashBlock && env.unknownBIP34Ancestor && block.vtx.any fun tx => (view.getCoins (getHash tx)).isSome then
    .error (dos 100 "bad-txns-BIP30")
  else .ok ()

variable (block : CBlock)

/-- The coinbase pays the treasury its share of the reward. -/
def checkTreasury : Except BlockError Unit :=
  let treasuryVal := if nHeight ≤ preSubsidyHeight then 0 else env.treasuryShare (getBlockSubsidy nHeight)
  if nHeight > 0 ∧ !((coinbaseOutputs block).any fun output =>
      output.scriptPubKey == env.treasuryRewardScript nHeight && output.nValue == treasuryVal) then
    .error (dos 100 "cb-no-treasury-funding")
  else .ok ()

/-- Before payments start no masternode payee is paid. -/
def checkNoEarlyPayment : Except BlockError Unit :=
  match env.tip.bind fun tip => env.getBlockPayee (tip.2 + 1) with
  | some payee =>
    if 1 < nHeight ∧ nHeight < env.params.MasternodePaymentStartHeight ∧ (coinbaseOutputs block).any fun output =>
        output.scriptPubKey == payee && decide (output.nValue > 0) then .error (dos 100 "cb-invalid-mn-payment")
    else .ok ()
  | none => .ok ()

/-- The masternode payment that `ConnectBlock` enforces a while after payments start. -/
def checkMasternodePayment : Except BlockError Unit :=
  if nHeight > env.params.MasternodePaymentStartHeight + 7475 then do
    let nValueOut ← addValueOut 0 (coinbaseOutputs block)
    let tVal := env.treasuryShare (getBlockSubsidy nHeight)
    let nValue := nValueOut - tVal
    let payment := env.getMasternodePayment nHeight nValue
    match requiredPayee env nHeight with
    | some payee =>
      match (coinbaseOutputs block).find? fun output => output.scriptPubKey == payee with
      | none => .error (dos 100 "cb-missing-mn-payment")
      | some output =>
        if env.aboveMasternodeLimit output.nValue nValue || decide (nHeight > 649620 ∧
            (output.nValue < payment - tVal / 2 ∨ output.nValue > payment + tVal / 2)) then
          .error (dos 100 "cb-missing-mn-payment")
        else .ok ()
    | none =>
      if payment ≠ 0 ∧ (coinbaseOutputs block).length < 3 then .error (dos 100 "cb-missing-mn-payment")
      else .ok ()
  else .ok ()

/-- The rules of `ConnectBlock` before the transaction loop. -/
def checkBeforeLoop (pindex : ConnectIndex) (block : CBlock) : Except BlockError Unit := do
  checkOverwrite getHash env view pindex block
  if env.missesSegwitSignal then .error (dos 0 "bad-no-segwit")
  else
    checkTreasury env pindex.nHeight block
    checkNoEarlyPayment env pindex.nHeight block
    checkMasternodePayment env pindex.nHeight block

/-- Connects the transactions after genesis and checks the value of the coinbase. -/
def connectBody (pindex : ConnectIndex) (view : UtxoSet) : Except BlockError ConnectState := do
  checkBeforeLoop getHash env view pindex block
  let state ← connectTransactions getHash env pindex.nHeight true ⟨view, [], 0, 0, 0, 0⟩ block.vtx
  let coinbaseValue ← addValueOut 0 (coinbaseOutputs block)
  if coinbaseValue > state.nFees + getBlockSubsidy pindex.nHeight then .error (dos 100 "bad-cb-amount")
  else return state

/-- The coins of the genesis block are never added. -/
def connectBlock (pindex : ConnectIndex) (view : ChainView) (fJustCheck : Bool) :
    Except BlockError Connected := do
  checkBlock env block (!fJustCheck) (!fJustCheck)
  if pindex.hashPrevBlock ≠ view.bestBlock then .error .assertion
  else
    let bestBlock := if fJustCheck then view.bestBlock else pindex.hashBlock
    if env.getBlockHash block.toCBlockHeader = env.hashGenesisBlock then
      return ⟨{ view with bestBlock := bestBlock }, [], 0, 0⟩
    else
      let state ← connectBody getHash env block pindex view.utxo
      return {
        view := ⟨state.view, bestBlock⟩
        vtxundo := state.vtxundo
        nMint := state.nValueOut - state.nValueIn + state.nFees
        nMoneySupply := pindex.prevMoneySupply + state.nValueOut - state.nValueIn }

end Connect

/-- A block stored by `AcceptBlock` on a tip, with the node's answers during its validation. Genesis is nobody's
successor. -/
structure NextBlock where
  network : Network
  env : BlockEnv
  block : CBlock
  onNetwork : env.params = getConsensus network
  notGenesis : env.getBlockHash block.toCBlockHeader ≠ env.hashGenesisBlock

/-- The active chain: its coins and two fields of its tip. -/
structure ChainTip where
  view : ChainView
  nHeight : Int
  nMoneySupply : CAmount

/-- After the genesis block no coin exists. -/
def ChainTip.genesis (hashGenesisBlock : Uint256) : ChainTip := ⟨⟨UtxoSet.empty, hashGenesisBlock⟩, 0, 0⟩

/-- The index entry of the block that follows the tip. -/
def ChainTip.nextIndex (tip : ChainTip) (next : NextBlock) : ConnectIndex where
  nHeight := tip.nHeight + 1
  hashBlock := next.env.getBlockHash next.block.toCBlockHeader
  phashBlock := true
  hashPrevBlock := tip.view.bestBlock
  prevMoneySupply := tip.nMoneySupply

/-- The block passes the contextual rules and connects. -/
def ChainTip.connect (getHash : CTransaction → Uint256) (tip : ChainTip) (next : NextBlock) :
    Except BlockError ChainTip := do
  contextualCheckBlock next.env next.block (tip.nHeight + 1)
  let connected ← connectBlock getHash next.env next.block (tip.nextIndex next) tip.view false
  return ⟨connected.view, tip.nHeight + 1, connected.nMoneySupply⟩

def connectChain (getHash : CTransaction → Uint256) : ChainTip → List NextBlock → Except BlockError ChainTip
  | tip, [] => .ok tip
  | tip, next :: rest => do
    let tip ← tip.connect getHash next
    connectChain getHash tip rest

end Straks.Chain
