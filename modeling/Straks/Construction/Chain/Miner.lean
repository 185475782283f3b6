import Straks.Construction.Chain.WitnessRules
import Straks.Construction.Masternode.Payments

namespace Straks.Chain
open Masternode

def minMasternodePosProtoVersion : Int := 70100

/-- The payment for the next block. The curve is the floating point part of the block's value, the money supply and
the number of masternodes. -/
def getMasternodePayment (params : ConsensusParams) (curve : CAmount → CAmount → Nat → CAmount) (nMoneySupply : CAmount)
    (vMasternodes : List CMasternode) (nHeight : Int) (blockValue : CAmount) : CAmount :=
  if nHeight < params.MasternodePaymentStartHeight then 0
  else
    let tNodes := countMasternodesAboveProtocol minMasternodePosProtoVersion vMasternodes
    if tNodes = 0 then 0 else curve blockValue nMoneySupply tNodes

/-- The answers of a node with these lists of winners and masternodes. -/
def BlockEnv.withLists (env : BlockEnv) (curve : CAmount → CAmount → Nat → CAmount) (nMoneySupply : CAmount)
    (payments : Payments) (vMasternodes : List CMasternode) : BlockEnv :=
  { env with
    getBlockPayee := fun nHeight => Masternode.getBlockPayee payments (Int32.ofInt nHeight)
    getMasternodePayment := Chain.getMasternodePayment env.params curve nMoneySupply vMasternodes }

section Miner

variable (env : BlockEnv)

/-- The treasury gets nothing of the first reward. -/
def treasuryReward (nHeight : Int) : CAmount :=
  if nHeight = 1 then 0 else env.treasuryShare (getBlockSubsidy nHeight)

/-- The value the miner and the masternode share. -/
def sharedValue (nHeight : Int) (nFees : CAmount) : CAmount :=
  (if 0 < nHeight then getBlockSubsidy nHeight - treasuryReward env nHeight else getBlockSubsidy nHeight) + nFees

variable (vMasternodes : List CMasternode)

/-- The script a new block pays as a masternode, if any. -/
def masternodePayee (nHeight : Int) : Option CScript :=
  if env.params.MasternodePaymentStartHeight ≤ nHeight - 1 then
    (env.getBlockPayee nHeight).or ((getCurrentMasterNode vMasternodes).map CMasternode.collateralScript)
  else none

/-- The outputs of the coinbase before the commitment is added. -/
def coinbasePayments (scriptPubKeyIn : CScript) (nFees : CAmount) (nHeight : Int) :
    List CTxOut :=
  let blockValue := sharedValue env nHeight nFees
  let treasury : List CTxOut :=
    if 0 < nHeight then [⟨treasuryReward env nHeight, env.treasuryRewardScript nHeight⟩] else []
  match masternodePayee env vMasternodes nHeight with
  | none => ⟨blockValue, scriptPubKeyIn⟩ :: treasury
  | some payee =>
    -- the payment counts only next to a treasury output
    let masternodePayment := if 0 < nHeight then env.getMasternodePayment nHeight blockValue else 0
    ⟨blockValue - masternodePayment, scriptPubKeyIn⟩ :: treasury ++ [⟨masternodePayment, payee⟩]

def newCoinbase (scriptPubKeyIn : CScript) (nFees : CAmount) (nHeight : Int) :
    CTransaction where
  nVersion := 2
  vin := [⟨⟨0, 0xffffffff⟩, Script.pushInt64 [] nHeight ++ [0x00], 0xffffffff, []⟩]
  vout := coinbasePayments env vMasternodes scriptPubKeyIn nFees nHeight
  nLockTime := 0

end Miner

/-- The worthless output that commits to the witnesses, with a nonce of zeros. -/
def commitmentOutput (hashes : BlockHashes) (block : CBlock) : CTxOut :=
  let witnessroot := (blockWitnessMerkleRoot hashes.hashPair hashes.getWitnessHash block.vtx).1
  ⟨0, [0x6a, 0x24, 0xaa, 0x21, 0xa9, 0xed] ++ littleEndian 32 (hashes.hashPair witnessroot 0).toNat⟩

def updateCoinbase (change : CTransaction → CTransaction) (block : CBlock) : CBlock :=
  { block with vtx := block.vtx.modifyHead change }

/-- Every network has witnesses, so a commitment is added unless present. -/
def generateCoinbaseCommitment (hashes : BlockHashes) (block : CBlock) : CBlock :=
  match getWitnessCommitmentIndex block with
  | none => updateCoinbase (fun tx => { tx with vout := tx.vout ++ [commitmentOutput hashes block] }) block
  | some _ => block

def updateUncommittedBlockStructures (witnessEnabled : Bool) (block : CBlock) : CBlock :=
  if (getWitnessCommitmentIndex block).isSome && witnessEnabled && !(block.vtx.head?.any hasWitness) then
    updateCoinbase (fun tx => { tx with vin := tx.vin.modifyHead fun txin =>
      { txin with scriptWitness := [List.replicate 32 0] } }) block
  else block

/-- The block a miner builds on the active chain from selected transactions. -/
def createNewBlock (env : BlockEnv) (hashes : BlockHashes) (witnessEnabled : Bool) (vMasternodes : List CMasternode)
    (header : CBlockHeader) (hashPrevBlock : Uint256) (nHeight : Int) (scriptPubKeyIn : CScript)
    (selected : List CTransaction) (nFees : CAmount) : CBlock :=
  updateUncommittedBlockStructures witnessEnabled <| generateCoinbaseCommitment hashes
    ⟨{ header with hashPrevBlock }, newCoinbase env vMasternodes scriptPubKeyIn nFees nHeight :: selected⟩

end Straks.Chain
