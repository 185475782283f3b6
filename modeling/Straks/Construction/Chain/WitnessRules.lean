import Straks.Construction.Chain.ConnectBlock
import Straks.Construction.Chain.Merkle

namespace Straks.Chain
open Script

/-- Counts the signature operations up to the first broken push. -/
def sigOpCountLoop (fAccurate : Bool) : Nat → CScript → UInt8 → Nat → Nat
  | 0, _, _, n => n
  | fuel + 1, pc, lastOpcode, n =>
    match getOp pc with
    | none => n
    | some (opcode, _, next) =>
      let found :=
        match Opcode.ofByte opcode with
        | .checkSig _ => 1
        | .checkMultiSig _ =>
          if fAccurate && decide (0x51 ≤ lastOpcode) && decide (lastOpcode ≤ op16) then lastOpcode.toNat - 0x50
          else maxPubkeysPerMultisig
        | _ => 0
      sigOpCountLoop fAccurate fuel next opcode (n + found)

def getSigOpCount (script : CScript) (fAccurate : Bool) : Nat :=
  sigOpCountLoop fAccurate script.length script 0xff 0

variable (tx : CTransaction)

/-- The signature operations in the input and output scripts. -/
def getLegacySigOpCount : Nat :=
  (tx.vin.map fun txin => getSigOpCount txin.scriptSig false).sum +
    (tx.vout.map fun txout => getSigOpCount txout.scriptPubKey false).sum

def hasWitness : Bool := tx.vin.any fun txin => !txin.scriptWitness.isEmpty

/-- The size of a transaction; witnesses come with marker and flag. -/
def totalSize : Nat :=
  if hasWitness tx then
    baseSize tx + 2 + (tx.vin.map fun txin =>
      compactSizeLength txin.scriptWitness.length + (txin.scriptWitness.map scriptSize).sum).sum
  else baseSize tx

def maxLegacyBlockSize : Nat := 1000000

def maxBaseBlockSize : Nat := 4000000

def maxBlockBaseSize (fSegwitSeasoned : Bool) : Nat := if fSegwitSeasoned then maxBaseBlockSize else maxLegacyBlockSize

def maxBlockWeight (fSegwitSeasoned : Bool) : Nat := maxBlockBaseSize fSegwitSeasoned * 4

variable (block : CBlock)

def getBlockWeight : Nat :=
  blockBaseSize block * (witnessScaleFactor - 1) +
    (80 + compactSizeLength block.vtx.length + (block.vtx.map totalSize).sum)

/-- An output that can hold a witness commitment. -/
def isCommitment (txout : CTxOut) : Bool :=
  decide (38 ≤ txout.scriptPubKey.length) && [0x6a, 0x24, 0xaa, 0x21, 0xa9, 0xed].isPrefixOf txout.scriptPubKey

/-- The last coinbase output that can hold a witness commitment. -/
def getWitnessCommitmentIndex : Option Nat :=
  (coinbaseOutputs block).zipIdx.foldl (fun commitpos entry => if isCommitment entry.1 then some entry.2 else commitpos)
    none

/-- The witness of the only input of the coinbase. -/
def coinbaseWitness : List (List UInt8) :=
  ((block.vtx.head?.bind fun coinbase => coinbase.vin.head?).map CTxIn.scriptWitness).getD []

/-- The hashes of transactions and of two concatenated words. -/
structure BlockHashes where
  getHash : CTransaction → Uint256
  /-- The hash of the serialization with witnesses. -/
  serializeHash : CTransaction → Uint256
  hashPair : Uint256 → Uint256 → Uint256

variable (hashes : BlockHashes)

/-- A transaction without witnesses has one hash only. -/
def BlockHashes.getWitnessHash (tx : CTransaction) : Uint256 :=
  if hasWitness tx then hashes.serializeHash tx else hashes.getHash tx

/-- Whether the witness deployment is active for the block, at the start of its waiting period and a block earlier. -/
structure SegwitState where
  fSegWitActive : Bool
  activeAtForkBuffer : Bool
  activeBeforeForkBuffer : Bool

variable (segwit : SegwitState)

def SegwitState.seasoned : Bool := segwit.fSegWitActive && segwit.activeAtForkBuffer

def SegwitState.bip102FirstBlock : Bool := segwit.seasoned && !segwit.activeBeforeForkBuffer

/-- A mismatch of body and commitment can come from corruption. -/
def corrupted (strRejectReason : String) : BlockError := .reject ⟨100, rejectInvalid, strRejectReason, true⟩

/-- Whether the coinbase commits to the witnesses, correctly. -/
def checkWitnessCommitment (block : CBlock) : Except BlockError Bool :=
  if !segwit.fSegWitActive then .ok false
  else
    match getWitnessCommitmentIndex block with
    | none => .ok false
    | some commitpos =>
      let hashWitness := (blockWitnessMerkleRoot hashes.hashPair hashes.getWitnessHash block.vtx).1
      match coinbaseWitness block with
      | [nonce] =>
        if nonce.length ≠ 32 then .error (corrupted "bad-witness-nonce-size")
        else if littleEndian 32 (hashes.hashPair hashWitness (BitVec.ofNat 256 (readLE nonce))).toNat ≠
            ((((coinbaseOutputs block)[commitpos]?.map CTxOut.scriptPubKey).getD []).drop 6).take 32 then
          .error (corrupted "bad-witness-merkle-match")
        else .ok true
      | _ => .error (corrupted "bad-witness-nonce-size")

/-- The witness commitment, size and weight rules of `ContextualCheckBlock`. -/
def checkWitnessRules (block : CBlock) : Except BlockError Unit := do
  let fHaveWitness ← checkWitnessCommitment hashes segwit block
  if blockBaseSize block > maxBlockBaseSize segwit.seasoned then .error (dos 100 "bad-blk-length")
  else if segwit.bip102FirstBlock && decide (blockBaseSize block ≤ maxLegacyBlockSize) then
    .error (dos 100 "bad-blk-length-toosmall")
  else if !fHaveWitness && block.vtx.any hasWitness then .error (corrupted "unexpected-witness")
  else if (block.vtx.map getLegacySigOpCount).sum * witnessScaleFactor > maxBlockSigOpsCost segwit.seasoned then
    .error (dos 100 "bad-blk-sigops")
  else if getBlockWeight block > maxBlockWeight segwit.seasoned then .error (dos 100 "bad-blk-weight")
  else .ok ()

/-- The environment of a block with its body rules written out. -/
def BlockEnv.withBodyRules (env : BlockEnv) (hashes : BlockHashes) (segwit : SegwitState) : BlockEnv :=
  { env with
    blockMerkleRoot := Chain.blockMerkleRoot hashes.hashPair hashes.getHash
    legacySigOpCount := getLegacySigOpCount
    contextualWitnessRules := checkWitnessRules hashes segwit }

/-- The two checks that `AcceptBlock` makes of a body. -/
def acceptChecks (env : BlockEnv) (block : CBlock) (nHeight : Int) : Except BlockError Unit := do
  checkBlock env block true true
  contextualCheckBlock env block nHeight

/-- `AcceptBlock` marks the header of a failing body that is not corrupted. -/
def marksInvalid : Except BlockError Unit → Bool
  | .error (.reject reject) => !reject.corruptionPossible
  | _ => false

end Straks.Chain
