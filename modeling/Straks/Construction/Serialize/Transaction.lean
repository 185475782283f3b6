import Straks.Construction.Chain.WitnessRules
import Straks.Construction.Serialize.Stream

namespace Straks.Serialize

open Chain Wire

def writeOutPoint (prevout : COutPoint) : List UInt8 :=
  littleEndian 32 prevout.hash.toNat ++ littleEndian 4 prevout.n.toNat

def readOutPoint : Reader StreamError COutPoint := do
  let hash ← readData 32
  let n ← readData 4
  return ⟨BitVec.ofNat 256 hash, UInt32.ofNat n⟩

/-- The witness of an input is not part of the input. -/
def writeTxIn (txin : CTxIn) : List UInt8 :=
  writeOutPoint txin.prevout ++ (writeBlob txin.scriptSig ++ littleEndian 4 txin.nSequence.toNat)

def readTxIn : Reader StreamError CTxIn := do
  let prevout ← readOutPoint
  let scriptSig ← readBlob
  let nSequence ← readData 4
  return ⟨prevout, scriptSig, UInt32.ofNat nSequence, []⟩

/-- The amount is a signed word of 64 bits. -/
def writeTxOut (txout : CTxOut) : List UInt8 :=
  littleEndian 8 (BitVec.ofInt 64 txout.nValue).toNat ++ writeBlob txout.scriptPubKey

def readTxOut : Reader StreamError CTxOut := do
  let nValue ← readData 8
  let scriptPubKey ← readBlob
  return ⟨(BitVec.ofNat 64 nValue).toInt, scriptPubKey⟩

def writeWitness (txin : CTxIn) : List UInt8 := writeVector writeBlob txin.scriptWitness

/-- The witness stacks follow the outputs, one for each input. -/
def readWitnesses : List CTxIn → Reader StreamError (List CTxIn)
  | [] => pure []
  | txin :: rest => do
    let stack ← readVector readBlob
    let others ← readWitnesses rest
    return { txin with scriptWitness := stack } :: others

/-- The transaction once its flags are known; any flag brings the extended format. -/
def writeWithFlags (flags : UInt8) (tx : CTransaction) : List UInt8 :=
  littleEndian 4 tx.nVersion.toBitVec.toNat ++
    ((if flags ≠ 0 then writeVector writeTxIn [] ++ [flags] else []) ++
      (writeVector writeTxIn tx.vin ++ (writeVector writeTxOut tx.vout ++
        ((if flags &&& 1 ≠ 0 then tx.vin.flatMap writeWitness else []) ++ littleEndian 4 tx.nLockTime.toNat))))

variable (fAllowWitness : Bool)

/-- The extended format is used only when witnesses are written. -/
def serializeTransaction (tx : CTransaction) : List UInt8 :=
  writeWithFlags (if fAllowWitness && hasWitness tx then 1 else 0) tx

/-- The inputs and outputs after their flags. The dummy reads as an empty vector of inputs. -/
def readBody : Reader StreamError (UInt8 × List CTxIn × List CTxOut) := do
  let vin ← readVector readTxIn
  if vin.isEmpty && fAllowWitness then do
    let flags ← readData 1
    if UInt8.ofNat flags ≠ 0 then do
      let vin ← readVector readTxIn
      let vout ← readVector readTxOut
      return (UInt8.ofNat flags, vin, vout)
    else return (0, vin, [])
  else do
    let vout ← readVector readTxOut
    return (0, vin, vout)

/-- The flags left and the inputs with their witnesses. -/
def readOptionalData (flags : UInt8) (vin : List CTxIn) :
    Reader StreamError (UInt8 × List CTxIn) :=
  if flags &&& 1 ≠ 0 ∧ fAllowWitness = true then do
    let vin ← readWitnesses vin
    return (flags ^^^ 1, vin)
  else return (flags, vin)

def unserializeTransaction : Reader StreamError CTransaction := do
  let nVersion ← readData 4
  let (flags, vin, vout) ← readBody fAllowWitness
  let (flags, vin) ← readOptionalData fAllowWitness flags vin
  if flags ≠ 0 then throw .unknownOptionalData
  else do
    let nLockTime ← readData 4
    return ⟨Int32.ofBitVec (BitVec.ofNat 32 nVersion), vin, vout, UInt32.ofNat nLockTime⟩

/-- The txid hashes the serialization without witnesses. -/
def computeHash (hash : List UInt8 → Uint256) (tx : CTransaction) : Uint256 := hash (serializeTransaction false tx)

end Straks.Serialize
