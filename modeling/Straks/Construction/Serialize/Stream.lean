import Straks.Construction.Script.Script
import Straks.Library.Wire

namespace Straks.Serialize

open Script Wire

/-- The exceptions that end a deserialization. -/
inductive StreamError where
  /-- "CDataStream::read(): end of data" -/
  | endOfData
  /-- "non-canonical ReadCompactSize()" -/
  | nonCanonical
  /-- "ReadCompactSize(): size too large" -/
  | sizeTooLarge
  /-- "Unknown transaction optional data" -/
  | unknownOptionalData
  /-- "CDataStream::ignore(): nSize negative" -/
  | ignoreNegative
  /-- "CDataStream::ignore(): end of data" -/
  | ignoreEndOfData
  /-- "index overflowed 16 bits" -/
  | indexOverflowed
  /-- "indexes overflowed 16 bits" -/
  | indexesOverflowed
  deriving DecidableEq, Repr

/-- No vector of a stream has more elements. -/
def maxSize : Nat := 0x02000000

def readBytes (nSize : Nat) : Reader StreamError (List UInt8) := takeBytes .endOfData nSize

/-- `ser_readdata8` to `ser_readdata64`, for that many bytes. -/
def readData (width : Nat) : Reader StreamError Nat := do
  return readLE (← readBytes width)

/-- A size longer than needed is refused. -/
def readSizeFrom (least width : Nat) : Reader StreamError Nat := do
  let nSizeRet ← readData width
  if nSizeRet < least then throw .nonCanonical else return nSizeRet

/-- The first byte is the size or tells how many bytes hold it. -/
def readSizeAfter (chSize : Nat) : Reader StreamError Nat :=
  if chSize < 253 then pure chSize
  else if chSize = 253 then readSizeFrom 253 2
  else if chSize = 254 then readSizeFrom 0x10000 4
  else readSizeFrom 0x100000000 8

def readCompactSize : Reader StreamError Nat := do
  let chSize ← readData 1
  let nSizeRet ← readSizeAfter chSize
  if maxSize < nSizeRet then throw .sizeTooLarge else return nSizeRet

def writeCompactSize (nSize : Nat) : List UInt8 :=
  if nSize < 253 then littleEndian 1 nSize
  else if nSize ≤ 0xffff then 253 :: littleEndian 2 nSize
  else if nSize ≤ 0xffffffff then 254 :: littleEndian 4 nSize
  else 255 :: littleEndian 8 nSize

/-- A vector of bytes is one block after its size. -/
def writeBlob (v : List UInt8) : List UInt8 := writeCompactSize v.length ++ v

def readBlob : Reader StreamError (List UInt8) := do
  let nSize ← readCompactSize
  readBytes nSize

/-- Every other vector is its elements after their number. -/
def writeVector {Item : Type} (write : Item → List UInt8) (v : List Item) : List UInt8 :=
  writeCompactSize v.length ++ v.flatMap write

def readVector {Item : Type} (read : Reader StreamError Item) : Reader StreamError (List Item) := do
  let nSize ← readCompactSize
  readItems read nSize

end Straks.Serialize
