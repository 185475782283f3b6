import Mathlib.Data.List.Basic

namespace Straks

/-- A hash is a 256-bit word. -/
abbrev Uint256 := BitVec 256

/-- An amount counts base units and can be negative. -/
abbrev CAmount := Int

def coin : CAmount := 100000000

def cent : CAmount := 1000000

/-- No amount above this value is valid. -/
def maxMoney : CAmount := 150000000 * coin

def moneyRange (nValue : CAmount) : Bool := decide (0 ≤ nValue) && decide (nValue ≤ maxMoney)

@[simp] theorem moneyRange_iff (nValue : CAmount) :
    moneyRange nValue = true ↔ 0 ≤ nValue ∧ nValue ≤ maxMoney := by
  simp [moneyRange]

/-- The least significant byte comes first in memory. -/
def littleEndian : Nat → Nat → List UInt8
  | 0, _ => []
  | count + 1, value => UInt8.ofNat (value % 256) :: littleEndian count (value / 256)

theorem littleEndian_length (width value : Nat) : (littleEndian width value).length = width := by
  induction width generalizing value with
  | zero => rfl
  | succ width ih => rw [littleEndian, List.length_cons, ih]

/-- A script is its raw bytes. -/
abbrev CScript := List UInt8

/-- An outpoint names one output of one transaction. -/
structure COutPoint where
  hash : Uint256
  n : UInt32
  deriving DecidableEq, Repr

/-- The null outpoint has a zero hash and the largest index. -/
def COutPoint.isNull (prevout : COutPoint) : Bool :=
  prevout.hash == 0 && prevout.n == 0xffffffff

structure CTxIn where
  prevout : COutPoint
  scriptSig : CScript
  nSequence : UInt32
  scriptWitness : List (List UInt8)
  deriving DecidableEq, Repr

structure CTxOut where
  nValue : CAmount
  scriptPubKey : CScript
  deriving DecidableEq, Repr

/-- A null output stands for a spent one. -/
def CTxOut.null : CTxOut := ⟨-1, []⟩

def CTxOut.isNull (txout : CTxOut) : Bool := txout.nValue == -1

@[simp] theorem CTxOut.null_isNull : CTxOut.null.isNull = true := rfl

structure CTransaction where
  nVersion : Int32
  vin : List CTxIn
  vout : List CTxOut
  nLockTime : UInt32
  deriving DecidableEq

variable (tx : CTransaction)

/-- A coinbase has one input and that input names no output. -/
def CTransaction.isCoinBase : Bool :=
  match tx.vin with
  | [txin] => txin.prevout.isNull
  | _ => false

def CTransaction.isNull : Bool := tx.vin.isEmpty && tx.vout.isEmpty

/-- The hash of a transaction does not cover its witnesses. -/
def CTransaction.withoutWitness : CTransaction :=
  { tx with vin := tx.vin.map fun txin => { txin with scriptWitness := [] } }

structure CBlockHeader where
  nVersion : Int32
  hashPrevBlock : Uint256
  hashMerkleRoot : Uint256
  nTime : UInt32
  nBits : UInt32
  nNonce : UInt32
  deriving DecidableEq

/-- The timestamp widens to a signed 64-bit value. -/
def CBlockHeader.getBlockTime (header : CBlockHeader) : Int := header.nTime.toNat

/-- A header without a target is the null header. -/
def CBlockHeader.isNull (header : CBlockHeader) : Bool := header.nBits == 0

structure CBlock extends CBlockHeader where
  vtx : List CTransaction
  deriving DecidableEq

end Straks
