import Straks.Construction.Primitives

namespace Straks.Hash

structure SipState where
  v0 : UInt64
  v1 : UInt64
  v2 : UInt64
  v3 : UInt64

/-- The hasher keeps the bytes of an unfinished word in `tmp`. -/
structure CSipHasher where
  v : SipState
  tmp : UInt64
  count : Nat

def rotl (x b : UInt64) : UInt64 := x <<< b ||| x >>> (64 - b)

def sipRound (v : SipState) : SipState :=
  let v0 := v.v0 + v.v1
  let v1 := rotl v.v1 13 ^^^ v0
  let v0 := rotl v0 32
  let v2 := v.v2 + v.v3
  let v3 := rotl v.v3 16 ^^^ v2
  let v0 := v0 + v3
  let v3 := rotl v3 21 ^^^ v0
  let v2 := v2 + v1
  let v1 := rotl v1 17 ^^^ v2
  ⟨v0, v1, rotl v2 32, v3⟩

/-- The two rounds of one word. -/
def absorb (v : SipState) (t : UInt64) : SipState :=
  let v := sipRound (sipRound { v with v3 := v.v3 ^^^ t })
  { v with v0 := v.v0 ^^^ t }

/-- The four last rounds. -/
def digest (v : SipState) : UInt64 :=
  let v := sipRound (sipRound (sipRound (sipRound { v with v2 := v.v2 ^^^ 0xff })))
  v.v0 ^^^ v.v1 ^^^ v.v2 ^^^ v.v3

variable (k0 k1 : UInt64)

def keyed : SipState :=
  ⟨0x736f6d6570736575 ^^^ k0, 0x646f72616e646f6d ^^^ k1, 0x6c7967656e657261 ^^^ k0, 0x7465646279746573 ^^^ k1⟩

def cSipHasher : CSipHasher := ⟨keyed k0 k1, 0, 0⟩

variable (hasher : CSipHasher)

/-- A whole word is only taken between words. -/
def CSipHasher.writeWord (data : UInt64) : Option CSipHasher :=
  if hasher.count % 8 = 0 then some { hasher with v := absorb hasher.v data, count := hasher.count + 8 } else none

def CSipHasher.writeByte (byte : UInt8) : CSipHasher :=
  let t := hasher.tmp ||| byte.toUInt64 <<< (8 * (hasher.count % 8)).toUInt64
  let c := hasher.count + 1
  if c % 8 = 0 then ⟨absorb hasher.v t, 0, c⟩ else ⟨hasher.v, t, c⟩

def CSipHasher.write (data : List UInt8) : CSipHasher := data.foldl writeByte hasher

def CSipHasher.finalize : UInt64 := digest (absorb hasher.v (hasher.tmp ||| hasher.count.toUInt64 <<< 56))

def getUint64 (data : List UInt8) (pos : Nat) : UInt64 :=
  let ptr i := (data.getD (pos * 8 + i) 0).toUInt64
  ptr 0 ||| ptr 1 <<< 8 ||| ptr 2 <<< 16 ||| ptr 3 <<< 24 ||| ptr 4 <<< 32 ||| ptr 5 <<< 40 ||| ptr 6 <<< 48 |||
    ptr 7 <<< 56

/-- The specialised hash of 32 bytes. -/
def sipHashUint256 (val : Uint256) : UInt64 :=
  let d := getUint64 (littleEndian 32 val.toNat)
  let v := absorb (absorb (absorb (absorb (keyed k0 k1) (d 0)) (d 1)) (d 2)) (d 3)
  digest (absorb v ((4 : UInt64) <<< 59))

end Straks.Hash
