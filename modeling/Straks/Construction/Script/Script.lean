import Straks.Construction.Primitives
import Straks.Library.DecimalText

namespace Straks.Script

open DecimalText

def maxScriptElementSize : Nat := 520
def maxOpsPerScript : Nat := 201
def maxPubkeysPerMultisig : Nat := 20
def maxScriptSize : Nat := 10000

/-- The operations of script bytes; operations with one body are one constructor. -/
inductive Opcode where
  /-- `OP_0`, the direct pushes and `OP_PUSHDATA1` to `OP_PUSHDATA4` carry data. -/
  | push
  /-- `OP_1NEGATE` and `OP_1` to `OP_16` push their own number. -/
  | small
  | nop
  | checkLockTimeVerify
  | checkSequenceVerify
  /-- `OP_NOP1` and `OP_NOP4` to `OP_NOP10`. -/
  | upgradableNop
  | conditional (negated : Bool)
  | elseBranch
  | endIf
  | verify
  | opReturn
  | toAltStack | fromAltStack
  | drop2 | dup2 | dup3 | over2 | rot2 | swap2
  | ifDup | depth | drop | dup | nip | opOver
  | pick (roll : Bool)
  | rot | swap | tuck | size
  | equal (verifies : Bool)
  | add1 | sub1 | negate | abs | not | notEqual0
  | add | sub | boolAnd | boolOr
  | numEqual (verifies : Bool)
  | numNotEqual | lessThan | greaterThan | lessThanOrEqual | greaterThanOrEqual | min | max
  | within
  | ripemd160 | sha1 | sha256 | hash160 | hash256
  | codeSeparator
  | checkSig (verifies : Bool)
  | checkMultiSig (verifies : Bool)
  /-- The operations that fail a script even when not executed. -/
  | disabled
  /-- The reserved and unassigned bytes have no case. -/
  | bad
  deriving DecidableEq, Repr

/-- The last operation not counted towards the limit. -/
def op16 : UInt8 := 0x60

def opPushData4 : UInt8 := 0x4e

def opReturnByte : UInt8 := 0x6a

def Opcode.ofByte (byte : UInt8) : Opcode :=
  if byte ≤ opPushData4 then .push
  else if byte = 0x4f then .small
  else if 0x51 ≤ byte ∧ byte ≤ op16 then .small
  else match byte.toNat with
    | 0x61 => .nop
    | 0x63 => .conditional false
    | 0x64 => .conditional true
    | 0x67 => .elseBranch
    | 0x68 => .endIf
    | 0x69 => .verify
    | 0x6a => .opReturn
    | 0x6b => .toAltStack
    | 0x6c => .fromAltStack
    | 0x6d => .drop2
    | 0x6e => .dup2
    | 0x6f => .dup3
    | 0x70 => .over2
    | 0x71 => .rot2
    | 0x72 => .swap2
    | 0x73 => .ifDup
    | 0x74 => .depth
    | 0x75 => .drop
    | 0x76 => .dup
    | 0x77 => .nip
    | 0x78 => .opOver
    | 0x79 => .pick false
    | 0x7a => .pick true
    | 0x7b => .rot
    | 0x7c => .swap
    | 0x7d => .tuck
    | 0x7e => .disabled
    | 0x7f => .disabled
    | 0x80 => .disabled
    | 0x81 => .disabled
    | 0x82 => .size
    | 0x83 => .disabled
    | 0x84 => .disabled
    | 0x85 => .disabled
    | 0x86 => .disabled
    | 0x87 => .equal false
    | 0x88 => .equal true
    | 0x8b => .add1
    | 0x8c => .sub1
    | 0x8d => .disabled
    | 0x8e => .disabled
    | 0x8f => .negate
    | 0x90 => .abs
    | 0x91 => .not
    | 0x92 => .notEqual0
    | 0x93 => .add
    | 0x94 => .sub
    | 0x95 => .disabled
    | 0x96 => .disabled
    | 0x97 => .disabled
    | 0x98 => .disabled
    | 0x99 => .disabled
    | 0x9a => .boolAnd
    | 0x9b => .boolOr
    | 0x9c => .numEqual false
    | 0x9d => .numEqual true
    | 0x9e => .numNotEqual
    | 0x9f => .lessThan
    | 0xa0 => .greaterThan
    | 0xa1 => .lessThanOrEqual
    | 0xa2 => .greaterThanOrEqual
    | 0xa3 => .min
    | 0xa4 => .max
    | 0xa5 => .within
    | 0xa6 => .ripemd160
    | 0xa7 => .sha1
    | 0xa8 => .sha256
    | 0xa9 => .hash160
    | 0xaa => .hash256
    | 0xab => .codeSeparator
    | 0xac => .checkSig false
    | 0xad => .checkSig true
    | 0xae => .checkMultiSig false
    | 0xaf => .checkMultiSig true
    | 0xb0 => .upgradableNop
    | 0xb1 => .checkLockTimeVerify
    | 0xb2 => .checkSequenceVerify
    | 0xb3 => .upgradableNop
    | 0xb4 => .upgradableNop
    | 0xb5 => .upgradableNop
    | 0xb6 => .upgradableNop
    | 0xb7 => .upgradableNop
    | 0xb8 => .upgradableNop
    | 0xb9 => .upgradableNop
    | _ => .bad

/-- The little-endian value of some bytes. -/
def readLE : List UInt8 → Nat
  | [] => 0
  | byte :: rest => byte.toNat + 256 * readLE rest

/-- The data follows its length; a push past the end fails. -/
def takePush (nSize : Nat) (pc : CScript) : Option (List UInt8 × CScript) :=
  if pc.length < nSize then none else some (pc.take nSize, pc.drop nSize)

variable (opcode : UInt8)

/-- The bytes of the length prefix of `OP_PUSHDATA1`, `OP_PUSHDATA2` and `OP_PUSHDATA4`. -/
def lengthWidth : Nat :=
  if opcode = 0x4c then 1 else if opcode = 0x4d then 2 else 4

def readPush (pc : CScript) : Option (List UInt8 × CScript) :=
  if opcode < 0x4c then takePush opcode.toNat pc
  else if pc.length < lengthWidth opcode then none
  else takePush (readLE (pc.take (lengthWidth opcode))) (pc.drop (lengthWidth opcode))

/-- An instruction: its byte, its data and the script after it. -/
def getOp : CScript → Option (UInt8 × List UInt8 × CScript)
  | [] => none
  | opcode :: pc =>
    if opcode ≤ opPushData4 then (readPush opcode pc).map fun pushed => (opcode, pushed.1, pushed.2)
    else some (opcode, [], pc)

/-- The bytes of a magnitude, the lowest first, no leading zeros. -/
def magnitudeBytes : Nat → Nat → List UInt8
  | 0, _ => []
  | fuel + 1, value => if value = 0 then [] else UInt8.ofNat (value % 256) :: magnitudeBytes fuel (value / 256)

/-- The sign is the highest bit, in its own byte when that is taken. -/
def signBytes (neg : Bool) : List UInt8 → List UInt8
  | [] => []
  | [top] => if top &&& 0x80 ≠ 0 then [top, if neg then 0x80 else 0] else if neg then [top ||| 0x80] else [top]
  | byte :: rest => byte :: signBytes neg rest

/-- A 64-bit number has at most eight bytes of magnitude. -/
def scriptNumSerialize (value : Int) : List UInt8 :=
  signBytes (value < 0) (magnitudeBytes 8 value.natAbs)

def nDefaultMaxNumSize : Nat := 4

variable (vch : List UInt8)

/-- The highest byte of a minimal number carries more than its sign, unless the byte below has its highest bit set. -/
def isMinimalNum : Bool :=
  match vch.reverse with
  | [] => true
  | [top] => top &&& 0x7f != 0
  | top :: below :: _ => top &&& 0x7f != 0 || below &&& 0x80 != 0

def setVch : Int :=
  match vch.getLast? with
  | none => 0
  | some top =>
    if top &&& 0x80 ≠ 0 then -((readLE vch : Int) - 0x80 * 256 ^ (vch.length - 1)) else readLE vch

/-- A number too long or not minimal throws `scriptnum_error`. -/
def scriptNum (fRequireMinimal : Bool) (nMaxNumSize : Nat) : Option Int :=
  if nMaxNumSize < vch.length then none
  else if fRequireMinimal && !isMinimalNum vch then none
  else some (setVch vch)

/-- Numbers outside the range of `int` saturate. -/
def getint (value : Int) : Int :=
  if value > 2147483647 then 2147483647 else if value < -2147483648 then -2147483648 else value

variable (script : CScript)

/-- The push operator chooses the shortest length prefix. -/
def pushData (b : List UInt8) : CScript :=
  if b.length < 0x4c then script ++ UInt8.ofNat b.length :: b
  else if b.length ≤ 0xff then script ++ 0x4c :: UInt8.ofNat b.length :: b
  else if b.length ≤ 0xffff then script ++ 0x4d :: littleEndian 2 b.length ++ b
  else script ++ 0x4e :: littleEndian 4 b.length ++ b

def pushInt64 (n : Int) : CScript :=
  if n = -1 ∨ (1 ≤ n ∧ n ≤ 16) then script ++ [UInt8.ofNat (n + 0x50).toNat]
  else if n = 0 then script ++ [0]
  else pushData script (scriptNumSerialize n)

/-- The script after the matches at its start, and their count. -/
def skipMatches (b : CScript) : Nat → CScript → CScript × Nat
  | 0, pc => (pc, 0)
  | fuel + 1, pc =>
    if b.isPrefixOf pc then
      let rest := skipMatches b fuel (pc.drop b.length)
      (rest.1, rest.2 + 1)
    else (pc, 0)

/-- The scan drops the matches at instruction boundaries and copies the rest. -/
def findAndDeleteLoop (b : CScript) : Nat → CScript → CScript → Nat → CScript × Nat
  | 0, pc, result, nFound => (result ++ pc, nFound)
  | fuel + 1, pc, result, nFound =>
    let skipped := skipMatches b pc.length pc
    match getOp skipped.1 with
    | none => (result ++ skipped.1, nFound + skipped.2)
    | some (_, _, next) =>
      findAndDeleteLoop b fuel next
        (result ++ skipped.1.take (skipped.1.length - next.length)) (nFound + skipped.2)

/-- The script without the aligned matches, and their count. -/
def findAndDelete (script b : CScript) : CScript × Nat :=
  if b.isEmpty then (script, 0)
  else
    let scanned := findAndDeleteLoop b (script.length + 1) script [] 0
    if scanned.2 = 0 then (script, 0) else scanned

def isPushOnlyLoop : Nat → CScript → Bool
  | 0, pc => pc.isEmpty
  | fuel + 1, pc =>
    if pc.isEmpty then true
    else
      match getOp pc with
      | none => false
      | some (opcode, _, next) => if op16 < opcode then false else isPushOnlyLoop fuel next

def isPushOnly : Bool :=
  isPushOnlyLoop script.length script

def isPayToScriptHash : Bool :=
  script.length == 23 && script[0]? == some 0xa9 && script[1]? == some 0x14 && script[22]? == some 0x87

def decodeOpN : Nat :=
  if opcode = 0 then 0 else opcode.toNat - 0x50

/-- A version opcode followed by one direct push of two to forty bytes. -/
def isWitnessProgram : Option (Nat × List UInt8) :=
  if script.length < 4 ∨ 42 < script.length then none
  else
    match script with
    | version :: size :: program =>
      if version ≠ 0 ∧ (version < 0x51 ∨ op16 < version) then none
      else if size.toNat + 2 = script.length then some (decodeOpN version, program) else none
    | _ => none

/-- An output with such a script can never be spent. -/
def isUnspendable : Bool :=
  (script.head? == some opReturnByte) || maxScriptSize < script.length

end Straks.Script
