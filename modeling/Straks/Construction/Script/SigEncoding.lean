import Straks.Construction.Script.Script

namespace Straks.Script

/-- The reasons for which a script can fail. -/
inductive ScriptError where
  | unknownError | evalFalse | opReturn
  | scriptSize | pushSize | opCount | stackSize | sigCount | pubkeyCount
  | verify | equalVerify | checkMultiSigVerify | checkSigVerify | numEqualVerify
  | badOpcode | disabledOpcode | invalidStackOperation | invalidAltstackOperation | unbalancedConditional
  | negativeLocktime | unsatisfiedLocktime
  | sigHashtype | sigDer | minimalData | sigPushOnly | sigHighS | sigNullDummy | pubkeyType | cleanStack
  | minimalIf | sigNullFail
  | discourageUpgradableNops | discourageUpgradableWitnessProgram
  | witnessProgramWrongLength | witnessProgramWitnessEmpty | witnessProgramMismatch
  | witnessMalleated | witnessMalleatedP2sh | witnessUnexpected | witnessPubkeyType
  deriving DecidableEq, Repr

/-- The verification flags. -/
inductive ScriptFlag where
  | p2sh | strictEnc | derSig | lowS | nullDummy | sigPushOnly | minimalData
  | discourageUpgradableNops | cleanStack | checkLockTimeVerify | checkSequenceVerify
  | witness | discourageUpgradableWitnessProgram | minimalIf | nullFail | witnessPubkeyType
  deriving DecidableEq, Repr

def ScriptFlag.bit : ScriptFlag → Nat
  | .p2sh => 0
  | .strictEnc => 1
  | .derSig => 2
  | .lowS => 3
  | .nullDummy => 4
  | .sigPushOnly => 5
  | .minimalData => 6
  | .discourageUpgradableNops => 7
  | .cleanStack => 8
  | .checkLockTimeVerify => 9
  | .checkSequenceVerify => 10
  | .witness => 11
  | .discourageUpgradableWitnessProgram => 12
  | .minimalIf => 13
  | .nullFail => 14
  | .witnessPubkeyType => 15

abbrev ScriptFlags := BitVec 32

/-- The flag is set in the word. -/
def ScriptFlags.has (flags : ScriptFlags) (flag : ScriptFlag) : Bool :=
  flags.getLsbD flag.bit

/-- The word with exactly the listed flags. -/
def ScriptFlags.ofList (flags : List ScriptFlag) : ScriptFlags :=
  flags.foldl (fun word flag => word ||| (1#32 <<< flag.bit)) 0

def mandatoryScriptVerifyFlags : ScriptFlags := .ofList [.p2sh]

def standardScriptVerifyFlags : ScriptFlags :=
  mandatoryScriptVerifyFlags ||| .ofList
    [.derSig, .strictEnc, .minimalData, .nullDummy, .discourageUpgradableNops, .cleanStack, .minimalIf,
      .nullFail, .checkLockTimeVerify, .checkSequenceVerify, .lowS, .witness,
      .discourageUpgradableWitnessProgram, .witnessPubkeyType]

inductive SigVersion where
  | base | witnessV0
  deriving DecidableEq, Repr

/-- The signature and lock time checks are parameters. -/
structure SignatureChecker where
  checkSig : List UInt8 → List UInt8 → CScript → SigVersion → Bool
  checkLockTime : Int → Bool
  checkSequence : Int → Bool

/-- The hash functions and the low `S` test come from libraries. -/
structure Crypto where
  ripemd160 : List UInt8 → List UInt8
  sha1 : List UInt8 → List UInt8
  sha256 : List UInt8 → List UInt8
  hash160 : List UInt8 → List UInt8
  hash256 : List UInt8 → List UInt8
  checkLowS : List UInt8 → Bool

/-- Any non-zero byte makes an element true, but for a last sign bit. -/
def castToBool : List UInt8 → Bool
  | [] => false
  | [last] => last ≠ 0 && last ≠ 0x80
  | byte :: rest => byte ≠ 0 || castToBool rest

variable (vchPubKey : List UInt8)

def isCompressedOrUncompressedPubKey : Bool :=
  if vchPubKey.length < 33 then false
  else if vchPubKey.getD 0 0 = 0x04 then vchPubKey.length == 65
  else if vchPubKey.getD 0 0 = 0x02 ∨ vchPubKey.getD 0 0 = 0x03 then vchPubKey.length == 33
  else false

def isCompressedPubKey : Bool :=
  if vchPubKey.length ≠ 33 then false
  else vchPubKey.getD 0 0 == 0x02 || vchPubKey.getD 0 0 == 0x03

/-- The strict format: a header, two lengths, two positive minimal integers, a hash type. -/
def isValidSignatureEncoding (sig : List UInt8) : Bool :=
  let lenR := (sig.getD 3 0).toNat
  let lenS := (sig.getD (5 + lenR) 0).toNat
  if sig.length < 9 then false
  else if 73 < sig.length then false
  else if sig.getD 0 0 ≠ 0x30 then false
  else if (sig.getD 1 0).toNat ≠ sig.length - 3 then false
  else if sig.length ≤ 5 + lenR then false
  else if lenR + lenS + 7 ≠ sig.length then false
  else if sig.getD 2 0 ≠ 0x02 then false
  else if lenR = 0 then false
  else if sig.getD 4 0 &&& 0x80 ≠ 0 then false
  else if 1 < lenR ∧ sig.getD 4 0 = 0 ∧ sig.getD 5 0 &&& 0x80 = 0 then false
  else if sig.getD (lenR + 4) 0 ≠ 0x02 then false
  else if lenS = 0 then false
  else if sig.getD (lenR + 6) 0 &&& 0x80 ≠ 0 then false
  else if 1 < lenS ∧ sig.getD (lenR + 6) 0 = 0 ∧ sig.getD (lenR + 7) 0 &&& 0x80 = 0 then false
  else true

/-- The tests with every read checked, also those that `&&` may skip. -/
def readSignatureEncoding (sig : List UInt8) : Option Bool := do
  if sig.length < 9 then return false
  if 73 < sig.length then return false
  if (← sig[0]?) ≠ 0x30 then return false
  if (← sig[1]?).toNat ≠ sig.length - 3 then return false
  let lenR := (← sig[3]?).toNat
  if sig.length ≤ 5 + lenR then return false
  let lenS := (← sig[5 + lenR]?).toNat
  if lenR + lenS + 7 ≠ sig.length then return false
  if (← sig[2]?) ≠ 0x02 then return false
  if lenR = 0 then return false
  if (← sig[4]?) &&& 0x80 ≠ 0 then return false
  if 1 < lenR ∧ (← sig[4]?) = 0 ∧ (← sig[5]?) &&& 0x80 = 0 then return false
  if (← sig[lenR + 4]?) ≠ 0x02 then return false
  if lenS = 0 then return false
  if (← sig[lenR + 6]?) &&& 0x80 ≠ 0 then return false
  if 1 < lenS ∧ (← sig[lenR + 6]?) = 0 ∧ (← sig[lenR + 7]?) &&& 0x80 = 0 then return false
  return true

variable (crypto : Crypto) (vchSig : List UInt8)

def isLowDERSignature : Except ScriptError Unit :=
  if !isValidSignatureEncoding vchSig then .error .sigDer
  else if !crypto.checkLowS vchSig.dropLast then .error .sigHighS
  else .ok ()

def isDefinedHashtypeSignature : Bool :=
  match vchSig.getLast? with
  | none => false
  | some last => 1 ≤ last &&& 0x7f && last &&& 0x7f ≤ 3

def checkLowSEncoding (flags : ScriptFlags) : Except ScriptError Unit :=
  if flags.has .lowS then isLowDERSignature crypto vchSig else .ok ()

/-- The empty signature is a compact way to give an invalid one. -/
def checkSignatureEncoding (flags : ScriptFlags) :
    Except ScriptError Unit :=
  if vchSig.isEmpty then .ok ()
  else if (flags.has .derSig || flags.has .lowS || flags.has .strictEnc) &&
      !isValidSignatureEncoding vchSig then .error .sigDer
  else do
    checkLowSEncoding crypto vchSig flags
    if flags.has .strictEnc && !isDefinedHashtypeSignature vchSig then .error .sigHashtype else .ok ()

def checkPubKeyEncoding (flags : ScriptFlags) (sigversion : SigVersion) :
    Except ScriptError Unit :=
  if flags.has .strictEnc && !isCompressedOrUncompressedPubKey vchPubKey then .error .pubkeyType
  else if flags.has .witnessPubkeyType && sigversion == .witnessV0 && !isCompressedPubKey vchPubKey then
    .error .witnessPubkeyType
  else .ok ()

def checkMinimalPush (data : List UInt8) (opcode : UInt8) : Bool :=
  match data with
  | [] => opcode == 0
  | [byte] =>
    if 1 ≤ byte ∧ byte ≤ 16 then opcode == 0x51 + (byte - 1)
    else if byte = 0x81 then opcode == 0x4f
    else opcode == 1
  | _ =>
    if data.length ≤ 75 then opcode.toNat == data.length
    else if data.length ≤ 255 then opcode == 0x4c
    else if data.length ≤ 65535 then opcode == 0x4d
    else true

end Straks.Script
