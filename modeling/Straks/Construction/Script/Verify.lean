import Straks.Construction.Script.Interpreter

namespace Straks.Script

/-- A verification ends with a script error or an assertion. -/
inductive VerifyFailure where
  | error (serror : ScriptError)
  | assertion
  deriving DecidableEq, Repr

abbrev Verify (Value : Type) := Except VerifyFailure Value

def failVerify {Value : Type} (serror : ScriptError) : Verify Value := .error (.error serror)

/-- What all evaluations of one input share. -/
structure VerifyEnv where
  crypto : Crypto
  checker : SignatureChecker

variable (env : VerifyEnv) (flags : ScriptFlags)

def VerifyEnv.eval (sigversion : SigVersion) (stack : Stack)
    (script : CScript) : Verify Stack :=
  match evalScript ⟨flags, env.crypto, env.checker, sigversion⟩ stack script with
  | .ok final => .ok final
  | .error serror => failVerify serror

variable (stack : Stack)

/-- A successful script leaves a true element on top. -/
def requireTrue : Verify Unit :=
  match stack with
  | [] => failVerify .evalFalse
  | top :: _ => if castToBool top then .ok () else failVerify .evalFalse

/-- `CScript() << OP_DUP << OP_HASH160 << program << OP_EQUALVERIFY << OP_CHECKSIG`. -/
def payToPubKeyHash (program : List UInt8) : CScript :=
  pushData [0x76, 0xa9] program ++ [0x88, 0xac]

/-- The script and initial stack of a version zero program. -/
def witnessScript (crypto : Crypto) (witness : List (List UInt8)) (program : List UInt8) :
    Verify (CScript × Stack) :=
  if program.length = 32 then
    match witness.reverse with
    | [] => failVerify .witnessProgramWitnessEmpty
    | script :: stack =>
      if crypto.sha256 script = program then .ok (script, stack)
      else failVerify .witnessProgramMismatch
  else if program.length = 20 then
    if witness.length ≠ 2 then failVerify .witnessProgramMismatch
    else .ok (payToPubKeyHash program, witness.reverse)
  else failVerify .witnessProgramWrongLength

/-- The final stack of a witness script is one true element. -/
def requireCleanTrue : Verify Unit :=
  if stack.length ≠ 1 then failVerify .evalFalse else requireTrue stack

def verifyWitnessProgram (witness : List (List UInt8)) (witversion : Nat)
    (program : List UInt8) (flags : ScriptFlags) : Verify Unit :=
  if witversion = 0 then do
    let (scriptPubKey, stack) ← witnessScript env.crypto witness program
    if stack.any fun item => maxScriptElementSize < item.length then failVerify .pushSize
    else do
      let final ← env.eval flags .witnessV0 stack scriptPubKey
      requireCleanTrue final
  else if flags.has .discourageUpgradableWitnessProgram then failVerify .discourageUpgradableWitnessProgram
  else .ok ()

/-- `std::vector::resize(1)` keeps the bottom element. -/
def resizeOne : Stack := stack.drop (stack.length - 1)

/-- The witness of a program is verified; the stack counts as clean. -/
def verifyWitness (script : CScript) (exact : Bool)
    (malleated : ScriptError) (witness : List (List UInt8)) (stack : Stack) (hadWitness : Bool) :
    Verify (Stack × Bool) :=
  if flags.has .witness then
    match isWitnessProgram script with
    | none => .ok (stack, hadWitness)
    | some (witversion, program) =>
      if !exact then failVerify malleated
      else do
        verifyWitnessProgram env witness witversion program flags
        .ok (resizeOne stack, true)
  else .ok (stack, hadWitness)

/-- The redeem script is evaluated on the rest of the stack. -/
def verifyScriptHash (scriptSig scriptPubKey : CScript)
    (witness : List (List UInt8)) (stackCopy stack : Stack) (hadWitness : Bool) : Verify (Stack × Bool) :=
  if flags.has .p2sh && isPayToScriptHash scriptPubKey then
    if !isPushOnly scriptSig then failVerify .sigPushOnly
    else
      match stackCopy with
      | [] => .error .assertion
      | pubKey2 :: rest => do
        let redeemed ← env.eval flags .base rest pubKey2
        requireTrue redeemed
        verifyWitness env flags pubKey2 (scriptSig == pushData [] pubKey2) .witnessMalleatedP2sh witness
          redeemed hadWitness
  else .ok (stack, hadWitness)

/-- The clean stack rule needs script hashes and witnesses. -/
def requireCleanStack : Verify Unit :=
  if flags.has .cleanStack then
    if !(flags.has .p2sh && flags.has .witness) then .error .assertion
    else if stack.length ≠ 1 then failVerify .cleanStack
    else .ok ()
  else .ok ()

/-- A witness no program asked for is an error. -/
def requireNoWitness (witness : List (List UInt8)) (hadWitness : Bool) : Verify Unit :=
  if flags.has .witness then
    if !flags.has .p2sh then .error .assertion
    else if !hadWitness && !witness.isEmpty then failVerify .witnessUnexpected
    else .ok ()
  else .ok ()

/-- A missing witness is passed as the empty one. -/
def verifyScript (scriptSig scriptPubKey : CScript) (witness : List (List UInt8))
    (flags : ScriptFlags) : Verify Unit :=
  if flags.has .sigPushOnly && !isPushOnly scriptSig then failVerify .sigPushOnly
  else do
    let stackCopy ← env.eval flags .base [] scriptSig
    let stack ← env.eval flags .base stackCopy scriptPubKey
    requireTrue stack
    let (stack, hadWitness) ←
      verifyWitness env flags scriptPubKey scriptSig.isEmpty .witnessMalleated witness stack false
    let (stack, hadWitness) ←
      verifyScriptHash env flags scriptSig scriptPubKey witness stackCopy stack hadWitness
    requireCleanStack flags stack
    requireNoWitness flags witness hadWitness

/-- What the verification of one input of a transaction reads. -/
structure ScriptCheck where
  env : VerifyEnv
  scriptSig : CScript
  scriptPubKey : CScript
  witness : List (List UInt8)

/-- Every input of a transaction verifies under the flags. -/
def passes (checks : List ScriptCheck) (flags : ScriptFlags) : Prop :=
  ∀ check ∈ checks, verifyScript check.env check.scriptSig check.scriptPubKey check.witness flags = .ok ()

end Straks.Script
