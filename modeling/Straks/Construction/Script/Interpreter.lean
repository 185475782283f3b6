import Straks.Construction.Script.SigEncoding

namespace Straks.Script

abbrev Stack := List (List UInt8)

/-- What one evaluation of a script keeps fixed. -/
structure EvalEnv where
  flags : ScriptFlags
  crypto : Crypto
  checker : SignatureChecker
  sigversion : SigVersion

/-- The state between two instructions; the head of each list is the top. -/
structure EvalState where
  /-- The script from the next instruction on. -/
  pc : CScript
  /-- The script from the last code separator on. -/
  pbegincodehash : CScript
  stack : Stack
  altstack : Stack
  vfExec : List Bool
  nOpCount : Nat
  deriving DecidableEq

def vchFalse : List UInt8 := []

def vchTrue : List UInt8 := [1]

def boolBytes (value : Bool) : List UInt8 := if value then vchTrue else vchFalse

variable (env : EvalEnv)

/-- A number that cannot be read ends the evaluation with the unknown error. -/
def readNum (vch : List UInt8) (nMaxNumSize : Nat) : Except ScriptError Int :=
  match scriptNum vch (env.flags.has .minimalData) nMaxNumSize with
  | none => .error .unknownError
  | some value => .ok value

def boolNum (value : Bool) : Int := if value then 1 else 0

/-- The operations on one number. -/
def unaryNum (operation : Int → Int) (state : EvalState) : Except ScriptError EvalState :=
  match state.stack with
  | top :: rest => do
    let bn ← readNum env top nDefaultMaxNumSize
    .ok { state with stack := scriptNumSerialize (operation bn) :: rest }
  | _ => .error .invalidStackOperation

/-- The operations on two numbers. -/
def binaryNum (operation : Int → Int → Int) (state : EvalState) :
    Except ScriptError EvalState :=
  match state.stack with
  | second :: first :: rest => do
    let bn1 ← readNum env first nDefaultMaxNumSize
    let bn2 ← readNum env second nDefaultMaxNumSize
    .ok { state with stack := scriptNumSerialize (operation bn1 bn2) :: rest }
  | _ => .error .invalidStackOperation

/-- A verifying operation takes its result off the stack, or fails. -/
def popVerify (serror : ScriptError) (state : EvalState) : Except ScriptError EvalState :=
  match state.stack with
  | top :: rest => if castToBool top then .ok { state with stack := rest } else .error serror
  | _ => .error .invalidStackOperation

variable (state : EvalState)

def withinNum : Except ScriptError EvalState :=
  match state.stack with
  | third :: second :: first :: rest => do
    let bn1 ← readNum env first nDefaultMaxNumSize
    let bn2 ← readNum env second nDefaultMaxNumSize
    let bn3 ← readNum env third nDefaultMaxNumSize
    .ok { state with stack := boolBytes (bn2 ≤ bn1 && bn1 < bn3) :: rest }
  | _ => .error .invalidStackOperation

def hashTop (hash : List UInt8 → List UInt8) (state : EvalState) : Except ScriptError EvalState :=
  match state.stack with
  | top :: rest => .ok { state with stack := hash top :: rest }
  | _ => .error .invalidStackOperation

/-- Rearranges the stack, with `none` when it is too short. -/
def stackOp (operation : Stack → Option Stack) (state : EvalState) : Except ScriptError EvalState :=
  match operation state.stack with
  | some stack => .ok { state with stack }
  | none => .error .invalidStackOperation

def upgradableNop : Except ScriptError EvalState :=
  if env.flags.has .discourageUpgradableNops then .error .discourageUpgradableNops else .ok state

/-- The operand of a lock time operation has up to five bytes and stays. -/
def lockTimeOperand : Except ScriptError Int :=
  match state.stack with
  | top :: _ => do
    let value ← readNum env top 5
    if value < 0 then .error .negativeLocktime else .ok value
  | _ => .error .invalidStackOperation

def checkLockTimeVerify : Except ScriptError EvalState :=
  if env.flags.has .checkLockTimeVerify then do
    let nLockTime ← lockTimeOperand env state
    if env.checker.checkLockTime nLockTime then .ok state else .error .unsatisfiedLocktime
  else upgradableNop env state

/-- An operand with the disable bit makes a no-op. -/
def checkSequenceVerify : Except ScriptError EvalState :=
  if env.flags.has .checkSequenceVerify then do
    let nSequence ← lockTimeOperand env state
    if nSequence.toNat.testBit 31 then .ok state
    else if env.checker.checkSequence nSequence then .ok state
    else .error .unsatisfiedLocktime
  else upgradableNop env state

/-- The condition in a witness script is empty or exactly one. -/
def minimalIfViolated (vch : List UInt8) : Bool :=
  env.sigversion == .witnessV0 && env.flags.has .minimalIf && vch != [] && vch != [1]

def conditionalOp (fExec negated : Bool) (state : EvalState) : Except ScriptError EvalState :=
  if fExec then
    match state.stack with
    | vch :: rest =>
      if minimalIfViolated env vch then .error .minimalIf
      else .ok { state with stack := rest, vfExec := (castToBool vch != negated) :: state.vfExec }
    | _ => .error .unbalancedConditional
  else .ok { state with vfExec := false :: state.vfExec }

def elseOp : Except ScriptError EvalState :=
  match state.vfExec with
  | top :: rest => .ok { state with vfExec := (!top) :: rest }
  | _ => .error .unbalancedConditional

def endIfOp : Except ScriptError EvalState :=
  match state.vfExec with
  | _ :: rest => .ok { state with vfExec := rest }
  | _ => .error .unbalancedConditional

def pickOp (roll : Bool) (state : EvalState) : Except ScriptError EvalState :=
  match state.stack with
  | top :: next :: rest => do
    let n := getint (← readNum env top nDefaultMaxNumSize)
    let below := next :: rest
    if n < 0 ∨ (below.length : Int) ≤ n then .error .invalidStackOperation
    else
      let vch := below.getD n.toNat []
      .ok { state with stack := vch :: if roll then below.eraseIdx n.toNat else below }
  | _ => .error .invalidStackOperation

/-- In the original version a signature does not sign itself. -/
def dropSignature (scriptCode : CScript) (vchSig : List UInt8) : CScript :=
  if env.sigversion = .base then (findAndDelete scriptCode (pushData [] vchSig)).1 else scriptCode

def checkEncodings (vchSig vchPubKey : List UInt8) : Except ScriptError Unit := do
  checkSignatureEncoding env.crypto vchSig env.flags
  checkPubKeyEncoding vchPubKey env.flags env.sigversion

def checkSigOp : Except ScriptError EvalState :=
  match state.stack with
  | vchPubKey :: vchSig :: rest => do
    let scriptCode := dropSignature env state.pbegincodehash vchSig
    checkEncodings env vchSig vchPubKey
    let fSuccess := env.checker.checkSig vchSig vchPubKey scriptCode env.sigversion
    if !fSuccess && env.flags.has .nullFail && !vchSig.isEmpty then .error .sigNullFail
    else .ok { state with stack := boolBytes fSuccess :: rest }
  | _ => .error .invalidStackOperation

/-- Each key is tried once, until the signatures are used up or outnumber the keys. -/
def multiSigLoop (env : EvalEnv) (scriptCode : CScript) : List (List UInt8) → List (List UInt8) →
    Except ScriptError Bool
  | [], [] => .ok true
  | _ :: _, [] => .ok false
  | [], _ :: _ => .ok true
  | vchSig :: sigs, vchPubKey :: keys => do
    checkEncodings env vchSig vchPubKey
    let remaining :=
      if env.checker.checkSig vchSig vchPubKey scriptCode env.sigversion then sigs else vchSig :: sigs
    if keys.length < remaining.length then .ok false else multiSigLoop env scriptCode remaining keys

/-- The arguments leave the stack; failed signatures have to be empty. -/
def cleanArguments (nullFail : Bool) : Nat → Nat → Stack → Except ScriptError Stack
  | 0, _, stack => .ok stack
  | count + 1, ikey2, stack =>
    match stack with
    | top :: rest =>
      if nullFail && ikey2 == 0 && !top.isEmpty then .error .sigNullFail
      else cleanArguments nullFail count (ikey2 - 1) rest
    | [] => .error .unknownError

/-- One more element than the arguments is consumed. -/
def popDummy : Stack → Except ScriptError Stack
  | dummy :: rest => if env.flags.has .nullDummy && !dummy.isEmpty then .error .sigNullDummy else .ok rest
  | [] => .error .invalidStackOperation

def checkMultiSigOp : Except ScriptError EvalState :=
  match state.stack with
  | [] => .error .invalidStackOperation
  | top :: _ => do
    let nKeys := getint (← readNum env top nDefaultMaxNumSize)
    if nKeys < 0 ∨ (maxPubkeysPerMultisig : Int) < nKeys then .error .pubkeyCount
    else
      let nKeysCount := nKeys.toNat
      let nOpCount := state.nOpCount + nKeysCount
      if maxOpsPerScript < nOpCount then .error .opCount
      else if state.stack.length < nKeysCount + 2 then .error .invalidStackOperation
      else
        let nSigs := getint (← readNum env (state.stack.getD (nKeysCount + 1) []) nDefaultMaxNumSize)
        if nSigs < 0 ∨ (nKeysCount : Int) < nSigs then .error .sigCount
        else
          let nSigsCount := nSigs.toNat
          if state.stack.length < nKeysCount + nSigsCount + 3 then .error .invalidStackOperation
          else
            let keys := (state.stack.drop 1).take nKeysCount
            let sigs := (state.stack.drop (nKeysCount + 2)).take nSigsCount
            let scriptCode := sigs.foldl (dropSignature env) state.pbegincodehash
            let fSuccess ← multiSigLoop env scriptCode sigs keys
            let cleaned ← cleanArguments (!fSuccess && env.flags.has .nullFail) (nKeysCount + nSigsCount + 2)
              (nKeysCount + 2) state.stack
            let rest ← popDummy env cleaned
            .ok { state with stack := boolBytes fSuccess :: rest, nOpCount }

variable (opcode : UInt8)

/-- The number that `OP_1NEGATE` and `OP_1` to `OP_16` push. -/
def smallNum : Int := (opcode.toNat : Int) - 0x50

/-- The effect of one operation after its byte has been read. -/
def execOp (fExec : Bool) (opcode : UInt8) (state : EvalState) :
    Except ScriptError EvalState :=
  match Opcode.ofByte opcode with
  | .push => .ok state
  | .small => .ok { state with stack := scriptNumSerialize (smallNum opcode) :: state.stack }
  | .nop => .ok state
  | .checkLockTimeVerify => checkLockTimeVerify env state
  | .checkSequenceVerify => checkSequenceVerify env state
  | .upgradableNop => upgradableNop env state
  | .conditional negated => conditionalOp env fExec negated state
  | .elseBranch => elseOp state
  | .endIf => endIfOp state
  | .verify => popVerify .verify state
  | .opReturn => .error .opReturn
  | .toAltStack =>
    match state.stack with
    | top :: rest => .ok { state with stack := rest, altstack := top :: state.altstack }
    | _ => .error .invalidStackOperation
  | .fromAltStack =>
    match state.altstack with
    | top :: rest => .ok { state with stack := top :: state.stack, altstack := rest }
    | _ => .error .invalidAltstackOperation
  | .drop2 => stackOp (fun | _ :: _ :: rest => some rest | _ => none) state
  | .dup2 => stackOp (fun | x2 :: x1 :: rest => some (x2 :: x1 :: x2 :: x1 :: rest) | _ => none) state
  | .dup3 =>
    stackOp (fun
      | x3 :: x2 :: x1 :: rest => some (x3 :: x2 :: x1 :: x3 :: x2 :: x1 :: rest)
      | _ => none) state
  | .over2 =>
    stackOp (fun
      | x4 :: x3 :: x2 :: x1 :: rest => some (x2 :: x1 :: x4 :: x3 :: x2 :: x1 :: rest)
      | _ => none) state
  | .rot2 =>
    stackOp (fun
      | x6 :: x5 :: x4 :: x3 :: x2 :: x1 :: rest => some (x2 :: x1 :: x6 :: x5 :: x4 :: x3 :: rest)
      | _ => none) state
  | .swap2 =>
    stackOp (fun
      | x4 :: x3 :: x2 :: x1 :: rest => some (x2 :: x1 :: x4 :: x3 :: rest)
      | _ => none) state
  | .ifDup =>
    stackOp (fun
      | top :: rest => some (if castToBool top then top :: top :: rest else top :: rest)
      | _ => none) state
  | .depth => .ok { state with stack := scriptNumSerialize state.stack.length :: state.stack }
  | .drop => stackOp (fun | _ :: rest => some rest | _ => none) state
  | .dup => stackOp (fun | top :: rest => some (top :: top :: rest) | _ => none) state
  | .nip => stackOp (fun | x2 :: _ :: rest => some (x2 :: rest) | _ => none) state
  | .opOver => stackOp (fun | x2 :: x1 :: rest => some (x1 :: x2 :: x1 :: rest) | _ => none) state
  | .pick roll => pickOp env roll state
  | .rot => stackOp (fun | x3 :: x2 :: x1 :: rest => some (x1 :: x3 :: x2 :: rest) | _ => none) state
  | .swap => stackOp (fun | x2 :: x1 :: rest => some (x1 :: x2 :: rest) | _ => none) state
  | .tuck => stackOp (fun | x2 :: x1 :: rest => some (x2 :: x1 :: x2 :: rest) | _ => none) state
  | .size => stackOp (fun | top :: rest => some (scriptNumSerialize top.length :: top :: rest) | _ => none) state
  | .equal verifies => do
    let compared ←
      stackOp (fun | x2 :: x1 :: rest => some (boolBytes (x1 == x2) :: rest) | _ => none) state
    if verifies then popVerify .equalVerify compared else .ok compared
  | .add1 => unaryNum env (· + 1) state
  | .sub1 => unaryNum env (· - 1) state
  | .negate => unaryNum env (fun bn => -bn) state
  | .abs => unaryNum env (fun bn => if bn < 0 then -bn else bn) state
  | .not => unaryNum env (fun bn => boolNum (bn == 0)) state
  | .notEqual0 => unaryNum env (fun bn => boolNum (bn != 0)) state
  | .add => binaryNum env (· + ·) state
  | .sub => binaryNum env (· - ·) state
  | .boolAnd => binaryNum env (fun bn1 bn2 => boolNum (bn1 != 0 && bn2 != 0)) state
  | .boolOr => binaryNum env (fun bn1 bn2 => boolNum (bn1 != 0 || bn2 != 0)) state
  | .numEqual verifies => do
    let compared ← binaryNum env (fun bn1 bn2 => boolNum (bn1 == bn2)) state
    if verifies then popVerify .numEqualVerify compared else .ok compared
  | .numNotEqual => binaryNum env (fun bn1 bn2 => boolNum (bn1 != bn2)) state
  | .lessThan => binaryNum env (fun bn1 bn2 => boolNum (bn1 < bn2)) state
  | .greaterThan => binaryNum env (fun bn1 bn2 => boolNum (bn1 > bn2)) state
  | .lessThanOrEqual => binaryNum env (fun bn1 bn2 => boolNum (bn1 ≤ bn2)) state
  | .greaterThanOrEqual => binaryNum env (fun bn1 bn2 => boolNum (bn1 ≥ bn2)) state
  | .min => binaryNum env (fun bn1 bn2 => if bn1 < bn2 then bn1 else bn2) state
  | .max => binaryNum env (fun bn1 bn2 => if bn1 > bn2 then bn1 else bn2) state
  | .within => withinNum env state
  | .ripemd160 => hashTop env.crypto.ripemd160 state
  | .sha1 => hashTop env.crypto.sha1 state
  | .sha256 => hashTop env.crypto.sha256 state
  | .hash160 => hashTop env.crypto.hash160 state
  | .hash256 => hashTop env.crypto.hash256 state
  | .codeSeparator => .ok { state with pbegincodehash := state.pc }
  | .checkSig verifies => do
    let checked ← checkSigOp env state
    if verifies then popVerify .checkSigVerify checked else .ok checked
  | .checkMultiSig verifies => do
    let checked ← checkMultiSigOp env state
    if verifies then popVerify .checkMultiSigVerify checked else .ok checked
  | .disabled => .error .disabledOpcode
  | .bad => .error .badOpcode

/-- An executed push is minimal when the flags ask for it. -/
def pushOp (vchPushValue : List UInt8) (state : EvalState) :
    Except ScriptError EvalState :=
  if env.flags.has .minimalData && !checkMinimalPush vchPushValue opcode then .error .minimalData
  else .ok { state with stack := vchPushValue :: state.stack }

/-- Conditional operations act even in a branch not executed. -/
def isConditional : Bool := 0x63 ≤ opcode && opcode ≤ 0x68

/-- A branch is executed with no false condition around it. -/
def EvalState.fExec : Bool := state.vfExec.all id

def dispatch (vchPushValue : List UInt8) (state : EvalState) :
    Except ScriptError EvalState :=
  if state.fExec && opcode ≤ opPushData4 then pushOp env opcode vchPushValue state
  else if state.fExec || isConditional opcode then execOp env state.fExec opcode state
  else .ok state

/-- One pass of the loop handles one instruction. -/
def evalStep : Except ScriptError EvalState :=
  match getOp state.pc with
  | none => .error .badOpcode
  | some (opcode, vchPushValue, pc) =>
    let nOpCount := if op16 < opcode then state.nOpCount + 1 else state.nOpCount
    if maxScriptElementSize < vchPushValue.length then .error .pushSize
    else if op16 < opcode ∧ maxOpsPerScript < nOpCount then .error .opCount
    else if Opcode.ofByte opcode = .disabled then .error .disabledOpcode
    else do
      let next ← dispatch env opcode vchPushValue { state with pc, nOpCount }
      if 1000 < next.stack.length + next.altstack.length then .error .stackSize else .ok next

/-- Each pass shortens the script, so its length is enough. -/
def evalLoop (env : EvalEnv) : Nat → EvalState → Except ScriptError EvalState
  | 0, state => .ok state
  | fuel + 1, state =>
    if state.pc.isEmpty then .ok state
    else do
      let next ← evalStep env state
      evalLoop env fuel next

def evalScript (stack : Stack) (script : CScript) : Except ScriptError Stack :=
  if maxScriptSize < script.length then .error .scriptSize
  else do
    let final ← evalLoop env script.length ⟨script, script, stack, [], [], 0⟩
    if final.vfExec.isEmpty then .ok final.stack else .error .unbalancedConditional

end Straks.Script
