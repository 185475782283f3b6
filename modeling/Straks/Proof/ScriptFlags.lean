import Straks.Construction.Script.Verify
import Straks.Library.Success

namespace Straks.Script

open Success Bool

/-- The strict flags include the loose ones, and no lock time operation is new to flags that discourage upgradable
operations. -/
structure Restricts (strict loose : ScriptFlags) : Prop where
  contained : ∀ flag, loose.has flag = true → strict.has flag = true
  lockTime : loose.has .discourageUpgradableNops = true →
    strict.has .checkLockTimeVerify = true → loose.has .checkLockTimeVerify = true
  sequence : loose.has .discourageUpgradableNops = true →
    strict.has .checkSequenceVerify = true → loose.has .checkSequenceVerify = true

/-- The same evaluation under other flags. -/
def EvalEnv.withFlags (env : EvalEnv) (flags : ScriptFlags) : EvalEnv := { env with flags }

/-- What an operation gives under the strict flags it gives under the loose ones. -/
abbrev Loosens {α : Type} (strict loose : ScriptFlags) (env : EvalEnv) (operation : EvalEnv → Except ScriptError α) :
    Prop := Refines (operation (env.withFlags strict)) (operation (env.withFlags loose))

section Evaluation

variable {strict loose : ScriptFlags}

theorem Restricts.flagged (restricts : Restricts strict loose) {flag : ScriptFlag} {test : Bool}
    (failed : (loose.has flag && test) = true) : (strict.has flag && test) = true := by
  rw [and_eq_true] at failed ⊢
  exact ⟨restricts.contained flag failed.1, failed.2⟩

variable {vch : List UInt8} {nMaxNumSize : Nat} {value : Int}

/-- A number read under a minimality test is read without. -/
theorem scriptNum_loosen {strictMinimal looseMinimal : Bool} (weaker : looseMinimal = true → strictMinimal = true)
    (read : scriptNum vch strictMinimal nMaxNumSize = some value) :
    scriptNum vch looseMinimal nMaxNumSize = some value := by
  unfold scriptNum at read ⊢
  split at read
  next => exact nomatch read
  next short =>
    rw [if_neg short]
    split at read
    next => exact nomatch read
    next minimal =>
      rw [if_neg, read]
      intro loosely
      rw [and_eq_true] at loosely minimal
      exact minimal ⟨weaker loosely.1, loosely.2⟩

theorem readNum_eq_ok {env : EvalEnv} : readNum env vch nMaxNumSize = .ok value ↔
      scriptNum vch (env.flags.has .minimalData) nMaxNumSize = some value := by
  unfold readNum
  split <;> simp_all

section

variable (restricts : Restricts strict loose)
include restricts

variable (env : EvalEnv) (state : EvalState)

theorem readNum_refines (vch : List UInt8) (nMaxNumSize : Nat) :
    Loosens strict loose env (readNum · vch nMaxNumSize) := by
  intro value success
  rw [readNum_eq_ok] at success ⊢
  exact scriptNum_loosen (restricts.contained .minimalData) success

theorem unaryNum_refines (operation : Int → Int) (state : EvalState) :
    Loosens strict loose env (unaryNum · operation state) := by
  unfold Loosens unaryNum
  split
  · exact .bind (readNum_refines restricts env _ _) fun _ => .refl _
  · exact .refl _

theorem binaryNum_refines (operation : Int → Int → Int) (state : EvalState) :
    Loosens strict loose env (binaryNum · operation state) := by
  unfold Loosens binaryNum
  split
  · exact .bind (readNum_refines restricts env _ _) fun _ =>
      .bind (readNum_refines restricts env _ _) fun _ => .refl _
  · exact .refl _

theorem withinNum_refines : Loosens strict loose env (withinNum · state) := by
  unfold Loosens withinNum
  split
  · exact .bind (readNum_refines restricts env _ _) fun _ =>
      .bind (readNum_refines restricts env _ _) fun _ =>
        .bind (readNum_refines restricts env _ _) fun _ => .refl _
  · exact .refl _

theorem pickOp_refines (roll : Bool) (state : EvalState) : Loosens strict loose env (pickOp · roll state) := by
  unfold Loosens pickOp
  split
  · exact .bind (readNum_refines restricts env _ _) fun _ => .refl _
  · exact .refl _

theorem upgradableNop_refines : Loosens strict loose env (upgradableNop · state) :=
  .guard (restricts.contained _) (.refl _)

theorem lockTimeOperand_refines : Loosens strict loose env (lockTimeOperand · state) := by
  unfold Loosens lockTimeOperand
  split
  · exact .bind (readNum_refines restricts env _ _) fun _ => .refl _
  · exact .refl _

/-- A lock time operation that succeeds leaves the state, so it refines a no-op. -/
theorem lockTime_refines {flag : ScriptFlag} {strictCheck looseCheck : Except ScriptError EvalState}
    (upgrade : loose.has .discourageUpgradableNops = true → strict.has flag = true → loose.has flag = true)
    (checked : Refines strictCheck looseCheck) (unchanged : ∀ next, strictCheck = .ok next → next = state) :
    Refines (if strict.has flag then strictCheck else upgradableNop (env.withFlags strict) state)
      (if loose.has flag then looseCheck else upgradableNop (env.withFlags loose) state) := by
  by_cases loosely : loose.has flag = true
  · rw [if_pos loosely, if_pos (restricts.contained _ loosely)]
    exact checked
  · rw [if_neg loosely]
    by_cases strictly : strict.has flag = true
    · rw [if_pos strictly]
      intro next success
      have allowed : ¬ loose.has .discourageUpgradableNops = true :=
        fun discouraged => loosely (upgrade discouraged strictly)
      rw [unchanged next success]
      simp [upgradableNop, EvalEnv.withFlags, allowed]
    · rw [if_neg strictly]
      exact upgradableNop_refines restricts env state

theorem checkLockTimeVerify_refines : Loosens strict loose env (checkLockTimeVerify · state) := by
  apply lockTime_refines restricts env state restricts.lockTime
  · exact .bind (lockTimeOperand_refines restricts env state) fun _ => .refl _
  · intro next success
    rcases bind_eq_ok.mp success with ⟨nLockTime, -, checked⟩
    split at checked
    · exact (Except.ok.inj checked).symm
    · exact nomatch checked

theorem checkSequenceVerify_refines : Loosens strict loose env (checkSequenceVerify · state) := by
  apply lockTime_refines restricts env state restricts.sequence
  · exact .bind (lockTimeOperand_refines restricts env state) fun _ => .refl _
  · intro next success
    rcases bind_eq_ok.mp success with ⟨nSequence, -, checked⟩
    split at checked
    · exact (Except.ok.inj checked).symm
    · split at checked
      · exact (Except.ok.inj checked).symm
      · exact nomatch checked

theorem conditionalOp_refines (fExec negated : Bool) (state : EvalState) :
    Loosens strict loose env (conditionalOp · fExec negated state) := by
  refine .branch (fun _ => ?_) fun _ => .refl _
  split
  · refine .guard (fun violated => ?_) (.refl _)
    simp only [minimalIfViolated, EvalEnv.withFlags, and_eq_true] at violated ⊢
    exact ⟨⟨⟨violated.1.1.1, restricts.contained _ violated.1.1.2⟩, violated.1.2⟩, violated.2⟩
  · exact .refl _

theorem checkLowSEncoding_refines (crypto : Crypto) (vchSig : List UInt8) :
    Refines (checkLowSEncoding crypto vchSig strict) (checkLowSEncoding crypto vchSig loose) := by
  unfold checkLowSEncoding
  by_cases lowS : loose.has .lowS = true
  · rw [if_pos lowS, if_pos (restricts.contained _ lowS)]
    exact .refl _
  · rw [if_neg lowS]
    exact fun _ _ => rfl

theorem checkSignatureEncoding_refines (crypto : Crypto) (vchSig : List UInt8) :
    Refines (checkSignatureEncoding crypto vchSig strict) (checkSignatureEncoding crypto vchSig loose) := by
  refine .branch (fun _ => .refl _) fun _ => .guard (fun failed => ?_)
    (.bind (checkLowSEncoding_refines restricts crypto vchSig) fun _ => .guard restricts.flagged (.refl _))
  simp only [and_eq_true, or_eq_true] at failed ⊢
  refine ⟨?_, failed.2⟩
  rcases failed.1 with (derSig | lowS) | strictEnc
  · exact .inl (.inl (restricts.contained _ derSig))
  · exact .inl (.inr (restricts.contained _ lowS))
  · exact .inr (restricts.contained _ strictEnc)

theorem checkPubKeyEncoding_refines (vchPubKey : List UInt8) (sigversion : SigVersion) :
    Refines (checkPubKeyEncoding vchPubKey strict sigversion) (checkPubKeyEncoding vchPubKey loose sigversion) := by
  refine .guard restricts.flagged (.guard (fun failed => ?_) (.refl _))
  rw [Bool.and_assoc] at failed ⊢
  exact restricts.flagged failed

theorem checkEncodings_refines (vchSig vchPubKey : List UInt8) :
    Loosens strict loose env (checkEncodings · vchSig vchPubKey) :=
  .bind (checkSignatureEncoding_refines restricts _ _) fun _ => checkPubKeyEncoding_refines restricts _ _

theorem checkSigOp_refines : Loosens strict loose env (checkSigOp · state) := by
  unfold Loosens checkSigOp
  split
  · refine .bind (checkEncodings_refines restricts env _ _) fun _ => .guard (fun failed => ?_) (.refl _)
    simp only [and_eq_true] at failed ⊢
    exact ⟨⟨failed.1.1, restricts.contained _ failed.1.2⟩, failed.2⟩
  · exact .refl _

/-- How signatures meet keys does not depend on the flags. -/
theorem multiSigLoop_refines (scriptCode : CScript) (sigs keys : List (List UInt8)) :
    Loosens strict loose env (multiSigLoop · scriptCode sigs keys) := by
  induction keys generalizing sigs with
  | nil => cases sigs <;> exact .refl _
  | cons vchPubKey keys ih =>
    cases sigs with
    | nil => exact .refl _
    | cons vchSig sigs =>
      exact .bind (checkEncodings_refines restricts env _ _) fun _ =>
        .branch (fun _ => .refl _) fun _ => ih _

end

/-- Fewer arguments have to be empty under fewer flags. -/
theorem cleanArguments_refines {strictNullFail looseNullFail : Bool}
    (weaker : looseNullFail = true → strictNullFail = true) (count ikey2 : Nat) (stack : Stack) :
    Refines (cleanArguments strictNullFail count ikey2 stack) (cleanArguments looseNullFail count ikey2 stack) := by
  induction count generalizing ikey2 stack with
  | zero => exact .refl _
  | succ count ih =>
    cases stack with
    | nil => exact .refl _
    | cons top rest =>
      refine .guard (fun failed => ?_) (ih _ _)
      simp only [and_eq_true] at failed ⊢
      exact ⟨⟨weaker failed.1.1, failed.1.2⟩, failed.2⟩

variable (restricts : Restricts strict loose)
include restricts

variable (env : EvalEnv)

theorem popDummy_refines (stack : Stack) : Loosens strict loose env (popDummy · stack) := by
  cases stack with
  | nil => exact .refl _
  | cons dummy rest => exact .guard restricts.flagged (.refl _)

theorem checkMultiSigOp_refines (state : EvalState) : Loosens strict loose env (checkMultiSigOp · state) := by
  unfold Loosens checkMultiSigOp
  split
  · exact .refl _
  · refine .bind (readNum_refines restricts env _ _) fun _ =>
      .branch (fun _ => .refl _) fun _ => .branch (fun _ => .refl _) fun _ =>
        .branch (fun _ => .refl _) fun _ => ?_
    refine .bind (readNum_refines restricts env _ _) fun _ =>
      .branch (fun _ => .refl _) fun _ => .branch (fun _ => .refl _) fun _ => ?_
    refine .bind (multiSigLoop_refines restricts env _ _ _) fun fSuccess =>
      .bind (cleanArguments_refines (fun failed => ?_) _ _ _) fun _ =>
        .bind (popDummy_refines restricts env _) fun _ => .refl _
    rw [and_eq_true] at failed ⊢
    exact ⟨failed.1, restricts.contained _ failed.2⟩

/-- An operation succeeding under the strict flags has the same effect under the loose. -/
theorem execOp_refines (fExec : Bool) (opcode : UInt8) (state : EvalState) :
    Loosens strict loose env (execOp · fExec opcode state) := by
  unfold Loosens execOp
  cases Opcode.ofByte opcode with
  | checkLockTimeVerify => exact checkLockTimeVerify_refines restricts env state
  | checkSequenceVerify => exact checkSequenceVerify_refines restricts env state
  | upgradableNop => exact upgradableNop_refines restricts env state
  | conditional negated => exact conditionalOp_refines restricts env fExec negated state
  | pick roll => exact pickOp_refines restricts env roll state
  | add1 | sub1 | negate | abs | not | notEqual0 => exact unaryNum_refines restricts env _ state
  | add | sub | boolAnd | boolOr | numNotEqual | lessThan | greaterThan | lessThanOrEqual
  | greaterThanOrEqual | min | max => exact binaryNum_refines restricts env _ state
  | numEqual verifies => exact .bind (binaryNum_refines restricts env _ state) fun _ => .refl _
  | within => exact withinNum_refines restricts env state
  | checkSig verifies => exact .bind (checkSigOp_refines restricts env state) fun _ => .refl _
  | checkMultiSig verifies => exact .bind (checkMultiSigOp_refines restricts env state) fun _ => .refl _
  | _ => exact .refl _

theorem dispatch_refines (opcode : UInt8) (vchPushValue : List UInt8) (state : EvalState) :
    Loosens strict loose env (dispatch · opcode vchPushValue state) :=
  .branch (fun _ => .guard restricts.flagged (.refl _)) fun _ =>
    .branch (fun _ => execOp_refines restricts env _ _ _) fun _ => .refl _

theorem evalStep_refines (state : EvalState) : Loosens strict loose env (evalStep · state) := by
  unfold Loosens evalStep
  split
  · exact .refl _
  · exact .branch (fun _ => .refl _) fun _ => .branch (fun _ => .refl _) fun _ =>
      .branch (fun _ => .refl _) fun _ => .bind (dispatch_refines restricts env _ _ _) fun _ => .refl _

theorem evalLoop_refines (fuel : Nat) (state : EvalState) : Loosens strict loose env (evalLoop · fuel state) := by
  induction fuel generalizing state with
  | zero => exact .refl _
  | succ fuel ih =>
    exact .branch (fun _ => .refl _) fun _ => .bind (evalStep_refines restricts env state) fun _ => ih _

/-- A script succeeding under the strict flags leaves the same stack under the loose. -/
theorem evalScript_refines (stack : Stack) (script : CScript) :
    Loosens strict loose env (evalScript · stack script) :=
  .branch (fun _ => .refl _) fun _ => .bind (evalLoop_refines restricts env _ _) fun _ => .refl _

end Evaluation

section Verification

variable {strict loose : ScriptFlags}

theorem eval_refines (restricts : Restricts strict loose) (env : VerifyEnv) (sigversion : SigVersion)
    (stack : Stack) (script : CScript) :
    Refines (env.eval strict sigversion stack script) (env.eval loose sigversion stack script) := by
  intro final success
  have evaluated := evalScript_refines restricts ⟨strict, env.crypto, env.checker, sigversion⟩ stack script
  unfold VerifyEnv.eval at success ⊢
  split at success
  next stack' strictly =>
    have loosely : evalScript ⟨loose, env.crypto, env.checker, sigversion⟩ stack script = .ok stack' :=
      evaluated stack' strictly
    rw [loosely]
    exact success
  next => exact nomatch success

theorem verifyWitnessProgram_refines (restricts : Restricts strict loose) (env : VerifyEnv)
    (witness : List (List UInt8)) (witversion : Nat) (program : List UInt8) :
    Refines (verifyWitnessProgram env witness witversion program strict)
      (verifyWitnessProgram env witness witversion program loose) := by
  refine .branch (fun _ => ?_) fun _ => .guard (restricts.contained _) (.refl _)
  exact .bind (.refl _) fun _ => .branch (fun _ => .refl _) fun _ =>
    .bind (eval_refines restricts env _ _ _) fun _ => .refl _

theorem verifyWitness_disabled {flags : ScriptFlags} (disabled : ¬ flags.has .witness = true) (env : VerifyEnv)
    (script : CScript) (exact : Bool) (malleated : ScriptError) (witness : List (List UInt8)) (stack : Stack)
    (hadWitness : Bool) :
    verifyWitness env flags script exact malleated witness stack hadWitness = .ok (stack, hadWitness) := by
  rw [verifyWitness, if_neg disabled]

theorem verifyWitness_refines (restricts : Restricts strict loose) (enabled : loose.has .witness = true)
    (env : VerifyEnv) (script : CScript) (exact : Bool) (malleated : ScriptError)
    (witness : List (List UInt8)) (stack : Stack) (hadWitness : Bool) :
    Refines (verifyWitness env strict script exact malleated witness stack hadWitness)
      (verifyWitness env loose script exact malleated witness stack hadWitness) := by
  rw [verifyWitness, verifyWitness, if_pos enabled, if_pos (restricts.contained _ enabled)]
  split
  · exact .refl _
  · exact .branch (fun _ => .refl _) fun _ =>
      .bind (verifyWitnessProgram_refines restricts env witness _ _) fun _ => .refl _

theorem verifyScriptHash_refines (restricts : Restricts strict loose) (scriptHash : loose.has .p2sh = true)
    (enabled : loose.has .witness = true) (env : VerifyEnv) (scriptSig scriptPubKey : CScript)
    (witness : List (List UInt8)) (stackCopy stack : Stack) (hadWitness : Bool) :
    Refines (verifyScriptHash env strict scriptSig scriptPubKey witness stackCopy stack hadWitness)
      (verifyScriptHash env loose scriptSig scriptPubKey witness stackCopy stack hadWitness) := by
  unfold verifyScriptHash
  rw [scriptHash, restricts.contained _ scriptHash]
  refine .branch (fun _ => .branch (fun _ => .refl _) fun _ => ?_) fun _ => .refl _
  split
  · exact .refl _
  · exact .bind (eval_refines restricts env _ _ _) fun _ => .bind (.refl _) fun _ =>
      verifyWitness_refines restricts enabled env _ _ _ witness _ hadWitness

/-- Without witnesses the redeem script still succeeds, whatever stack was left. -/
theorem verifyScriptHash_succeeds (restricts : Restricts strict loose) (disabled : ¬ loose.has .witness = true)
    {env : VerifyEnv} {scriptSig scriptPubKey : CScript} {witness : List (List UInt8)}
    {stackCopy strictStack : Stack} {strictHad : Bool} {result : Stack × Bool}
    (success : verifyScriptHash env strict scriptSig scriptPubKey witness stackCopy strictStack strictHad =
      .ok result) (stack : Stack) (hadWitness : Bool) :
    ∃ final, verifyScriptHash env loose scriptSig scriptPubKey witness stackCopy stack hadWitness = .ok final := by
  unfold verifyScriptHash at success ⊢
  by_cases redeems : (loose.has .p2sh && isPayToScriptHash scriptPubKey) = true
  · rw [if_pos (restricts.flagged redeems)] at success
    rw [if_pos redeems]
    split at success
    next => exact nomatch success
    next pushOnly =>
      rw [if_neg pushOnly]
      cases stackCopy with
      | nil => exact nomatch success
      | cons pubKey2 rest =>
        rcases bind_eq_ok.mp success with ⟨redeemed, evaluated, remaining⟩
        rcases bind_eq_ok.mp remaining with ⟨_, holds, -⟩
        refine ⟨(redeemed, hadWitness), bind_eq_ok.mpr ⟨redeemed, ?_, bind_eq_ok.mpr ⟨_, holds, ?_⟩⟩⟩
        · exact eval_refines restricts env _ _ _ redeemed evaluated
        · exact verifyWitness_disabled disabled ..
  · rw [if_neg redeems]
    exact ⟨_, rfl⟩

/-- Witness flags come with script hash flags, clean stack with both. -/
structure Coupled (flags : ScriptFlags) : Prop where
  witness : flags.has .witness = true → flags.has .p2sh = true
  cleanStack : flags.has .cleanStack = true → flags.has .p2sh = true ∧ flags.has .witness = true

theorem requireCleanStack_disabled {flags : ScriptFlags} (disabled : ¬ flags.has .cleanStack = true)
    (stack : Stack) : requireCleanStack flags stack = .ok () := by
  rw [requireCleanStack, if_neg disabled]

variable (restricts : Restricts strict loose)
include restricts

theorem requireCleanStack_refines (coupled : Coupled loose) (stack : Stack) :
    Refines (requireCleanStack strict stack) (requireCleanStack loose stack) := by
  by_cases clean : loose.has .cleanStack = true
  · have both := coupled.cleanStack clean
    simp only [requireCleanStack, clean, both.1, both.2, restricts.contained _ clean,
      restricts.contained _ both.1, restricts.contained _ both.2]
    exact .refl _
  · rw [requireCleanStack_disabled clean]
    exact fun _ _ => rfl

theorem requireNoWitness_refines (coupled : Coupled loose) (witness : List (List UInt8)) (hadWitness : Bool) :
    Refines (requireNoWitness strict witness hadWitness) (requireNoWitness loose witness hadWitness) := by
  by_cases enabled : loose.has .witness = true
  · have scriptHash := coupled.witness enabled
    simp only [requireNoWitness, enabled, scriptHash, restricts.contained _ enabled, restricts.contained _ scriptHash]
    exact .refl _
  · rw [requireNoWitness, requireNoWitness, if_neg enabled]
    exact fun _ _ => rfl

/-- What verifies under the strict flags verifies under the loose. -/
theorem verifyScript_refines (coupled : Coupled loose) (env : VerifyEnv) (scriptSig scriptPubKey : CScript)
    (witness : List (List UInt8)) : Refines (verifyScript env scriptSig scriptPubKey witness strict)
      (verifyScript env scriptSig scriptPubKey witness loose) := by
  refine .guard restricts.flagged (.bind (eval_refines restricts env _ _ _) fun stackCopy =>
    .bind (eval_refines restricts env _ _ _) fun stack => .bind (.refl _) fun _ => ?_)
  by_cases enabled : loose.has .witness = true
  · -- Both runs apply the witness rules, so they agree on the stack at every point.
    exact .bind (verifyWitness_refines restricts enabled env _ _ _ witness stack false) fun _ =>
      .bind (verifyScriptHash_refines restricts (coupled.witness enabled) enabled env _ _ witness stackCopy _ _)
        fun _ => .bind (requireCleanStack_refines restricts coupled _) fun _ =>
          requireNoWitness_refines restricts coupled witness _
  · -- The strict run may replace the stack, but nothing looks at the stack of the loose run.
    intro result success
    rcases bind_eq_ok.mp success with ⟨_, -, afterWitness⟩
    rcases bind_eq_ok.mp afterWitness with ⟨_, redeemed, -⟩
    rcases verifyScriptHash_succeeds restricts enabled redeemed stack false with ⟨final, loosely⟩
    have unclean : ¬ loose.has .cleanStack = true := fun clean => enabled (coupled.cleanStack clean).2
    rw [verifyWitness_disabled enabled]
    refine bind_eq_ok.mpr ⟨_, rfl, bind_eq_ok.mpr ⟨final, loosely, ?_⟩⟩
    refine bind_eq_ok.mpr ⟨(), requireCleanStack_disabled unclean _, ?_⟩
    rw [requireNoWitness, if_neg enabled]

end Verification

theorem contained_of_and {strict loose : ScriptFlags} (subset : loose &&& strict = loose) (flag : ScriptFlag)
    (set : loose.has flag = true) : strict.has flag = true := by
  unfold ScriptFlags.has at set ⊢
  rw [← subset, BitVec.getLsbD_and, and_eq_true] at set
  exact set.2

/-- No lock time operation gets a meaning the loose flags discourage. -/
def NoUpgrade (strict loose : ScriptFlags) : Prop :=
  loose.has .discourageUpgradableNops = true →
    (strict.has .checkLockTimeVerify = true → loose.has .checkLockTimeVerify = true) ∧
      (strict.has .checkSequenceVerify = true → loose.has .checkSequenceVerify = true)

theorem restricts_of_subset {strict loose : ScriptFlags} (subset : loose &&& strict = loose)
    (noUpgrade : NoUpgrade strict loose) : Restricts strict loose where
  contained := contained_of_and subset
  lockTime := fun discouraged => (noUpgrade discouraged).1
  sequence := fun discouraged => (noUpgrade discouraged).2

theorem mandatory_coupled : Coupled mandatoryScriptVerifyFlags := ⟨by decide, by decide⟩

theorem standard_restricts : Restricts standardScriptVerifyFlags mandatoryScriptVerifyFlags :=
  restricts_of_subset (by decide) fun discouraged => absurd discouraged (by decide)

/-- Flags only restrict: no transaction passes the standard but fails the mandatory ones. -/
theorem verifyScript_flags_restrict :
    (∀ (strict loose : ScriptFlags), loose &&& strict = loose → Coupled loose → NoUpgrade strict loose →
      ∀ (env : VerifyEnv) (scriptSig scriptPubKey : CScript) (witness : List (List UInt8)),
        verifyScript env scriptSig scriptPubKey witness strict = .ok () →
          verifyScript env scriptSig scriptPubKey witness loose = .ok ()) ∧
      ∀ checks, passes checks standardScriptVerifyFlags → passes checks mandatoryScriptVerifyFlags := by
  constructor
  · intro strict loose subset coupled noUpgrade env scriptSig scriptPubKey witness
    exact verifyScript_refines (restricts_of_subset subset noUpgrade) coupled env _ _ witness ()
  · intro checks pass check member
    exact verifyScript_refines standard_restricts mandatory_coupled _ _ _ _ () (pass check member)

/-- Both scripts of the example only compare numbers. -/
def numericEnv : VerifyEnv where
  crypto := ⟨id, id, id, id, id, fun _ => true⟩
  checker := ⟨fun _ _ _ _ => false, fun _ => false, fun _ => false⟩

theorem verifyScript_flags_restrict_numeric :
    verifyScript numericEnv [0x52] [0x52, 0x9c] [] standardScriptVerifyFlags = .ok () ∧
      verifyScript numericEnv [0x52] [0x52, 0x9c] [] mandatoryScriptVerifyFlags = .ok () := by
  have standard : verifyScript numericEnv [0x52] [0x52, 0x9c] [] standardScriptVerifyFlags = .ok () := by
    decide
  refine ⟨standard, verifyScript_flags_restrict.1 _ _ (by decide) mandatory_coupled ?_ _ _ _ _ standard⟩
  exact fun discouraged => absurd discouraged (by decide)

end Straks.Script
