import Straks.Construction.Chain.Miner
import Straks.Proof.MoneySupply
import Mathlib.Algebra.Order.BigOperators.Group.List

namespace Straks.Chain
open Masternode Success List CTxOut

/-- The sum of non-negative outputs exists exactly when in range. -/
theorem addValueOut_nonneg {start : CAmount} {vout : List CTxOut} (nonneg : 0 ≤ start)
    (values : ∀ txout ∈ vout, 0 ≤ txout.nValue) (inRange : start + (vout.map nValue).sum ≤ maxMoney) :
    addValueOut start vout = .ok (start + (vout.map nValue).sum) := by
  induction vout generalizing start with
  | nil => simp [addValueOut]
  | cons txout rest ih =>
    rw [forall_mem_cons] at values
    rw [map_cons, sum_cons, ← add_assoc] at inRange ⊢
    have later : 0 ≤ (rest.map nValue).sum := by
      apply sum_nonneg
      rw [forall_mem_map]
      exact values.2
    have first : moneyRange txout.nValue = true := by
      rw [moneyRange_iff]
      constructor <;> lia
    have total : moneyRange (start + txout.nValue) = true := by
      rw [moneyRange_iff]
      constructor <;> lia
    rw [addValueOut, first, total]
    exact ih (by lia) values.2 inRange

section Commitment

theorem foldl_commitpos {entries : List (CTxOut × Nat)} {commitpos : Option Nat} :
    entries.foldl (fun commitpos entry => if isCommitment entry.1 then some entry.2 else commitpos) commitpos = none ↔
      commitpos = none ∧ ∀ entry ∈ entries, isCommitment entry.1 = false := by
  induction entries generalizing commitpos with
  | nil => simp
  | cons entry rest ih =>
    rw [foldl_cons, ih]
    split_ifs with commits <;> simp [commits]

theorem getWitnessCommitmentIndex_eq_none {block : CBlock} :
    getWitnessCommitmentIndex block = none ↔ ∀ output ∈ coinbaseOutputs block, isCommitment output = false := by
  rw [getWitnessCommitmentIndex, foldl_commitpos]
  constructor
  · rintro ⟨-, none⟩ output member
    obtain ⟨place, inside⟩ := getElem?_of_mem member
    exact none (output, place) (mk_mem_zipIdx_iff_getElem?.mpr inside)
  · intro none
    refine ⟨rfl, fun entry member => ?_⟩
    exact none entry.1 (fst_mem_of_mem_zipIdx member)

section NewBlock

variable (env : BlockEnv) (hashes : BlockHashes) (witnessEnabled : Bool) (vMasternodes : List CMasternode)
  (header : CBlockHeader) (hashPrevBlock : Uint256) (nHeight : Int) (scriptPubKeyIn : CScript)
  (selected : List CTransaction) (nFees : CAmount)

/-- The new block pays what its coinbase says, its commitment nothing. -/
theorem coinbaseOutputs_createNewBlock : ∃ committed : List CTxOut,
      coinbaseOutputs (createNewBlock env hashes witnessEnabled vMasternodes header hashPrevBlock nHeight scriptPubKeyIn
        selected nFees) = coinbasePayments env vMasternodes scriptPubKeyIn nFees nHeight ++ committed ∧
      (committed = [] ∧ (∃ output ∈ coinbasePayments env vMasternodes scriptPubKeyIn nFees nHeight,
          isCommitment output = true) ∨
        (∃ script, committed = [⟨0, script⟩]) ∧
          ∀ output ∈ coinbasePayments env vMasternodes scriptPubKeyIn nFees nHeight, isCommitment output = false) := by
  have kept (block : CBlock) : coinbaseOutputs (updateUncommittedBlockStructures witnessEnabled block) =
      coinbaseOutputs block := by
    rw [updateUncommittedBlockStructures]
    split
    · cases vtx : block.vtx <;> simp [updateCoinbase, coinbaseOutputs, vtx]
    · rfl
  rw [createNewBlock, kept, generateCoinbaseCommitment]
  split
  · rename_i absent
    exact ⟨_, rfl, .inr ⟨⟨_, rfl⟩, getWitnessCommitmentIndex_eq_none.mp absent⟩⟩
  · rename_i place present
    refine ⟨[], (append_nil _).symm, .inl ⟨rfl, ?_⟩⟩
    have indexed : getWitnessCommitmentIndex _ ≠ none := fun absent => Option.some_ne_none place (present.symm.trans absent)
    rw [ne_eq, getWitnessCommitmentIndex_eq_none] at indexed
    push Not at indexed
    obtain ⟨output, member, commits⟩ := indexed
    exact ⟨output, member, Bool.eq_true_of_not_eq_false commits⟩

theorem hashPrevBlock_createNewBlock :
    (createNewBlock env hashes witnessEnabled vMasternodes header hashPrevBlock nHeight scriptPubKeyIn selected
      nFees).hashPrevBlock = hashPrevBlock := by
  rw [createNewBlock, updateUncommittedBlockStructures, generateCoinbaseCommitment]
  split <;> split <;> rfl

end NewBlock

theorem commitmentOutput_isCommitment (hashes : BlockHashes) (block : CBlock) :
    isCommitment (commitmentOutput hashes block) = true := by
  rfl

/-- A commitment at the end of the outputs is the one found. -/
theorem getWitnessCommitmentIndex_append {block : CBlock} {before : List CTxOut} {output : CTxOut}
    (outputs : coinbaseOutputs block = before ++ [output]) (commits : isCommitment output = true) :
    getWitnessCommitmentIndex block = some before.length := by
  rw [getWitnessCommitmentIndex, outputs, zipIdx_append]
  simp [commits]

/-- On a block without commitment whose coinbase has one input and no witness, the generated commitment is accepted, and
it is the same for the block with it. -/
theorem generateCoinbaseCommitment_accepted (hashes : BlockHashes) (segwit : SegwitState) (header : CBlockHeader)
    (coinbase : CTransaction) (txin : CTxIn) (rest : List CTransaction) (active : segwit.fSegWitActive = true)
    (single : coinbase.vin = [txin]) (plain : txin.scriptWitness = [])
    (uncommitted : getWitnessCommitmentIndex ⟨header, coinbase :: rest⟩ = none) :
    let block : CBlock := ⟨header, coinbase :: rest⟩
    let committed := updateUncommittedBlockStructures segwit.fSegWitActive (generateCoinbaseCommitment hashes block)
    checkWitnessCommitment hashes segwit committed = .ok true ∧
      coinbaseOutputs committed = coinbase.vout ++ [commitmentOutput hashes block] ∧
      commitmentOutput hashes committed = commitmentOutput hashes block := by
  intro block committed
  have commits := commitmentOutput_isCommitment hashes block
  have generated : generateCoinbaseCommitment hashes block =
      ⟨header, { coinbase with vout := coinbase.vout ++ [commitmentOutput hashes block] } :: rest⟩ := by
    rw [generateCoinbaseCommitment, uncommitted]
    rfl
  have written : committed = ⟨header, { coinbase with
      vin := [{ txin with scriptWitness := [replicate 32 0] }]
      vout := coinbase.vout ++ [commitmentOutput hashes block] } :: rest⟩ := by
    change updateUncommittedBlockStructures segwit.fSegWitActive _ = _
    rw [generated, updateUncommittedBlockStructures, getWitnessCommitmentIndex_append rfl commits, active]
    simp [-reduceReplicate, hasWitness, updateCoinbase, single, plain]
  have outputs : coinbaseOutputs committed = coinbase.vout ++ [commitmentOutput hashes block] := by rw [written]; rfl
  have root : blockWitnessMerkleRoot hashes.hashPair hashes.getWitnessHash committed.vtx =
      blockWitnessMerkleRoot hashes.hashPair hashes.getWitnessHash block.vtx := by rw [written]; rfl
  have witness : coinbaseWitness committed = [replicate 32 0] := by rw [written]; rfl
  refine ⟨?_, outputs, by rw [commitmentOutput, root, commitmentOutput]⟩
  have nonce : BitVec.ofNat 256 (Script.readLE (replicate 32 0)) = 0 := by decide +kernel
  rw [checkWitnessCommitment, getWitnessCommitmentIndex_append outputs commits, witness]
  simp [-reduceReplicate, active, outputs, root, nonce, commitmentOutput, littleEndian_length, take_of_length_le]

theorem generateCoinbaseCommitment_accepted_empty :
    let hashes : BlockHashes := ⟨fun _ => 1, fun _ => 2, fun left right => left + right⟩
    let block : CBlock := ⟨⟨1, 1, 0, 0, 1, 0⟩, [⟨1, [⟨⟨0, 0xffffffff⟩, [0x52, 0x00], 0xffffffff, []⟩], [⟨0, [0x87]⟩], 0⟩]⟩
    checkWitnessCommitment hashes ⟨true, false, false⟩
      (updateUncommittedBlockStructures true (generateCoinbaseCommitment hashes block)) = .ok true :=
  (generateCoinbaseCommitment_accepted _ ⟨true, false, false⟩ _ _ _ _ rfl rfl rfl rfl).1

end Commitment

variable (env : BlockEnv) (nHeight : Int)

/-- What the floating point parts give: the share of the two rewards, and a payment up to the limit. -/
structure PaymentCurve : Prop where
  noReward : env.treasuryShare 0 = 0
  reward : env.treasuryShare (10 * coin) = coin / 2
  nonneg : ∀ value, 0 ≤ value → 0 ≤ env.getMasternodePayment nHeight value
  within : ∀ value, 0 ≤ value → env.getMasternodePayment nHeight value ≤ value
  limited : ∀ value, 0 ≤ value → env.aboveMasternodeLimit (env.getMasternodePayment nHeight value) value = false

/-- The coinbase passes the treasury and masternode rules, and is worth at most the fees and the reward. -/
structure CoinbasePasses (nFees : CAmount) (block : CBlock) : Prop where
  checkBlock : checkBlockPayment env block = .ok ()
  treasury : checkTreasury env nHeight block = .ok ()
  early : checkNoEarlyPayment env nHeight block = .ok ()
  assured : checkMasternodePayment env nHeight block = .ok ()
  amount : ∃ value, addValueOut 0 (coinbaseOutputs block) = .ok value ∧ value ≤ nFees + getBlockSubsidy nHeight

/-- The amount to the payee that `ConnectBlock` accepts. -/
def PaymentAssured (value amount : CAmount) : Prop :=
  env.aboveMasternodeLimit amount value = false ∧ (649620 < nHeight →
    env.getMasternodePayment nHeight value - env.treasuryShare (getBlockSubsidy nHeight) / 2 ≤ amount ∧
      amount ≤ env.getMasternodePayment nHeight value + env.treasuryShare (getBlockSubsidy nHeight) / 2)

/-- The miner and the treasury are not taken for the masternode: no payee before payments start is one of them, a
payee assured of a payment is neither, unless their share passes for it, and a block without a due payment does not
also lack a commitment output. -/
structure PayeesApart (vMasternodes : List CMasternode) (scriptPubKeyIn : CScript) (nFees : CAmount)
    (nHeight : Int) : Prop where
  inRange : getBlockSubsidy nHeight + nFees ≤ maxMoney
  early : 1 < nHeight → nHeight < env.params.MasternodePaymentStartHeight →
    ∀ payee, env.getBlockPayee nHeight = some payee →
      (scriptPubKeyIn = payee → sharedValue env nHeight nFees ≤ 0) ∧
        (env.treasuryRewardScript nHeight = payee → treasuryReward env nHeight ≤ 0)
  miner : env.params.MasternodePaymentStartHeight + 7475 < nHeight → requiredPayee env nHeight = some scriptPubKeyIn →
    PaymentAssured env nHeight (sharedValue env nHeight nFees)
      (sharedValue env nHeight nFees - env.getMasternodePayment nHeight (sharedValue env nHeight nFees))
  treasury : env.params.MasternodePaymentStartHeight + 7475 < nHeight →
    requiredPayee env nHeight = some (env.treasuryRewardScript nHeight) →
    scriptPubKeyIn ≠ env.treasuryRewardScript nHeight →
    PaymentAssured env nHeight (sharedValue env nHeight nFees) (treasuryReward env nHeight)
  unnamed : env.params.MasternodePaymentStartHeight + 7475 < nHeight → requiredPayee env nHeight = none →
    masternodePayee env vMasternodes nHeight = none →
    env.getMasternodePayment nHeight (sharedValue env nHeight nFees) = 0 ∨
      isCommitment ⟨0, scriptPubKeyIn⟩ = false ∧ isCommitment ⟨0, env.treasuryRewardScript nHeight⟩ = false

section Rules

variable {env : BlockEnv} {vMasternodes : List CMasternode} {scriptPubKeyIn : CScript} {nFees : CAmount} {nHeight : Int}
  {block : CBlock} {committed : List CTxOut}

theorem treasuryReward_bounds (curve : PaymentCurve env nHeight) :
    0 ≤ treasuryReward env nHeight ∧ treasuryReward env nHeight ≤ getBlockSubsidy nHeight := by
  rw [treasuryReward, getBlockSubsidy]
  split_ifs
  · decide
  · rw [curve.noReward]
    decide
  · rw [curve.noReward]
    decide
  · rw [curve.reward]
    decide

/-- The share the rules expect. -/
theorem treasuryReward_eq (curve : PaymentCurve env nHeight) (positive : 0 < nHeight) : treasuryReward env nHeight =
      if nHeight ≤ preSubsidyHeight then 0 else env.treasuryShare (getBlockSubsidy nHeight) := by
  rw [treasuryReward]
  split_ifs with first slow slow
  · rfl
  · rw [first] at slow
    exact absurd (by decide) slow
  · rw [getBlockSubsidy, if_neg first, if_pos ⟨by omega, slow⟩, curve.noReward]
  · rfl

theorem sharedValue_eq (env : BlockEnv) (nFees : CAmount) (positive : 0 < nHeight) :
    sharedValue env nHeight nFees = getBlockSubsidy nHeight - treasuryReward env nHeight + nFees := by
  rw [sharedValue, if_pos positive]

theorem sharedValue_nonneg (curve : PaymentCurve env nHeight) (positive : 0 < nHeight) (fees : 0 ≤ nFees) :
    0 ≤ sharedValue env nHeight nFees := by
  have bounds := treasuryReward_bounds curve
  rw [sharedValue_eq env nFees positive]
  lia

theorem coinbasePayments_none (positive : 0 < nHeight) (unpaid : masternodePayee env vMasternodes nHeight = none) :
    coinbasePayments env vMasternodes scriptPubKeyIn nFees nHeight = [⟨sharedValue env nHeight nFees, scriptPubKeyIn⟩,
        ⟨treasuryReward env nHeight, env.treasuryRewardScript nHeight⟩] := by
  simp only [coinbasePayments, unpaid, if_pos positive]

variable {payee : CScript}

theorem coinbasePayments_some (positive : 0 < nHeight) (paid : masternodePayee env vMasternodes nHeight = some payee)
    : coinbasePayments env vMasternodes scriptPubKeyIn nFees nHeight =
      [⟨sharedValue env nHeight nFees - env.getMasternodePayment nHeight (sharedValue env nHeight nFees), scriptPubKeyIn⟩,
        ⟨treasuryReward env nHeight, env.treasuryRewardScript nHeight⟩,
        ⟨env.getMasternodePayment nHeight (sharedValue env nHeight nFees), payee⟩] := by
  simp only [coinbasePayments, paid, if_pos positive, cons_append, nil_append]

/-- All outputs together are worth the reward and the fees. -/
theorem coinbasePayments_value (vMasternodes : List CMasternode) (scriptPubKeyIn : CScript)
    (curve : PaymentCurve env nHeight) (positive : 0 < nHeight) (fees : 0 ≤ nFees) :
    (∀ output ∈ coinbasePayments env vMasternodes scriptPubKeyIn nFees nHeight, 0 ≤ output.nValue) ∧
      ((coinbasePayments env vMasternodes scriptPubKeyIn nFees nHeight).map nValue).sum =
        getBlockSubsidy nHeight + nFees := by
  have shared := sharedValue_nonneg curve positive fees
  have treasury := (treasuryReward_bounds curve).1
  have payment := curve.nonneg _ shared
  have within := curve.within _ shared
  have split := sharedValue_eq env nFees positive
  cases payee : masternodePayee env vMasternodes nHeight with
  | none =>
    rw [coinbasePayments_none positive payee]
    simp only [forall_mem_cons, map_cons, map_nil, sum_cons, sum_nil]
    exact ⟨⟨shared, treasury, by simp⟩, by lia⟩
  | some script =>
    rw [coinbasePayments_some positive payee]
    simp only [forall_mem_cons, map_cons, map_nil, sum_cons, sum_nil]
    exact ⟨⟨by lia, treasury, payment, by simp⟩, by lia⟩

/-- A block of positive height whose coinbase has the payments, then outputs worth nothing. -/
structure Mined (env : BlockEnv) (vMasternodes : List CMasternode) (scriptPubKeyIn : CScript) (nFees : CAmount)
    (nHeight : Int) (block : CBlock) (committed : List CTxOut) : Prop where
  outputs : coinbaseOutputs block = coinbasePayments env vMasternodes scriptPubKeyIn nFees nHeight ++ committed
  worthless : ∀ output ∈ committed, output.nValue = 0
  curve : PaymentCurve env nHeight
  positive : 0 < nHeight
  fees : 0 ≤ nFees

section Block

variable (mined : Mined env vMasternodes scriptPubKeyIn nFees nHeight block committed)
include mined

theorem coinbaseOutputs_value : (∀ output ∈ coinbaseOutputs block, 0 ≤ output.nValue) ∧
      ((coinbaseOutputs block).map nValue).sum = getBlockSubsidy nHeight + nFees := by
  obtain ⟨nonneg, sum⟩ := coinbasePayments_value vMasternodes scriptPubKeyIn mined.curve mined.positive mined.fees
  have nothing : (committed.map nValue).sum = 0 := by
    apply sum_eq_zero
    rw [forall_mem_map]
    exact mined.worthless
  rw [mined.outputs, forall_mem_append, map_append, sum_append, sum, nothing, add_zero]
  exact ⟨⟨nonneg, fun output member => (mined.worthless output member).ge⟩, rfl⟩

theorem valueOut_eq (inRange : getBlockSubsidy nHeight + nFees ≤ maxMoney) :
    addValueOut 0 (coinbaseOutputs block) = .ok (getBlockSubsidy nHeight + nFees) := by
  obtain ⟨nonneg, sum⟩ := coinbaseOutputs_value mined
  have total := addValueOut_nonneg le_rfl nonneg (by rwa [zero_add, sum])
  rwa [zero_add, sum] at total

theorem inRange_of_valueOut {value : CAmount} (success : addValueOut 0 (coinbaseOutputs block) = .ok value) :
    getBlockSubsidy nHeight + nFees ≤ maxMoney := by
  obtain ⟨sum, -, range⟩ := addValueOut_ok success
  have bound := ((moneyRange_iff _).mp (range rfl)).2
  rwa [sum, zero_add, (coinbaseOutputs_value mined).2] at bound

/-- The treasury output is there. -/
theorem checkTreasury_newBlock : checkTreasury env nHeight block = .ok () := by
  have treasury : (⟨treasuryReward env nHeight, env.treasuryRewardScript nHeight⟩ : CTxOut) ∈ coinbaseOutputs block := by
    rw [mined.outputs]
    cases payee : masternodePayee env vMasternodes nHeight with
    | none => simp [coinbasePayments_none mined.positive payee]
    | some script => simp [coinbasePayments_some mined.positive payee]
  rw [checkTreasury, if_neg]
  rintro ⟨-, missing⟩
  simp only [Bool.not_eq_true', any_eq_false, Bool.and_eq_true, beq_iff_eq] at missing
  exact missing _ treasury ⟨rfl, treasuryReward_eq mined.curve mined.positive⟩

end Block

/-- From the start of payments, the rules subtract the treasury share. -/
theorem sharedValue_of_valueOut (env : BlockEnv) (nFees : CAmount) (later : 1 < nHeight) :
    getBlockSubsidy nHeight + nFees - env.treasuryShare (getBlockSubsidy nHeight) = sharedValue env nHeight nFees := by
  rw [sharedValue_eq env nFees (by omega), treasuryReward]
  lia

theorem getBlockPayee_of_requiredPayee (required : requiredPayee env nHeight = some payee) :
    env.getBlockPayee nHeight = some payee := by
  rw [requiredPayee, Option.filter_eq_some_iff] at required
  exact required.1

theorem masternodePayee_of_requiredPayee (started : env.params.MasternodePaymentStartHeight ≤ nHeight - 1)
    (required : requiredPayee env nHeight = some payee) : masternodePayee env vMasternodes nHeight = some payee := by
  rw [masternodePayee, if_pos started, getBlockPayee_of_requiredPayee required, Option.some_or]

section

variable (mined : Mined env vMasternodes scriptPubKeyIn nFees nHeight block committed)
include mined

/-- The output to the masternode is among all outputs `CheckBlock` looks at. -/
theorem checkBlockPayment_newBlock (start : 1 ≤ env.params.MasternodePaymentStartHeight) (atTip : env.tip = some (block.hashPrevBlock, nHeight - 1))
    (inRange : getBlockSubsidy nHeight + nFees ≤ maxMoney) : checkBlockPayment env block = .ok () := by
  simp only [checkBlockPayment, atTip, Int.sub_add_cancel]
  split
  · rfl
  · rename_i started
    rw [not_or, not_lt] at started
    rw [valueOut_eq mined inRange]
    dsimp only [bind, Except.bind]
    rw [sharedValue_of_valueOut env nFees (by omega)]
    split
    · rename_i payee download required
      rw [if_pos]
      rw [any_eq_true]
      refine ⟨⟨env.getMasternodePayment nHeight (sharedValue env nHeight nFees), payee⟩, ?_, ?_⟩
      · rw [mined.outputs, coinbasePayments_some mined.positive (masternodePayee_of_requiredPayee started.1 required)]
        simp
      · simp [mined.curve.limited _ (sharedValue_nonneg mined.curve mined.positive mined.fees)]
    · rfl

/-- Before payments start there is no masternode output; the rule sees the miner and the treasury. -/
theorem checkNoEarlyPayment_newBlock {hash : Uint256} (atTip : env.tip = some (hash, nHeight - 1)) : checkNoEarlyPayment env nHeight block = .ok () ↔
      (1 < nHeight → nHeight < env.params.MasternodePaymentStartHeight →
        ∀ payee, env.getBlockPayee nHeight = some payee →
          (scriptPubKeyIn = payee → sharedValue env nHeight nFees ≤ 0) ∧
            (env.treasuryRewardScript nHeight = payee → treasuryReward env nHeight ≤ 0)) := by
  have named : (env.tip.bind fun tip => env.getBlockPayee (tip.2 + 1)) = env.getBlockPayee nHeight := by
    rw [atTip, Option.bind_some, Int.sub_add_cancel]
  rw [checkNoEarlyPayment, named]
  cases env.getBlockPayee nHeight with
  | none => simp
  | some payee =>
    dsimp only
    by_cases early : 1 < nHeight ∧ nHeight < env.params.MasternodePaymentStartHeight
    · have unpaid : masternodePayee env vMasternodes nHeight = none := by
        rw [masternodePayee, if_neg (by omega)]
      have uncommitted : (committed.any fun output => output.scriptPubKey == payee && decide (output.nValue > 0)) =
          false := by
        rw [any_eq_false]
        intro output member
        simp [mined.worthless output member]
      simp only [early, true_and, mined.outputs, coinbasePayments_none mined.positive unpaid, cons_append, nil_append,
        any_cons, uncommitted, Bool.or_false, Option.some.injEq, forall_eq', true_implies]
      simp only [Bool.or_eq_true, Bool.and_eq_true, beq_iff_eq, decide_eq_true_eq, gt_iff_lt]
      split_ifs with pays
      · simp only [false_iff]
        rintro ⟨miner, treasury⟩
        rcases pays with ⟨same, value⟩ | ⟨same, value⟩
        · exact absurd (miner same) (not_le.mpr value)
        · exact absurd (treasury same) (not_le.mpr value)
      · simp only [true_iff]
        rw [not_or, not_and, not_and, not_lt, not_lt] at pays
        exact pays
    · rw [if_neg (fun both => early ⟨both.1, both.2.1⟩)]
      simp only [true_iff]
      exact fun after before => absurd ⟨after, before⟩ early

end

theorem paymentAssured_iff (env : BlockEnv) (nHeight : Int) (value amount : CAmount) :
    (if env.aboveMasternodeLimit amount value || decide (nHeight > 649620 ∧
        (amount < env.getMasternodePayment nHeight value - env.treasuryShare (getBlockSubsidy nHeight) / 2 ∨
          amount > env.getMasternodePayment nHeight value + env.treasuryShare (getBlockSubsidy nHeight) / 2)) then
      Except.error (dos 100 "cb-missing-mn-payment")
    else Except.ok ()) = Except.ok () ↔ PaymentAssured env nHeight value amount := by
  rw [PaymentAssured]
  generalize env.getMasternodePayment nHeight value = payment
  cases env.aboveMasternodeLimit amount value with
  | true => simp
  | false =>
    simp only [Bool.false_or, decide_eq_true_eq, true_and]
    split_ifs with off
    · simp only [false_iff]
      intro close
      obtain ⟨low, high⟩ := close off.1
      rcases off.2 with below | above
      · exact absurd below (not_lt.mpr low)
      · exact absurd above (not_lt.mpr high)
    · simp only [true_iff]
      intro late
      have close := not_and.mp off late
      rwa [not_or, not_lt, not_lt] at close

theorem treasuryShare_nonneg (curve : PaymentCurve env nHeight) (later : nHeight ≠ 1) :
    0 ≤ env.treasuryShare (getBlockSubsidy nHeight) := by
  have bounds := (treasuryReward_bounds curve).1
  rwa [treasuryReward, if_neg later] at bounds

/-- The payment of the masternode itself is always assured. -/
theorem paymentAssured_payment (curve : PaymentCurve env nHeight) (later : nHeight ≠ 1) {value : CAmount}
    (nonneg : 0 ≤ value) : PaymentAssured env nHeight value (env.getMasternodePayment nHeight value) := by
  have share := treasuryShare_nonneg curve later
  exact ⟨curve.limited value nonneg, fun _ => by constructor <;> lia⟩

/-- The first output to the payee decides in `ConnectBlock`. -/
theorem checkMasternodePayment_newBlock
    (mined : Mined env vMasternodes scriptPubKeyIn nFees nHeight block committed) (start : 1 ≤ env.params.MasternodePaymentStartHeight)
    (inRange : getBlockSubsidy nHeight + nFees ≤ maxMoney) : checkMasternodePayment env nHeight block = .ok () ↔
      (env.params.MasternodePaymentStartHeight + 7475 < nHeight →
        (requiredPayee env nHeight = some scriptPubKeyIn → PaymentAssured env nHeight (sharedValue env nHeight nFees)
          (sharedValue env nHeight nFees - env.getMasternodePayment nHeight (sharedValue env nHeight nFees))) ∧
        (requiredPayee env nHeight = some (env.treasuryRewardScript nHeight) →
          scriptPubKeyIn ≠ env.treasuryRewardScript nHeight →
            PaymentAssured env nHeight (sharedValue env nHeight nFees) (treasuryReward env nHeight)) ∧
        (requiredPayee env nHeight = none → env.getMasternodePayment nHeight (sharedValue env nHeight nFees) = 0 ∨
          3 ≤ (coinbaseOutputs block).length)) := by
  rw [checkMasternodePayment]
  split
  · rename_i late
    rw [valueOut_eq mined inRange]
    dsimp only [bind, Except.bind]
    rw [sharedValue_of_valueOut env nFees (by omega)]
    simp only [late, true_implies]
    cases required : requiredPayee env nHeight with
    | none =>
      simp only [reduceCtorEq, false_implies, true_and, true_implies]
      split_ifs with missing
      · simp only [false_iff, not_or, not_le]
        exact missing
      · simp only [true_iff]
        by_contra neither
        rw [not_or, not_le] at neither
        exact missing neither
    | some payee =>
      have paid : masternodePayee env vMasternodes nHeight = some payee :=
        masternodePayee_of_requiredPayee (by omega) required
      simp only [mined.outputs, coinbasePayments_some mined.positive paid, cons_append, Option.some.injEq, reduceCtorEq,
        false_implies, and_true, find?_cons]
      by_cases miner : scriptPubKeyIn = payee
      · subst miner
        simp only [beq_self_eq_true, true_implies]
        rw [paymentAssured_iff, iff_self_and]
        exact fun _ same apart => absurd same apart
      · have notMiner : (scriptPubKeyIn == payee) = false := beq_eq_false_iff_ne.mpr miner
        simp only [notMiner, Ne.symm miner, false_implies, true_and]
        by_cases treasury : env.treasuryRewardScript nHeight = payee
        · subst treasury
          simp only [beq_self_eq_true, true_implies]
          rw [paymentAssured_iff]
          exact ⟨fun assured _ => assured, fun assured => assured miner⟩
        · have notTreasury : (env.treasuryRewardScript nHeight == payee) = false := beq_eq_false_iff_ne.mpr treasury
          simp only [notTreasury, Ne.symm treasury, false_implies, iff_true, beq_self_eq_true]
          rw [paymentAssured_iff]
          exact paymentAssured_payment mined.curve (by omega) (sharedValue_nonneg mined.curve mined.positive mined.fees)
  · rename_i soon
    simp only [true_iff]
    exact fun late => absurd late soon

end Rules

/-- The share of the two rewards that occur, and a curve between nothing and a limit below the value. -/
structure FloatParts (curve : CAmount → CAmount → Nat → CAmount) : Prop where
  noReward : env.treasuryShare 0 = 0
  reward : env.treasuryShare (10 * coin) = coin / 2
  nothing : ∀ value, 0 ≤ value → env.aboveMasternodeLimit 0 value = false
  curve : ∀ value nMoneySupply tNodes, 0 ≤ value →
    0 ≤ curve value nMoneySupply tNodes ∧ curve value nMoneySupply tNodes ≤ value ∧
      env.aboveMasternodeLimit (curve value nMoneySupply tNodes) value = false

theorem FloatParts.paymentCurve {env : BlockEnv} {curve : CAmount → CAmount → Nat → CAmount} (floats : FloatParts env curve)
    (nMoneySupply : CAmount) (payments : Payments) (vMasternodes : List CMasternode) (nHeight : Int) :
    PaymentCurve (env.withLists curve nMoneySupply payments vMasternodes) nHeight := by
  have bounds (value : CAmount) (nonneg : 0 ≤ value) :
      let payment := getMasternodePayment env.params curve nMoneySupply vMasternodes nHeight value
      0 ≤ payment ∧ payment ≤ value ∧ env.aboveMasternodeLimit payment value = false := by
    have nothing := floats.nothing value nonneg
    dsimp only
    rw [getMasternodePayment]
    split
    · exact ⟨le_rfl, nonneg, nothing⟩
    · dsimp only
      split
      · exact ⟨le_rfl, nonneg, nothing⟩
      · exact floats.curve value nMoneySupply _ nonneg
  exact ⟨floats.noReward, floats.reward, fun value nonneg => (bounds value nonneg).1,
    fun value nonneg => (bounds value nonneg).2.1, fun value nonneg => (bounds value nonneg).2.2⟩

/-- A new block passes the treasury, amount and masternode rules at its own tip exactly when the scripts of the miner and
of the treasury do not stand in for the one of the masternode. -/
theorem createNewBlock_passes_iff (curve : CAmount → CAmount → Nat → CAmount) (nMoneySupply : CAmount)
    (payments : Payments) (vMasternodes : List CMasternode) (hashes : BlockHashes) (witnessEnabled : Bool)
    (header : CBlockHeader) (hashPrevBlock : Uint256) (nHeight : Int) (scriptPubKeyIn : CScript)
    (selected : List CTransaction) (nFees : CAmount) (floats : FloatParts env curve)
    (start : 1 ≤ env.params.MasternodePaymentStartHeight) (atTip : env.tip = some (hashPrevBlock, nHeight - 1))
    (positive : 0 < nHeight) (fees : 0 ≤ nFees) :
    CoinbasePasses (env.withLists curve nMoneySupply payments vMasternodes) nHeight nFees
        (createNewBlock (env.withLists curve nMoneySupply payments vMasternodes) hashes witnessEnabled vMasternodes header
          hashPrevBlock nHeight scriptPubKeyIn selected nFees) ↔
      PayeesApart (env.withLists curve nMoneySupply payments vMasternodes) vMasternodes scriptPubKeyIn nFees nHeight := by
  generalize node : env.withLists curve nMoneySupply payments vMasternodes = lists
  have curved : PaymentCurve lists nHeight := node ▸ floats.paymentCurve nMoneySupply payments vMasternodes nHeight
  have started : 1 ≤ lists.params.MasternodePaymentStartHeight := node ▸ start
  obtain ⟨committed, outputs, commitment⟩ := coinbaseOutputs_createNewBlock lists hashes witnessEnabled vMasternodes header
    hashPrevBlock nHeight scriptPubKeyIn selected nFees
  have previous := hashPrevBlock_createNewBlock lists hashes witnessEnabled vMasternodes header hashPrevBlock nHeight
    scriptPubKeyIn selected nFees
  generalize createNewBlock lists hashes witnessEnabled vMasternodes header hashPrevBlock nHeight scriptPubKeyIn selected
    nFees = block at outputs previous ⊢
  have tip : lists.tip = some (block.hashPrevBlock, nHeight - 1) := by
    rw [previous, ← node]
    exact atTip
  have mined : Mined lists vMasternodes scriptPubKeyIn nFees nHeight block committed := by
    refine ⟨outputs, ?_, curved, positive, fees⟩
    rcases commitment with ⟨rfl, -⟩ | ⟨⟨script, rfl⟩, -⟩ <;> simp
  constructor
  · rintro ⟨-, -, early, assured, value, success, -⟩
    have inRange := inRange_of_valueOut mined success
    rw [checkNoEarlyPayment_newBlock mined tip] at early
    rw [checkMasternodePayment_newBlock mined started inRange] at assured
    refine ⟨inRange, early, fun late => (assured late).1, fun late => (assured late).2.1, ?_⟩
    intro late unnamed unpaid
    refine ((assured late).2.2 unnamed).imp_right fun three => ?_
    rw [outputs, coinbasePayments_none positive unpaid] at three
    rw [coinbasePayments_none positive unpaid] at commitment
    rcases commitment with ⟨rfl, -⟩ | ⟨-, none⟩
    · exact absurd three (by simp)
    · rw [forall_mem_cons, forall_mem_singleton] at none
      exact none
  · rintro ⟨inRange, early, miner, treasury, unnamed⟩
    refine ⟨checkBlockPayment_newBlock mined started tip inRange, checkTreasury_newBlock mined, ?_, ?_, _,
      valueOut_eq mined inRange, ?_⟩
    · exact (checkNoEarlyPayment_newBlock mined tip).mpr early
    · apply (checkMasternodePayment_newBlock mined started inRange).mpr
      refine fun late => ⟨miner late, treasury late, fun none => ?_⟩
      cases payee : masternodePayee lists vMasternodes nHeight with
      | some script =>
        right
        rw [outputs, coinbasePayments_some positive payee]
        simp
      | none =>
        refine (unnamed late none payee).imp_right fun ⟨miner, treasury⟩ => ?_
        rw [coinbasePayments_none positive payee] at commitment
        rw [outputs, coinbasePayments_none positive payee]
        rcases commitment with ⟨-, output, member, commits⟩ | ⟨⟨script, rfl⟩, -⟩
        · simp only [mem_cons, not_mem_nil, or_false] at member
          rcases member with rfl | rfl
          · exact absurd (show isCommitment ⟨0, scriptPubKeyIn⟩ = true from commits) (by simp [miner])
          · exact absurd (show isCommitment ⟨0, lists.treasuryRewardScript nHeight⟩ = true from commits)
              (by simp [treasury])
        · simp
    · lia

/-- A node whose tip is one block below height 60000. -/
def tipEnv : BlockEnv := { lenientEnv with tip := some (7, 59999) }

/-- A tenth of the value goes to the masternode. -/
def tenth (value _nMoneySupply : CAmount) (_tNodes : Nat) : CAmount := value / 10

/-- One masternode is announced as the winner of block 60000. -/
def announced : Payments := ⟨[⟨60000, ⟨⟨1, 0⟩, [], 0xffffffff, []⟩, [0x51], [], 0⟩], ∅, some 59999⟩

def enabledMasternode : CMasternode := ⟨⟨⟨1, 0⟩, [], 0xffffffff, []⟩, true, 70100, 1, 1000, 0, 0, 0, [], [0x51]⟩

def plainHashes : BlockHashes := ⟨fun _ => 1, fun _ => 1, fun left _ => left⟩

theorem tenth_floatParts : FloatParts tipEnv tenth := by
  constructor
  · rfl
  · rfl
  · intro value nonneg
    show decide (5 * (0 : Int) > 3 * value) = false
    lia
  · intro value nMoneySupply tNodes nonneg
    refine ⟨?_, ?_, ?_⟩
    · show 0 ≤ value / 10
      lia
    · show value / 10 ≤ value
      lia
    · show decide (5 * (value / 10) > 3 * value) = false
      lia

theorem createNewBlock_passes_other : CoinbasePasses (tipEnv.withLists tenth 0 announced [enabledMasternode]) 60000 0
      (createNewBlock (tipEnv.withLists tenth 0 announced [enabledMasternode]) plainHashes false [enabledMasternode]
        ⟨1, 0, 0, 0, 1, 0⟩ 7 60000 [0x52] [] 0) := by
  refine (createNewBlock_passes_iff tipEnv tenth 0 announced [enabledMasternode] plainHashes false ⟨1, 0, 0, 0, 1, 0⟩ 7
    60000 [0x52] [] 0 tenth_floatParts (by decide) rfl (by decide) (by decide)).mpr ?_
  have named : requiredPayee (tipEnv.withLists tenth 0 announced [enabledMasternode]) 60000 = some [0x51] := by
    decide +kernel
  constructor
  · decide
  · exact fun _ early => absurd early (by decide)
  · exact fun _ miner => absurd (named.symm.trans miner) (by decide)
  · exact fun _ treasury => absurd (named.symm.trans treasury) (by decide)
  · exact fun _ none => absurd (named.symm.trans none) (by decide)

/-- The miner is the announced masternode: its share, above the limit, comes first. -/
theorem createNewBlock_rejected : FloatParts tipEnv tenth ∧
      checkMasternodePayment (tipEnv.withLists tenth 0 announced [enabledMasternode]) 60000
        (createNewBlock (tipEnv.withLists tenth 0 announced [enabledMasternode]) plainHashes false [enabledMasternode]
          ⟨1, 0, 0, 0, 1, 0⟩ 7 60000 [0x51] [] 0) = .error (dos 100 "cb-missing-mn-payment") :=
  ⟨tenth_floatParts, rfl⟩

end Straks.Chain
