import Straks.Proof.MinerPayments

namespace Straks.Chain
open Success Ends

variable {Value : Type}

/-- A rule that accepts or rejects; it neither throws nor stops the node. -/
def Answers (result : Except BlockError Value) : Prop :=
  Ends result (fun error => ∃ reject, error = .reject reject) fun _ => True

theorem Answers.reject (reject : Reject) :
    Answers (.error (.reject reject) : Except BlockError Value) := ⟨reject, rfl⟩

theorem Answers.dos (nDoS : Nat) (strRejectReason : String) :
    Answers (.error (dos nDoS strRejectReason) : Except BlockError Value) := ⟨_, rfl⟩

section Rules

variable (env : BlockEnv) (block : CBlock)

theorem checkMerkleRoot_answers (fCheckMerkleRoot : Bool) : Answers (checkMerkleRoot env block fCheckMerkleRoot) := by
  rw [checkMerkleRoot]
  split_ifs
  · exact .ok trivial
  · exact Answers.reject _
  · exact Answers.reject _
  · exact .ok trivial

theorem checkCoinbases_answers (vtx : List CTransaction) : Answers (checkCoinbases vtx) := by
  cases vtx with
  | nil => exact Answers.dos _ _
  | cons coinbase rest =>
    rw [checkCoinbases]
    split_ifs
    · exact Answers.dos _ _
    · exact Answers.dos _ _
    · exact .ok trivial

/-- The output rules reject what `GetValueOut` would throw for. -/
theorem checkOutputs_answers (nValueOut : CAmount) (vout : List CTxOut) : Answers (checkOutputs nValueOut vout) := by
  induction vout generalizing nValueOut with
  | nil => exact .ok trivial
  | cons txout rest ih =>
    rw [checkOutputs]
    split_ifs
    · exact Answers.dos _ _
    · exact Answers.dos _ _
    · exact Answers.dos _ _
    · exact ih _

theorem checkInputForms_answers (tx : CTransaction) : Answers (checkInputForms tx) := by
  rw [checkInputForms]
  split_ifs
  · exact Answers.dos _ _
  · exact .ok trivial
  · exact Answers.dos _ _
  · exact .ok trivial

theorem checkTransaction_answers (tx : CTransaction) (fCheckDuplicateInputs : Bool) :
    Answers (checkTransaction tx fCheckDuplicateInputs) := by
  apply Ends.branch
  · exact fun _ => Answers.dos _ _
  · intro _
    apply Ends.branch
    · exact fun _ => Answers.dos _ _
    · intro _
      apply Ends.branch
      · exact fun _ => Answers.dos _ _
      · intro _
        apply Ends.bind (checkOutputs_answers 0 tx.vout)
        intro _ _
        exact .branch (fun _ => Answers.dos _ _) fun _ => checkInputForms_answers tx

theorem checkTransactions_answers (vtx : List CTransaction) : Answers (checkTransactions vtx) := by
  induction vtx with
  | nil => exact .ok trivial
  | cons tx rest ih => exact .bind (checkTransaction_answers tx true) fun _ _ => ih

/-- No output is negative, and they add up to at most all money. -/
def InMoneyRange (vout : List CTxOut) : Prop :=
  (∀ txout ∈ vout, 0 ≤ txout.nValue) ∧ (vout.map CTxOut.nValue).sum ≤ maxMoney

theorem addValueOut_error {start : CAmount} {vout : List CTxOut} {error : BlockError}
    (failed : addValueOut start vout = .error error) : error = .valueOutOfRange := by
  induction vout generalizing start with
  | nil => cases failed
  | cons txout rest ih =>
    rw [addValueOut] at failed
    split at failed
    · cases failed
      rfl
    · exact ih failed

/-- The sum of the outputs throws exactly when an output or total is out of range. -/
theorem addValueOut_answers_iff (vout : List CTxOut) : Answers (addValueOut 0 vout) ↔ InMoneyRange vout := by
  constructor
  · intro answers
    cases summed : addValueOut 0 vout with
    | ok total =>
      obtain ⟨sum, nonneg, range⟩ := addValueOut_ok summed
      rw [sum, zero_add] at range
      exact ⟨nonneg, ((moneyRange_iff _).mp (range rfl)).2⟩
    | error error =>
      rw [summed] at answers
      obtain ⟨reject, rejected⟩ := answers
      rw [addValueOut_error summed] at rejected
      cases rejected
  · rintro ⟨nonneg, bound⟩
    rw [addValueOut_nonneg le_rfl nonneg (by rwa [zero_add])]
    exact .ok trivial

/-- Payments have started and the block extends the tip. -/
def PaymentsApply : Prop :=
  ∃ nHeight, env.tip = some (block.hashPrevBlock, nHeight) ∧ env.params.MasternodePaymentStartHeight ≤ nHeight

/-- The payment rule throws exactly when it applies and coinbase outputs are out of range. -/
theorem checkBlockPayment_answers_iff :
    Answers (checkBlockPayment env block) ↔ (PaymentsApply env block → InMoneyRange (coinbaseOutputs block)) := by
  rw [checkBlockPayment, PaymentsApply]
  cases tip : env.tip with
  | none => simp [Answers, Ends]
  | some entry =>
    obtain ⟨hash, nHeight⟩ := entry
    have applies : (∃ height, some (hash, nHeight) = some (block.hashPrevBlock, height) ∧
        env.params.MasternodePaymentStartHeight ≤ height) ↔
        ¬ (nHeight < env.params.MasternodePaymentStartHeight ∨ hash ≠ block.hashPrevBlock) := by
      simp only [Option.some.injEq, Prod.mk.injEq]
      constructor
      · rintro ⟨height, ⟨rfl, rfl⟩, started⟩
        lia
      · rw [not_or, not_not]
        rintro ⟨started, same⟩
        exact ⟨nHeight, ⟨same, rfl⟩, by lia⟩
    rw [applies]
    dsimp only
    split
    · rename_i exempt
      exact iff_of_true (.ok trivial) fun applied => absurd exempt applied
    · rename_i applied
      rw [← addValueOut_answers_iff]
      refine Iff.trans (bind_iff_first fun nValueOut => ?_) ?_
      · split
        · split_ifs
          · exact .ok trivial
          · exact Answers.reject _
        · exact .ok trivial
      · exact ⟨fun answers _ => answers, fun answers => answers applied⟩

/-- The checks before the payment rule pass, and it applies. -/
structure ReachesPayments (fCheckMerkleRoot : Bool) : Prop where
  root : checkMerkleRoot env block fCheckMerkleRoot = .ok ()
  sized : ¬ (block.vtx.isEmpty ∨ block.vtx.length > maxBlockVtx ∨
    blockBaseSize block * witnessScaleFactor > maxBlockSerializedSize)
  coinbases : checkCoinbases block.vtx = .ok ()
  applies : PaymentsApply env block

end Rules

/-- `CheckBlock` accepts or rejects a block with a valid header, without throwing, exactly when the block does not get
to the payment rule or its coinbase outputs are in the range of money. -/
theorem checkBlock_answers_iff (env : BlockEnv) (block : CBlock) (fCheckPOW fCheckMerkleRoot : Bool)
    (header : env.checkProofOfWork block.toCBlockHeader = true) :
    Answers (checkBlock env block fCheckPOW fCheckMerkleRoot) ↔
      (ReachesPayments env block fCheckMerkleRoot → InMoneyRange (coinbaseOutputs block)) := by
  have rest (value : Unit) : Answers (checkTransactions block.vtx >>= fun _ =>
      if (block.vtx.map env.legacySigOpCount).sum * witnessScaleFactor > maxBlockSigOpsCost true then
        .error (dos 100 "bad-blk-sigops")
      else .ok ()) :=
    .bind (checkTransactions_answers block.vtx) fun _ _ =>
      .branch (fun _ => Answers.dos _ _) fun _ => .ok trivial
  rw [checkBlock, header, Bool.not_true, Bool.and_false]
  refine (bind_iff (checkMerkleRoot_answers env block fCheckMerkleRoot)).trans ?_
  constructor
  · intro answers reaches
    have sized := answers () reaches.root
    rw [if_neg reaches.sized] at sized
    have paid := (bind_iff (checkCoinbases_answers block.vtx)).mp sized () reaches.coinbases
    exact (checkBlockPayment_answers_iff env block).mp ((bind_iff_first rest).mp paid) reaches.applies
  · intro inRange _ root
    apply Ends.branch
    · exact fun _ => Answers.dos _ _
    · intro sized
      refine (bind_iff (checkCoinbases_answers block.vtx)).mpr fun _ coinbases => ?_
      apply (bind_iff_first rest).mpr
      apply (checkBlockPayment_answers_iff env block).mpr
      exact fun applies => inRange ⟨root, sized, coinbases, applies⟩

/-- A block on the tip of `tipEnv` with one coinbase output. -/
def coinbaseBlock (nValue : CAmount) : CBlock :=
  ⟨⟨1, 7, 0, 0, 1, 0⟩, [⟨1, [⟨⟨0, 0xffffffff⟩, [0x51, 0x00], 0xffffffff, []⟩], [⟨nValue, [0x51]⟩], 0⟩]⟩

theorem checkBlock_answers_coin : tipEnv.checkProofOfWork (coinbaseBlock coin).toCBlockHeader = true ∧
      Answers (checkBlock tipEnv (coinbaseBlock coin) true true) :=
  ⟨rfl, (checkBlock_answers_iff tipEnv (coinbaseBlock coin) true true rfl).mpr fun _ => by
    constructor <;> decide⟩

/-- A coinbase with a negative output makes `CheckBlock` throw. -/
theorem checkBlock_throws : tipEnv.checkProofOfWork (coinbaseBlock (-1)).toCBlockHeader = true ∧
      checkBlock tipEnv (coinbaseBlock (-1)) true true = .error .valueOutOfRange ∧
      ¬ Answers (checkBlock tipEnv (coinbaseBlock (-1)) true true) := by
  refine ⟨rfl, rfl, ?_⟩
  rintro ⟨reject, rejected⟩
  cases rejected

end Straks.Chain
