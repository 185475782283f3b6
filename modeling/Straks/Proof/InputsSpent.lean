import Straks.Proof.BlockExceptions
import Straks.Proof.Disconnect
import Straks.Proof.NewCoins

namespace Straks.Chain

open Coins Success List CTxIn Ends

/-- No transaction of a checked block names an output twice. -/
theorem checkBlock_distinct {env : BlockEnv} {block : CBlock} {fCheckPOW fCheckMerkleRoot : Bool}
    (success : checkBlock env block fCheckPOW fCheckMerkleRoot = .ok ()) :
    ∀ tx ∈ block.vtx, (tx.vin.map prevout).Nodup :=
  fun tx member => (checkTransaction_ok ((checkBlock_ok success).2 tx member)).2 rfl

section Spend

variable {view : UtxoSet} {tx : CTransaction}

theorem spendInput_of_available {prevout : COutPoint} (available : getOutput view prevout ≠ none) :
    ∃ result, spendInput view prevout = .ok result := by
  obtain ⟨txout, found⟩ := Option.ne_none_iff_exists'.mp available
  rw [getOutput_eq] at found
  obtain ⟨coins, entry, output⟩ := Option.bind_eq_some_iff.mp found
  exact ⟨_, spendInput_eq_ok.mpr ⟨coins, txout, entry, output, rfl⟩⟩

/-- Distinct unspent outputs can be spent in turn. -/
theorem spendInputs_of_available {vin : List CTxIn} (distinct : (vin.map prevout).Nodup)
    (available : ∀ txin ∈ vin, getOutput view txin.prevout ≠ none) : ∃ result, spendInputs view vin = .ok result := by
  induction vin generalizing view with
  | nil => exact ⟨_, rfl⟩
  | cons txin rest ih =>
    rw [map_cons, nodup_cons] at distinct
    rw [forall_mem_cons] at available
    obtain ⟨first, spent⟩ := spendInput_of_available available.1
    have still : ∀ other ∈ rest, getOutput first.1 other.prevout ≠ none := by
      intro other member
      have apart : other.prevout ≠ txin.prevout := by
        intro same
        exact distinct.1 (same ▸ mem_map_of_mem member)
      rw [spendInput_getOutput spent, if_neg apart]
      exact available.2 other member
    obtain ⟨later, laterSpent⟩ := ih distinct.2 still
    exact ⟨_, spendInputs_cons.mpr ⟨first, later, spent, laterSpent, rfl⟩⟩

/-- A transaction with distinct inputs that are there is applied without assertion. -/
theorem markInputsSpent_of_haveInputs (distinct : (tx.vin.map prevout).Nodup)
    (present : haveInputs view tx = true) : ∃ marked, markInputsSpent view tx = .ok marked := by
  have available := haveInputs_available present
  rw [markInputsSpent]
  rw [spentOutpoints] at available
  split
  · exact ⟨_, rfl⟩
  · rename_i ordinary
    rw [if_neg ordinary] at available
    apply spendInputs_of_available distinct
    intro txin member
    exact available _ (mem_map_of_mem member)

end Spend

section Asserts

variable {view : UtxoSet} {tx : CTransaction}

/-- The node does not stop at a failed assertion. -/
abbrev Asserts {Value : Type} (result : Except BlockError Value) (post : Value → Prop) : Prop :=
  Ends result (fun error => error ≠ .assertion) post

theorem Asserts.dos {Value : Type} {post : Value → Prop} (nDoS : Nat) (strRejectReason : String) :
    Asserts (.error (Chain.dos nDoS strRejectReason)) post := by
  intro impossible
  cases impossible

theorem getOutputFor_asserts {txin : CTxIn} (available : getOutput view txin.prevout ≠ none) :
    Asserts (getOutputFor view txin) fun _ => True := by
  obtain ⟨txout, found⟩ := Option.ne_none_iff_exists'.mp available
  rw [getOutputFor, found]
  exact .ok trivial

theorem addValueIn_asserts {vin : List CTxIn} (available : ∀ txin ∈ vin, getOutput view txin.prevout ≠ none)
    (nResult : CAmount) : Asserts (addValueIn view nResult vin) fun _ => True := by
  induction vin generalizing nResult with
  | nil => exact .ok trivial
  | cons txin rest ih =>
    rw [forall_mem_cons] at available
    apply bind (getOutputFor_asserts available.1)
    intro txout _
    exact ih available.2 _

theorem getValueOut_asserts : Asserts (getValueOut tx) fun _ => True := by
  rw [getValueOut]
  cases failed : addValueOut 0 tx.vout with
  | ok value => exact .ok trivial
  | error error =>
    rw [addValueOut_error failed]
    intro impossible
    cases impossible

theorem checkSpentOutputs_asserts {vin : List CTxIn} (available : ∀ txin ∈ vin, getOutput view txin.prevout ≠ none)
    (nSpendHeight : Int) (nValueIn : CAmount) :
    Asserts (checkSpentOutputs view nSpendHeight nValueIn vin) fun _ => True := by
  induction vin generalizing nValueIn with
  | nil => exact .ok trivial
  | cons txin rest ih =>
    rw [forall_mem_cons] at available
    rw [checkSpentOutputs]
    cases entry : view.getCoins txin.prevout.hash with
    | none => exact absurd entry (getCoins_ne_none available.1)
    | some coins =>
      apply branch
      · exact fun _ => Asserts.dos _ _
      · intro _
        apply bind (getOutputFor_asserts available.1)
        intro txout _
        apply branch
        · exact fun _ => Asserts.dos _ _
        · exact fun _ => ih available.2 _

theorem checkTxInputs_asserts (ordinary : tx.isCoinBase = false) (nSpendHeight : Int) :
    Asserts (checkTxInputs view tx nSpendHeight) fun _ => True := by
  apply branch
  · intro _ impossible
    cases impossible
  · intro present
    have available := haveInputs_available (by simpa using present)
    rw [spentOutpoints, ordinary, if_neg Bool.false_ne_true, forall_mem_map] at available
    apply bind (checkSpentOutputs_asserts available nSpendHeight 0)
    intro nValueIn _
    apply bind getValueOut_asserts
    intro nValueOut _
    apply branch
    · exact fun _ => Asserts.dos _ _
    · intro _
      apply branch
      · exact fun _ => Asserts.dos _ _
      · intro _
        apply branch
        · exact fun _ => Asserts.dos _ _
        · exact fun _ => .ok trivial

theorem checkInputsPresent_asserts (env : BlockEnv) :
    Asserts (checkInputsPresent env view tx) fun _ => haveInputs view tx = true := by
  apply branch
  · intro coinbase
    apply ok
    rw [haveInputs, coinbase, Bool.true_or]
  · intro _
    apply branch
    · exact fun _ => Asserts.dos _ _
    · intro present
      apply branch
      · exact fun _ => Asserts.dos _ _
      · exact fun _ => .ok (by simpa using present)

theorem checkInputs_asserts (env : BlockEnv) (present : haveInputs view tx = true) (nHeight : Int) :
    Asserts (checkInputs env view tx nHeight) fun _ => True := by
  apply branch
  · exact fun _ => .ok trivial
  · intro ordinary
    have available := haveInputs_available present
    rw [spentOutpoints, if_neg ordinary, forall_mem_map] at available
    rw [getValueIn, if_neg ordinary]
    apply bind (addValueIn_asserts available 0)
    intro nValueIn _
    apply bind getValueOut_asserts
    intro nValueOut _
    apply bind (checkTxInputs_asserts (by simpa using ordinary) nHeight)
    intro _ _
    apply branch
    · exact fun _ => Asserts.dos _ _
    · exact fun _ => .ok trivial

end Asserts

section Once

variable (getHash : CTransaction → Uint256)

/-- An output of the block or the view before, with the number of transactions storing its id. -/
def named (before : List CTransaction) (prevout : COutPoint) : COutPoint × Nat :=
  (prevout, (before.map getHash).count prevout.hash)

/-- The outputs spent by transactions, in order. -/
def spentOutputs : List CTransaction → List CTransaction → List (COutPoint × Nat)
  | _, [] => []
  | before, tx :: rest => (spentOutpoints tx).map (named getHash before) ++ spentOutputs (before ++ [tx]) rest

variable {getHash}

theorem spentOutputs_append (before first second : List CTransaction) :
    spentOutputs getHash before (first ++ second) =
      spentOutputs getHash before first ++ spentOutputs getHash (before ++ first) second := by
  induction first generalizing before with
  | nil => simp [spentOutputs]
  | cons tx rest ih =>
    rw [cons_append, spentOutputs, spentOutputs, ih, append_assoc, append_assoc]
    rfl

theorem spentOutputs_snoc (before : List CTransaction) (tx : CTransaction) :
    spentOutputs getHash [] (before ++ [tx]) =
      spentOutputs getHash [] before ++ (spentOutpoints tx).map (named getHash before) := by
  rw [spentOutputs_append, nil_append, spentOutputs, spentOutputs, append_nil]

/-- Each spent output is gone unless its id is stored again. -/
structure SpentOnce (getHash : CTransaction → Uint256) (before : List CTransaction) (view : UtxoSet) : Prop where
  distinct : (spentOutputs getHash [] before).Nodup
  gone : ∀ prevout, named getHash before prevout ∈ spentOutputs getHash [] before → getOutput view prevout = none
  earlier : ∀ output ∈ spentOutputs getHash [] before, output.2 ≤ (before.map getHash).count output.1.hash

theorem SpentOnce.initial (view : UtxoSet) : SpentOnce getHash [] view where
  distinct := nodup_nil
  gone := by simp [spentOutputs]
  earlier := by simp [spentOutputs]

theorem SpentOnce.update {before : List CTransaction} {view : UtxoSet} {tx : CTransaction} {nHeight : Int}
    {result : UtxoSet × List CTxInUndo} (once : SpentOnce getHash before view)
    (inputs : (tx.vin.map prevout).Nodup) (updated : updateCoins view tx (getHash tx) nHeight = .ok result) :
    SpentOnce getHash (before ++ [tx]) result.1 := by
  obtain ⟨marked, marks, rfl⟩ := updateCoins_eq_ok.mp updated
  have available := markInputsSpent_available marks
  have inputsDistinct : (spentOutpoints tx).Nodup := by
    rw [spentOutpoints]
    split
    · exact nodup_nil
    · exact inputs
  have injective : Function.Injective (named getHash before) := fun _ _ same => congrArg Prod.fst same
  have count : ∀ txid, ((before ++ [tx]).map getHash).count txid =
      (before.map getHash).count txid + if getHash tx = txid then 1 else 0 := by
    intro txid
    rw [map_append, count_append, map_singleton, count_singleton]
    simp [beq_iff_eq]
  constructor
  · rw [spentOutputs_snoc, nodup_append]
    refine ⟨once.distinct, inputsDistinct.map injective, ?_⟩
    rintro output old other new rfl
    obtain ⟨prevout, member, rfl⟩ := mem_map.mp new
    exact available prevout member (once.gone prevout old)
  · intro prevout member
    rw [spentOutputs_snoc, mem_append] at member
    rw [getOutput_store]
    by_cases stored : prevout.hash = getHash tx
    · -- the id is stored once more than any of the spent outputs knows
      exfalso
      have larger := count prevout.hash
      rw [if_pos stored.symm] at larger
      rcases member with old | new
      · have bound : ((before ++ [tx]).map getHash).count prevout.hash ≤ (before.map getHash).count prevout.hash :=
          once.earlier _ old
        omega
      · obtain ⟨other, _, same⟩ := mem_map.mp new
        have equal : other = prevout := congrArg Prod.fst same
        rw [equal] at same
        have counts := congrArg Prod.snd same
        rw [named, named] at counts
        omega
    · rw [if_neg stored, markInputsSpent_getOutput marks]
      have same := count prevout.hash
      rw [if_neg (Ne.symm stored)] at same
      split
      · rfl
      · rename_i unspent
        rcases member with old | new
        · rw [named, same] at old
          exact once.gone prevout old
        · obtain ⟨other, spent, equal⟩ := mem_map.mp new
          have same : other = prevout := congrArg Prod.fst equal
          exact absurd (same ▸ spent) unspent
  · intro output member
    rw [count]
    rw [spentOutputs_snoc, mem_append] at member
    rcases member with old | new
    · exact (once.earlier output old).trans (Nat.le_add_right _ _)
    · obtain ⟨prevout, _, rfl⟩ := mem_map.mp new
      exact Nat.le_add_right _ _

end Once

section Run

variable {getHash : CTransaction → Uint256} {env : BlockEnv} {nHeight : Int}

theorem connectTransaction_asserts {before : List CTransaction} {first : Bool} {state : ConnectState}
    {tx : CTransaction} (inputs : (tx.vin.map prevout).Nodup) (once : SpentOnce getHash before state.view) :
    Asserts (connectTransaction getHash env nHeight first state tx) fun next =>
      SpentOnce getHash (before ++ [tx]) next.view := by
  apply bind (checkInputsPresent_asserts env)
  intro _ present
  apply branch
  · exact fun _ => Asserts.dos _ _
  · intro _
    apply bind (checkInputs_asserts env present nHeight)
    intro amounts _
    apply bind getValueOut_asserts
    intro nValueOut _
    obtain ⟨marked, marks⟩ := markInputsSpent_of_haveInputs inputs present
    have updated : updateCoins state.view tx (getHash tx) nHeight =
        .ok (marked.1.store (getHash tx) (CCoins.fromTx tx nHeight), marked.2) :=
      updateCoins_eq_ok.mpr ⟨marked, marks, rfl⟩
    rw [updated]
    exact .ok (once.update inputs updated)

theorem connectTransactions_asserts {before rest : List CTransaction} {first : Bool} {state : ConnectState}
    (inputs : ∀ tx ∈ rest, (tx.vin.map prevout).Nodup) (once : SpentOnce getHash before state.view) :
    Asserts (connectTransactions getHash env nHeight first state rest) fun last =>
      SpentOnce getHash (before ++ rest) last.view := by
  induction rest generalizing before first state with
  | nil =>
    apply ok
    rwa [append_nil]
  | cons tx rest ih =>
    rw [forall_mem_cons] at inputs
    apply bind (connectTransaction_asserts inputs.1 once)
    intro next nextOnce
    rw [append_cons]
    exact ih inputs.2 nextOnce

/-- In the loop of `ConnectBlock` over a checked block no assertion fails. Whenever it has come to a transaction, no
output has been spent twice, and if the transaction then passes `HaveInputs` and `CheckInputs`, its inputs are
unspent, can be spent and are gone afterwards. -/
theorem connectTransactions_spends (getHash : CTransaction → Uint256) (env : BlockEnv) (block : CBlock)
    (fCheckPOW fCheckMerkleRoot : Bool) (checked : checkBlock env block fCheckPOW fCheckMerkleRoot = .ok ())
    (nHeight : Int) (view : UtxoSet) :
    connectTransactions getHash env nHeight true ⟨view, [], 0, 0, 0, 0⟩ block.vtx ≠ .error .assertion ∧
    ∀ before after state, block.vtx = before ++ after →
      connectTransactions getHash env nHeight true ⟨view, [], 0, 0, 0, 0⟩ before = .ok state →
      (spentOutputs getHash [] before).Nodup ∧
      ∀ tx ∈ after.head?, haveInputs state.view tx = true →
        (∃ amounts, checkInputs env state.view tx nHeight = .ok amounts) →
        ∃ marked, markInputsSpent state.view tx = .ok marked ∧ updateCoins state.view tx (getHash tx) nHeight =
            .ok (marked.1.store (getHash tx) (CCoins.fromTx tx nHeight), marked.2) ∧
          ∀ prevout ∈ spentOutpoints tx, getOutput state.view prevout ≠ none ∧ getOutput marked.1 prevout = none := by
  have inputs := checkBlock_distinct checked
  have start : SpentOnce getHash [] view := SpentOnce.initial view
  constructor
  · have asserts := @connectTransactions_asserts getHash env nHeight [] block.vtx true ⟨view, [], 0, 0, 0, 0⟩ inputs
      start
    intro failed
    rw [failed] at asserts
    exact asserts rfl
  · intro before after state split reached
    rw [split] at inputs
    have asserts := @connectTransactions_asserts getHash env nHeight [] before true ⟨view, [], 0, 0, 0, 0⟩
      (fun tx member => inputs tx (mem_append_left after member)) start
    rw [reached] at asserts
    refine ⟨asserts.distinct, fun tx next present _ => ?_⟩
    have member : tx ∈ after := mem_of_mem_head? next
    obtain ⟨marked, marks⟩ := markInputsSpent_of_haveInputs (inputs tx (mem_append_right before member)) present
    refine ⟨marked, marks, updateCoins_eq_ok.mpr ⟨marked, marks, rfl⟩, fun prevout spent => ?_⟩
    rw [markInputsSpent_getOutput marks, if_pos spent]
    exact ⟨haveInputs_available present prevout spent, rfl⟩

theorem connectTransactions_spends_chain : checkBlock lenientEnv spendingBlock true true = .ok () ∧
      (spentOutputs spendingHash [] spendingBlock.vtx).Nodup ∧
      spentOutputs spendingHash [] spendingBlock.vtx = [(⟨3, 0⟩, 0), (⟨2, 0⟩, 1)] := by
  have checked : checkBlock lenientEnv spendingBlock true true = .ok () := rfl
  have spends := connectTransactions_spends spendingHash lenientEnv spendingBlock true true checked 2
    (oneOutputView 1).utxo
  obtain ⟨state, reached⟩ : ∃ state, connectTransactions spendingHash lenientEnv 2 true
      ⟨(oneOutputView 1).utxo, [], 0, 0, 0, 0⟩ spendingBlock.vtx = .ok state := ⟨_, rfl⟩
  exact ⟨checked, (spends.2 spendingBlock.vtx [] state (append_nil _).symm reached).1, by decide⟩

end Run

end Straks.Chain
