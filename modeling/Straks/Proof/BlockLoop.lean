import Straks.Proof.CoinValue

namespace Straks.Chain
open Coins Success List CTransaction

theorem isCoinBase_withoutWitness (tx : CTransaction) : tx.withoutWitness.isCoinBase = tx.isCoinBase := by
  rw [isCoinBase, isCoinBase, withoutWitness]
  rcases tx.vin with _ | ⟨first, _ | ⟨second, rest⟩⟩ <;> rfl

theorem spentOutpoints_withoutWitness (tx : CTransaction) : spentOutpoints tx.withoutWitness = spentOutpoints tx := by
  rw [spentOutpoints, spentOutpoints, isCoinBase_withoutWitness]
  simp [withoutWitness, Function.comp_def]

/-- An outpoint is spent only while its transaction has an entry. -/
theorem getCoins_ne_none {view : UtxoSet} {prevout : COutPoint} (available : getOutput view prevout ≠ none) :
    view.getCoins prevout.hash ≠ none := by
  intro absent
  rw [getOutput_eq, absent] at available
  exact available rfl

/-- What is known of a view after connecting transactions: ids are not reused, and what was spent stays spent. -/
structure History (getHash : CTransaction → Uint256) (start : UtxoSet) (connected : List CTransaction)
    (view : UtxoSet) : Prop where
  distinct : (connected.map getHash).Nodup
  fresh : ∀ tx ∈ connected, start.getCoins (getHash tx) = none
  entries : ∀ txid, txid ∉ connected.map getHash → start.getCoins txid = none → view.getCoins txid = none
  spent : ∀ tx ∈ connected, ∀ prevout ∈ spentOutpoints tx, getOutput view prevout = none
  known : ∀ tx ∈ connected, ∀ prevout ∈ spentOutpoints tx,
    prevout.hash ∈ connected.map getHash ∨ start.getCoins prevout.hash ≠ none

namespace History

variable {getHash : CTransaction → Uint256} {start view : UtxoSet} {connected : List CTransaction}

theorem initial (getHash : CTransaction → Uint256) (start : UtxoSet) : History getHash start [] start where
  distinct := nodup_nil
  fresh := fun _ member => nomatch member
  entries := fun _ _ absent => absent
  spent := fun _ member => nomatch member
  known := fun _ member => nomatch member

variable (history : History getHash start connected view)
include history

variable {tx : CTransaction}

/-- A transaction that spends has a new id: an earlier one would have spent the same. -/
theorem new_of_spends
    (injective : ∀ old ∈ connected, getHash old = getHash tx → old.withoutWitness = tx.withoutWitness)
    (spends : spentOutpoints tx ≠ []) (available : ∀ prevout ∈ spentOutpoints tx, getOutput view prevout ≠ none) :
    getHash tx ∉ connected.map getHash := by
  intro member
  obtain ⟨old, connectedOld, sameId⟩ := mem_map.mp member
  have sameOutpoints : spentOutpoints old = spentOutpoints tx := by
    rw [← spentOutpoints_withoutWitness old, injective old connectedOld sameId, spentOutpoints_withoutWitness]
  obtain ⟨prevout, first⟩ := exists_mem_of_ne_nil _ spends
  apply available prevout first
  exact history.spent old connectedOld prevout (sameOutpoints ▸ first)

/-- A connected transaction with a new id extends the history. -/
theorem connect {nHeight : Int} {result : UtxoSet × List CTxInUndo}
    (updated : updateCoins view tx (getHash tx) nHeight = .ok result) (new : getHash tx ∉ connected.map getHash)
    (freshStart : start.getCoins (getHash tx) = none)
    (available : ∀ prevout ∈ spentOutpoints tx, getOutput view prevout ≠ none) :
    History getHash start (connected ++ [tx]) result.1 := by
  obtain ⟨marked, marks, rfl⟩ := updateCoins_eq_ok.mp updated
  have absent := history.entries _ new freshStart
  have ids : (connected ++ [tx]).map getHash = connected.map getHash ++ [getHash tx] := by simp
  -- an outpoint of an earlier or of this transaction does not name an output of this transaction
  have keeps : ∀ prevout : COutPoint, prevout.hash ≠ getHash tx → getOutput marked.1 prevout = none →
      getOutput (marked.1.store (getHash tx) (CCoins.fromTx tx nHeight)) prevout = none := by
    intro prevout apart gone
    rw [getOutput_store, if_neg apart, gone]
  have knownHash : ∀ prevout ∈ spentOutpoints tx,
      prevout.hash ∈ connected.map getHash ∨ start.getCoins prevout.hash ≠ none := by
    intro prevout member
    by_contra unknown
    obtain ⟨unconnected, absentStart⟩ := not_or.mp unknown
    exact getCoins_ne_none (available prevout member) (history.entries _ unconnected (not_not.mp absentStart))
  refine ⟨?_, ?_, ?_, ?_, ?_⟩
  · rw [ids, nodup_append]
    refine ⟨history.distinct, nodup_singleton _, ?_⟩
    intro id member other last same
    rw [mem_singleton.mp last] at same
    exact new (same ▸ member)
  · intro other member
    rcases mem_append.mp member with old | last
    · exact history.fresh other old
    · rw [mem_singleton.mp last]
      exact freshStart
  · intro txid unconnected absentStart
    rw [ids] at unconnected
    have older : txid ∉ connected.map getHash := fun member => unconnected (mem_append_left _ member)
    have apart : txid ≠ getHash tx := by
      intro same
      exact unconnected (mem_append_right _ (mem_singleton.mpr same))
    rw [UtxoSet.getCoins_store_of_ne _ _ apart]
    exact markInputsSpent_entries marks (history.entries txid older absentStart)
  · intro other member prevout spent
    rcases mem_append.mp member with old | last
    · apply keeps prevout
      · intro same
        rcases history.known other old prevout spent with connectedHash | started
        · exact new (same ▸ connectedHash)
        · exact started (same ▸ freshStart)
      · rw [markInputsSpent_getOutput marks, history.spent other old prevout spent, ite_self]
    · obtain rfl := mem_singleton.mp last
      apply keeps prevout
      · intro same
        exact getCoins_ne_none (available prevout spent) (same ▸ absent)
      · rw [markInputsSpent_getOutput marks, if_pos spent]
  · intro other member prevout spent
    rw [ids]
    rcases mem_append.mp member with old | last
    · exact (history.known other old prevout spent).imp_left (mem_append_left _)
    · obtain rfl := mem_singleton.mp last
      exact (knownHash prevout spent).imp_left (mem_append_left _)

end History

theorem checkOutputs_nonnegative {nValueOut : CAmount} {vout : List CTxOut}
    (success : checkOutputs nValueOut vout = .ok ()) : ∀ txout ∈ vout, 0 ≤ txout.nValue := by
  induction vout generalizing nValueOut with
  | nil => exact fun _ member => nomatch member
  | cons txout rest ih =>
    rw [checkOutputs] at success
    split_ifs at success with nonnegative
    intro other member
    rcases mem_cons.mp member with rfl | later
    · exact not_lt.mp nonnegative
    · exact ih success other later

/-- What a transaction that passed `CheckTransaction` offers. -/
structure Checked (tx : CTransaction) : Prop where
  inputs : tx.vin ≠ []
  outputs : ∀ txout ∈ tx.vout, 0 ≤ txout.nValue

variable {tx : CTransaction} {view : UtxoSet} {vin : List CTxIn} {result : UtxoSet × List CTxInUndo}

theorem checkTransaction_ok {fCheckDuplicateInputs : Bool}
    (success : checkTransaction tx fCheckDuplicateInputs = .ok ()) :
    Checked tx ∧ (fCheckDuplicateInputs = true → (tx.vin.map CTxIn.prevout).Nodup) := by
  simp only [checkTransaction, guard_eq_ok, bind_eq_ok, not_and_not_right] at success
  obtain ⟨nonempty, _, _, _, outputs, distinct, _⟩ := success
  exact ⟨⟨by simpa using nonempty, checkOutputs_nonnegative outputs⟩, distinct⟩

theorem checkTransactions_each {vtx : List CTransaction} (success : checkTransactions vtx = .ok ()) :
    ∀ tx ∈ vtx, checkTransaction tx true = .ok () := by
  induction vtx with
  | nil => simp
  | cons tx rest ih =>
    obtain ⟨_, first, later⟩ := bind_eq_ok.mp success
    rw [forall_mem_cons]
    exact ⟨first, ih later⟩

/-- A checked block starts with its one coinbase. -/
structure CheckedBlock (block : CBlock) (coinbase : CTransaction) (rest : List CTransaction) : Prop where
  vtx : block.vtx = coinbase :: rest
  coinbase : coinbase.isCoinBase = true
  others : ∀ tx ∈ rest, tx.isCoinBase = false
  checked : ∀ tx ∈ block.vtx, Checked tx

theorem checkCoinbases_ok {vtx : List CTransaction} (success : checkCoinbases vtx = .ok ()) :
    ∃ coinbase rest, vtx = coinbase :: rest ∧ coinbase.isCoinBase = true ∧ ∀ tx ∈ rest, tx.isCoinBase = false := by
  cases vtx with
  | nil => cases success
  | cons coinbase rest =>
    rw [checkCoinbases] at success
    split_ifs at success with first single
    refine ⟨coinbase, rest, rfl, by simpa using first, ?_⟩
    simpa using single

variable {env : BlockEnv}

theorem checkBlock_ok {block : CBlock} {fCheckPOW fCheckMerkleRoot : Bool}
    (success : checkBlock env block fCheckPOW fCheckMerkleRoot = .ok ()) :
    checkCoinbases block.vtx = .ok () ∧ ∀ tx ∈ block.vtx, checkTransaction tx true = .ok () := by
  simp only [checkBlock, guard_eq_ok, bind_eq_ok] at success
  obtain ⟨_, _, _, _, _, coinbases, _, _, _, transactions, _⟩ := success
  exact ⟨coinbases, checkTransactions_each transactions⟩

theorem checkBlock_checked {block : CBlock} {fCheckPOW fCheckMerkleRoot : Bool}
    (success : checkBlock env block fCheckPOW fCheckMerkleRoot = .ok ()) :
    ∃ coinbase rest, CheckedBlock block coinbase rest := by
  obtain ⟨coinbases, transactions⟩ := checkBlock_ok success
  obtain ⟨coinbase, rest, vtx, first, others⟩ := checkCoinbases_ok coinbases
  exact ⟨coinbase, rest, vtx, first, others, fun tx member => (checkTransaction_ok (transactions tx member)).1⟩

theorem addValueOut_ok {start total : CAmount} {vout : List CTxOut} (success : addValueOut start vout = .ok total) :
    total = start + (vout.map CTxOut.nValue).sum ∧ (∀ txout ∈ vout, 0 ≤ txout.nValue) ∧
      (moneyRange start = true → moneyRange total = true) := by
  induction vout generalizing start with
  | nil =>
    cases success
    simp
  | cons txout rest ih =>
    rw [addValueOut] at success
    split_ifs at success with valid
    simp only [Bool.or_eq_true, Bool.not_eq_true', not_or, Bool.not_eq_false] at valid
    obtain ⟨sum, nonneg, range⟩ := ih success
    refine ⟨?_, forall_mem_cons.mpr ⟨((moneyRange_iff _).mp valid.1).1, nonneg⟩, fun _ => range valid.2⟩
    rw [sum, map_cons, sum_cons, add_assoc]

theorem getValueOut_eq {value : CAmount} (success : getValueOut tx = .ok value) :
    value = (tx.vout.map CTxOut.nValue).sum := by
  rw [(addValueOut_ok success).1, zero_add]

theorem getOutputFor_eq_ok {txin : CTxIn} {txout : CTxOut} :
    getOutputFor view txin = .ok txout ↔ getOutput view txin.prevout = some txout := by
  rw [getOutputFor]
  cases getOutput view txin.prevout <;> simp

theorem addValueIn_congr {left right : UtxoSet}
    (same : ∀ txin ∈ vin, getOutput left txin.prevout = getOutput right txin.prevout) (nResult : CAmount) :
    addValueIn left nResult vin = addValueIn right nResult vin := by
  induction vin generalizing nResult with
  | nil => rfl
  | cons txin rest ih =>
    have first : getOutputFor left txin = getOutputFor right txin := by
      rw [getOutputFor, getOutputFor, same txin mem_cons_self]
    have later := ih fun other member => same other (mem_cons_of_mem txin member)
    rw [addValueIn, addValueIn, first]
    simp only [later]

/-- Every input that was spent was unspent before. -/
theorem spendInputs_available (success : spendInputs view vin = .ok result) :
    ∀ txin ∈ vin, getOutput view txin.prevout ≠ none := by
  induction vin generalizing view result with
  | nil => exact fun _ member => nomatch member
  | cons txin rest ih =>
    obtain ⟨first, later, spent, laterSpent, _⟩ := spendInputs_cons.mp success
    intro other member
    rcases mem_cons.mp member with rfl | inRest
    · obtain ⟨coins, txout, entry, found, _⟩ := spendInput_eq_ok.mp spent
      rw [getOutput_eq, entry, Option.bind_some, found]
      exact Option.some_ne_none txout
    · have available := ih laterSpent other inRest
      rw [spendInput_getOutput spent] at available
      intro gone
      rw [gone, ite_self] at available
      exact available rfl

/-- The view loses the value `GetValueIn` reads before. -/
theorem spendInputs_value (success : spendInputs view vin = .ok result) (nResult : CAmount) :
    addValueIn view nResult vin = .ok (nResult + (view.value - result.1.value)) := by
  induction vin generalizing view result nResult with
  | nil =>
    cases success
    simp [addValueIn]
  | cons txin rest ih =>
    obtain ⟨first, later, spent, laterSpent, rfl⟩ := spendInputs_cons.mp success
    obtain ⟨coins, txout, entry, found, spentView⟩ := spendInput_eq_ok.mp spent
    have output : getOutput view txin.prevout = some txout := by
      rw [getOutput_eq, entry, Option.bind_some, found]
    have firstValue : first.1.value = view.value - txout.nValue := by
      rw [spentView, UtxoSet.store_value, entry, Option.map_some, Option.getD_some, CCoins.spend_value found]
      lia
    have sameOutputs : ∀ other ∈ rest, getOutput view other.prevout = getOutput first.1 other.prevout := by
      intro other member
      have available := spendInputs_available laterSpent other member
      rw [spendInput_getOutput spent] at available ⊢
      split
      · rename_i same
        rw [if_pos same] at available
        exact absurd rfl available
      · rfl
    have rest := ih laterSpent (nResult + txout.nValue)
    rw [addValueIn, getOutputFor_eq_ok.mpr output]
    change addValueIn view (nResult + txout.nValue) _ = _
    rw [addValueIn_congr sameOutputs, rest]
    congr 1
    lia

/-- What one successful turn over the transactions has done. -/
structure TransactionConnected (getHash : CTransaction → Uint256) (nHeight : Int) (state : ConnectState)
    (tx : CTransaction) (next : ConnectState) : Prop where
  available : ∀ prevout ∈ spentOutpoints tx, getOutput state.view prevout ≠ none
  updated : ∃ vprevout, updateCoins state.view tx (getHash tx) nHeight = .ok (next.view, vprevout)
  nValueOut : next.nValueOut = state.nValueOut + (tx.vout.map CTxOut.nValue).sum
  nValueIn : getValueIn state.view tx = .ok (next.nValueIn - state.nValueIn)
  nFees : next.nFees - state.nFees =
    if tx.isCoinBase then 0 else next.nValueIn - state.nValueIn - (tx.vout.map CTxOut.nValue).sum

theorem haveInputs_available (present : haveInputs view tx = true) :
    ∀ prevout ∈ spentOutpoints tx, getOutput view prevout ≠ none := by
  intro prevout member
  rw [spentOutpoints] at member
  split at member
  · cases member
  · rename_i ordinary
    rw [haveInputs, Bool.eq_false_iff.mpr ordinary, Bool.false_or, all_eq_true] at present
    obtain ⟨txin, inputs, rfl⟩ := mem_map.mp member
    exact Option.isSome_iff_ne_none.mp (present txin inputs)

theorem checkInputsPresent_available (success : checkInputsPresent env view tx = .ok ()) :
    ∀ prevout ∈ spentOutpoints tx, getOutput view prevout ≠ none := by
  rw [checkInputsPresent] at success
  split at success
  · rename_i coinbase
    apply haveInputs_available
    rw [haveInputs, coinbase, Bool.true_or]
  · split_ifs at success with present
    exact haveInputs_available (by simpa using present)

/-- Where the ranges of the inputs are checked, they add up in the same way. -/
theorem checkSpentOutputs_range {nSpendHeight : Int} {start total : CAmount} {vin : List CTxIn}
    (range : moneyRange start = true) (success : checkSpentOutputs view nSpendHeight start vin = .ok total) :
    addValueIn view start vin = .ok total ∧ moneyRange total = true := by
  induction vin generalizing start with
  | nil =>
    cases success
    exact ⟨rfl, range⟩
  | cons txin rest ih =>
    rw [checkSpentOutputs] at success
    split at success
    · cases success
    · split_ifs at success
      obtain ⟨txout, output, checked⟩ := bind_eq_ok.mp success
      split_ifs at checked with valid
      simp only [Bool.or_eq_true, Bool.not_eq_true', not_or, Bool.not_eq_false] at valid
      rw [addValueIn, output]
      exact ih valid.2 checked

theorem checkTxInputs_range {nSpendHeight : Int} {nValueIn nValueOut : CAmount}
    (valueIn : addValueIn view 0 tx.vin = .ok nValueIn) (valueOut : getValueOut tx = .ok nValueOut)
    (success : checkTxInputs view tx nSpendHeight = .ok ()) : nValueOut ≤ nValueIn ∧ nValueIn ≤ maxMoney := by
  rw [checkTxInputs] at success
  split_ifs at success
  obtain ⟨counted, spent, afterSpent⟩ := bind_eq_ok.mp success
  obtain ⟨added, range⟩ := checkSpentOutputs_range rfl spent
  cases added.symm.trans valueIn
  simp only [valueOut, bind, Except.bind] at afterSpent
  split_ifs at afterSpent with below
  exact ⟨not_lt.mp below, ((moneyRange_iff _).mp range).2⟩

theorem checkInputs_eq {nHeight : Int} {values : CAmount × CAmount}
    (success : checkInputs env view tx nHeight = .ok values) : getValueIn view tx = .ok values.1 ∧
      (values.2 = if tx.isCoinBase then 0 else values.1 - (tx.vout.map CTxOut.nValue).sum) ∧
      0 ≤ values.2 ∧ values.2 ≤ values.1 ∧ values.1 ≤ maxMoney := by
  rw [checkInputs] at success
  split at success
  · rename_i coinbase
    cases success
    rw [getValueIn, if_pos coinbase, if_pos coinbase]
    exact ⟨rfl, rfl, by decide⟩
  · rename_i ordinary
    obtain ⟨nValueIn, valueIn, afterIn⟩ := bind_eq_ok.mp success
    obtain ⟨nValueOut, valueOut, afterOut⟩ := bind_eq_ok.mp afterIn
    obtain ⟨_, checked, afterChecks⟩ := bind_eq_ok.mp afterOut
    split_ifs at afterChecks
    cases afterChecks
    refine ⟨valueIn, by rw [if_neg ordinary, getValueOut_eq valueOut], ?_⟩
    rw [getValueIn, if_neg ordinary] at valueIn
    obtain ⟨covered, bound⟩ := checkTxInputs_range valueIn valueOut checked
    have range := (moneyRange_iff _).mp ((addValueOut_ok valueOut).2.2 rfl)
    exact ⟨sub_nonneg.mpr covered, sub_le_self _ range.1, bound⟩

variable {getHash : CTransaction → Uint256}

theorem connectTransaction_connected {nHeight : Int} {first : Bool} {state next : ConnectState}
    (success : connectTransaction getHash env nHeight first state tx = .ok next) :
    TransactionConnected getHash nHeight state tx next := by
  obtain ⟨_, present, afterPresent⟩ := bind_eq_ok.mp success
  split at afterPresent
  · cases afterPresent
  · obtain ⟨values, inputs, afterInputs⟩ := bind_eq_ok.mp afterPresent
    obtain ⟨nValueOut, valueOut, afterValue⟩ := bind_eq_ok.mp afterInputs
    obtain ⟨updated, update, returned⟩ := bind_eq_ok.mp afterValue
    obtain ⟨valueIn, fee, _⟩ := checkInputs_eq inputs
    cases returned
    refine ⟨checkInputsPresent_available present, ⟨updated.2, update⟩, ?_, ?_, ?_⟩
    · rw [← getValueOut_eq valueOut]
    · rw [valueIn, add_sub_cancel_left]
    · rw [add_sub_cancel_left, add_sub_cancel_left, fee]

/-- The inputs `GetValueIn` counts are those leaving the view. -/
theorem markInputsSpent_value (success : markInputsSpent view tx = .ok result) :
    getValueIn view tx = .ok (view.value - result.1.value) := by
  rw [markInputsSpent] at success
  rw [getValueIn]
  split at success
  · rename_i coinbase
    cases success
    rw [if_pos coinbase, sub_self]
  · rename_i ordinary
    rw [if_neg ordinary, spendInputs_value success, zero_add]

/-- A transaction moves value from inputs to outputs, stored or unspendable. -/
theorem TransactionConnected.value {nHeight : Int} {state next : ConnectState}
    (connected : TransactionConnected getHash nHeight state tx next) (checked : Checked tx)
    (absent : state.view.getCoins (getHash tx) = none) : next.view.value + unspendableValue tx.vout =
      state.view.value + (next.nValueOut - state.nValueOut) - (next.nValueIn - state.nValueIn) := by
  obtain ⟨vprevout, updated⟩ := connected.updated
  obtain ⟨marked, marks, result⟩ := updateCoins_eq_ok.mp updated
  have view : next.view = marked.1.store (getHash tx) (CCoins.fromTx tx nHeight) := congrArg Prod.fst result
  have valueIn : state.view.value - marked.1.value = next.nValueIn - state.nValueIn := by
    have counted := markInputsSpent_value marks
    rw [connected.nValueIn] at counted
    exact (Except.ok.inj counted).symm
  have stored : next.view.value = marked.1.value + (CCoins.fromTx tx nHeight).value := by
    rw [view, UtxoSet.store_value, markInputsSpent_entries marks absent]
    simp
  have outputs := CCoins.fromTx_value tx nHeight checked.outputs
  have valueOut := connected.nValueOut
  lia

/-- The value of all provably unspendable outputs. -/
def burnedValue (vtx : List CTransaction) : CAmount := (vtx.map fun tx => unspendableValue tx.vout).sum

/-- The fees are what the outputs of other transactions leave of their inputs. -/
def FeesExact (start state : ConnectState) : Prop :=
  state.nFees - start.nFees = state.nValueIn - start.nValueIn - (state.nValueOut - start.nValueOut)

section Loop

variable {getHash : CTransaction → Uint256} {env : BlockEnv} {nHeight : Int}

/-- Distinct transactions have distinct ids, witnesses aside. -/
def IdsInjective (getHash : CTransaction → Uint256) (txs : List CTransaction) : Prop :=
  ∀ left ∈ txs, ∀ right ∈ txs, getHash left = getHash right → left.withoutWitness = right.withoutWitness

/-- The transactions after the coinbase extend the history; the totals stay exact. -/
theorem connectTransactions_rest {origin : UtxoSet} {vtx connected : List CTransaction} {first : Bool}
    {state final : ConnectState} (success : connectTransactions getHash env nHeight first state vtx = .ok final)
    (history : History getHash origin connected state.view) (injective : IdsInjective getHash (connected ++ vtx))
    (fresh : ∀ tx ∈ vtx, origin.getCoins (getHash tx) = none)
    (checked : ∀ tx ∈ vtx, Checked tx) (ordinary : ∀ tx ∈ vtx, tx.isCoinBase = false) :
    History getHash origin (connected ++ vtx) final.view ∧ final.view.value + burnedValue vtx =
        state.view.value + (final.nValueOut - state.nValueOut) - (final.nValueIn - state.nValueIn) ∧
      FeesExact state final := by
  induction vtx generalizing connected first state with
  | nil =>
    cases success
    refine ⟨by simpa using history, by simp [burnedValue], by simp [FeesExact]⟩
  | cons tx rest ih =>
    obtain ⟨next, step, later⟩ := bind_eq_ok.mp success
    have stepped := connectTransaction_connected step
    have here : tx ∈ connected ++ tx :: rest := mem_append_right _ mem_cons_self
    have spends : spentOutpoints tx ≠ [] := by
      rw [spentOutpoints, ordinary tx mem_cons_self]
      simpa using (checked tx mem_cons_self).inputs
    have new : getHash tx ∉ connected.map getHash := by
      apply history.new_of_spends _ spends stepped.available
      intro old member
      exact injective old (mem_append_left _ member) tx here
    have freshHere := fresh tx mem_cons_self
    obtain ⟨vprevout, updated⟩ := stepped.updated
    have extended := history.connect updated new freshHere stepped.available
    have together : (connected ++ [tx]) ++ rest = connected ++ tx :: rest := by simp
    obtain ⟨finalHistory, finalValue, finalFees⟩ := ih later extended (together ▸ injective)
      (fun other member => fresh other (mem_cons_of_mem tx member))
      (fun other member => checked other (mem_cons_of_mem tx member))
      (fun other member => ordinary other (mem_cons_of_mem tx member))
    have value := stepped.value (checked tx mem_cons_self) (history.entries _ new freshHere)
    have burned : burnedValue (tx :: rest) = unspendableValue tx.vout + burnedValue rest := by
      simp [burnedValue]
    have fees := stepped.nFees
    have valueOut := stepped.nValueOut
    rw [ordinary tx mem_cons_self] at fees
    refine ⟨together ▸ finalHistory, ?_, ?_⟩
    · lia
    · rw [FeesExact] at finalFees ⊢
      lia

end Loop

end Straks.Chain
