import Straks.Construction.Chain.ConnectBlock
import Straks.Library.Success

namespace Straks.Coins
open List Option CCoins

/-- The output at a position while it is unspent. -/
def CCoins.output (coins : CCoins) (nPos : Nat) : Option CTxOut := coins.vout[nPos]?.filter fun txout => !txout.isNull

variable {coins : CCoins} {nPos : Nat} {txout : CTxOut}

theorem CCoins.output_eq_some :
    coins.output nPos = some txout ↔ coins.vout[nPos]? = some txout ∧ txout.isNull = false := by
  simp [output, filter_eq_some_iff]

theorem CCoins.isAvailable_eq (coins : CCoins) (nPos : Nat) :
    coins.isAvailable nPos = (coins.output nPos).isSome := by
  rw [isAvailable, output]
  cases coins.vout[nPos]? with
  | none => rfl
  | some txout => cases null : txout.isNull <;> simp [filter, null]

/-- Dropping trailing spent outputs keeps every unspent one. -/
@[simp] theorem CCoins.cleanup_output (coins : CCoins) (nPos : Nat) :
    coins.cleanup.output nPos = coins.output nPos := by
  have dropped : ∀ vout : List CTxOut,
      (vout.rdropWhile CTxOut.isNull)[nPos]?.filter (fun txout => !txout.isNull) =
        vout[nPos]?.filter fun txout => !txout.isNull := by
    intro vout
    induction vout using reverseRecOn with
    | nil => rfl
    | append_singleton front last ih =>
      rw [rdropWhile_concat]
      split
      · rename_i null
        rw [ih]
        rcases lt_trichotomy nPos front.length with before | here | after
        · rw [getElem?_append_left before]
        · simp [here, Option.filter, null]
        · rw [getElem?_eq_none (by omega), getElem?_eq_none (by simp; omega)]
      · rfl
  exact dropped coins.vout

theorem CCoins.output_of_pruned (pruned : coins.isPruned = true) (nPos : Nat) : coins.output nPos = none := by
  rw [eq_none_iff_forall_ne_some]
  intro txout found
  obtain ⟨stored, unspent⟩ := output_eq_some.mp found
  have null := all_eq_true.mp pruned txout (mem_of_getElem? stored)
  rw [unspent] at null
  cases null

/-- A spend takes away exactly the spent output. -/
theorem CCoins.spend_output (found : coins.output nPos = some txout) (other : Nat) :
    (coins.spend nPos).2.output other = if other = nPos then none else coins.output other := by
  have available : coins.isAvailable nPos = true := by rw [isAvailable_eq, found]; rfl
  rw [spend, if_pos available, cleanup_output]
  by_cases same : other = nPos
  · subst same
    rw [if_pos rfl, output, getElem?_set_self']
    cases coins.vout[other]? with
    | none => rfl
    | some txout => rfl
  · rw [if_neg same, output, getElem?_set_ne (Ne.symm same)]
    rfl

end Straks.Coins

namespace Straks.Chain
open Coins Success

theorem getOutput_eq (view : UtxoSet) (prevout : COutPoint) :
    getOutput view prevout = (view.getCoins prevout.hash).bind fun coins => coins.output prevout.n.toNat := by
  rw [getOutput]
  congr 1
  funext coins
  rw [CCoins.isAvailable_eq]
  cases found : coins.output prevout.n.toNat with
  | none => rfl
  | some txout => exact (CCoins.output_eq_some.mp found).1

/-- A stored entry replaces what its transaction offered. -/
theorem getOutput_store (view : UtxoSet) (txid : Uint256) (coins : CCoins) (prevout : COutPoint) :
    getOutput (view.store txid coins) prevout =
      if prevout.hash = txid then coins.output prevout.n.toNat else getOutput view prevout := by
  rw [getOutput_eq, getOutput_eq]
  by_cases same : prevout.hash = txid
  · rw [if_pos same, same, UtxoSet.getCoins_store_self]
    cases pruned : coins.isPruned with
    | true =>
      rw [CCoins.unspent_of_pruned (by simpa using pruned), CCoins.output_of_pruned pruned]
      rfl
    | false =>
      rw [CCoins.unspent_of_unpruned (by simpa using pruned), Option.bind_some, CCoins.cleanup_output]
  · rw [if_neg same, UtxoSet.getCoins_store_of_ne view coins same]

variable {view : UtxoSet} {result : UtxoSet × List CTxInUndo} {txid : Uint256} {prevout : COutPoint} {tx : CTransaction}

/-- A spend succeeds exactly on an unspent output, and takes it. -/
theorem spendInput_eq_ok {result : UtxoSet × CTxInUndo} : spendInput view prevout = .ok result ↔
      ∃ coins txout, view.getCoins prevout.hash = some coins ∧ coins.output prevout.n.toNat = some txout ∧
        result = (view.store prevout.hash (coins.spend prevout.n.toNat).2,
          undoRecord txout (coins.spend prevout.n.toNat).2) := by
  rw [spendInput]
  cases entry : view.getCoins prevout.hash with
  | none => simp [CCoins.clear]
  | some coins =>
    simp only [Option.getD_some, Option.some.injEq, exists_and_left, exists_eq_left', CCoins.output_eq_some]
    cases stored : coins.vout[prevout.n.toNat]? with
    | none => simp
    | some txout =>
      constructor
      · intro success
        cases null : txout.isNull with
        | true => simp [null] at success
        | false =>
          simp only [null, Bool.false_eq_true, if_false, Except.ok.injEq] at success
          exact ⟨txout, ⟨rfl, null⟩, success.symm⟩
      · rintro ⟨_, ⟨same, null⟩, rfl⟩
        cases same
        simp [null]

theorem spendInput_getOutput {result : UtxoSet × CTxInUndo} (success : spendInput view prevout = .ok result)
    (other : COutPoint) : getOutput result.1 other = if other = prevout then none else getOutput view other := by
  obtain ⟨coins, txout, entry, found, rfl⟩ := spendInput_eq_ok.mp success
  rw [getOutput_store]
  by_cases sameHash : other.hash = prevout.hash
  · rw [if_pos sameHash, CCoins.spend_output found]
    have sameOutput : getOutput view other = coins.output other.n.toNat := by
      rw [getOutput_eq, sameHash, entry]
      rfl
    have same : other = prevout ↔ other.n.toNat = prevout.n.toNat := by
      rw [UInt32.toNat_inj]
      constructor
      · exact congrArg COutPoint.n
      · intro sameIndex
        cases other
        cases prevout
        cases sameHash
        cases sameIndex
        rfl
    rw [sameOutput]
    simp only [same]
  · have apart : other ≠ prevout := fun same => sameHash (congrArg COutPoint.hash same)
    rw [if_neg sameHash, if_neg apart]

/-- A spend adds no entry. -/
theorem spendInput_entries {result : UtxoSet × CTxInUndo} (success : spendInput view prevout = .ok result)
    (absent : view.getCoins txid = none) : result.1.getCoins txid = none := by
  obtain ⟨coins, txout, entry, found, rfl⟩ := spendInput_eq_ok.mp success
  have apart : txid ≠ prevout.hash := by
    intro same
    rw [same, entry] at absent
    cases absent
  rw [UtxoSet.getCoins_store_of_ne view _ apart, absent]

theorem spendInputs_cons {txin : CTxIn} {rest : List CTxIn} : spendInputs view (txin :: rest) = .ok result ↔
      ∃ first later, spendInput view txin.prevout = .ok first ∧ spendInputs first.1 rest = .ok later ∧
        result = (later.1, first.2 :: later.2) := by
  rw [spendInputs, bind_eq_ok]
  constructor
  · rintro ⟨first, success, rest⟩
    obtain ⟨later, laterSuccess, returned⟩ := bind_eq_ok.mp rest
    exact ⟨first, later, success, laterSuccess, (Except.ok.inj returned).symm⟩
  · rintro ⟨first, later, success, laterSuccess, rfl⟩
    exact ⟨first, success, bind_eq_ok.mpr ⟨later, laterSuccess, rfl⟩⟩

/-- After the inputs are spent, the named outputs are gone, the others as before. -/
theorem spendInputs_getOutput {vin : List CTxIn} (success : spendInputs view vin = .ok result) (other : COutPoint) :
    getOutput result.1 other = if other ∈ vin.map CTxIn.prevout then none else getOutput view other := by
  induction vin generalizing view result with
  | nil =>
    cases success
    rfl
  | cons txin rest ih =>
    obtain ⟨first, later, spent, laterSpent, rfl⟩ := spendInputs_cons.mp success
    rw [ih laterSpent, spendInput_getOutput spent]
    by_cases here : other = txin.prevout
    · simp [here]
    · simp [here]

theorem spendInputs_entries {vin : List CTxIn} (success : spendInputs view vin = .ok result)
    (absent : view.getCoins txid = none) : result.1.getCoins txid = none := by
  induction vin generalizing view result with
  | nil =>
    cases success
    exact absent
  | cons txin rest ih =>
    obtain ⟨first, later, spent, laterSpent, rfl⟩ := spendInputs_cons.mp success
    have absentLater := ih laterSpent (spendInput_entries spent absent)
    exact absentLater

/-- The outputs a transaction spends. -/
def spentOutpoints (tx : CTransaction) : List COutPoint :=
  if tx.isCoinBase then [] else tx.vin.map CTxIn.prevout

theorem markInputsSpent_getOutput (success : markInputsSpent view tx = .ok result) (other : COutPoint) :
    getOutput result.1 other = if other ∈ spentOutpoints tx then none else getOutput view other := by
  rw [markInputsSpent] at success
  rw [spentOutpoints]
  cases coinbase : tx.isCoinBase with
  | true =>
    rw [coinbase] at success
    cases success
    simp
  | false =>
    rw [coinbase] at success
    exact spendInputs_getOutput success other

theorem markInputsSpent_entries (success : markInputsSpent view tx = .ok result) (absent : view.getCoins txid = none) :
    result.1.getCoins txid = none := by
  rw [markInputsSpent] at success
  split at success
  · cases success
    exact absent
  · exact spendInputs_entries success absent

/-- The inputs are spent, then the outputs are stored. -/
theorem updateCoins_eq_ok {nHeight : Int} : updateCoins view tx txid nHeight = .ok result ↔
      ∃ spent, markInputsSpent view tx = .ok spent ∧
        result = (spent.1.store txid (CCoins.fromTx tx nHeight), spent.2) := by
  rw [updateCoins, bind_eq_ok]
  constructor
  · rintro ⟨spent, success, returned⟩
    exact ⟨spent, success, (Except.ok.inj returned).symm⟩
  · rintro ⟨spent, success, rfl⟩
    exact ⟨spent, success, rfl⟩

end Straks.Chain
