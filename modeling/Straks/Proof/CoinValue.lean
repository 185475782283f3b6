import Mathlib.Algebra.BigOperators.Group.List.Basic
import Straks.Proof.SpentOutputs

namespace Straks.Coins

open List CCoins CTxOut

/-- The value of the unspent outputs in a list. -/
def unspentValue (vout : List CTxOut) : CAmount :=
  ((vout.filter fun txout => !txout.isNull).map nValue).sum

/-- The value of the unspent outputs of one transaction. -/
def CCoins.value (coins : CCoins) : CAmount := unspentValue coins.vout

/-- The total value of all unspent outputs. -/
def UtxoSet.value (view : UtxoSet) : CAmount := (view.coins.entries.map fun entry => entry.2.value).sum

theorem unspentValue_cons (txout : CTxOut) (rest : List CTxOut) :
    unspentValue (txout :: rest) = (if txout.isNull then 0 else txout.nValue) + unspentValue rest := by
  cases null : txout.isNull <;> simp [unspentValue, null]

theorem unspentValue_append (left right : List CTxOut) :
    unspentValue (left ++ right) = unspentValue left + unspentValue right := by
  simp [unspentValue]

@[simp] theorem CCoins.cleanup_value (coins : CCoins) : coins.cleanup.value = coins.value := by
  have split : coins.vout = coins.vout.rdropWhile isNull ++ coins.vout.rtakeWhile isNull :=
    rdropWhile_append_rtakeWhile.symm
  have nothing : unspentValue (coins.vout.rtakeWhile isNull) = 0 := by
    have allNull : ∀ txout ∈ coins.vout.rtakeWhile isNull, txout.isNull = true :=
      fun txout member => mem_rtakeWhile_imp member
    rw [unspentValue, filter_eq_nil_iff.mpr (by simpa using allNull)]
    rfl
  calc coins.cleanup.value = unspentValue (coins.vout.rdropWhile isNull) := rfl
    _ = unspentValue coins.vout := by
        conv_rhs => rw [split, unspentValue_append, nothing, add_zero]

theorem CCoins.value_of_pruned {coins : CCoins} (pruned : coins.isPruned = true) : coins.value = 0 := by
  have allNull : ∀ txout ∈ coins.vout, txout.isNull = true := all_eq_true.mp pruned
  rw [CCoins.value, unspentValue, filter_eq_nil_iff.mpr (by simpa using allNull)]
  rfl

/-- Nulling an unspent output takes its value away. -/
theorem unspentValue_set {vout : List CTxOut} {nPos : Nat} {txout : CTxOut} (stored : vout[nPos]? = some txout)
    (unspent : txout.isNull = false) :
    unspentValue (vout.set nPos CTxOut.null) = unspentValue vout - txout.nValue := by
  induction vout generalizing nPos with
  | nil => cases stored
  | cons head rest ih =>
    cases nPos with
    | zero =>
      cases stored
      rw [set_cons_zero, unspentValue_cons, unspentValue_cons, unspent]
      simp
    | succ nPos =>
      rw [set_cons_succ, unspentValue_cons, unspentValue_cons, ih stored]
      lia

theorem CCoins.spend_value {coins : CCoins} {nPos : Nat} {txout : CTxOut} (found : coins.output nPos = some txout) :
    (coins.spend nPos).2.value = coins.value - txout.nValue := by
  obtain ⟨stored, unspent⟩ := output_eq_some.mp found
  have available : coins.isAvailable nPos = true := by rw [isAvailable_eq, found]; rfl
  rw [CCoins.spend, if_pos available, cleanup_value]
  exact unspentValue_set stored unspent

/-- The value of the outputs that nobody can spend. -/
def unspendableValue (vout : List CTxOut) : CAmount :=
  ((vout.filter fun txout => Script.isUnspendable txout.scriptPubKey).map nValue).sum

theorem unspendableValue_cons (txout : CTxOut) (rest : List CTxOut) : unspendableValue (txout :: rest) =
      (if Script.isUnspendable txout.scriptPubKey then txout.nValue else 0) + unspendableValue rest := by
  cases unspendable : Script.isUnspendable txout.scriptPubKey <;> simp [unspendableValue, unspendable]

/-- The outputs of a transaction are stored or provably unspendable. -/
theorem CCoins.fromTx_value (tx : CTransaction) (nHeight : Int) (valid : ∀ txout ∈ tx.vout, 0 ≤ txout.nValue) :
    (fromTx tx nHeight).value + unspendableValue tx.vout = (tx.vout.map nValue).sum := by
  have cleared : ∀ vout : List CTxOut, (∀ txout ∈ vout, 0 ≤ txout.nValue) →
      unspentValue (vout.map clearOutput) + unspendableValue vout = (vout.map nValue).sum := by
    intro vout
    induction vout with
    | nil => exact fun _ => rfl
    | cons txout rest ih =>
      intro nonnegative
      have tail := ih fun other member => nonnegative other (mem_cons_of_mem txout member)
      have notNull : txout.isNull = false := by
        have := nonnegative txout mem_cons_self
        rw [isNull]
        lia
      rw [map_cons, unspentValue_cons, unspendableValue_cons, clearOutput]
      cases unspendable : Script.isUnspendable txout.scriptPubKey <;> simp [notNull] <;> lia
  rw [fromTx, clearUnspendable, cleanup_value]
  exact cleared tx.vout valid

/-- Taking an entry out of a table takes its part out of a sum. -/
theorem sum_kerase (entries : List (Sigma fun _ : Uint256 => CCoins)) (txid : Uint256) :
    ((entries.kerase txid).map fun entry => entry.2.value).sum =
      (entries.map fun entry => entry.2.value).sum - ((entries.dlookup txid).map CCoins.value).getD 0 := by
  induction entries with
  | nil => rfl
  | cons entry rest ih =>
    by_cases same : txid = entry.1
    · subst same
      rw [kerase_cons_eq rfl, dlookup_cons_eq rest entry.1 entry.2, map_cons, sum_cons,
        Option.map_some, Option.getD_some]
      lia
    · rw [kerase_cons_ne same, dlookup_cons_ne rest entry same, map_cons, map_cons, sum_cons, sum_cons]
      lia

/-- A stored entry replaces the value of the one before. -/
theorem UtxoSet.store_value (view : UtxoSet) (txid : Uint256) (coins : CCoins) : (view.store txid coins).value =
      view.value - ((view.getCoins txid).map CCoins.value).getD 0 + coins.value := by
  have erased := sum_kerase view.coins.entries txid
  rw [UtxoSet.store]
  split
  · rename_i pruned
    rw [value_of_pruned pruned, add_zero]
    exact erased
  · have inserted : ((view.coins.insert txid coins.cleanup).entries.map fun entry => entry.2.value).sum =
        coins.cleanup.value + ((view.coins.entries.kerase txid).map fun entry => entry.2.value).sum := by
      rw [AList.entries_insert, map_cons, sum_cons]
    rw [UtxoSet.value, inserted, erased, cleanup_value, add_comm]
    rfl

end Straks.Coins
