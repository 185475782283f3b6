import Straks.Proof.CacheRefinement
import Straks.Proof.MoneySupply

namespace Straks.Chain
open Coins Success List UtxoSet CCoinsViewCache

variable {getHash : CTransaction → Uint256}

/-- What was spent for a transaction was there before. -/
theorem markInputsSpent_available {view : UtxoSet} {tx : CTransaction} {marked : UtxoSet × List CTxInUndo}
    (marks : markInputsSpent view tx = .ok marked) : ∀ prevout ∈ spentOutpoints tx, getOutput view prevout ≠ none := by
  intro prevout member
  rw [markInputsSpent] at marks
  rw [spentOutpoints] at member
  split at member
  · cases member
  · rename_i ordinary
    rw [if_neg ordinary] at marks
    obtain ⟨txin, inputs, rfl⟩ := mem_map.mp member
    exact spendInputs_available marks txin inputs

section Block

variable {blocks : List NextBlock} {tip : ChainTip} {next : NextBlock} {coinbase : CTransaction}
  {rest before after : List CTransaction} {state : ConnectState} {tx : CTransaction}

/-- The history of the view when the loop is at a later transaction. -/
theorem ChainOk.history_before (chain : ChainOk getHash blocks tip) (checked : CheckedBlock next.block coinbase rest)
    (injective : IdsInjective getHash (chainTransactions blocks ++ next.block.vtx))
    (new : getHash coinbase ∉ (chainTransactions blocks).map getHash) (split : rest = before ++ tx :: after)
    (loop : connectTransactions getHash next.env (tip.nHeight + 1) true ⟨tip.view.utxo, [], 0, 0, 0, 0⟩
      (coinbase :: before) = .ok state) :
    History getHash UtxoSet.empty (chainTransactions blocks ++ coinbase :: before) state.view := by
  obtain ⟨afterCoinbase, step, later⟩ := bind_eq_ok.mp loop
  have stepped := connectTransaction_connected step
  obtain ⟨vprevout, updated⟩ := stepped.updated
  have extended := chain.history.connect updated new (getCoins_empty _) stepped.available
  have together : (chainTransactions blocks ++ [coinbase]) ++ before = chainTransactions blocks ++ coinbase :: before := by
    simp
  have inBlock : ∀ other ∈ before, other ∈ rest := fun other member => split ▸ mem_append_left _ member
  have vtx := checked.vtx
  have allChecked := checked.checked
  rw [vtx] at injective allChecked
  have sublist : ∀ other ∈ chainTransactions blocks ++ coinbase :: before,
      other ∈ chainTransactions blocks ++ coinbase :: rest := by
    intro other member
    simp only [mem_append, mem_cons] at member ⊢
    exact member.imp_right (Or.imp_right (inBlock other))
  have injectiveBefore : IdsInjective getHash (chainTransactions blocks ++ coinbase :: before) :=
    fun left leftMember right rightMember => injective left (sublist left leftMember) right (sublist right rightMember)
  obtain ⟨history, -⟩ := connectTransactions_rest later extended (together ▸ injectiveBefore)
    (fun _ _ => getCoins_empty _)
    (fun other member => allChecked other (mem_cons_of_mem coinbase (inBlock other member)))
    (fun other member => checked.others other (inBlock other member))
  exact together ▸ history

/-- When outputs are about to be added, their id has none in the view. -/
theorem ChainOk.absent (chain : ChainOk getHash blocks tip) (checked : CheckedBlock next.block coinbase rest)
    (contextual : contextualCheckBlock next.env next.block (tip.nHeight + 1) = .ok ())
    (injective : IdsInjective getHash (chainTransactions blocks ++ next.block.vtx)) (fits : blocks.length + 1 < 2 ^ 31)
    (split : next.block.vtx = before ++ tx :: after)
    (loop : connectTransactions getHash next.env (tip.nHeight + 1) true ⟨tip.view.utxo, [], 0, 0, 0, 0⟩ before =
      .ok state)
    (available : ∀ prevout ∈ spentOutpoints tx, getOutput state.view prevout ≠ none) :
    state.view.getCoins (getHash tx) = none := by
  obtain ⟨-, new⟩ := chain.coinbase_new contextual checked injective fits
  have vtx := checked.vtx
  cases before with
  | nil =>
    obtain ⟨rfl, -⟩ : coinbase = tx ∧ rest = after := by
      rw [vtx] at split
      exact List.cons.inj split
    cases loop
    exact chain.history.entries _ new (getCoins_empty _)
  | cons first before =>
    obtain ⟨rfl, rest⟩ : coinbase = first ∧ rest = before ++ tx :: after := by
      rw [vtx] at split
      exact List.cons.inj split
    have history := chain.history_before checked injective new rest loop
    have inRest : tx ∈ next.block.vtx := split ▸ mem_append_right _ mem_cons_self
    have spends : spentOutpoints tx ≠ [] := by
      rw [spentOutpoints, checked.others tx (rest ▸ mem_append_right _ mem_cons_self)]
      simpa using (checked.checked tx inRest).inputs
    apply history.entries _ _ (getCoins_empty _)
    apply history.new_of_spends _ spends available
    intro old member
    apply injective old _ tx (mem_append_right _ inRest)
    rw [split]
    simp only [mem_append, mem_cons] at member ⊢
    tauto

end Block

end Straks.Chain
