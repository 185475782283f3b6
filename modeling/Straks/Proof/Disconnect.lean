import Straks.Proof.MoneySupply
import Straks.Proof.UndoRecords

namespace Straks.Chain
open Coins Success List CCoins UtxoSet CTxInUndo

variable (final : UtxoSet) (txid : Uint256) (coins : CCoins)

/-- An entry as the disconnection brings it back: the version of a fully spent one has gone through the undo file. -/
def restoredEntry : CCoins :=
  if final.getCoins txid = none then { coins with nVersion := keptVersion coins.nVersion } else coins

/-- The view is restored, up to the versions of entries fully spent by the block. -/
def Restores (final view restored : UtxoSet) : Prop :=
  ∀ txid, restored.getCoins txid = (view.getCoins txid).map (restoredEntry final txid)

@[simp] theorem restoredEntry_vout : (restoredEntry final txid coins).vout = coins.vout := by
  rw [restoredEntry]
  split <;> rfl

theorem restoredEntry_withVout (vout : List CTxOut) :
    { restoredEntry final txid coins with vout := vout } = restoredEntry final txid { coins with vout := vout } := by
  rw [restoredEntry, restoredEntry]
  split <;> rfl

variable {view final restored : UtxoSet} {coins left : CCoins} {result : UtxoSet × List CTxInUndo} {tx : CTransaction}
  {txid : Uint256} {prevout : COutPoint} {block : CBlock} {pindex : ConnectIndex}

theorem isPruned_of_vout {right : CCoins} (same : left.vout = right.vout) : left.isPruned = right.isPruned := by
  rw [isPruned, isPruned, same]

theorem clean_of_vout {right : CCoins} (same : left.vout = right.vout) (clean : right.Clean) : left.Clean := by
  have kept : right.vout.rdropWhile CTxOut.isNull = right.vout := congrArg CCoins.vout clean
  have leftKept : left.vout.rdropWhile CTxOut.isNull = left.vout := by rw [same, kept]
  rw [CCoins.Clean, CCoins.cleanup, leftKept]

/-- A clean unspent entry is stored as it is. -/
theorem getCoins_store_clean (view : UtxoSet) (txid : Uint256) (clean : coins.Clean) (unpruned : coins.isPruned = false) :
    (view.store txid coins).getCoins txid = some coins := by
  have same : coins.cleanup = coins := clean
  rw [getCoins_store_self, same, unspent_of_unpruned unpruned]

theorem CCoins.spend_clean (clean : coins.Clean) (nPos : Nat) : (coins.spend nPos).2.Clean := by
  rw [CCoins.spend]
  split
  · exact cleanup_clean _
  · exact clean

theorem CCoins.spend_metadata (coins : CCoins) (nPos : Nat) :
    (coins.spend nPos).2 = { coins with vout := (coins.spend nPos).2.vout } := by
  rw [CCoins.spend]
  split <;> rfl

/-- Restoring a spent entry gives it back, up to its version. -/
theorem Restores.store (restores : Restores final (view.store txid left) restored)
    (found : view.getCoins txid = some coins) :
    Restores final view (restored.store txid (restoredEntry final txid coins)) := by
  intro other
  by_cases same : other = txid
  · subst same
    have vout := restoredEntry_vout final other coins
    have clean := clean_of_vout vout (UtxoSet.unspent _ _ _ found).2
    have unpruned := (isPruned_of_vout vout).trans (UtxoSet.unspent _ _ _ found).1
    rw [getCoins_store_clean restored other clean unpruned, found, Option.map_some]
  · rw [getCoins_store_of_ne _ _ same, restores other, getCoins_store_of_ne _ _ same]

/-- Applying the undo record of a spend takes the spend back. -/
theorem applyTxInUndo_restores {result : UtxoSet × CTxInUndo} (spent : spendInput view prevout = .ok result)
    (stored : view.Stored) (gone : result.1.getCoins prevout.hash = none → final.getCoins prevout.hash = none)
    (restores : Restores final result.1 restored) : (applyTxInUndo result.2.kept restored prevout).1 = true ∧
      Restores final view (applyTxInUndo result.2.kept restored prevout).2 := by
  obtain ⟨coins, txout, entry, found, rfl⟩ := spendInput_eq_ok.mp spent
  have clean := (UtxoSet.unspent _ _ _ entry).2
  have coinsStored := stored prevout.hash coins entry
  have leftClean := CCoins.spend_clean clean prevout.n.toNat
  have output : (coins.spend prevout.n.toNat).2.output prevout.n.toNat = none := by
    rw [CCoins.spend_output found, if_pos rfl]
  have outputs := CCoins.restoreOutput_spend clean coinsStored found
  have metadata := CCoins.spend_metadata coins prevout.n.toNat
  have record := kept_undoRecord txout (coins.spend prevout.n.toNat).2
  have here := restores prevout.hash
  have sameLeft : (coins.spend prevout.n.toNat).2.cleanup = (coins.spend prevout.n.toNat).2 := leftClean
  rw [getCoins_store_self, sameLeft] at here gone
  generalize (coins.spend prevout.n.toNat).2 = left at *
  suffices restoration : ∃ base : CCoins,
      entryToRestore (undoRecord txout left).kept ((restored.getCoins prevout.hash).getD CCoins.clear) = (true, base) ∧
        base.vout = left.vout ∧
        { base with vout := coins.vout } = restoredEntry final prevout.hash coins by
    obtain ⟨base, start, vout, complete⟩ := restoration
    have unavailable : base.isAvailable prevout.n.toNat = false := by
      rw [CCoins.isAvailable_eq, CCoins.output, vout]
      change (left.output prevout.n.toNat).isSome = false
      rw [output]
      rfl
    rw [applyTxInUndo, start]
    refine ⟨by simp [unavailable], ?_⟩
    simp only [record, vout, outputs, complete]
    exact restores.store entry
  cases empty : left.vout.isEmpty with
  | true =>
    -- the record carries the metadata, and the entry is gone for good
    have nothing : left.vout = [] := isEmpty_iff.mp empty
    have pruned : left.isPruned = true := leftClean.isPruned_iff.mpr nothing
    rw [CCoins.unspent_of_pruned pruned] at here gone
    have positive := coinsStored.positive
    have fits := coinsStored.fits
    have sameHeight : left.nHeight = coins.nHeight := by rw [metadata]
    have height : (left.nHeight % 4294967296).toNat = coins.nHeight.toNat := by
      rw [sameHeight, Int.emod_eq_of_lt (by omega) (by omega)]
    refine ⟨⟨coins.fCoinBase, [], coins.nHeight, keptVersion coins.nVersion⟩, ?_, nothing.symm, ?_⟩
    · have above : coins.nHeight.toNat > 0 := by omega
      have sameCoinBase : left.fCoinBase = coins.fCoinBase := by rw [metadata]
      have sameVersion : left.nVersion = coins.nVersion := by rw [metadata]
      rw [here, undoRecord, empty, if_pos rfl, height, sameCoinBase, sameVersion, kept, if_pos above,
        entryToRestore, if_pos (Nat.ne_of_gt above)]
      simp only [Option.map_none, Option.getD_none, CCoins.clear_isPruned]
      rw [Int.toNat_of_nonneg (by omega)]
    · rw [restoredEntry, if_pos (gone rfl)]
  | false =>
    have unpruned : left.isPruned = false := by
      rw [Bool.eq_false_iff, Ne, leftClean.isPruned_iff]
      intro nothing
      rw [nothing] at empty
      cases empty
    rw [CCoins.unspent_of_unpruned unpruned] at here
    refine ⟨restoredEntry final prevout.hash left, ?_, restoredEntry_vout _ _ _, ?_⟩
    · rw [here, undoRecord, empty, entryToRestore]
      have samePruned := isPruned_of_vout (restoredEntry_vout final prevout.hash left)
      simp [kept, samePruned, unpruned]
    · rw [restoredEntry_withVout, metadata]

theorem spendInput_stored {result : UtxoSet × CTxInUndo} (success : spendInput view prevout = .ok result)
    (stored : view.Stored) : result.1.Stored := by
  obtain ⟨coins, txout, entry, found, rfl⟩ := spendInput_eq_ok.mp success
  exact stored.store ((stored prevout.hash coins entry).spend prevout.n.toNat) prevout.hash

theorem spendInput_reread {result : UtxoSet × CTxInUndo} (success : spendInput view prevout = .ok result)
    (stored : view.Stored) : result.2.reread = some result.2.kept := by
  obtain ⟨coins, txout, entry, found, rfl⟩ := spendInput_eq_ok.mp success
  have leftStored := (stored prevout.hash coins entry).spend prevout.n.toNat
  exact reread_undoRecord txout leftStored.positive leftStored.fits

/-- The inputs are restored from their undo records. -/
theorem restoreInputs_restores {vin : List CTxIn} (success : spendInputs view vin = .ok result) (stored : view.Stored)
    (gone : ∀ txid, view.getCoins txid ≠ none → result.1.getCoins txid = none → final.getCoins txid = none)
    (restores : Restores final result.1 restored) :
    result.2.length = vin.length ∧ result.2.mapM reread = some (result.2.map kept) ∧
      (restoreInputs restored (vin.zip (result.2.map kept))).1 = true ∧
      Restores final view (restoreInputs restored (vin.zip (result.2.map kept))).2 := by
  induction vin generalizing view result with
  | nil =>
    cases success
    exact ⟨rfl, rfl, rfl, restores⟩
  | cons txin rest ih =>
    obtain ⟨first, later, spent, laterSpent, rfl⟩ := spendInputs_cons.mp success
    have firstStored := spendInput_stored spent stored
    have goneLater : ∀ txid, first.1.getCoins txid ≠ none → later.1.getCoins txid = none →
        final.getCoins txid = none := by
      grind [spendInput_entries]
    obtain ⟨length, reread, clean, restoresFirst⟩ := ih laterSpent firstStored goneLater restores
    have goneHere : first.1.getCoins txin.prevout.hash = none → final.getCoins txin.prevout.hash = none := by
      intro absent
      obtain ⟨coins, txout, entry, _⟩ := spendInput_eq_ok.mp spent
      grind [spendInputs_entries]
    obtain ⟨cleanHere, restoresHere⟩ := applyTxInUndo_restores spent stored goneHere restoresFirst
    grind [spendInput_reread, restoreInputs]

/-- An output that is stored is not cleared again. -/
theorem clearOutput_idempotent (txout : CTxOut) : clearOutput (clearOutput txout) = clearOutput txout := by
  grind [clearOutput]

variable {nHeight : Int}

theorem clearUnspendable_fromTx (vout : coins.vout = (fromTx tx nHeight).vout) : coins.clearUnspendable = coins := by
  have settled : ∀ txout ∈ coins.vout, clearOutput txout = txout := by
    intro txout member
    rw [vout] at member
    have cleared : txout ∈ tx.vout.map clearOutput := ( rdropWhile_prefix _ _).mem member
    grind [clearOutput_idempotent]
  have unchanged : coins.vout.map clearOutput = coins.vout := by
    rw [map_congr_left settled, map_id']
  have clean : coins.cleanup = coins := clean_of_vout vout (cleanup_clean _)
  rw [clearUnspendable, unchanged, clean]

/-- The restored entry matches the outputs in the block. -/
theorem outsToCompare_same (final : UtxoSet) (txid : Uint256) (tx : CTransaction) (nHeight : Int) :
    (outsToCompare ((((fromTx tx nHeight).unspent).map (restoredEntry final txid)).getD CCoins.clear)
      (fromTx tx nHeight)).same (fromTx tx nHeight) = true := by
  rw [same_iff]
  cases pruned : (fromTx tx nHeight).isPruned with
  | true =>
    rw [unspent_of_pruned pruned, outsToCompare]
    split <;> rfl
  | false =>
    have vout := restoredEntry_vout final txid (fromTx tx nHeight)
    have compared : outsToCompare (restoredEntry final txid (fromTx tx nHeight))
        (fromTx tx nHeight) = fromTx tx nHeight := by
      rw [outsToCompare, clearUnspendable_fromTx vout]
      split
      · rw [restoredEntry]
        split <;> rfl
      simp_all [restoredEntry, keptVersion_of_nonnegative]
    grind [unspent_of_unpruned]

theorem spendInputs_stored {vin : List CTxIn} (success : spendInputs view vin = .ok result) (stored : view.Stored) :
    result.1.Stored := by
  induction vin generalizing view result with
  | nil =>
    cases success
    exact stored
  | cons txin rest ih =>
    obtain ⟨first, later, spent, laterSpent, rfl⟩ := spendInputs_cons.mp success
    have rest := ih laterSpent (spendInput_stored spent stored)
    exact rest

/-- The entry of a transaction above genesis, if its outputs have values. -/
theorem fromTx_stored (outputs : ∀ txout ∈ tx.vout, 0 ≤ txout.nValue) (positive : 0 < nHeight)
    (fits : nHeight < 2147483648) : (fromTx tx nHeight).Stored := by
  have cleared : CCoins.Stored ⟨tx.isCoinBase, tx.vout.map clearOutput, nHeight, tx.nVersion⟩ := by
    refine ⟨positive, fits, ?_⟩
    grind [clearOutput, CTxOut.isNull]
  exact cleared.cleanup

theorem updateCoins_stored (updated : updateCoins view tx txid nHeight = .ok result) (stored : view.Stored)
    (new : (fromTx tx nHeight).Stored) : result.1.Stored := by
  obtain ⟨marked, marks, rfl⟩ := updateCoins_eq_ok.mp updated
  grind [UtxoSet.Stored.store, markInputsSpent, spendInputs_stored]

theorem updateCoins_entries {other : Uint256} (updated : updateCoins view tx txid nHeight = .ok result)
    (apart : other ≠ txid) (absent : view.getCoins other = none) : result.1.getCoins other = none := by
  obtain ⟨marked, marks, rfl⟩ := updateCoins_eq_ok.mp updated
  grind [getCoins_store_of_ne, markInputsSpent_entries]

/-- Removing a transaction's outputs leaves the view with its inputs spent. -/
theorem Restores.removed {marked : UtxoSet} (restores : Restores final (marked.store txid coins) restored)
    (absent : marked.getCoins txid = none) : Restores final marked (restored.store txid CCoins.clear) := by
  intro other
  by_cases same : other = txid
  · rw [same, getCoins_store_self, absent]
    rfl
  · rw [getCoins_store_of_ne _ _ same, restores other, getCoins_store_of_ne _ _ same]

/-- The undo data of a transaction as `DisconnectBlock` finds it. -/
def keptUndo (tx : CTransaction) (vprevout : List CTxInUndo) : Option (List CTxInUndo) :=
  if tx.isCoinBase then none else some (vprevout.map kept)

variable {getHash : CTransaction → Uint256}

/-- Disconnecting a transaction takes its connection back. -/
theorem disconnectTransaction_restores (updated : updateCoins view tx (getHash tx) nHeight = .ok result)
    (stored : view.Stored) (absent : view.getCoins (getHash tx) = none)
    (gone : ∀ txid, view.getCoins txid ≠ none → result.1.getCoins txid = none → final.getCoins txid = none)
    (restores : Restores final result.1 restored) :
    result.2.mapM reread = some (result.2.map kept) ∧
      ∃ undone, disconnectTransaction getHash nHeight restored tx (keptUndo tx result.2) = .ok (true, undone) ∧
        Restores final view undone := by
  obtain ⟨marked, marks, rfl⟩ := updateCoins_eq_ok.mp updated
  have markedAbsent := markInputsSpent_entries marks absent
  have removed := restores.removed markedAbsent
  have entry := restores (getHash tx)
  have clean : (fromTx tx nHeight).cleanup = fromTx tx nHeight := cleanup_clean _
  rw [getCoins_store_self, clean] at entry
  have matching := outsToCompare_same final (getHash tx) tx nHeight
  rw [← entry] at matching
  simp only [disconnectTransaction, matching, keptUndo]
  rw [markInputsSpent] at marks
  cases coinbase : tx.isCoinBase with
  | true =>
    rw [if_pos coinbase] at marks
    cases marks
    exact ⟨rfl, _, rfl, removed⟩
  | false =>
    rw [coinbase] at marks
    have goneInputs : ∀ txid, view.getCoins txid ≠ none → marked.1.getCoins txid = none →
        final.getCoins txid = none := by
      grind [getCoins_store_of_ne]
    obtain ⟨length, reread, inputsClean, undone⟩ := restoreInputs_restores marks stored goneInputs removed
    grind

theorem Restores.refl (final : UtxoSet) : Restores final final final := by
  intro txid
  cases entry : final.getCoins txid with
  | none => rfl
  | some coins =>
    grind [restoredEntry]

section Loop

variable {getHash : CTransaction → Uint256} {env : BlockEnv} {nHeight : Int}

variable {state last : ConnectState} {tx : CTransaction}

theorem connectTransaction_undo {first : Bool} {next : ConnectState}
    (success : connectTransaction getHash env nHeight first state tx = .ok next) :
    ∃ vprevout, updateCoins state.view tx (getHash tx) nHeight = .ok (next.view, vprevout) ∧
      next.vtxundo = if first then state.vtxundo else state.vtxundo ++ [vprevout] := by
  obtain ⟨_, _, afterPresent⟩ := bind_eq_ok.mp success
  split at afterPresent
  · cases afterPresent
  · obtain ⟨_, _, afterInputs⟩ := bind_eq_ok.mp afterPresent
    obtain ⟨_, _, afterValue⟩ := bind_eq_ok.mp afterInputs
    obtain ⟨updated, update, returned⟩ := bind_eq_ok.mp afterValue
    cases returned
    exact ⟨updated.2, update, rfl⟩

/-- The loop makes entries only for what it connects. -/
theorem connectTransactions_entries {vtx : List CTransaction} {first : Bool}
    (success : connectTransactions getHash env nHeight first state vtx = .ok last) {txid : Uint256}
    (foreign : txid ∉ vtx.map getHash) (absent : state.view.getCoins txid = none) :
    last.view.getCoins txid = none := by
  induction vtx generalizing first state with
  | nil =>
    cases success
    exact absent
  | cons tx rest ih =>
    obtain ⟨next, step, later⟩ := bind_eq_ok.mp success
    obtain ⟨vprevout, updated, _⟩ := connectTransaction_undo step
    rw [map_cons, mem_cons, not_or] at foreign
    exact ih later foreign.2 (updateCoins_entries updated foreign.1 absent)

/-- What the loop needs of the transactions still to come. -/
structure Pending (getHash : CTransaction → Uint256) (nHeight : Int) (view : UtxoSet) (vtx : List CTransaction) :
    Prop where
  distinct : (vtx.map getHash).Nodup
  absent : ∀ tx ∈ vtx, view.getCoins (getHash tx) = none
  outputs : ∀ tx ∈ vtx, (fromTx tx nHeight).Stored
  stored : view.Stored

/-- Connecting the first pending one leaves the others pending. -/
theorem Pending.next {view : UtxoSet} {rest : List CTransaction} {result : UtxoSet × List CTxInUndo}
    (pending : Pending getHash nHeight view (tx :: rest))
    (updated : updateCoins view tx (getHash tx) nHeight = .ok result) : Pending getHash nHeight result.1 rest := by
  have distinct := pending.distinct
  rw [map_cons, nodup_cons] at distinct
  refine ⟨distinct.2, ?_, ?_, ?_⟩
  · intro other member
    have apart : getHash other ≠ getHash tx := by
      intro same
      exact distinct.1 (mem_map.mpr ⟨other, member, same⟩)
    exact updateCoins_entries updated apart (pending.absent other (mem_cons_of_mem tx member))
  · intro other member
    exact pending.outputs other (mem_cons_of_mem tx member)
  · exact updateCoins_stored updated pending.stored (pending.outputs tx mem_cons_self)

/-- A used up entry does not come back in the block. -/
theorem Pending.gone {next : ConnectState} {rest : List CTransaction}
    (pending : Pending getHash nHeight state.view (tx :: rest))
    (later : connectTransactions getHash env nHeight false next rest = .ok last) (txid : Uint256)
    (present : state.view.getCoins txid ≠ none) (absent : next.view.getCoins txid = none) :
    last.view.getCoins txid = none := by
  apply connectTransactions_entries later _ absent
  intro member
  obtain ⟨other, inRest, rfl⟩ := mem_map.mp member
  exact present (pending.absent other (mem_cons_of_mem tx inRest))

/-- Disconnecting the transactions after the coinbase takes their connection back. -/
theorem disconnectTransactions_restores {vtx : List CTransaction}
    (success : connectTransactions getHash env nHeight false state vtx = .ok last)
    (pending : Pending getHash nHeight state.view vtx) (ordinary : ∀ tx ∈ vtx, tx.isCoinBase = false) :
    ∃ vtxundo, last.vtxundo = state.vtxundo ++ vtxundo ∧ vtxundo.length = vtx.length ∧
      rereadUndo vtxundo = some (vtxundo.map (List.map kept)) ∧
      ∃ undone, disconnectTransactions getHash nHeight last.view
          (vtx.zip ((vtxundo.map (List.map kept)).map some)) = .ok (true, undone) ∧
        Restores last.view state.view undone := by
  induction vtx generalizing state with
  | nil =>
    cases success
    exact ⟨[], by rw [append_nil], rfl, rfl, _, rfl, Restores.refl _⟩
  | cons tx rest ih =>
    obtain ⟨next, step, later⟩ := bind_eq_ok.mp success
    obtain ⟨vprevout, updated, undo⟩ := connectTransaction_undo step
    obtain ⟨vtxundo, undos, length, reread, middle, laterUndone, restores⟩ := ih later (pending.next updated)
      fun other member => ordinary other (mem_cons_of_mem tx member)
    obtain ⟨rereadHere, undone, disconnected, restored⟩ := disconnectTransaction_restores updated pending.stored
      (pending.absent tx mem_cons_self) (pending.gone later) restores
    refine ⟨vprevout :: vtxundo, ?_, congrArg (· + 1) length, ?_, undone, ?_, restored⟩
    · rw [undos, undo]
      simp
    · rw [rereadUndo] at reread ⊢
      rw [mapM_cons, rereadHere, reread]
      rfl
    · have ordinaryHere : keptUndo tx vprevout = some (vprevout.map kept) := by
        rw [keptUndo, ordinary tx mem_cons_self]
        rfl
      rw [ordinaryHere] at disconnected
      simp only [map_cons, zip_cons_cons, disconnectTransactions, laterUndone]
      change (do let here ← disconnectTransaction getHash nHeight middle tx (some (vprevout.map kept))
                 pure (true && here.1, here.2)) = _
      rw [disconnected]
      rfl

end Loop

/-- The best block moves from the predecessor to the block. -/
theorem connectBlock_bestBlock {env : BlockEnv} {view : ChainView} {connected : Connected}
    (success : connectBlock getHash env block pindex view false = .ok connected) :
    view.bestBlock = pindex.hashPrevBlock ∧ connected.view.bestBlock = pindex.hashBlock := by
  obtain ⟨_, _, afterChecks⟩ := bind_eq_ok.mp success
  by_cases linked : pindex.hashPrevBlock ≠ view.bestBlock
  · rw [if_pos linked] at afterChecks
    cases afterChecks
  · rw [if_neg linked] at afterChecks
    refine ⟨(not_not.mp linked).symm, ?_⟩
    by_cases genesis : env.getBlockHash block.toCBlockHeader = env.hashGenesisBlock
    · simp only [if_pos genesis] at afterChecks
      cases afterChecks
      rfl
    · simp only [if_neg genesis] at afterChecks
      obtain ⟨state, _, returned⟩ := bind_eq_ok.mp afterChecks
      cases returned
      rfl

/-- The transactions of an accepted block are pending before it. -/
theorem connectBody_pending {env : BlockEnv} {coinbase : CTransaction} {rest : List CTransaction}
    {state : ConnectState} (success : connectBody getHash env block pindex view = .ok state)
    (checked : CheckedBlock block coinbase rest) (stored : view.Stored) (positive : 0 < pindex.nHeight)
    (fits : pindex.nHeight < 2147483648) (injective : IdsInjective getHash block.vtx)
    (fresh : ∀ tx ∈ block.vtx, view.getCoins (getHash tx) = none) :
    Pending getHash pindex.nHeight view block.vtx where
  distinct := by
    have history := (connectBody_supply success checked (History.initial getHash view) injective fresh
      not_mem_nil).1
    exact history.distinct
  absent := fresh
  outputs := fun tx member => fromTx_stored (checked.checked tx member).outputs positive fits
  stored := stored

/-- Disconnecting a block with the undo data of its connection is clean and gives back the view before. Only the
version of an entry the block leaves fully spent passes through the undo file, which keeps no negative number. -/
theorem disconnectBlock_connectBlock (getHash : CTransaction → Uint256) (env : BlockEnv) (block : CBlock)
    (pindex : ConnectIndex) (view : ChainView) (connected : Connected)
    (accepted : connectBlock getHash env block pindex view false = .ok connected)
    (notGenesis : env.getBlockHash block.toCBlockHeader ≠ env.hashGenesisBlock)
    (positive : 0 < pindex.nHeight) (fits : pindex.nHeight < 2147483648) (stored : view.utxo.Stored)
    (injective : IdsInjective getHash block.vtx) (fresh : ∀ tx ∈ block.vtx, view.utxo.getCoins (getHash tx) = none) :
    ∃ restored, disconnectBlock getHash block pindex connected.view connected.vtxundo = .ok (true, restored) ∧
      restored.bestBlock = view.bestBlock ∧
      ∀ txid, restored.utxo.getCoins txid =
        (view.utxo.getCoins txid).map (restoredEntry connected.view.utxo txid) := by
  obtain ⟨before, after⟩ := connectBlock_bestBlock accepted
  obtain ⟨coinbase, rest, state, checked, body, reached, undo, _⟩ := connectBlock_body accepted notGenesis
  have pending := connectBody_pending body checked stored positive fits injective fresh
  obtain ⟨loop, _⟩ := connectBody_eq_ok body
  rw [checked.vtx] at loop pending
  obtain ⟨afterCoinbase, step, later⟩ := bind_eq_ok.mp loop
  obtain ⟨vprevout, updated, noUndo⟩ := connectTransaction_undo step
  obtain ⟨vtxundo, undos, length, reread, middle, laterUndone, restores⟩ :=
    disconnectTransactions_restores later (pending.next updated) checked.others
  obtain ⟨_, undone, disconnected, restored⟩ := disconnectTransaction_restores updated pending.stored
    (pending.absent coinbase mem_cons_self) (pending.gone later) restores
  have sameUndo : connected.vtxundo = vtxundo := by
    rw [undo, undos, noUndo]
    rfl
  have coinbaseUndo : keptUndo coinbase vprevout = none := if_pos checked.coinbase
  rw [coinbaseUndo] at disconnected
  rw [reached]
  refine ⟨⟨undone, pindex.hashPrevBlock⟩, ?_, before.symm, restored⟩
  have lengths : ¬ (vtxundo.map (List.map kept)).length + 1 ≠ (coinbase :: rest).length := by
    rw [length_map, length]
    exact fun different => different rfl
  rw [disconnectBlock, if_neg (not_not.mpr after.symm), sameUndo, reread]
  simp only [checked.vtx, if_neg lengths, zip_cons_cons, disconnectTransactions, reached, laterUndone]
  change (do let here ← disconnectTransaction getHash pindex.nHeight middle coinbase none
             pure (true && here.1, (⟨here.2, pindex.hashPrevBlock⟩ : ChainView))) = _
  rw [disconnected]
  rfl

/-- A view with one unspent output, of the given version. -/
def oneOutputView (nVersion : Int32) : ChainView :=
  ⟨UtxoSet.empty.store 3 ⟨false, [⟨5 * coin, [0x51]⟩], 1, nVersion⟩, 7⟩

/-- A block spends this output and then the one made from it. -/
def spendingBlock : CBlock :=
  ⟨⟨1, 7, 0, 0, 1, 0⟩,
    [⟨1, [⟨⟨0, 0xffffffff⟩, [0x52, 0x00], 0xffffffff, []⟩], [⟨0, [0x87]⟩], 0⟩,
      ⟨1, [⟨⟨3, 0⟩, [], 0xffffffff, []⟩], [⟨5 * coin, [0x51]⟩], 0⟩,
      ⟨2, [⟨⟨2, 0⟩, [], 0xffffffff, []⟩], [⟨5 * coin, [0x52]⟩], 0⟩]⟩

def spendingIndex : ConnectIndex := ⟨2, 1, true, 7, 5 * coin⟩

/-- Distinct ids for the transactions of the block. -/
def spendingHash (tx : CTransaction) : Uint256 :=
  if tx.isCoinBase then 1 else if tx.nVersion = 1 then 2 else 4

theorem spendingHash_injective : IdsInjective spendingHash spendingBlock.vtx := by
  intro left leftMember right rightMember same
  simp only [spendingBlock, mem_cons, not_mem_nil, or_false] at leftMember rightMember
  rcases leftMember with rfl | rfl | rfl <;> rcases rightMember with rfl | rfl | rfl <;>
    first | rfl | exact absurd same (by decide)

/-- The entry with version -1 the block fully spends comes back with version 127. -/
theorem disconnectBlock_negativeVersion :
    ∃ connected restored, connectBlock spendingHash lenientEnv spendingBlock spendingIndex (oneOutputView (-1)) false =
        .ok connected ∧ IdsInjective spendingHash spendingBlock.vtx ∧
      disconnectBlock spendingHash spendingBlock spendingIndex connected.view connected.vtxundo =
        .ok (true, restored) ∧
      (oneOutputView (-1)).utxo.getCoins 3 = some ⟨false, [⟨5 * coin, [0x51]⟩], 1, -1⟩ ∧
      restored.utxo.getCoins 3 = some ⟨false, [⟨5 * coin, [0x51]⟩], 1, 127⟩ :=
  ⟨_, _, rfl, spendingHash_injective, rfl, rfl, rfl⟩

/-- With a non-negative version the view comes back exactly. -/
theorem disconnectBlock_connectBlock_spending :
    ∃ connected restored, connectBlock spendingHash lenientEnv spendingBlock spendingIndex (oneOutputView 1) false =
        .ok connected ∧
      disconnectBlock spendingHash spendingBlock spendingIndex connected.view connected.vtxundo =
        .ok (true, restored) ∧
      restored.utxo.getCoins 3 = some ⟨false, [⟨5 * coin, [0x51]⟩], 1, 1⟩ ∧ restored.utxo.getCoins 2 = none := by
  obtain ⟨connected, accepted⟩ : ∃ connected, connectBlock spendingHash lenientEnv spendingBlock spendingIndex
      (oneOutputView 1) false = .ok connected := ⟨_, rfl⟩
  have entry : CCoins.Stored ⟨false, [⟨5 * coin, [0x51]⟩], 1, 1⟩ := by
    refine ⟨by decide, by decide, ?_⟩
    intro txout member null
    rw [mem_singleton.mp member] at null
    cases null
  have stored : (oneOutputView 1).utxo.Stored := UtxoSet.Stored.empty.store entry 3
  have fresh : ∀ tx ∈ spendingBlock.vtx, (oneOutputView 1).utxo.getCoins (spendingHash tx) = none := by decide
  obtain ⟨restored, undone, _, entries⟩ := disconnectBlock_connectBlock spendingHash lenientEnv spendingBlock
    spendingIndex (oneOutputView 1) connected accepted (by decide) (by decide) (by decide) stored
    spendingHash_injective fresh
  refine ⟨connected, restored, accepted, undone, ?_, ?_⟩
  · rw [entries]
    cases accepted
    rfl
  · rw [entries]
    rfl

end Straks.Chain
