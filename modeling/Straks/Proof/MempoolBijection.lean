import Straks.Construction.Mempool.PoolCalls
import Straks.Proof.MempoolContents

namespace Straks.Mempool
open Success Run CTxMemPoolEntry CTxMemPool

/-- The transactions of the pool and their slots stay. -/
structure Keeps (pool later : CTxMemPool) : Prop where
  sameTx : SameTx pool later
  vTxHashes : later.vTxHashes = pool.vTxHashes
  vTxHashesIdx : later.vTxHashesIdx = pool.vTxHashesIdx

namespace Keeps

theorem refl (pool : CTxMemPool) : Keeps pool pool := ⟨.refl pool, rfl, rfl⟩

theorem trans {first second third : CTxMemPool} (left : Keeps first second) (right : Keeps second third) :
    Keeps first third where
  sameTx := left.sameTx.trans right.sameTx
  vTxHashes := right.vTxHashes.trans left.vTxHashes
  vTxHashesIdx := right.vTxHashesIdx.trans left.vTxHashesIdx

theorem slots {env : PoolEnv} {pool later : CTxMemPool} (keeps : Keeps pool later) (slots : SlotsOk env pool) :
    SlotsOk env later :=
  slots.congr keeps.sameTx keeps.vTxHashes keeps.vTxHashesIdx

end Keeps

section Updates

variable {env : PoolEnv}

theorem modify_keeps {modifier : CTxMemPoolEntry → Except MempoolError CTxMemPoolEntry}
    (sameTx : ∀ entry, Ensures (modifier entry) fun modified => modified.tx = entry.tx) (pool : CTxMemPool)
    (it : Uint256) : Ensures (pool.modify it modifier) (Keeps pool) := by
  intro later modified
  obtain ⟨entry, read, modified⟩ := bind_eq_ok.mp modified
  obtain ⟨updated, changed, isLater⟩ := bind_eq_ok.mp modified
  cases isLater
  refine ⟨?_, rfl, rfl⟩
  intro hash
  rw [lookup_insert_eq]
  split
  · rename_i same
    cases found : pool.mapTx.lookup it with
    | none =>
      rw [dereference, found] at read
      cases read
    | some old =>
      rw [dereference, found] at read
      cases read
      rw [same, found, Option.map_some, Option.map_some, sameTx entry updated changed]
  · rfl

theorem updateDescendantState_tx (modifySize : Int) (modifyFee : CAmount) (modifyCount : Int) (entry : CTxMemPoolEntry) :
    Ensures (entry.updateDescendantState modifySize modifyFee modifyCount) fun modified => modified.tx = entry.tx := by
  rw [updateDescendantState]
  split
  · exact .error _ _
  split
  · exact .error _ _
  · exact .ok rfl

theorem updateAncestorState_tx (modifySize : Int) (modifyFee : CAmount) (modifyCount modifySigOpsCost : Int)
    (entry : CTxMemPoolEntry) : Ensures (entry.updateAncestorState modifySize modifyFee modifyCount modifySigOpsCost)
      fun modified => modified.tx = entry.tx := by
  rw [updateAncestorState]
  split
  · exact .error _ _
  split
  · exact .error _ _
  split
  · exact .error _ _
  · exact .ok rfl

/-- A loop of updates keeps what each update keeps. -/
theorem foldlM_keeps {Item : Type} {update : CTxMemPool → Item → Except MempoolError CTxMemPool}
    (each : ∀ pool item, Ensures (update pool item) (Keeps pool)) (pool : CTxMemPool) (items : List Item) :
    Ensures (items.foldlM update pool) (Keeps pool) :=
  .foldlM (fun current item keeps => (each current item).mono fun _ => keeps.trans) (.refl pool) items

theorem foldl_keeps {Item : Type} {update : CTxMemPool → Item → CTxMemPool}
    (each : ∀ pool item, Keeps pool (update pool item)) (pool : CTxMemPool) (items : List Item) :
    Keeps pool (items.foldl update pool) := by
  induction items generalizing pool with
  | nil => exact .refl pool
  | cons item rest ih => exact (each pool item).trans (ih (update pool item))

variable (pool : CTxMemPool)

theorem updateChild_keeps (entry child : Uint256) (add : Bool) : Keeps pool (pool.updateChild entry child add) :=
  ⟨.refl pool, rfl, rfl⟩

theorem updateParent_keeps (entry parent : Uint256) (add : Bool) : Keeps pool (pool.updateParent entry parent add) :=
  ⟨.refl pool, rfl, rfl⟩

theorem updateAncestorsOf_keeps (add : Bool) (it : Uint256) (setAncestors : SetEntries) :
    Ensures (updateAncestorsOf env pool add it setAncestors) (Keeps pool) := by
  apply Ensures.then
  intro parentIters
  have linked := foldl_keeps (fun pool piter => updateChild_keeps pool piter it add) pool parentIters.elements
  apply Ensures.then
  intro entry
  exact (foldlM_keeps (fun pool ancestorIt => modify_keeps (updateDescendantState_tx _ _ _) pool ancestorIt) _ _).mono
    fun later => linked.trans

theorem updateEntryForAncestors_keeps (it : Uint256) (setAncestors : SetEntries) :
    Ensures (updateEntryForAncestors env pool it setAncestors) (Keeps pool) := by
  apply Ensures.then
  exact fun ancestors => modify_keeps (updateAncestorState_tx _ _ _ _) pool it

theorem updateChildrenForRemoval_keeps (it : Uint256) : Ensures (updateChildrenForRemoval pool it) (Keeps pool) := by
  apply Ensures.then
  exact fun children => .ok (foldl_keeps (fun pool updateIt => updateParent_keeps pool updateIt it false) pool _)

theorem updateDescendantsForRemoval_keeps (removeIt : Uint256) :
    Ensures (updateDescendantsForRemoval env pool removeIt) (Keeps pool) := by
  apply Ensures.then
  intro setDescendants
  apply Ensures.then
  exact fun entry => foldlM_keeps (fun pool dit => modify_keeps (updateAncestorState_tx _ _ _ _) pool dit) pool _

theorem updateAncestorsForRemoval_keeps (removeIt : Uint256) :
    Ensures (updateAncestorsForRemoval env pool removeIt) (Keeps pool) := by
  apply Ensures.then
  exact fun setAncestors => updateAncestorsOf_keeps pool false removeIt setAncestors

theorem updateForRemoveFromMempool_keeps (entriesToRemove : SetEntries) (updateDescendants : Bool) :
    Ensures (updateForRemoveFromMempool env pool entriesToRemove updateDescendants) (Keeps pool) := by
  have rest (current : CTxMemPool) : Ensures (do
      let pool ← entriesToRemove.elements.foldlM (updateAncestorsForRemoval env) current
      entriesToRemove.elements.foldlM updateChildrenForRemoval pool) (Keeps current) := by
    refine .bind (foldlM_keeps updateAncestorsForRemoval_keeps current _) ?_
    intro middle keeps
    exact (foldlM_keeps updateChildrenForRemoval_keeps middle _).mono fun later => keeps.trans
  cases updateDescendants with
  | false => exact rest pool
  | true =>
    refine .bind (foldlM_keeps updateDescendantsForRemoval_keeps pool _) ?_
    intro middle keeps
    exact (rest middle).mono fun later => keeps.trans

end Updates

section Slots

variable {env : PoolEnv} {pool : CTxMemPool}

section

variable (slots : SlotsOk env pool)
include slots

theorem removeUnchecked_slots (it : Uint256) : Ensures (removeUnchecked env pool it) (SlotsOk env) := by
  intro later removed
  cases found : pool.mapTx.lookup it with
  | none =>
    rw [removeUnchecked, dereference, found] at removed
    cases removed
  | some entry =>
    have slots' : SlotsOk env { pool with
        mapNextTx := entry.tx.vin.foldl (fun next txin => next.erase txin.prevout) pool.mapNextTx } :=
      ⟨slots.slot, slots.entry⟩
    obtain ⟨vTxHashes, vTxHashesIdx, moved, slotsLater⟩ := slots'.removeSlot found
    rw [removeUnchecked, dereference_ok found] at removed
    simp only [bind, Except.bind, moved] at removed
    cases removed
    exact ⟨slotsLater.slot, slotsLater.entry⟩

theorem removeStaged_slots (stage : SetEntries) (updateDescendants : Bool) :
    Ensures (removeStaged env pool stage updateDescendants) (SlotsOk env) := by
  refine .bind (updateForRemoveFromMempool_keeps pool stage updateDescendants) ?_
  intro middle keeps
  exact .foldlM (fun _ it current => removeUnchecked_slots current it) (keeps.slots slots) _

theorem removeRecursive_slots (origTx : CTransaction) : Ensures (removeRecursive env pool origTx) (SlotsOk env) := by
  have rest (txToRemove : SetEntries) : Ensures (do
      let setAllRemoves ← pool.calculateAllDescendants txToRemove.elements
      removeStaged env pool setAllRemoves false) (SlotsOk env) := by
    apply Ensures.then
    exact fun setAllRemoves => removeStaged_slots slots setAllRemoves false
  rw [removeRecursive]
  split
  · exact rest _
  · apply Ensures.then
    exact rest

theorem clearPrioritisation_slots (hash : Uint256) : SlotsOk env (clearPrioritisation pool hash) :=
  ⟨slots.slot, slots.entry⟩

theorem removeConflicts_slots (tx : CTransaction) : Ensures (removeConflicts env pool tx) (SlotsOk env) := by
  refine .foldlM (fun current txin slots => ?_) slots tx.vin
  rw [removeConflict]
  cases current.mapNextTx.lookup txin.prevout with
  | none => exact .ok slots
  | some txConflict =>
    dsimp only
    split
    · exact removeRecursive_slots (clearPrioritisation_slots slots _) txConflict
    · exact .ok slots

theorem removeConfirmed_slots (tx : CTransaction) : Ensures (removeConfirmed env pool tx) (SlotsOk env) := by
  have rest {current : CTxMemPool} (slots : SlotsOk env current) : Ensures (do
      let pool ← removeConflicts env current tx
      .ok (clearPrioritisation pool (env.hashes.getHash tx))) (SlotsOk env) := by
    refine .bind (removeConflicts_slots slots tx) ?_
    exact fun later slots => .ok (clearPrioritisation_slots slots _)
  rw [removeConfirmed]
  split
  · exact .bind (removeStaged_slots slots _ true) fun _ => rest
  · exact rest slots

end

theorem trimLoop_slots (usage : CTxMemPool → Nat)
    (score : CTxMemPoolEntry → CTxMemPoolEntry → Bool) (sizelimit fuel : Nat)
    (slots : SlotsOk env pool) (pvNoSpendsRemaining : List Uint256) :
    Ensures (trimLoop env usage score sizelimit fuel pool pvNoSpendsRemaining)
      fun result => SlotsOk env result.1 := by
  fun_induction trimLoop env usage score sizelimit fuel pool pvNoSpendsRemaining with
  | case1 => exact .ok slots
  | case2 => exact .error _ _
  | case3 pool pvNoSpendsRemaining _ it _ fuel ih =>
    apply Ensures.then
    intro stage
    apply Ensures.then
    intro txn
    refine .bind (removeStaged_slots slots stage false) ?_
    exact fun later slots => ih txn later slots
  | case4 => exact .ok slots

theorem prioritiseTransaction_keeps (pool : CTxMemPool) (hash : Uint256) (nFeeDelta : CAmount) :
    Ensures (prioritiseTransaction env pool hash nFeeDelta) (Keeps pool) := by
  rw [prioritiseTransaction]
  split
  · refine .bind (modify_keeps ?_ _ hash) ?_
    · exact fun _ => .ok rfl
    intro first keepsFirst
    apply Ensures.then
    intro setAncestors
    refine .bind (foldlM_keeps (fun pool it => modify_keeps (updateDescendantState_tx _ _ _) pool it) first _) ?_
    intro second keepsSecond
    apply Ensures.then
    intro setDescendants
    refine (foldlM_keeps (fun pool it => modify_keeps (updateAncestorState_tx _ _ _ _) pool it) second _).mono ?_
    intro later keepsThird
    have all := (keepsFirst.trans keepsSecond).trans keepsThird
    exact ⟨all.sameTx, all.vTxHashes, all.vTxHashesIdx⟩
  · exact .ok ⟨.refl pool, rfl, rfl⟩

theorem updateForDescendants_keeps (pool : CTxMemPool) (updateIt : Uint256) (cachedDescendants : CacheMap)
    (setExclude : List Uint256) :
    Ensures (updateForDescendants env pool updateIt cachedDescendants setExclude) fun result => Keeps pool result.1 := by
  apply Ensures.then
  intro stageEntries
  apply Ensures.then
  intro setAllDescendants
  apply Ensures.then
  intro descendants
  apply Ensures.then
  intro updated
  refine .bind (foldlM_keeps (fun pool it => modify_keeps (updateAncestorState_tx _ _ _ _) pool it) pool _) ?_
  intro middle keeps
  refine .bind (modify_keeps (updateDescendantState_tx _ _ _) middle updateIt) ?_
  exact fun later keepsLater => .ok (keeps.trans keepsLater)

theorem linkChild_keeps (setAlreadyIncluded : List Uint256) (hash : Uint256) (state : CTxMemPool × SetEntries)
    (prevout : COutPoint) :
    Ensures (linkChild env setAlreadyIncluded hash state prevout) fun result => Keeps state.1 result.1 := by
  rw [linkChild]
  cases state.1.mapNextTx.lookup prevout with
  | none => exact .ok (.refl _)
  | some child =>
    dsimp only
    split
    · exact .error _ _
    split
    · exact .ok ((updateChild_keeps _ _ _ _).trans (updateParent_keeps _ _ _ _))
    · exact .ok (.refl _)

theorem updateTransactionsFromBlock_keeps (pool : CTxMemPool) (vHashesToUpdate : List Uint256) :
    Ensures (updateTransactionsFromBlock env pool vHashesToUpdate) (Keeps pool) := by
  apply Ensures.map
  refine @Ensures.foldlM _ _ _ _ (fun state : CTxMemPool × CacheMap => Keeps pool state.1) ?_ _ (.refl pool) _
  intro state hash keeps
  rw [updateFromBlock]
  split
  · have links := @Ensures.foldlM _ _ _ _ (fun linked : CTxMemPool × SetEntries => Keeps state.1 linked.1)
      (fun linked prevout current => (@linkChild_keeps env vHashesToUpdate hash linked prevout).mono fun _ => current.trans)
      (state.1, .empty) (.refl state.1)
    refine .bind (links _) ?_
    intro linked keepsLinked
    exact (updateForDescendants_keeps _ _ _ _).mono fun _ => (keeps.trans keepsLinked).trans
  · exact .ok keeps

theorem applyFeeDelta_keeps (pool : CTxMemPool) (hash newit : Uint256) :
    Ensures (applyFeeDelta pool hash newit) (Keeps pool) := by
  rw [applyFeeDelta]
  cases pool.mapDeltas.lookup hash with
  | none => exact .ok (.refl pool)
  | some delta =>
    dsimp only
    split
    · apply modify_keeps
      exact fun _ => .ok rfl
    · exact .ok (.refl pool)

/-- A transaction that is not in the pool gets the next slot. -/
theorem addUnchecked_slots (slots : SlotsOk env pool) {tx : CTransaction} {nFee : CAmount} {nTime : Int} {sigOpCost : Nat}
    {setAncestors : SetEntries} (fresh : pool.mapTx.lookup (env.hashes.getHash tx) = none) :
    Ensures (addUnchecked env pool (env.hashes.getHash tx) (new env tx nFee nTime sigOpCost) setAncestors)
      (SlotsOk env) := by
  have absent : pool.exists (env.hashes.getHash tx) = false := by
    rw [CTxMemPool.exists, fresh]
    rfl
  have newTx : (new env tx nFee nTime sigOpCost).tx = tx := rfl
  rw [addUnchecked, newTx, absent]
  simp only [Bool.false_eq_true, if_false]
  refine .bind (applyFeeDelta_keeps _ _ _) ?_
  intro applied keeps
  have entries (hash : Uint256) : (applied.mapTx.lookup hash).map CTxMemPoolEntry.tx =
      if hash = env.hashes.getHash tx then some tx else (pool.mapTx.lookup hash).map CTxMemPoolEntry.tx := by
    rw [← keeps.sameTx hash, lookup_insert_eq]
    split
    · rfl
    · rfl
  have read : Ensures (applied.dereference (env.hashes.getHash tx)) fun entry => entry.tx = tx := by
    intro entry read
    have own := entries (env.hashes.getHash tx)
    rw [if_pos rfl] at own
    obtain ⟨other, found, isTx⟩ := Option.map_eq_some_iff.mp own
    rw [dereference_ok found] at read
    cases read
    exact isTx
  refine .bind read ?_
  intro entry isTx
  rw [isTx]
  have linked := @foldl_keeps _ (fun pool phash =>
      if pool.exists phash then pool.updateParent (env.hashes.getHash tx) phash true else pool) (by
    intro pool phash
    split
    · exact updateParent_keeps _ _ _ _
    · exact .refl pool)
    { applied with mapNextTx := tx.vin.foldl (fun next txin => insertNext next txin.prevout tx) applied.mapNextTx }
    (OrderedSet.empty.insertAll hashBefore (tx.vin.map fun txin => txin.prevout.hash)).elements
  refine .bind (updateAncestorsOf_keeps _ _ _ _) ?_
  intro second keepsSecond
  refine .bind (updateEntryForAncestors_keeps second _ _) ?_
  intro third keepsThird
  have all := (linked.trans keepsSecond).trans keepsThird
  have hashes : third.vTxHashes = pool.vTxHashes := all.vTxHashes.trans keeps.vTxHashes
  have indexes : third.vTxHashesIdx = pool.vTxHashesIdx := all.vTxHashesIdx.trans keeps.vTxHashesIdx
  apply Ensures.ok
  apply @SlotsOk.add env pool slots (env.hashes.getHash tx) entry _ fresh
  · intro hash
    rw [isTx, ← entries hash]
    exact (all.sameTx hash).symm
  · rw [hashes, isTx]
  · rw [hashes, indexes]

end Slots

/-- Only an empty pool is cleared, and only a new transaction added. -/
def SlotsMeet (env : PoolEnv) (pool : CTxMemPool) : PoolCall → Prop
  | .addUnchecked tx _ _ _ _ => pool.mapTx.lookup (env.hashes.getHash tx) = none
  | .clear => pool.mapTx.keys = []
  | _ => True

section Run

variable {env : PoolEnv} {pool : CTxMemPool}

theorem clear_slots (slots : SlotsOk env pool) (empty : pool.mapTx.keys = []) : SlotsOk env (clear pool) := by
  have noEntry {hash : Uint256} {entry : CTxMemPoolEntry} : pool.mapTx.lookup hash ≠ some entry := by
    intro found
    have member := AList.mem_keys.mp (mem_iff_lookup.mpr ⟨entry, found⟩)
    rw [empty] at member
    cases member
  constructor
  · intro hash entry found
    cases found
  · intro index slot found
    obtain ⟨entry, foundEntry, -⟩ := slots.entry index slot found
    exact absurd foundEntry noEntry

theorem PoolCall.apply_slots (slots : SlotsOk env pool) {call : PoolCall} (meets : SlotsMeet env pool call) :
    Ensures (call.apply env pool) (SlotsOk env) := by
  cases call with
  | addUnchecked tx nFee nTime sigOpCost setAncestors => exact addUnchecked_slots slots meets
  | removeRecursive origTx => exact removeRecursive_slots slots origTx
  | removeForReorg noLongerValid =>
    apply Ensures.then
    exact fun setAllRemoves => removeStaged_slots slots setAllRemoves false
  | removeConflicts tx => exact removeConflicts_slots slots tx
  | removeForBlock vtx => exact .foldlM (fun _ tx current => removeConfirmed_slots current tx) slots vtx
  | removeStaged stage updateDescendants => exact removeStaged_slots slots stage updateDescendants
  | expire time =>
    apply Ensures.map
    apply Ensures.then
    intro stage
    exact .bind (removeStaged_slots slots stage false) fun _ later => .ok later
  | trimToSize usage score sizelimit =>
    exact .map (trimLoop_slots usage score sizelimit _ slots [])
  | prioritiseTransaction hash nFeeDelta =>
    exact (prioritiseTransaction_keeps pool hash nFeeDelta).mono fun _ keeps => keeps.slots slots
  | clearPrioritisation hash => exact .ok (clearPrioritisation_slots slots hash)
  | updateTransactionsFromBlock vHashesToUpdate =>
    exact (updateTransactionsFromBlock_keeps pool vHashesToUpdate).mono fun _ keeps => keeps.slots slots
  | clear => exact .ok (clear_slots slots meets)

theorem SlotsOk.empty (env : PoolEnv) : SlotsOk env .empty where
  slot := by
    intro hash entry found
    cases found
  entry := by
    intro index slot found
    cases found

/-- Along every such sequence of calls each entry has its own slot with its witness hash, and there are no others. -/
theorem poolAfter_slots (env : PoolEnv) (calls : List PoolCall)
    (along : Along (PoolCall.apply env) (SlotsMeet env) .empty calls) :
    Ensures (poolAfter env calls) fun pool => pool.vTxHashes.length = pool.mapTx.keys.length ∧ SlotsOk env pool := by
  intro pool ran
  have slots : SlotsOk env pool :=
    runUntil_ensures (fun _ _ current meets => PoolCall.apply_slots current meets) (SlotsOk.empty env) along ran
  refine ⟨?_, slots⟩
  rw [slots.length, CTxMemPool.family, List.toFinset_card_of_nodup pool.mapTx.keys_nodup]

end Run

/-- A pool is cleared at first, then a parent and a child come in and leave. -/
theorem poolAfter_slots_family :
    Ensures (poolAfter lockTimeEnv [.clear, .addUnchecked (spending 1 [10]) 100 0 4 .empty,
        .addUnchecked (spending 2 [1]) 100 0 4 (single 1), .removeRecursive (spending 1 [10])])
      fun pool => pool.vTxHashes.length = pool.mapTx.keys.length ∧ SlotsOk lockTimeEnv pool := by
  apply poolAfter_slots
  refine ⟨rfl, fun cleared isCleared => ?_⟩
  cases isCleared
  refine ⟨rfl, fun added isAdded => ⟨?_, fun _ _ => ⟨trivial, fun _ _ => trivial⟩⟩⟩
  have evaluated : ((PoolCall.apply lockTimeEnv (clear .empty) (.addUnchecked (spending 1 [10]) 100 0 4 .empty)).toOption.map
      fun pool => pool.mapTx.lookup 2) = some none := by decide +kernel
  rw [isAdded] at evaluated
  exact Option.some.inj evaluated

/-- A cleared pool keeps the slot of its transaction. -/
theorem poolAfter_clear_slots :
    ((poolAfter lockTimeEnv [.addUnchecked (spending 1 [10]) 0 0 0 .empty, .clear]).toOption.map
      fun pool => (pool.vTxHashes, pool.mapTx.keys)) = some ([(1, 1)], []) := by decide +kernel

end Straks.Mempool
