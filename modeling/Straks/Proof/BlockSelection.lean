import Straks.Proof.MempoolTotals
import Straks.Proof.PackageTurn
import Straks.Proof.PrioritySelection

namespace Straks.Miner

open Chain Mempool Loop Success Relation CTxMemPool CTxMemPoolEntry List

section Counting

variable {env : PoolEnv} {pool : CTxMemPool}

/-- How far the loop over the packages is from its end. -/
def remaining (pool : CTxMemPool) (state : PackageState) : Nat :=
  (pool.mapTx.keys.length - state.assembler.inBlock.size) * (2 * pool.mapTx.keys.length + 1) + state.mi.length +
    state.mapModifiedTx.keys.length

variable {modified : ModifiedSet} {iter : Uint256} {fUsingModified : Bool} {modit : CTxMemPoolModifiedEntry}
  {mi : List Uint256} {assembler : BlockAssembler}

theorem KeysOk.length_le {inBlock : Finset Uint256} (keys : KeysOk pool inBlock modified) :
    modified.keys.length ≤ pool.mapTx.keys.length := by
  apply length_le_pool modified.nodupKeys
  intro hash listed
  obtain ⟨e, lookup⟩ := mem_iff_lookup.mp (AList.mem_keys.mp listed)
  exact (keys hash e lookup).1

theorem length_erase_lt {hash : Uint256} {e : CTxMemPoolModifiedEntry} (lookup : modified.lookup hash = some e) :
    (modified.erase hash).keys.length < modified.keys.length := by
  have member : hash ∈ modified.keys := AList.mem_keys.mp (mem_iff_lookup.mpr ⟨e, lookup⟩)
  rw [AList.keys_erase, length_erase_of_mem member]
  have positive := length_pos_of_mem member
  omega

variable {order : ScoreOrder} {state : PackageState}

/-- A failed package leaves the modified set or the pool's order. -/
theorem Considers.remaining_fail (considers : Considers pool order state iter fUsingModified modit mi) :
    remaining pool (PackageState.fail { state with mi } iter fUsingModified) < remaining pool state := by
  cases considers with
  | fromModified _ found =>
    have shorter := length_erase_lt found
    simp only [remaining, PackageState.fail, if_true]
    omega
  | fromMapTx _ next =>
    simp only [remaining, PackageState.fail, Bool.false_eq_true, if_false, next, length_cons]
    omega

theorem Considers.length_le (considers : Considers pool order state iter fUsingModified modit mi) :
    mi.length ≤ state.mi.length := by
  cases considers with
  | fromModified => exact le_rfl
  | fromMapTx _ next =>
    rw [next, length_cons]
    omega

variable (consistent : LinkedOk env pool)
include consistent

/-- A turn that asks for another one comes closer to the end. -/
theorem Outcome.remaining_lt {config : AssemblerConfig} {later : PackageState} (packages : Packages env pool state)
    (outcome : Outcome env pool order config state (.again later)) : remaining pool later < remaining pool state := by
  have kept := outcome.packages consistent packages
  cases outcome with
  | skipped _ next =>
    simp only [remaining, next, length_cons]
    omega
  | failed considers _ _ left =>
    cases left
    exact considers.remaining_fail
  | @added iter fUsingModified modit mi considers package examined fits isPackage assembler extended erased after erases
      updated =>
      have selected : Selected pool assembler := kept.selected
      have grown : assembler.inBlock.size = state.assembler.inBlock.size + package.size := by
        rw [selected.size_eq, packages.selected.size_eq, extended.vtx, length_append,
          (sortForBlock_perm package).length_eq]
        rfl
      have some : 0 < package.size := by
        have unselected := (considers.unselected packages).2
        exact length_pos_of_mem ((isPackage iter).mpr ⟨.refl, unselected⟩)
      have bounded := selected.size_le
      have entries : after.keys.length ≤ pool.mapTx.keys.length := kept.keys.length_le
      have shorter := considers.length_le
      have fewer : (pool.mapTx.keys.length - assembler.inBlock.size) * (2 * pool.mapTx.keys.length + 1) +
          (2 * pool.mapTx.keys.length + 1) ≤
          (pool.mapTx.keys.length - state.assembler.inBlock.size) * (2 * pool.mapTx.keys.length + 1) := by
        rw [← Nat.succ_mul]
        apply Nat.mul_le_mul_right
        omega
      simp only [remaining]
      omega

variable (order : ScoreOrder)

/-- The loop starts with the descendants of what is in the block. -/
theorem startPackages_ok (selected : Selected pool assembler) :
    ∃ state, startPackages env pool order assembler = .ok state ∧ Packages env pool state ∧
      state.assembler = assembler ∧ state.failedTx = .empty ∧ state.mi = order.byAncestorScore pool ∧
      Updated env pool assembler.inBlock.elements assembler.inBlock ∅ state.mapModifiedTx := by
  have present : ∀ it ∈ assembler.inBlock, it ∈ pool.family.carrier := fun it member => selected.inside member
  obtain ⟨after, updates, updated⟩ := updatePackagesForAdded_ok consistent present ∅
  have none : KeysOk pool ∅ ∅ := by
    intro hash e lookup
    cases lookup
  have nothing : Large env pool ∅ ∅ := by
    intro hash e lookup
    cases lookup
  have absent : ∀ it ∈ assembler.inBlock, (∅ : ModifiedSet).lookup it = Option.none := fun it _ => lookup_empty it
  have all : (∅ : Finset Uint256) ∪ assembler.inBlock.toFinset = assembler.inBlock.toFinset := Finset.empty_union _
  refine ⟨⟨assembler, after, .empty, order.byAncestorScore pool, 0⟩, ?_, ?_, rfl, rfl, rfl, updated⟩
  · rw [startPackages, updates]
    rfl
  · constructor
    · exact selected
    · exact updated.keysOk absent none (fun _ _ => Finset.notMem_empty _) (by simp)
    · rw [← all]
      exact updated.large absent consistent present none (fun _ _ => Finset.notMem_empty _) nothing
    · intro hash listed
      exact List.mem_toFinset.mpr ((order.complete pool).mem_iff.mp listed)

/-- Each turn of the loop over the packages proceeds. -/
theorem packageTurn_proceeds (config : AssemblerConfig) (state : PackageState) (packages : Packages env pool state) :
    ∃ next, Proceeds (packageTurn env pool order config) (Packages env pool) (Packages env pool) (remaining pool) state
      next := by
  obtain ⟨next, turns, outcome⟩ := @packageTurn_outcome env pool order config state consistent packages
  refine ⟨next, turns, ?_, ?_⟩
  · intro later isNext
    subst isNext
    exact ⟨outcome.packages consistent packages, outcome.remaining_lt consistent packages⟩
  · intro last isNext
    subst isNext
    exact outcome.packages consistent packages

theorem addPackageTxs_ok (config : AssemblerConfig) (selected : Selected pool assembler) :
    ∃ last, addPackageTxs env pool order config assembler = .ok last ∧ Selected pool last := by
  obtain ⟨start, started, packages, isAssembler, -, isMi, -⟩ := startPackages_ok consistent order selected
  have enough : remaining pool start < (pool.mapTx.keys.length + 1) * (2 * pool.mapTx.keys.length + 1) + 1 := by
    have entries : start.mapModifiedTx.keys.length ≤ pool.mapTx.keys.length := packages.keys.length_le
    have all : start.mi.length = pool.mapTx.keys.length := by rw [isMi, (order.complete pool).length_eq]
    have first : (pool.mapTx.keys.length - start.assembler.inBlock.size) * (2 * pool.mapTx.keys.length + 1) ≤
        pool.mapTx.keys.length * (2 * pool.mapTx.keys.length + 1) := Nat.mul_le_mul_right _ (Nat.sub_le _ _)
    have bound : (pool.mapTx.keys.length + 1) * (2 * pool.mapTx.keys.length + 1) =
        pool.mapTx.keys.length * (2 * pool.mapTx.keys.length + 1) + (2 * pool.mapTx.keys.length + 1) := Nat.succ_mul _ _
    rw [remaining]
    omega
  obtain ⟨last, ran, ends⟩ := iterate_ok (remaining pool) (packageTurn_proceeds consistent order config)
    MempoolError.diverged packages enough
  refine ⟨last.assembler, ?_, ends.selected⟩
  rw [addPackageTxs, started]
  simp only [bind, Except.bind, ran]
  rfl

end Counting

/-- The selection trips no assertion; the transactions in the block are different, come with all their ancestors in
the pool, and each comes after its parents. -/
theorem addPackageTxs_parentsFirst {env : PoolEnv} {pool : CTxMemPool} (consistent : LinkedOk env pool) (order : ScoreOrder)
    (config : AssemblerConfig) : ∃ assembler last, addPriorityTxs pool order config .resetBlock = .ok assembler ∧
      addPackageTxs env pool order config assembler = .ok last ∧ last.vtx.Nodup ∧
      (∀ hash ∈ last.vtx, ∀ ancestor, TransGen pool.Spends hash ancestor → ancestor ∈ last.vtx) ∧
      ∀ front child rest, last.vtx = front ++ child :: rest → ∀ parent, pool.Spends child parent → parent ∈ front := by
  obtain ⟨assembler, prioritised, selected⟩ := addPriorityTxs_ok consistent order config
  obtain ⟨last, added, selected⟩ := addPackageTxs_ok consistent order config selected
  refine ⟨assembler, last, prioritised, added, selected.listing.nodup, ?_, ?_⟩
  · intro hash listed ancestor above
    exact selected.listing.closed listed above.to_reflTransGen
  · intro front child rest split parent spends
    exact selected.listing.before split spends

/-- The transactions come in the order of their hashes. -/
def hashOrder : ScoreOrder where
  byAncestorScore pool := pool.mapTx.keys.insertionSort fun first second => first.toNat ≤ second.toNat
  complete _ := perm_insertionSort _ _
  best modified := modified.keys.head?
  best_mem _ _ isBest := AList.mem_keys.mpr (mem_of_mem_head? isBest)
  best_none _ isBest := head?_eq_none_iff.mp isBest
  compareModifiedEntry _ _ := false
  front heap := heap.head?
  front_mem _ _ isFront := mem_of_mem_head? isFront
  front_none _ isFront := head?_eq_none_iff.mp isFront
  allowFree _ := true

/-- A block of the default size for packages only. -/
def packageConfig : AssemblerConfig where
  fIncludeWitness := true
  fWitnessSeasoned := false
  nBlockMaxWeight := 3996000
  nBlockMaxSize := 999000
  fNeedSizeAccounting := false
  blockMinFeeRate := 0
  nBlockPrioritySize := 0
  nHeight := 100
  nLockTimeCutoff := 0

/-- A child of two parents, of which the second is prioritised. -/
def twoParents : List PoolCall :=
  [.addUnchecked (spending 1 [10]) 100 0 4 .empty, .addUnchecked (spending 2 [11]) 100 0 4 .empty,
    .addUnchecked (spending 3 [1, 2]) 100 0 4 ((single 1).insert hashBefore 2), .prioritiseTransaction 2 50]

theorem twoParents_consistent : ∃ pool, poolAfter lockTimeEnv twoParents = .ok pool ∧ PoolOk lockTimeEnv pool := by
  apply poolAfter_consistent
  have firstJoins : JoinsRoots lockTimeEnv [] (spending 1 [10]) .empty := by decide +kernel
  have secondJoins : JoinsRoots lockTimeEnv [(spending 1 [10], 4)] (spending 2 [11]) .empty := by decide +kernel
  have childJoins : JoinsRoots lockTimeEnv [(spending 2 [11], 4), (spending 1 [10], 4)] (spending 3 [1, 2])
      ((single 1).insert hashBefore 2) := by decide +kernel
  have parentFits (pool : CTxMemPool) : ((4 : Nat) : Int) + ∑ hash ∈ (OrderedSet.empty : SetEntries).toFinset,
      valueOf pool sigOpsOf hash < 2 ^ 31 := by
    rw [OrderedSet.sum_toFinset]
    norm_num [OrderedSet.empty]
  apply along_addUnchecked (PoolOk.empty _) (Holds.empty _) firstJoins (parentFits _)
  · exact ⟨(Holds.empty _).joins (PoolOk.empty _).toBooksOk firstJoins, parentFits _⟩
  intro one okOne holdsOne
  apply along_addUnchecked okOne holdsOne secondJoins (parentFits one)
  · exact ⟨holdsOne.joins okOne.toBooksOk secondJoins, parentFits one⟩
  intro two okTwo holdsTwo
  have childFits : ((4 : Nat) : Int) + ∑ hash ∈ ((single 1).insert hashBefore 2).toFinset,
      valueOf two sigOpsOf hash < 2 ^ 31 := by
    have first : valueOf two sigOpsOf 1 = 4 := holdsTwo.valueOf_sigOps (mem_cons_of_mem _ mem_cons_self)
    have second : valueOf two sigOpsOf 2 = 4 := holdsTwo.valueOf_sigOps mem_cons_self
    rw [OrderedSet.toFinset_insert, single_toFinset, Finset.sum_pair (by decide), first, second]
    norm_num
  apply along_addUnchecked okTwo holdsTwo childJoins childFits
  · exact ⟨holdsTwo.joins okTwo.toBooksOk childJoins, childFits⟩
  · exact fun _ _ _ => ⟨⟨trivial, trivial⟩, fun _ _ => trivial⟩

/-- The child comes after both parents. -/
theorem addPackageTxs_parentsFirst_twoParents : ∃ pool, poolAfter lockTimeEnv twoParents = .ok pool ∧
      ∃ assembler last, addPriorityTxs pool hashOrder packageConfig .resetBlock = .ok assembler ∧
        addPackageTxs lockTimeEnv pool hashOrder packageConfig assembler = .ok last ∧ last.vtx.Nodup ∧
        (∀ hash ∈ last.vtx, ∀ ancestor, TransGen pool.Spends hash ancestor → ancestor ∈ last.vtx) ∧
        ∀ front child rest, last.vtx = front ++ child :: rest → ∀ parent, pool.Spends child parent → parent ∈ front := by
  obtain ⟨pool, ran, ok⟩ := twoParents_consistent
  exact ⟨pool, ran, addPackageTxs_parentsFirst ok.toLinkedOk hashOrder packageConfig⟩

/-- After every sequence of calls on a pool, whatever the orders and limits, the assembler selects entries of the pool
of which no two spend the same output. -/
theorem selection_spends_once (env : PoolEnv) (calls : List PoolCall)
    (along : Run.Along (PoolCall.apply env) (fun pool call => WellCalled env pool call ∧ SigOpsFit pool call) .empty calls)
    (order : ScoreOrder) (config : AssemblerConfig) : ∃ pool assembler last, poolAfter env calls = .ok pool ∧
      addPriorityTxs pool order config .resetBlock = .ok assembler ∧
      addPackageTxs env pool order config assembler = .ok last ∧
      ∀ hash ∈ last.vtx, ∃ entry, pool.mapTx.lookup hash = some entry ∧ ∀ other ∈ last.vtx, ∀ otherEntry,
        pool.mapTx.lookup other = some otherEntry → ∀ prevout ∈ spentOutputs entry.tx,
          prevout ∈ spentOutputs otherEntry.tx → other = hash := by
  obtain ⟨pool, ran, ok⟩ := poolAfter_consistent along
  obtain ⟨assembler, prioritised, selected⟩ := addPriorityTxs_ok ok.toLinkedOk order config
  obtain ⟨last, added, selected⟩ := addPackageTxs_ok ok.toLinkedOk order config selected
  refine ⟨pool, assembler, last, ran, prioritised, added, fun hash listed => ?_⟩
  obtain ⟨entry, found⟩ := mem_family.mp (selected.listing.inside listed)
  refine ⟨entry, found, fun other _ otherEntry otherFound prevout spent again => ?_⟩
  -- the pool records one spender for each output
  have first := (ok.next prevout _).mpr ⟨hash, entry, found, rfl, spent⟩
  have second := (ok.next prevout _).mpr ⟨other, otherEntry, otherFound, rfl, again⟩
  have same : otherEntry.tx = entry.tx := Option.some.inj (second.symm.trans first)
  rw [← ok.keyed other otherEntry otherFound, same, ok.keyed hash entry found]

/-- A parent and its child. -/
theorem selection_spends_once_family :
    let calls := [.addUnchecked (spending 1 [10]) 100 0 4 .empty, .addUnchecked (spending 2 [1]) 10 0 4 (single 1)]
    ∃ pool assembler last, poolAfter lockTimeEnv calls = .ok pool ∧
      addPriorityTxs pool hashOrder packageConfig .resetBlock = .ok assembler ∧
      addPackageTxs lockTimeEnv pool hashOrder packageConfig assembler = .ok last := by
  intro calls
  have along : Run.Along (PoolCall.apply lockTimeEnv)
      (fun pool call => WellCalled lockTimeEnv pool call ∧ SigOpsFit pool call) .empty calls :=
    along_family (by decide +kernel) (by decide +kernel) (by decide +kernel) fun _ => trivial
  obtain ⟨pool, assembler, last, ran, prioritised, added, _⟩ :=
    selection_spends_once lockTimeEnv calls along hashOrder packageConfig
  exact ⟨pool, assembler, last, ran, prioritised, added⟩

end Straks.Miner
