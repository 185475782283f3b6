import Straks.Proof.PackageStep

namespace Straks.Miner

open Chain Mempool Loop Success Relation CTxMemPool CTxMemPoolEntry List OrderedSet

/-- The transactions by priority: those on the heap and waiting are not in the block. -/
structure Heap (pool : CTxMemPool) (state : PriorityState) : Prop where
  selected : Selected pool state.assembler
  nodup : state.vecPriority.Nodup
  listed : ∀ hash ∈ state.vecPriority, hash ∈ pool.family.carrier ∧ hash ∉ state.assembler.inBlock
  waiting : ∀ hash ∈ state.waitPriMap,
    hash ∈ pool.family.carrier ∧ hash ∉ state.assembler.inBlock ∧ hash ∉ state.vecPriority

/-- What a turn over the transactions by priority can do. -/
inductive PriorityOutcome (pool : CTxMemPool) (config : AssemblerConfig) (state : PriorityState) :
    Turn PriorityState → Prop
  | finished : PriorityOutcome pool config state (.stop state)
  | passed {iter : Uint256} (listed : iter ∈ state.vecPriority) {assembler : BlockAssembler}
      (same : Extended pool [] state.assembler assembler) {waitPriMap : SetEntries}
      (waits : ∀ hash ∈ waitPriMap, hash = iter ∨ hash ∈ state.waitPriMap) :
      PriorityOutcome pool config state (.again ⟨assembler, state.vecPriority.erase iter, waitPriMap⟩)
  | added {iter : Uint256} (listed : iter ∈ state.vecPriority)
      (parents : ∀ parent, pool.Spends iter parent → parent ∈ state.assembler.inBlock) {assembler : BlockAssembler}
      (extended : Extended pool [iter] state.assembler assembler)
      (weight : assembler.nBlockWeight < config.nBlockMaxWeight)
      (sigOps : assembler.nBlockSigOpsCost < maxBlockSigOpsCost config.fWitnessSeasoned) {next : Turn PriorityState}
      {children : List Uint256}
      (left : next.state = wakeChildren children ⟨assembler, state.vecPriority.erase iter, state.waitPriMap⟩) :
      PriorityOutcome pool config state next

section Priority

variable {env : PoolEnv} {pool : CTxMemPool} {order : ScoreOrder} {config : AssemblerConfig} {state : PriorityState}

/-- A transaction that does not fit leaves the block as it is. -/
theorem testForBlock_extended (pool : CTxMemPool) (assembler : BlockAssembler) (iter : CTxMemPoolEntry) :
    Extended pool [] assembler (testForBlock config assembler iter).2 := by
  have same := @Extended.nil pool assembler
  have flags (blockFinished : Bool) (lastFewTxs : Nat) :
      Extended pool [] assembler { assembler with blockFinished, lastFewTxs } := ⟨same.vtx, same.members, rfl, rfl⟩
  rw [testForBlock]
  split_ifs
  all_goals exact flags _ _

variable {assembler : BlockAssembler} {iter : Uint256}

/-- A transaction that fits keeps the limits. -/
theorem testForBlock_fits {iter : CTxMemPoolEntry} (fits : (testForBlock config assembler iter).1 = true) :
    (testForBlock config assembler iter).2 = assembler ∧
      assembler.nBlockWeight + getTransactionWeight iter.tx < config.nBlockMaxWeight ∧
      assembler.nBlockSigOpsCost + iter.sigOpCost < maxBlockSigOpsCost config.fWitnessSeasoned := by
  rw [testForBlock] at fits ⊢
  split_ifs at fits ⊢ with weight _ _ size _ _ sigOps
  exact ⟨rfl, not_le.mp weight, not_le.mp sigOps⟩

theorem isStillDependent_ok (consistent : LinkedOk env pool) (assembler : BlockAssembler) {entry : CTxMemPoolEntry}
    (found : pool.mapTx.lookup iter = some entry) :
    ∃ dependent, isStillDependent pool assembler iter = .ok dependent ∧
      (dependent = false → ∀ parent, pool.Spends iter parent → parent ∈ assembler.inBlock) := by
  obtain ⟨parents, answered, isParents⟩ := consistent.links.getMemPoolParents found
  rw [isStillDependent, answered]
  refine ⟨_, rfl, ?_⟩
  intro independent parent spends
  have listed : parent ∈ parents.elements := (isParents parent).mpr spends
  rw [any_eq_false] at independent
  simpa using independent parent listed

theorem priorityTurn_outcome (consistent : LinkedOk env pool) (heap : Heap pool state) :
    ∃ next, priorityTurn pool order config state = .ok next ∧ PriorityOutcome pool config state next := by
  rw [priorityTurn]
  split
  · exact ⟨_, rfl, .finished⟩
  · cases isFront : order.front state.vecPriority with
    | none => exact ⟨_, rfl, .finished⟩
    | some iter =>
      have listed := order.front_mem _ _ isFront
      obtain ⟨member, unselected⟩ := heap.listed iter listed
      obtain ⟨entry, found⟩ := mem_family.mp member
      obtain ⟨dependent, isDependent, parents⟩ := isStillDependent_ok consistent state.assembler found
      simp only [contains_eq_false.mpr unselected, dereference_ok found, isDependent, bind, Except.bind,
        Bool.false_eq_true, if_false]
      split
      · exact ⟨_, rfl, .passed listed (.nil _) fun hash waits => .inr waits⟩
      · cases dependent with
        | true => exact ⟨_, rfl, .passed listed (.nil _) fun hash waits => mem_insert.mp waits⟩
        | false =>
          simp only [Bool.false_eq_true, if_false]
          by_cases fits : (testForBlock config state.assembler entry).1 = true
          · obtain ⟨same, weight, sigOps⟩ := testForBlock_fits fits
            have extended := Extended.add true state.assembler found
            rw [if_pos fits, same, addToBlock, dereference_ok found]
            simp only [bind, Except.bind, pure, Except.pure]
            split
            · have left : (Turn.stop (PriorityState.mk (state.assembler.add true iter entry)
                  (state.vecPriority.erase iter) state.waitPriMap)).state = wakeChildren [] _ := rfl
              exact ⟨_, rfl, .added listed (parents rfl) extended weight sigOps left⟩
            · obtain ⟨children, answered, -⟩ := consistent.links.getMemPoolChildren found
              rw [answered]
              exact ⟨_, rfl, .added listed (parents rfl) extended weight sigOps rfl⟩
          · rw [if_neg fits]
            exact ⟨_, rfl, .passed listed (testForBlock_extended pool state.assembler entry)
              fun hash waits => .inr waits⟩

/-- A woken transaction moves to the heap. -/
theorem Heap.wake (heap : Heap pool state) {child : Uint256} (waits : child ∈ state.waitPriMap) :
    Heap pool { state with
      vecPriority := state.vecPriority ++ [child], waitPriMap := state.waitPriMap.erase child } := by
  obtain ⟨member, unselected, apart⟩ := heap.waiting child waits
  constructor
  · exact heap.selected
  · apply heap.nodup.append (nodup_singleton child)
    simpa using apart
  · intro hash listed
    rcases mem_append.mp listed with old | woken
    · exact heap.listed hash old
    · rw [mem_singleton.mp woken]
      exact ⟨member, unselected⟩
  · intro hash waiting
    obtain ⟨different, waiting⟩ := mem_erase.mp waiting
    have old := heap.waiting hash waiting
    refine ⟨old.1, old.2.1, ?_⟩
    rw [mem_append, mem_singleton, not_or]
    exact ⟨old.2.2, different⟩

theorem Heap.wakeChildren (heap : Heap pool state) (children : List Uint256) :
    Heap pool (wakeChildren children state) := by
  induction children generalizing state with
  | nil => exact heap
  | cons child rest ih =>
    rw [Miner.wakeChildren, foldl_cons]
    split
    · rename_i contained
      exact ih (heap.wake (OrderedSet.contains_iff.mp contained))
    · exact ih heap

theorem wakeChildren_assembler (children : List Uint256) (state : PriorityState) :
    (wakeChildren children state).assembler = state.assembler := by
  induction children generalizing state with
  | nil => rfl
  | cons child rest ih =>
    rw [wakeChildren, foldl_cons, ← wakeChildren, ih]
    split
    · rfl
    · rfl

/-- A transaction leaves the heap and may wait. -/
theorem Heap.pass (heap : Heap pool state) (listed : iter ∈ state.vecPriority)
    (same : Extended pool [] state.assembler assembler) {waitPriMap : SetEntries}
    (waits : ∀ hash ∈ waitPriMap, hash = iter ∨ hash ∈ state.waitPriMap) :
    Heap pool ⟨assembler, state.vecPriority.erase iter, waitPriMap⟩ := by
  have members (hash : Uint256) : hash ∈ assembler.inBlock ↔ hash ∈ state.assembler.inBlock := by
    rw [same.members, or_iff_left not_mem_nil]
  constructor
  · exact same.selected_same heap.selected
  · exact heap.nodup.erase iter
  · intro hash later
    rw [members]
    exact heap.listed hash (mem_of_mem_erase later)
  · intro hash waiting
    rw [members, heap.nodup.mem_erase_iff]
    rcases waits hash waiting with rfl | old
    · have own := heap.listed hash listed
      exact ⟨own.1, own.2, fun both => both.1 rfl⟩
    · have old := heap.waiting hash old
      exact ⟨old.1, old.2.1, fun both => old.2.2 both.2⟩

/-- A transaction leaves the heap for the block. -/
theorem Heap.take (heap : Heap pool state) (listed : iter ∈ state.vecPriority)
    (parents : ∀ parent, pool.Spends iter parent → parent ∈ state.assembler.inBlock)
    (extended : Extended pool [iter] state.assembler assembler) :
    Heap pool ⟨assembler, state.vecPriority.erase iter, state.waitPriMap⟩ := by
  have members (hash : Uint256) : hash ∈ assembler.inBlock ↔ hash ∈ state.assembler.inBlock ∨ hash = iter := by
    rw [extended.members, mem_singleton]
  have own := heap.listed iter listed
  constructor
  · exact extended.selected_snoc heap.selected own.1 own.2 parents
  · exact heap.nodup.erase iter
  · intro hash later
    obtain ⟨different, old⟩ := heap.nodup.mem_erase_iff.mp later
    have old := heap.listed hash old
    rw [members, not_or]
    exact ⟨old.1, old.2, different⟩
  · intro hash waiting
    have old := heap.waiting hash waiting
    rw [members, not_or, heap.nodup.mem_erase_iff]
    exact ⟨old.1, ⟨old.2.1, fun same => old.2.2 (same ▸ listed)⟩, fun both => old.2.2 both.2⟩

/-- Turns keep the heap's transactions out of the block. -/
theorem PriorityOutcome.heap (heap : Heap pool state) {next : Turn PriorityState}
    (outcome : PriorityOutcome pool config state next) : Heap pool next.state := by
  cases outcome with
  | finished => exact heap
  | passed listed same waits => exact heap.pass listed same waits
  | @added iter listed parents assembler extended weight sigOps _ children left =>
    rw [left]
    exact (heap.take listed parents extended).wakeChildren children

/-- How far the priority loop is from its end. -/
def unexamined (pool : CTxMemPool) (state : PriorityState) : Nat :=
  (pool.mapTx.keys.length - state.assembler.inBlock.size) * (pool.mapTx.keys.length + 1) + state.vecPriority.length

theorem Heap.length_le (heap : Heap pool state) : state.vecPriority.length ≤ pool.mapTx.keys.length :=
  length_le_pool heap.nodup fun hash listed => (heap.listed hash listed).1

theorem PriorityOutcome.unexamined_lt (heap : Heap pool state) {later : PriorityState}
    (outcome : PriorityOutcome pool config state (.again later)) : unexamined pool later < unexamined pool state := by
  have kept := outcome.heap heap
  cases outcome with
  | @passed iter listed assembler same waitPriMap waits =>
    have sizes : assembler.inBlock.size = state.assembler.inBlock.size := by
      rw [(same.selected_same heap.selected).size_eq, heap.selected.size_eq, same.vtx, append_nil]
    have positive := length_pos_of_mem listed
    simp only [unexamined, sizes, length_erase_of_mem listed]
    omega
  | @added iter listed parents assembler extended weight sigOps _ children left =>
    have isLater : later = wakeChildren children ⟨assembler, state.vecPriority.erase iter, state.waitPriMap⟩ := left
    have selected := (heap.take listed parents extended).selected
    have grown : assembler.inBlock.size = state.assembler.inBlock.size + 1 := by
      rw [selected.size_eq, heap.selected.size_eq, extended.vtx, length_append, length_singleton]
    have bounded := selected.size_le
    have entries : later.vecPriority.length ≤ pool.mapTx.keys.length := kept.length_le
    have fewer : (pool.mapTx.keys.length - assembler.inBlock.size) * (pool.mapTx.keys.length + 1) +
        (pool.mapTx.keys.length + 1) =
        (pool.mapTx.keys.length - state.assembler.inBlock.size) * (pool.mapTx.keys.length + 1) := by
      rw [← Nat.succ_mul]
      congr 1
      dsimp only at bounded
      omega
    have inBlock : later.assembler = assembler := by rw [isLater, wakeChildren_assembler]
    simp only [unexamined, inBlock]
    omega

/-- Each turn of the priority loop proceeds. -/
theorem priorityTurn_proceeds (consistent : LinkedOk env pool) (order : ScoreOrder) (config : AssemblerConfig)
    (state : PriorityState) (heap : Heap pool state) :
    ∃ next, Proceeds (priorityTurn pool order config) (Heap pool) (Heap pool) (unexamined pool) state next := by
  obtain ⟨next, turns, outcome⟩ := @priorityTurn_outcome env pool order config state consistent heap
  refine ⟨next, turns, ?_, ?_⟩
  · intro later isNext
    subst isNext
    exact ⟨outcome.heap heap, outcome.unexamined_lt heap⟩
  · intro last isNext
    subst isNext
    exact outcome.heap heap

theorem heap_start (pool : CTxMemPool) : Heap pool ⟨.resetBlock, pool.mapTx.keys, .empty⟩ where
  selected := selected_resetBlock pool
  nodup := pool.mapTx.nodupKeys
  listed hash listed := ⟨List.mem_toFinset.mpr listed, not_mem_empty hash⟩
  waiting hash waits := absurd waits (not_mem_empty hash)

theorem addPriorityTxs_ok (consistent : LinkedOk env pool) (order : ScoreOrder) (config : AssemblerConfig) :
    ∃ assembler, addPriorityTxs pool order config .resetBlock = .ok assembler ∧ Selected pool assembler := by
  rw [addPriorityTxs]
  split
  · exact ⟨_, rfl, selected_resetBlock pool⟩
  · have start := heap_start pool
    have enough : unexamined pool ⟨.resetBlock, pool.mapTx.keys, .empty⟩ <
        (pool.mapTx.keys.length + 1) * (pool.mapTx.keys.length + 1) + 1 := by
      have bound : (pool.mapTx.keys.length + 1) * (pool.mapTx.keys.length + 1) =
          pool.mapTx.keys.length * (pool.mapTx.keys.length + 1) + (pool.mapTx.keys.length + 1) := Nat.succ_mul _ _
      have first : BlockAssembler.resetBlock.inBlock.size = 0 := rfl
      simp only [unexamined, first, Nat.sub_zero]
      omega
    obtain ⟨last, ran, ends⟩ := iterate_ok (unexamined pool) (priorityTurn_proceeds consistent order
      { config with nBlockPrioritySize := min config.nBlockMaxSize config.nBlockPrioritySize })
      MempoolError.diverged start enough
    dsimp only
    rw [ran]
    exact ⟨_, rfl, ends.selected⟩

end Priority

end Straks.Miner
