import Straks.Proof.BestTip

namespace Straks.Activation
open Candidates Success List ChainState

variable {env : NodeEnv} {state later : ChainState} {origin : Uint256} {queue : List Uint256}

/-- `FindMostWorkChain` may walk over the block. -/
def ChainState.Ready (state : ChainState) (hash : Uint256) : Prop :=
  state.Linked hash ∨ (state.index hash).ancestors = []

/-- `FindMostWorkChain` may walk down from the block. -/
def ChainState.ReadyBranch (state : ChainState) (hash : Uint256) : Prop :=
  ∀ block ∈ state.branch hash, block ∈ state.mapBlockIndex ∧ state.Ready block

/-- A received block that has not been linked yet. -/
structure ChainState.Pending (state : ChainState) (hash : Uint256) : Prop where
  known : hash ∈ state.mapBlockIndex
  data : (state.index hash).fHaveData = true
  unready : ¬ state.Ready hash
  unmarked : (state.index hash).fFailedChild = false

/-- The block index while a queue is about to be linked, whatever is marked by hand. -/
structure IndexOk (hashGenesisBlock : Uint256) (queue : List Uint256) (state : ChainState) : Prop where
  branches : BranchesOk state
  genesisKnown : hashGenesisBlock ∈ state.mapBlockIndex
  genesisData : (state.index hashGenesisBlock).fHaveData = true
  data : ∀ hash ∈ state.mapBlockIndex, state.Ready hash → (state.index hash).fHaveData = true
  candidates : ∀ hash ∈ state.setBlockIndexCandidates,
    hash ∈ state.mapBlockIndex ∧ (state.index hash).fFailedChild = false
  unlinked : ∀ pair ∈ state.mapBlocksUnlinked, state.Pending pair.2
  queued : ∀ hash ∈ queue, state.Pending hash
  distinct : (queue ++ state.mapBlocksUnlinked.map Prod.snd).Nodup
  active : state.chainActive = [] ∨ ∃ tip, state.chainActive = state.branch tip ∧ state.ReadyBranch tip

theorem Reflagged.ready (same : Reflagged state later) (hash : Uint256) : later.Ready hash ↔ state.Ready hash := by
  rw [ChainState.Ready, ChainState.Ready, same.linked, same.ancestors]

theorem Reflagged.readyBranch (same : Reflagged state later) {hash : Uint256} (ready : state.ReadyBranch hash) :
    later.ReadyBranch hash := by
  intro block member
  rw [same.branch] at member
  rw [same.mapBlockIndex, same.ready]
  exact ready block member

namespace IndexOk

theorem readyBranch_of_active (ok : IndexOk origin queue state) {hash : Uint256}
    (member : hash ∈ state.chainActive) : state.ReadyBranch hash := by
  rcases ok.active with empty | ⟨tip, whole, ready⟩
  · rw [empty] at member
    cases member
  · rw [whole] at member
    intro block inside
    exact ready block ((ok.branches.branch_of_mem member).mem inside)

/-- What is left of the queue is forgotten. -/
theorem dequeue (ok : IndexOk origin queue state) : IndexOk origin [] state :=
  { ok with
    queued := forall_mem_nil _
    distinct := ok.distinct.of_append_right }

/-- Marks, candidates and the active chain may change, as long as no candidate and no pending block is marked as a
child and `FindMostWorkChain` may walk down the active chain. -/
theorem change (ok : IndexOk origin queue state) (same : Reflagged state later)
    (candidates : ∀ hash ∈ later.setBlockIndexCandidates,
      hash ∈ state.mapBlockIndex ∧ (later.index hash).fFailedChild = false)
    (pending : ∀ hash, state.Pending hash → (later.index hash).fFailedChild = false)
    (active : later.chainActive = [] ∨ ∃ tip, later.chainActive = state.branch tip ∧ state.ReadyBranch tip) :
    IndexOk origin queue later := by
  have stillPending : ∀ hash, state.Pending hash → later.Pending hash := by
    intro hash waits
    refine ⟨?_, ?_, ?_, pending hash waits⟩
    · rw [same.mapBlockIndex]
      exact waits.known
    · rw [same.data]
      exact waits.data
    · rw [same.ready]
      exact waits.unready
  constructor
  · exact same.branches ok.branches
  · rw [same.mapBlockIndex]
    exact ok.genesisKnown
  · rw [same.data]
    exact ok.genesisData
  · intro hash known ready
    rw [same.mapBlockIndex] at known
    rw [same.data]
    exact ok.data hash known ((same.ready hash).mp ready)
  · rw [same.mapBlockIndex]
    exact candidates
  · rw [same.mapBlocksUnlinked]
    exact fun pair member => stillPending pair.2 (ok.unlinked pair member)
  · exact fun hash member => stillPending hash (ok.queued hash member)
  · rw [same.mapBlocksUnlinked]
    exact ok.distinct
  · apply active.imp_right
    rintro ⟨tip, whole, ready⟩
    exact ⟨tip, whole.trans (same.branch tip).symm, same.readyBranch ready⟩

/-- The active chain may be any branch to be walked down. -/
theorem move (ok : IndexOk origin [] state) (moved : Moved state later)
    (fewer : ∀ hash ∈ later.setBlockIndexCandidates, hash ∈ state.setBlockIndexCandidates)
    (active : later.chainActive = [] ∨ ∃ tip, later.chainActive = state.branch tip ∧ state.ReadyBranch tip) :
    IndexOk origin [] later := by
  apply ok.change moved.marks.reflagged _ _ active
  · intro hash member
    rw [moved.index]
    exact ok.candidates hash (fewer hash member)
  · intro hash waits
    rw [moved.index]
    exact waits.unmarked

end IndexOk

section Arrivals

/-- A leaf is not ready. -/
theorem LeafAdded.indexOk {header : HeaderArrival} {added : ChainState} (leaf : LeafAdded state header added)
    (ok : IndexOk origin [] state) : IndexOk origin [] added := by
  have map : ∀ hash ∈ state.mapBlockIndex, hash ∈ added.mapBlockIndex := by
    intro hash known
    rw [leaf.mapBlockIndex]
    exact mem_cons_of_mem _ known
  have ready : ∀ hash ∈ state.mapBlockIndex, (added.Ready hash ↔ state.Ready hash) := by
    intro hash known
    rw [ChainState.Ready, ChainState.Ready, ChainState.Linked, ChainState.Linked, leaf.old known]
  constructor
  · exact leaf.branches ok.branches
  · exact map _ ok.genesisKnown
  · rw [leaf.old ok.genesisKnown]
    exact ok.genesisData
  · intro hash known isReady
    rw [leaf.mapBlockIndex] at known
    rcases mem_cons.mp known with rfl | old
    · rw [ChainState.Ready, ChainState.Linked, leaf.leaf] at isReady
      rcases isReady with linked | lowest
      · exact absurd rfl linked
      · cases lowest
    · rw [leaf.old old]
      exact ok.data hash old ((ready hash old).mp isReady)
  · intro hash member
    rw [leaf.candidates] at member
    obtain ⟨known, unmarked⟩ := ok.candidates hash member
    rw [leaf.old known]
    exact ⟨map hash known, unmarked⟩
  · intro pair member
    rw [leaf.mapBlocksUnlinked] at member
    obtain ⟨known, data, unready, unmarked⟩ := ok.unlinked pair member
    refine ⟨map _ known, ?_, ?_, ?_⟩
    · rw [leaf.old known]
      exact data
    · rw [ready _ known]
      exact unready
    · rw [leaf.old known]
      exact unmarked
  · exact forall_mem_nil _
  · rw [leaf.mapBlocksUnlinked]
    exact ok.distinct
  · rw [leaf.active]
    apply ok.active.imp_right
    rintro ⟨tip, whole, readyTip⟩
    have same : added.branch tip = state.branch tip := by
      rw [branch, branch, leaf.old (readyTip tip mem_cons_self).1]
    refine ⟨tip, whole.trans same.symm, ?_⟩
    intro block member
    rw [same] at member
    obtain ⟨known, isReady⟩ := readyTip block member
    exact ⟨map block known, (ready block known).mpr isReady⟩

variable {hash : Uint256}

/-- The block just stored is to be linked or to wait. -/
theorem IndexOk.storeData (ok : IndexOk origin [] state) (known : hash ∈ state.mapBlockIndex)
    (missing : (state.index hash).fHaveData = false) (alive : (state.index hash).failed = false) (nTx : Nat) :
    IndexOk origin [hash] (state.storeData hash nTx) := by
  have index := fun block => (state.storeData_index hash nTx block).1
  have unready : ¬ state.Ready hash := by
    intro ready
    have received := ok.data hash known ready
    rw [missing] at received
    cases received
  have ancestors : ∀ block, ((state.storeData hash nTx).index block).ancestors = (state.index block).ancestors := by
    intro block
    rw [index]
  have branch : ∀ block, (state.storeData hash nTx).branch block = state.branch block := by
    intro block
    rw [branch, branch, ancestors]
  have marked : ∀ block, ((state.storeData hash nTx).index block).fFailedChild = (state.index block).fFailedChild := by
    intro block
    rw [index]
  have ready : ∀ block, (state.storeData hash nTx).Ready block ↔ state.Ready block := by
    intro block
    by_cases same : block = hash
    · rw [same, iff_false_right unready, ChainState.Ready, ChainState.Linked, index]
      have notLowest : (state.index hash).ancestors ≠ [] := fun lowest => unready (.inr lowest)
      simp [notLowest]
    · rw [ChainState.Ready, ChainState.Ready, ChainState.Linked, ChainState.Linked, index]
      simp [same]
  have data : ∀ block, (state.index block).fHaveData = true →
      ((state.storeData hash nTx).index block).fHaveData = true := by
    intro block received
    rw [index]
    by_cases same : block = hash <;> simp [same, received]
  constructor
  · exact ok.branches.of_same rfl ancestors
  · exact ok.genesisKnown
  · exact data _ ok.genesisData
  · intro block blockKnown isReady
    exact data block (ok.data block blockKnown ((ready block).mp isReady))
  · intro block member
    rw [marked]
    exact ok.candidates block member
  · intro pair member
    obtain ⟨pairKnown, received, pairUnready, unmarked⟩ := ok.unlinked pair member
    exact ⟨pairKnown, data _ received, (ready _).not.mpr pairUnready, (marked _).trans unmarked⟩
  · intro block member
    rw [mem_singleton.mp member]
    refine ⟨known, ?_, (ready _).not.mpr unready, ?_⟩
    · rw [index]
      simp
    · rw [marked]
      exact (Bool.or_eq_false_iff.mp alive).2
  · rw [singleton_append, nodup_cons]
    refine ⟨?_, ok.distinct⟩
    intro member
    obtain ⟨pair, inside, same⟩ := mem_map.mp member
    have received := (ok.unlinked pair inside).data
    rw [same, missing] at received
    cases received
  · apply ok.active.imp_right
    rintro ⟨tip, whole, readyTip⟩
    refine ⟨tip, whole.trans (branch tip).symm, ?_⟩
    intro block member
    rw [branch] at member
    rw [ready]
    exact readyTip block member

/-- Linking makes a block ready, unless its branch's transactions wrap to zero. -/
theorem BlockLinked.indexOk {linked : ChainState} (link : BlockLinked env state hash linked)
    (ok : IndexOk origin (hash :: queue) state) :
    IndexOk origin (queue ++ (state.mapBlocksUnlinked.filter fun pair => pair.1 = hash).map Prod.snd) linked := by
  have here := ok.queued hash mem_cons_self
  have distinct := ok.distinct
  rw [cons_append, nodup_cons, mem_append, not_or] at distinct
  obtain ⟨⟨notQueued, notWaiting⟩, others⟩ := distinct
  have marked : ∀ block, (linked.index block).fFailedChild = (state.index block).fFailedChild := by
    intro block
    by_cases same : block = hash
    · rw [same, link.index]
    · rw [link.other block same]
  have data : ∀ block, (linked.index block).fHaveData = (state.index block).fHaveData :=
    fun block => (link.fields block).2.2.2.1
  have readyElse : ∀ block, block ≠ hash → (linked.Ready block ↔ state.Ready block) := by
    intro block apart
    rw [ChainState.Ready, ChainState.Ready, ChainState.Linked, ChainState.Linked, link.other block apart]
  have stillReady : ∀ block, state.Ready block → linked.Ready block := by
    intro block ready
    have apart : block ≠ hash := fun same => here.unready (same ▸ ready)
    exact (readyElse block apart).mpr ready
  have stillPending : ∀ block, block ≠ hash → state.Pending block → linked.Pending block := by
    intro block apart waits
    refine ⟨?_, (data block).trans waits.data, (readyElse block apart).not.mpr waits.unready,
      (marked block).trans waits.unmarked⟩
    rw [link.mapBlockIndex]
    exact waits.known
  have waitingElse : ∀ pair ∈ state.mapBlocksUnlinked, pair.2 ≠ hash := by
    intro pair member same
    exact notWaiting (mem_map.mpr ⟨pair, member, same⟩)
  constructor
  · exact ok.branches.of_same link.mapBlockIndex link.ancestors
  · rw [link.mapBlockIndex]
    exact ok.genesisKnown
  · rw [data]
    exact ok.genesisData
  · intro block known ready
    rw [link.mapBlockIndex] at known
    rw [data]
    by_cases same : block = hash
    · rw [same]
      exact here.data
    · exact ok.data block known ((readyElse block same).mp ready)
  · intro block member
    rw [link.mapBlockIndex, marked]
    rcases link.added block member with old | rfl
    · exact ok.candidates block old
    · exact ⟨here.known, here.unmarked⟩
  · intro pair member
    rw [link.mapBlocksUnlinked] at member
    have old := (mem_filter.mp member).1
    exact stillPending pair.2 (waitingElse pair old) (ok.unlinked pair old)
  · intro block member
    rcases mem_append.mp member with old | moved
    · exact stillPending block (fun same => notQueued (same ▸ old)) (ok.queued block (mem_cons_of_mem hash old))
    · obtain ⟨pair, inside, rfl⟩ := mem_map.mp moved
      have inMap := (mem_filter.mp inside).1
      exact stillPending pair.2 (waitingElse pair inMap) (ok.unlinked pair inMap)
  · exact link.distinct others
  · rw [link.active]
    apply ok.active.imp_right
    rintro ⟨tip, whole, readyTip⟩
    refine ⟨tip, whole.trans (link.branch tip).symm, ?_⟩
    intro block member
    rw [link.branch] at member
    obtain ⟨known, ready⟩ := readyTip block member
    rw [link.mapBlockIndex]
    exact ⟨known, stillReady block ready⟩

/-- A queued block may wait instead. -/
theorem IndexOk.wait (ok : IndexOk origin [hash] state) (prev : Uint256) : IndexOk origin []
      { state with mapBlocksUnlinked := state.mapBlocksUnlinked ++ [(prev, hash)] } where
  branches := ⟨ok.branches.known, ok.branches.suffix⟩
  genesisKnown := ok.genesisKnown
  genesisData := ok.genesisData
  data := ok.data
  candidates := ok.candidates
  unlinked := by
    intro pair member
    have waits : state.Pending pair.2 := by
      rcases mem_append.mp member with old | new
      · exact ok.unlinked pair old
      · rw [mem_singleton.mp new]
        exact ok.queued hash mem_cons_self
    exact ⟨waits.known, waits.data, waits.unready, waits.unmarked⟩
  queued := forall_mem_nil _
  distinct := by
    rw [nil_append, map_append]
    exact perm_append_comm.nodup_iff.mp ok.distinct
  active := ok.active

theorem receivedBlockTransactions_indexOk (ok : IndexOk origin [] state) (known : hash ∈ state.mapBlockIndex)
    (missing : (state.index hash).fHaveData = false) (alive : (state.index hash).failed = false) (nTx : Nat) :
    IndexOk origin [] (receivedBlockTransactions env state hash nTx) := by
  have stored := ok.storeData known missing alive nTx
  rw [receivedBlockTransactions, ← storeData]
  generalize state.storeData hash nTx = data at stored ⊢
  split
  · apply linkBlocks_keeps (IndexOk origin) (fun link linkOk => link.indexOk linkOk) stored
    exact Nat.le_of_eq (Nat.add_comm _ _)
  · split
    · split
      · exact stored.wait _
      · exact stored.dequeue
    · exact stored.dequeue

end Arrivals

end Straks.Activation
