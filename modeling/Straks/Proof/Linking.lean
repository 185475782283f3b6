import Straks.Proof.BestChain
import Mathlib.Data.List.Nodup

namespace Straks.Activation
open Candidates List ChainState CBlockIndex Prod

variable {env : NodeEnv} {state : ChainState} {origin : Uint256} {total : Nat}

/-- A received block is queued, waits for its predecessor, or goes nowhere because that has failed. -/
inductive Placed (state : ChainState) (hash : Uint256) : List Uint256 → List (Uint256 × Uint256) → Prop where
  | queued (linked : ∀ block ∈ (state.index hash).ancestors, state.Linked block) :
      Placed state hash [hash] state.mapBlocksUnlinked
  | waiting {prev : Uint256} (first : (state.index hash).pprev = some prev) (unlinked : ¬ state.Linked prev) :
      Placed state hash [] (state.mapBlocksUnlinked ++ [(prev, hash)])
  | abandoned {prev : Uint256} (first : (state.index hash).pprev = some prev)
      (failed : (state.index prev).failed = true) : Placed state hash [] state.mapBlocksUnlinked

/-- The second state has the transactions of one more block. -/
structure DataStored (state : ChainState) (hash : Uint256) (nTx : Nat) (queue : List Uint256) (stored : ChainState) :
    Prop where
  known : hash ∈ state.mapBlockIndex
  missing : (state.index hash).fHaveData = false
  alive : (state.index hash).failed = false
  positive : 0 < nTx
  mapBlockIndex : stored.mapBlockIndex = state.mapBlockIndex
  placed : Placed state hash queue stored.mapBlocksUnlinked
  candidates : stored.setBlockIndexCandidates = state.setBlockIndexCandidates
  active : stored.chainActive = state.chainActive
  index : ∀ block, stored.index block = { state.index block with
    nTx := if block = hash then nTx else (state.index block).nTx
    nChainTx := if block = hash then 0 else (state.index block).nChainTx
    nValid := (stored.index block).nValid
    fHaveData := if block = hash then true else (state.index block).fHaveData }
  valid : ∀ block, (state.index block).nValid ≤ (stored.index block).nValid

namespace DataStored

variable {hash : Uint256} {nTx : Nat} {queue : List Uint256} {stored : ChainState}

variable (data : DataStored state hash nTx queue stored)
include data

variable (block : Uint256)

theorem ancestors : (stored.index block).ancestors = (state.index block).ancestors := by rw [data.index block]

theorem branch : stored.branch block = state.branch block := by
  rw [ChainState.branch, ChainState.branch, data.ancestors]

theorem failed : (stored.index block).failed = (state.index block).failed := by
  rw [data.index block]
  rfl

theorem fHaveData : (stored.index block).fHaveData = true ↔ block = hash ∨ (state.index block).fHaveData = true := by
  rw [data.index block]
  by_cases same : block = hash <;> simp [same]

theorem not_linked (tree : TreeOk origin total [] state) : ¬ state.Linked hash := by
  intro linked
  have received := tree.data hash linked
  rw [data.missing] at received
  cases received

theorem linked_iff (tree : TreeOk origin total [] state) (block : Uint256) :
    stored.Linked block ↔ state.Linked block := by
  by_cases same : block = hash
  · rw [same, iff_false_right (data.not_linked tree), ChainState.Linked, data.index hash]
    simp
  · rw [ChainState.Linked, ChainState.Linked, data.index block]
    simp [same]

theorem key : stored.key env = state.key env := by
  funext block
  rw [ChainState.key, ChainState.key, data.index block]

/-- A block adds at most its own transactions to a branch. -/
theorem branchTx_le (tree : TreeOk origin total [] state) (block : Uint256) :
    stored.branchTx block ≤ state.branchTx block + nTx := by
  rw [branchTx, branchTx, data.branch]
  have distinct := tree.branch_nodup block
  generalize state.branch block = part at distinct
  have others : ∀ rest : List Uint256, hash ∉ rest →
      (rest.map fun other => (stored.index other).nTx) = rest.map fun other => (state.index other).nTx := by
    intro rest absent
    apply map_congr_left
    intro other member
    have apart : other ≠ hash := fun same => absent (same ▸ member)
    rw [data.index other]
    simp [apart]
  induction part with
  | nil => exact Nat.zero_le _
  | cons first rest ih =>
    rw [nodup_cons] at distinct
    rw [map_cons, map_cons, sum_cons, sum_cons]
    by_cases same : first = hash
    · have count : (stored.index first).nTx = nTx := by
        rw [data.index first]
        simp [same]
      rw [others rest (same ▸ distinct.1)]
      omega
    · have count : (stored.index first).nTx = (state.index first).nTx := by
        rw [data.index first]
        simp [same]
      have later := ih distinct.2
      omega

/-- Every branch that is linked keeps its transactions. -/
theorem branchTx_linked (tree : TreeOk origin total [] state) {block : Uint256} (linked : state.Linked block) :
    stored.branchTx block = state.branchTx block := by
  rw [branchTx, data.branch]
  congr 1
  apply map_congr_left
  intro other member
  have apart : other ≠ hash := by
    intro same
    exact data.not_linked tree (same ▸ tree.linked_branch linked other member)
  rw [data.index other]
  simp [apart]

theorem not_waiting (tree : TreeOk origin total [] state) : hash ∉ state.mapBlocksUnlinked.map snd := by
  intro member
  obtain ⟨pair, inside, same⟩ := mem_map.mp member
  have received := (tree.unlinked pair inside).2.1
  rw [same, data.missing] at received
  cases received

/-- The stored block is queued or waits, but for an excuse. -/
theorem waits (tree : TreeOk origin total [] state) {excuse : Uint256 → Prop} (waits : Waits excuse [] state)
    (abandoned : queue = [] → ∀ prev, (state.index hash).pprev = some prev → (state.index prev).failed = true → excuse prev) :
    Waits excuse queue stored := by
  intro block received unlinked
  rw [data.linked_iff tree] at unlinked
  have placed := data.placed
  by_cases same : block = hash
  · subst same
    generalize stored.mapBlocksUnlinked = pairs at placed ⊢
    cases placed with
    | queued _ => exact .inl mem_cons_self
    | @waiting prev first prevUnlinked =>
      refine .inr ⟨prev, ?_, .inr ⟨mem_append_right _ (mem_singleton.mpr rfl), ?_⟩⟩
      · rw [CBlockIndex.pprev, data.ancestors]
        exact first
      · rw [data.linked_iff tree]
        exact prevUnlinked
    | @abandoned prev first failed =>
      refine .inr ⟨prev, ?_, .inl (abandoned rfl prev first failed)⟩
      rw [CBlockIndex.pprev, data.ancestors]
      exact first
  · have old := ((data.fHaveData block).mp received).resolve_left same
    have more : ∀ pair ∈ state.mapBlocksUnlinked, pair ∈ stored.mapBlocksUnlinked := by
      intro pair member
      generalize stored.mapBlocksUnlinked = pairs at placed ⊢
      cases placed with
      | queued _ => exact member
      | waiting _ _ => exact mem_append_left _ member
      | abandoned _ _ => exact member
    rcases waits block old unlinked with queued | ⟨prev, first, reason⟩
    · cases queued
    · refine .inr ⟨prev, ?_, ?_⟩
      · rw [CBlockIndex.pprev, data.ancestors]
        exact first
      · rw [data.linked_iff tree]
        exact reason.imp_right (And.imp_left (more _))

/-- The tree with the stored block. -/
theorem tree (tree : TreeOk origin total [] state) : TreeOk origin (total + nTx) queue stored where
  genesis := (data.linked_iff tree origin).mpr tree.genesis
  received := by
    intro block received
    rw [data.mapBlockIndex]
    rcases (data.fHaveData block).mp received with rfl | old
    · exact data.known
    · exact tree.received block old
  valid := by
    intro block member
    rw [data.mapBlockIndex] at member
    exact Nat.le_trans (tree.valid block member) (data.valid block)
  known := (tree.branches.of_same data.mapBlockIndex data.ancestors).known
  suffix := (tree.branches.of_same data.mapBlockIndex data.ancestors).suffix
  work := by
    intro block other member
    rw [data.ancestors] at member
    rw [data.index block, data.index other]
    exact tree.work block other member
  root := by
    intro block member lowest
    rw [data.mapBlockIndex] at member
    rw [data.ancestors] at lowest
    exact tree.root block member lowest
  data := by
    intro block linked
    exact (data.fHaveData block).mpr (.inr (tree.data block ((data.linked_iff tree block).mp linked)))
  below := by
    intro block linked other member
    rw [data.ancestors] at member
    exact (data.linked_iff tree other).mpr (tree.below block ((data.linked_iff tree block).mp linked) other member)
  positive := by
    intro block received
    rw [data.index block]
    by_cases same : block = hash
    · simpa [same] using data.positive
    · have old := ((data.fHaveData block).mp received).resolve_left same
      simpa [same] using tree.positive block old
  chainTx := by
    intro block
    by_cases linked : state.Linked block
    · rw [data.branchTx_linked tree linked]
      have apart : block ≠ hash := fun same => data.not_linked tree (same ▸ linked)
      rw [data.index block]
      simpa [apart] using tree.chainTx block
    · have zero : (stored.index block).nChainTx = 0 :=
        not_not.mp fun nonzero => linked ((data.linked_iff tree block).mp nonzero)
      rw [zero]
      exact Nat.zero_le _
  total := by
    intro block
    have before := tree.total block
    have more := data.branchTx_le tree block
    omega
  unlinked := by
    have old : ∀ pair ∈ state.mapBlocksUnlinked, (stored.index pair.2).pprev = some pair.1 ∧
        (stored.index pair.2).fHaveData = true ∧ ¬ stored.Linked pair.2 := by
      intro pair member
      obtain ⟨first, received, unlinked⟩ := tree.unlinked pair member
      rw [CBlockIndex.pprev, data.ancestors, data.linked_iff tree, data.fHaveData]
      exact ⟨first, .inr received, unlinked⟩
    have placed := data.placed
    intro pair member
    generalize stored.mapBlocksUnlinked = pairs at placed member
    cases placed with
    | queued _ => exact old pair member
    | abandoned _ _ => exact old pair member
    | waiting first _ =>
      rcases mem_append.mp member with before | new
      · exact old pair before
      · rw [mem_singleton.mp new, CBlockIndex.pprev, data.ancestors, data.linked_iff tree, data.fHaveData]
        exact ⟨first, .inl rfl, data.not_linked tree⟩
  queued := by
    intro block member
    have placed := data.placed
    generalize stored.mapBlocksUnlinked = pairs at placed
    cases placed with
    | queued linked =>
      rw [mem_singleton.mp member, data.ancestors, data.linked_iff tree, data.fHaveData]
      exact ⟨.inl rfl, data.not_linked tree, fun other inside =>
        (data.linked_iff tree other).mpr (linked other inside)⟩
    | waiting _ _ => cases member
    | abandoned _ _ => cases member
  distinct := by
    have absent := data.not_waiting tree
    have before := tree.distinct
    have placed := data.placed
    generalize stored.mapBlocksUnlinked = pairs at placed ⊢
    cases placed with
    | queued _ => exact nodup_cons.mpr ⟨absent, before⟩
    | waiting _ _ =>
      rw [nil_append, map_append, nodup_append]
      refine ⟨before, nodup_singleton _, ?_⟩
      intro old inside new single same
      rw [same, mem_singleton.mp single] at inside
      exact absent inside
    | abandoned _ _ => exact before
  waiting := by
    intro block received unlinked
    have waits := data.waits tree tree.waits fun _ _ _ failed => failed
    simp only [data.failed]
    exact waits block received unlinked

/-- The candidates and the active chain are not concerned. -/
theorem chain (tree : TreeOk origin total [] state) (chain : ChainOk env state) : ChainOk env stored := by
  have unlinked := data.not_linked tree
  have live : ∀ block, stored.Live block ↔ state.Live block := by
    intro block
    rw [ChainState.Live, ChainState.Live, data.linked_iff tree, data.branch]
    simp only [data.failed]
  apply chain.grow tree unlinked (fun block _ => data.branch block) (fun block _ => data.linked_iff tree block)
    (fun block _ => congrFun data.key block) (fun block _ => live block) data.active
  · rw [data.candidates]
    exact fun block member => (data.linked_iff tree block).mpr (chain.candidates block member)
  · intro block failed
    rw [data.failed] at failed
    obtain ⟨cause, member, causeFailed, reason⟩ := chain.failures block failed
    have apart : cause ≠ hash := by
      intro same
      have alive := data.alive
      rw [← same, CBlockIndex.failed, causeFailed] at alive
      cases alive
    rw [data.branch]
    refine ⟨cause, member, ?_⟩
    rw [data.index cause]
    simp only [if_neg apart]
    exact ⟨causeFailed, reason⟩
  · rw [data.candidates]
    exact fun _ member => member
  · exact fun isLive => absurd ((data.linked_iff tree hash).mp isLive.1) unlinked

end DataStored

/-- One queued block is linked, and those waiting for it have left the map. -/
structure BlockLinked (env : NodeEnv) (state : ChainState) (hash : Uint256) (linked : ChainState) : Prop where
  mapBlockIndex : linked.mapBlockIndex = state.mapBlockIndex
  mapBlocksUnlinked : linked.mapBlocksUnlinked = state.mapBlocksUnlinked.filter fun pair => pair.1 ≠ hash
  active : linked.chainActive = state.chainActive
  index : linked.index hash = { state.index hash with
    nChainTx := ((((state.index hash).pprev.map state.index).map nChainTx).getD 0 +
      (state.index hash).nTx) % 4294967296
    nSequenceId := (linked.index hash).nSequenceId }
  other : ∀ block, block ≠ hash → linked.index block = state.index block
  kept : ∀ block ∈ state.setBlockIndexCandidates, block ∈ linked.setBlockIndexCandidates
  added : ∀ block ∈ linked.setBlockIndexCandidates, block ∈ state.setBlockIndexCandidates ∨ block = hash
  compared : hash ∈ linked.setBlockIndexCandidates ∨
    ∃ tip, linked.tip = some tip ∧ linked.key env hash < linked.key env tip

theorem linkBlock_unlinked (env : NodeEnv) (state : ChainState) (hash : Uint256) :
    (linkBlock env state hash).mapBlocksUnlinked = state.mapBlocksUnlinked := by
  rw [linkBlock]
  split <;> rfl

theorem linkBlock_linked (env : NodeEnv) (state : ChainState) (hash : Uint256) :
    BlockLinked env state hash { linkBlock env state hash with
      mapBlocksUnlinked := (linkBlock env state hash).mapBlocksUnlinked.filter fun pair => pair.1 ≠ hash } := by
  rw [linkBlock]
  generalize isLinked : ({ state.modify hash fun entry => { entry with
      nChainTx := ((((state.index hash).pprev.map state.index).map nChainTx).getD 0 + entry.nTx) % 4294967296
      nSequenceId := state.nBlockSequenceId } with
    nBlockSequenceId := state.nBlockSequenceId + 1 } : ChainState) = linked
  have map : linked.mapBlockIndex = state.mapBlockIndex := by rw [← isLinked]; rfl
  have unlinked : linked.mapBlocksUnlinked = state.mapBlocksUnlinked := by rw [← isLinked]; rfl
  have active : linked.chainActive = state.chainActive := by rw [← isLinked]; rfl
  have candidates : linked.setBlockIndexCandidates = state.setBlockIndexCandidates := by rw [← isLinked]; rfl
  have here : linked.index hash = { state.index hash with
      nChainTx := ((((state.index hash).pprev.map state.index).map nChainTx).getD 0 +
        (state.index hash).nTx) % 4294967296
      nSequenceId := (linked.index hash).nSequenceId } := by
    rw [← isLinked]
    simp [ChainState.modify]
  have other : ∀ block, block ≠ hash → linked.index block = state.index block := by
    intro block apart
    rw [← isLinked]
    exact Function.update_of_ne apart _ _
  split
  · refine ⟨map, ?_, active, here, other, ?_, ?_, .inl (mem_insert_self)⟩
    · rw [insertCandidate, unlinked]
    · intro block member
      exact mem_insert_of_mem (candidates ▸ member)
    · intro block member
      rcases mem_insert_iff.mp member with same | old
      · exact .inr same
      · exact .inl (candidates ▸ old)
  · rename_i worse
    refine ⟨map, ?_, active, here, other, ?_, ?_, .inr ?_⟩
    · rw [unlinked]
    · exact fun block member => candidates ▸ member
    · exact fun block member => .inl (candidates ▸ member)
    · cases isTip : linked.tip with
      | none =>
        rw [isTip] at worse
        exact absurd rfl worse
      | some tip =>
        rw [isTip] at worse
        refine ⟨tip, isTip, (linked.worse_iff env hash tip).mp ?_⟩
        simpa using worse

namespace BlockLinked

variable {hash : Uint256} {queue : List Uint256} {linked : ChainState}

variable (link : BlockLinked env state hash linked)
include link

variable (block : Uint256)

theorem ancestors : (linked.index block).ancestors = (state.index block).ancestors := by
  by_cases same : block = hash
  · rw [same, link.index]
  · rw [link.other block same]

theorem branch : linked.branch block = state.branch block := by
  rw [ChainState.branch, ChainState.branch, link.ancestors]

/-- Only the block's transaction count and sequence id change. -/
theorem fields : (linked.index block).nChainWork = (state.index block).nChainWork ∧
      (linked.index block).nTx = (state.index block).nTx ∧
      (linked.index block).nValid = (state.index block).nValid ∧
      (linked.index block).fHaveData = (state.index block).fHaveData ∧
      (linked.index block).fFailedValid = (state.index block).fFailedValid ∧
      (linked.index block).failed = (state.index block).failed := by
  by_cases same : block = hash
  · rw [same, link.index]
    exact ⟨rfl, rfl, rfl, rfl, rfl, rfl⟩
  · rw [link.other block same]
    exact ⟨rfl, rfl, rfl, rfl, rfl, rfl⟩

theorem branchTx : linked.branchTx block = state.branchTx block := by
  rw [ChainState.branchTx, link.branch]
  congr 1
  apply map_congr_left
  intro other _
  exact (link.fields other).2.1

/-- The sum counts the branch's transactions without overflow. -/
theorem nChainTx (tree : TreeOk origin total (hash :: queue) state) (fits : total < 4294967296) :
    0 < (linked.index hash).nChainTx ∧ (linked.index hash).nChainTx ≤ state.branchTx hash := by
  have received := (tree.queued hash mem_cons_self).1
  have positive := tree.positive hash received
  have bound := tree.total hash
  have prevSum : (((state.index hash).pprev.map state.index).map CBlockIndex.nChainTx).getD 0 + (state.index hash).nTx ≤
      state.branchTx hash := by
    rw [ChainState.branchTx, ChainState.branch, map_cons, sum_cons]
    cases below : (state.index hash).ancestors with
    | nil =>
      rw [CBlockIndex.pprev, below]
      exact Nat.le_of_eq (Nat.add_comm _ _)
    | cons prev rest =>
      have part : prev :: rest <:+ state.branch hash := by
        rw [ChainState.branch, below]
        exact suffix_cons hash (prev :: rest)
      have prevBranch := tree.branches.branch_suffix part
      have prevBound := tree.chainTx prev
      rw [ChainState.branchTx, prevBranch] at prevBound
      rw [CBlockIndex.pprev, below]
      show (state.index prev).nChainTx + (state.index hash).nTx ≤ _
      omega
  have value : (linked.index hash).nChainTx =
      (((state.index hash).pprev.map state.index).map CBlockIndex.nChainTx).getD 0 + (state.index hash).nTx := by
    rw [link.index]
    exact Nat.mod_eq_of_lt (by omega)
  omega

theorem linked_iff (tree : TreeOk origin total (hash :: queue) state) (fits : total < 4294967296) (block : Uint256) :
    linked.Linked block ↔ block = hash ∨ state.Linked block := by
  by_cases same : block = hash
  · subst same
    exact iff_of_true (Nat.ne_of_gt (link.nChainTx tree fits).1) (.inl rfl)
  · rw [or_iff_right same, ChainState.Linked, ChainState.Linked, link.other block same]

/-- The blocks waiting for the linked one are queued now. -/
theorem distinct (others : (queue ++ state.mapBlocksUnlinked.map snd).Nodup) :
    ((queue ++ (state.mapBlocksUnlinked.filter fun pair => pair.1 = hash).map snd) ++
      linked.mapBlocksUnlinked.map snd).Nodup := by
  rw [link.mapBlocksUnlinked, append_assoc, ← map_append]
  have split := (filter_append_perm (fun pair => decide (pair.1 = hash)) state.mapBlocksUnlinked).map snd
  have same := split.append_left queue
  simp only [← decide_not] at same
  exact same.nodup_iff.mpr others

/-- The blocks that waited for the linked one are queued. -/
theorem waits (linkedIff : ∀ block, linked.Linked block ↔ block = hash ∨ state.Linked block) {excuse : Uint256 → Prop}
    (waits : Waits excuse (hash :: queue) state) :
    Waits excuse (queue ++ (state.mapBlocksUnlinked.filter fun pair => pair.1 = hash).map snd) linked := by
  intro block received unlinked
  rw [(link.fields block).2.2.2.1] at received
  rw [linkedIff, not_or] at unlinked
  rcases waits block received unlinked.2 with queued | ⟨prev, first, reason⟩
  · exact .inl (mem_append_left _ ((mem_cons.mp queued).resolve_left unlinked.1))
  · by_cases same : prev = hash ∧ (prev, block) ∈ state.mapBlocksUnlinked
    · refine .inl (mem_append_right _ (mem_map.mpr ⟨(prev, block), ?_, rfl⟩))
      rw [mem_filter, decide_eq_true_eq]
      exact ⟨same.2, same.1⟩
    · refine .inr ⟨prev, ?_, ?_⟩
      · rw [CBlockIndex.pprev, link.ancestors]
        exact first
      · rw [link.mapBlocksUnlinked, linkedIff, not_or]
        apply reason.imp_right
        rintro ⟨member, prevUnlinked⟩
        have apart : prev ≠ hash := fun isHash => same ⟨isHash, member⟩
        exact ⟨mem_filter.mpr ⟨member, by simpa using apart⟩, apart, prevUnlinked⟩

/-- The blocks that waited for the linked one join the queue. -/
theorem tree (tree : TreeOk origin total (hash :: queue) state) (fits : total < 4294967296) : TreeOk origin total
      (queue ++ (state.mapBlocksUnlinked.filter fun pair => pair.1 = hash).map snd) linked := by
  have linkedIff := link.linked_iff tree fits
  obtain ⟨hereData, hereUnlinked, hereBelow⟩ := tree.queued hash mem_cons_self
  have distinct := tree.distinct
  rw [cons_append, nodup_cons, mem_append, not_or] at distinct
  obtain ⟨⟨notQueued, notWaiting⟩, others⟩ := distinct
  have waitingElse : ∀ pair ∈ state.mapBlocksUnlinked, pair.2 ≠ hash := by
    intro pair member same
    exact notWaiting (mem_map.mpr ⟨pair, member, same⟩)
  refine {
    genesis := (linkedIff _).mpr (.inr tree.genesis)
    known := (tree.branches.of_same link.mapBlockIndex link.ancestors).known
    suffix := (tree.branches.of_same link.mapBlockIndex link.ancestors).suffix
    received := ?_, valid := ?_, work := ?_, root := ?_, data := ?_, below := ?_,
    positive := ?_, chainTx := ?_, total := ?_, unlinked := ?_, queued := ?_, distinct := ?_, waiting := ?_ }
  · intro block received
    rw [(link.fields block).2.2.2.1] at received
    rw [link.mapBlockIndex]
    exact tree.received block received
  · intro block member
    rw [link.mapBlockIndex] at member
    rw [(link.fields block).2.2.1]
    exact tree.valid block member
  · intro block other member
    rw [link.ancestors] at member
    rw [(link.fields block).1, (link.fields other).1]
    exact tree.work block other member
  · intro block member lowest
    rw [link.mapBlockIndex] at member
    rw [link.ancestors] at lowest
    exact tree.root block member lowest
  · intro block isLinked
    rw [(link.fields block).2.2.2.1]
    rcases (linkedIff block).mp isLinked with rfl | old
    · exact hereData
    · exact tree.data block old
  · intro block isLinked other member
    rw [link.ancestors] at member
    apply (linkedIff other).mpr
    rcases (linkedIff block).mp isLinked with rfl | old
    · exact .inr (hereBelow other member)
    · exact .inr (tree.below block old other member)
  · intro block received
    rw [(link.fields block).2.2.2.1] at received
    rw [(link.fields block).2.1]
    exact tree.positive block received
  · intro block
    rw [link.branchTx]
    by_cases same : block = hash
    · rw [same]
      exact (link.nChainTx tree fits).2
    · rw [link.other block same]
      exact tree.chainTx block
  · intro block
    rw [link.branchTx]
    exact tree.total block
  · intro pair member
    rw [link.mapBlocksUnlinked] at member
    have old := (mem_filter.mp member).1
    obtain ⟨first, received, unlinked⟩ := tree.unlinked pair old
    rw [CBlockIndex.pprev, link.ancestors, (link.fields pair.2).2.2.2.1, linkedIff, not_or]
    exact ⟨first, received, waitingElse pair old, unlinked⟩
  · intro block member
    rw [link.ancestors, (link.fields block).2.2.2.1, linkedIff, not_or]
    rcases mem_append.mp member with old | moved
    · obtain ⟨received, unlinked, below⟩ := tree.queued block (mem_cons_of_mem hash old)
      refine ⟨received, ⟨fun same => notQueued (same ▸ old), unlinked⟩, ?_⟩
      exact fun other inside => (linkedIff other).mpr (.inr (below other inside))
    · obtain ⟨pair, inside, rfl⟩ := mem_map.mp moved
      obtain ⟨inMap, isHash⟩ := mem_filter.mp inside
      rw [decide_eq_true_eq] at isHash
      obtain ⟨first, received, unlinked⟩ := tree.unlinked pair inMap
      refine ⟨received, ⟨waitingElse pair inMap, unlinked⟩, ?_⟩
      -- its branch is the linked block and the branch below that one
      obtain ⟨rest, split⟩ := head?_eq_some_iff.mp first
      intro other lower
      apply (linkedIff other).mpr
      rw [split, isHash] at lower
      rcases mem_cons.mp lower with same | deeper
      · exact .inl same
      · have below : (state.index hash).ancestors = rest := by
          apply tree.suffix pair.2
          rw [split, isHash]
        exact .inr (hereBelow other (below ▸ deeper))
  · exact link.distinct others
  · intro block received unlinked
    have waits := link.waits linkedIff tree.waits
    simp only [fun prev => (link.fields prev).2.2.2.2.2]
    exact waits block received unlinked

/-- A linked block becomes a candidate unless worse than the tip. -/
theorem chain (tree : TreeOk origin total (hash :: queue) state) (fits : total < 4294967296)
    (chain : ChainOk env state) : ChainOk env linked := by
  have linkedIff := link.linked_iff tree fits
  have others : ∀ block ≠ hash, linked.Linked block ↔ state.Linked block := fun block apart =>
    (linkedIff block).trans (or_iff_right apart)
  apply chain.grow tree (tree.queued hash mem_cons_self).2.1 (fun block _ => link.branch block) others _ _ link.active
  · intro block member
    apply (linkedIff block).mpr
    rcases link.added block member with old | new
    · exact .inr (chain.candidates block old)
    · exact .inl new
  · intro block failed
    rw [(link.fields block).2.2.2.2.2] at failed
    obtain ⟨cause, member, reason⟩ := chain.failures block failed
    rw [link.branch]
    refine ⟨cause, member, ?_⟩
    rw [(link.fields cause).2.2.2.1, (link.fields cause).2.2.2.2.1]
    exact reason
  · exact link.kept
  · exact fun _ => link.compared
  · intro block apart
    rw [key, key, link.other block apart]
  · intro block apart
    rw [ChainState.Live, ChainState.Live, others block apart, link.branch]
    simp only [fun other => (link.fields other).2.2.2.2.2]

end BlockLinked

/-- What linking a block keeps, the loop keeps, and it ends. -/
theorem linkBlocks_keeps (invariant : List Uint256 → ChainState → Prop)
    (step : ∀ {hash : Uint256} {queue : List Uint256} {state linked : ChainState}, BlockLinked env state hash linked →
      invariant (hash :: queue) state →
        invariant (queue ++ (state.mapBlocksUnlinked.filter fun pair => pair.1 = hash).map snd) linked)
    {queue : List Uint256} {fuel : Nat} (holds : invariant queue state)
    (enough : queue.length + state.mapBlocksUnlinked.length ≤ fuel) : invariant [] (linkBlocks env fuel state queue) := by
  induction fuel generalizing state queue with
  | zero =>
    have empty : queue = [] := length_eq_zero_iff.mp (by omega)
    subst empty
    exact holds
  | succ fuel ih =>
    cases queue with
    | nil => exact holds
    | cons hash rest =>
      have linked := step (linkBlock_linked env state hash) holds
      have pairs := linkBlock_unlinked env state hash
      have count := (filter_append_perm (fun pair => decide (pair.1 = hash)) state.mapBlocksUnlinked).length_eq
      rw [← pairs] at linked
      apply ih linked
      simp only [length_append, length_map, pairs, ← decide_not, ne_eq, length_cons] at count enough ⊢
      omega

/-- The loop over the queue leaves nothing to link. -/
theorem linkBlocks_ok {queue : List Uint256} {fuel : Nat} (tree : TreeOk origin total queue state)
    (chain : ChainOk env state) (fits : total < 4294967296)
    (enough : queue.length + state.mapBlocksUnlinked.length ≤ fuel) :
    TreeOk origin total [] (linkBlocks env fuel state queue) ∧ ChainOk env (linkBlocks env fuel state queue) := by
  apply linkBlocks_keeps (fun queue state => TreeOk origin total queue state ∧ ChainOk env state) _
    ⟨tree, chain⟩ enough
  rintro hash queue state linked link ⟨stateTree, stateChain⟩
  exact ⟨link.tree stateTree fits, link.chain stateTree fits stateChain⟩

end Straks.Activation
