import Straks.Construction.Activation.BestChain
import Mathlib.Data.Prod.Lex
import Mathlib.Data.List.Infix
import Mathlib.Data.List.TakeWhile
import Mathlib.Algebra.Order.Group.Int
import Mathlib.Algebra.BigOperators.Group.List.Basic

namespace Straks.Activation
open Candidates List ChainState CBlockIndex

variable (env : NodeEnv) (state : ChainState)

/-- The order of the candidates: more work, the earlier sequence id, the lower address. -/
def ChainState.key (hash : Uint256) : ℕ ×ₗ ℤ ×ₗ ℤ :=
  toLex ((state.index hash).nChainWork, toLex (-(state.index hash).nSequenceId, -(env.address hash : ℤ)))

theorem ChainState.worse_iff (pa pb : Uint256) :
    state.worse env pa pb = true ↔ state.key env pa < state.key env pb := by
  rw [worse, key, key, Prod.Lex.toLex_lt_toLex, Prod.Lex.toLex_lt_toLex]
  repeat' split
  all_goals simp only [Bool.false_eq_true, false_iff, true_iff]
  all_goals omega

variable (state : ChainState)

@[simp]
theorem ChainState.contains_iff {hash : Uint256} : state.contains hash = true ↔ hash ∈ state.chainActive :=
  decide_eq_true_iff

variable (hash : Uint256)

theorem ChainState.modify_index (change : CBlockIndex → CBlockIndex)
    (block : Uint256) : (state.modify hash change).index block =
      if block = hash then change (state.index block) else state.index block := by
  by_cases same : block = hash
  · rw [same, if_pos rfl]
    exact Function.update_self _ _ _
  · rw [if_neg same]
    exact Function.update_of_ne same _ _

theorem ChainState.mem_eraseCandidate {state : ChainState} {hash block : Uint256} :
    block ∈ (state.eraseCandidate hash).setBlockIndexCandidates ↔
      block ∈ state.setBlockIndexCandidates ∧ block ≠ hash := by
  rw [eraseCandidate, mem_filter, decide_eq_true_eq]

theorem CBlockIndex.failed_iff (pindex : CBlockIndex) :
    pindex.failed = true ↔ pindex.fFailedValid = true ∨ pindex.fFailedChild = true :=
  Bool.or_eq_true_iff

/-- All transactions of the branch are known to be there. -/
def ChainState.Linked : Prop := (state.index hash).nChainTx ≠ 0

/-- A linked block in whose branch no block has failed. -/
def ChainState.Live : Prop :=
  state.Linked hash ∧ ∀ block ∈ state.branch hash, (state.index block).failed = false

instance   : Decidable (state.Live hash) :=
  inferInstanceAs (Decidable ((state.index hash).nChainTx ≠ 0 ∧ _))

/-- A linked block whose whole branch can be connected. -/
def ChainState.Sound (hash : Uint256) : Prop :=
  state.Linked hash ∧ ∀ block ∈ state.branch hash, env.connectBlock block = .valid

/-- The transactions of a branch, as far as received. -/
def ChainState.branchTx : Nat :=
  ((state.branch hash).map fun block => (state.index block).nTx).sum

/-- Branches are closed under predecessors, with all blocks in the index. -/
structure BranchesOk : Prop where
  known : ∀ hash, ∀ block ∈ (state.index hash).ancestors, block ∈ state.mapBlockIndex
  suffix : ∀ hash block below, block :: below <:+ (state.index hash).ancestors →
    (state.index block).ancestors = below

namespace BranchesOk

variable {state : ChainState} {block hash : Uint256}

variable (branches : BranchesOk state)
include branches

/-- Branches do not depend on anything else. -/
theorem of_same {later : ChainState} (known : later.mapBlockIndex = state.mapBlockIndex)
    (ancestors : ∀ hash, (later.index hash).ancestors = (state.index hash).ancestors) : BranchesOk later := by
  constructor
  · simp only [ancestors, known]
    exact branches.known
  · simp only [ancestors]
    exact branches.suffix

/-- The branch of a block of a branch is the part of it from there on. -/
theorem branch_suffix {below : List Uint256} (part : block :: below <:+ state.branch hash) :
    state.branch block = block :: below := by
  rcases suffix_cons_iff.mp part with whole | inside
  · obtain ⟨rfl, rfl⟩ := List.cons.inj whole
    rfl
  · rw [branch, branches.suffix hash block below inside]

theorem branch_of_mem (member : block ∈ state.branch hash) : state.branch block <:+ state.branch hash := by
  obtain ⟨above, below, split⟩ := append_of_mem member
  have part : block :: below <:+ state.branch hash := split ▸ suffix_append above (block :: below)
  rw [branches.branch_suffix part]
  exact part

theorem known_branch (known : hash ∈ state.mapBlockIndex) (member : block ∈ state.branch hash) :
    block ∈ state.mapBlockIndex := by
  rcases mem_cons.mp member with rfl | below
  · exact known
  · exact branches.known hash block below

/-- The branch of a block above another is what is left of the whole one, still with the other block. -/
theorem branch_of_above {pindexNew test : Uint256} (above : block ∈ (state.branch pindexNew).takeWhile (· ≠ test)) :
    ∃ first, state.branch pindexNew = first ++ state.branch block ∧ test ∉ first := by
  obtain ⟨first, rest, split⟩ := append_of_mem above
  have whole : state.branch pindexNew = first ++ block ::
      (rest ++ (state.branch pindexNew).dropWhile (· ≠ test)) := by
    rw [← cons_append, ← append_assoc, ← split]
    exact takeWhile_append_dropWhile.symm
  refine ⟨first, whole.trans (congrArg _ (branches.branch_suffix ⟨first, whole.symm⟩).symm), fun taken => ?_⟩
  have apart := mem_takeWhile_imp (split ▸ mem_append_left _ taken)
  simp at apart

/-- A block above another has it in its own branch. -/
theorem mem_branch_of_above {pindexNew test : Uint256} (member : test ∈ state.branch pindexNew)
    (above : block ∈ (state.branch pindexNew).takeWhile (· ≠ test)) : test ∈ state.branch block := by
  obtain ⟨first, whole, outside⟩ := branches.branch_of_above above
  exact (mem_append.mp (whole ▸ member)).resolve_left outside

/-- The blocks under a tip are the branch of its predecessor. -/
theorem setTip_pprev (tip : Uint256) :
    ((state.index tip).pprev.map state.branch).getD [] = (state.index tip).ancestors := by
  cases below : (state.index tip).ancestors with
  | nil => rw [pprev, below]; rfl
  | cons prev rest =>
    have part : prev :: rest <:+ state.branch tip := by
      rw [branch, below]
      exact suffix_cons tip (prev :: rest)
    rw [pprev, below]
    exact branches.branch_suffix part

end BranchesOk

/-- The block tree with blocks about to be linked. -/
structure TreeOk (hashGenesisBlock : Uint256) (total : Nat) (queue : List Uint256) (state : ChainState) : Prop where
  genesis : state.Linked hashGenesisBlock
  received : ∀ hash, (state.index hash).fHaveData = true → hash ∈ state.mapBlockIndex
  valid : ∀ hash ∈ state.mapBlockIndex, blockValidTree ≤ (state.index hash).nValid
  known : ∀ hash, ∀ block ∈ (state.index hash).ancestors, block ∈ state.mapBlockIndex
  suffix : ∀ hash block below, block :: below <:+ (state.index hash).ancestors →
    (state.index block).ancestors = below
  work : ∀ hash, ∀ block ∈ (state.index hash).ancestors,
    (state.index block).nChainWork < (state.index hash).nChainWork
  root : ∀ hash ∈ state.mapBlockIndex, (state.index hash).ancestors = [] → hash = hashGenesisBlock
  data : ∀ hash, state.Linked hash → (state.index hash).fHaveData = true
  below : ∀ hash, state.Linked hash → ∀ block ∈ (state.index hash).ancestors, state.Linked block
  positive : ∀ hash, (state.index hash).fHaveData = true → 0 < (state.index hash).nTx
  chainTx : ∀ hash, (state.index hash).nChainTx ≤ state.branchTx hash
  total : ∀ hash, state.branchTx hash ≤ total
  unlinked : ∀ pair ∈ state.mapBlocksUnlinked, (state.index pair.2).pprev = some pair.1 ∧
    (state.index pair.2).fHaveData = true ∧ ¬ state.Linked pair.2
  queued : ∀ hash ∈ queue, (state.index hash).fHaveData = true ∧ ¬ state.Linked hash ∧
    ∀ block ∈ (state.index hash).ancestors, state.Linked block
  distinct : (queue ++ state.mapBlocksUnlinked.map Prod.snd).Nodup
  /-- A received unlinked block waits for the one below, unless that has failed. -/
  waiting : ∀ hash, (state.index hash).fHaveData = true → ¬ state.Linked hash → hash ∈ queue ∨
    ∃ prev, (state.index hash).pprev = some prev ∧ ((state.index prev).failed = true ∨
      (prev, hash) ∈ state.mapBlocksUnlinked ∧ ¬ state.Linked prev)

/-- A received unlinked block is queued or waits for the one below, unless that is an excuse. -/
def Waits (excuse : Uint256 → Prop) (queue : List Uint256) (state : ChainState) : Prop :=
  ∀ hash, (state.index hash).fHaveData = true → ¬ state.Linked hash → hash ∈ queue ∨
    ∃ prev, (state.index hash).pprev = some prev ∧ (excuse prev ∨
      (prev, hash) ∈ state.mapBlocksUnlinked ∧ ¬ state.Linked prev)

/-- A block with a received branch and no excuse is linked. -/
theorem Waits.linked_of_received {excuse : Uint256 → Prop} {state : ChainState} (waits : Waits excuse [] state)
    (branches : BranchesOk state) {hash : Uint256}
    (received : ∀ block ∈ state.branch hash, (state.index block).fHaveData = true ∧ ¬ excuse block) :
    state.Linked hash := by
  suffices parts : ∀ part, part <:+ state.branch hash → ∀ block ∈ part, state.Linked block from
    parts _ (suffix_refl _) hash mem_cons_self
  intro part inside
  induction part with
  | nil => exact fun _ member => nomatch member
  | cons first below ih =>
    have rest := ih ((suffix_cons first below).trans inside)
    intro block member
    rcases mem_cons.mp member with rfl | later
    · by_contra unlinked
      have ancestors := (List.cons.inj (branches.branch_suffix inside)).2
      have here := received block (inside.mem mem_cons_self)
      rcases waits block here.1 unlinked with queued | ⟨prev, first, reason⟩
      · cases queued
      · rw [pprev, ancestors] at first
        have inBelow : prev ∈ below := mem_of_head? first
        rcases reason with excused | ⟨_, prevUnlinked⟩
        · exact (received prev (inside.mem (mem_cons_of_mem block inBelow))).2 excused
        · exact prevUnlinked (rest prev inBelow)
    · exact rest block later

namespace TreeOk

variable {origin : Uint256} {total : Nat} {queue : List Uint256} {state : ChainState}

theorem branches (tree : TreeOk origin total queue state) : BranchesOk state := ⟨tree.known, tree.suffix⟩

variable {hash block : Uint256}

section

variable (tree : TreeOk origin total queue state)
include tree

theorem linked_branch (linked : state.Linked hash) : ∀ block ∈ state.branch hash, state.Linked block := by
  intro block member
  rcases mem_cons.mp member with rfl | inside
  · exact linked
  · exact tree.below hash linked block inside

theorem live_branch (live : state.Live hash) (member : block ∈ state.branch hash) : state.Live block :=
  ⟨tree.linked_branch live.1 block member, fun other inside => live.2 other ((tree.branches.branch_of_mem member).mem inside)⟩

theorem sound_branch {env : NodeEnv} (sound : state.Sound env hash) (member : block ∈ state.branch hash) :
    state.Sound env block :=
  ⟨tree.linked_branch sound.1 block member, fun other inside => sound.2 other ((tree.branches.branch_of_mem member).mem inside)⟩

theorem key_lt (env : NodeEnv) (member : block ∈ (state.index hash).ancestors) :
    state.key env block < state.key env hash := by
  rw [key, key, Prod.Lex.toLex_lt_toLex]
  exact .inl (tree.work hash block member)

theorem key_le (env : NodeEnv) (member : block ∈ state.branch hash) : state.key env block ≤ state.key env hash := by
  rcases mem_cons.mp member with rfl | inside
  · exact le_refl _
  · exact (tree.key_lt env inside).le

theorem not_mem_ancestors (hash : Uint256) : hash ∉ (state.index hash).ancestors :=
  fun member => Nat.lt_irrefl _ (tree.work hash hash member)

/-- No block stands twice in a branch. -/
theorem branch_nodup (hash : Uint256) : (state.branch hash).Nodup := by
  suffices parts : ∀ part, part <:+ state.branch hash → part.Nodup from parts _ (suffix_refl _)
  intro part inside
  induction part with
  | nil => exact nodup_nil
  | cons block below ih =>
    have rest := ih ((suffix_cons block below).trans inside)
    have same := List.cons.inj (tree.branches.branch_suffix inside)
    rw [nodup_cons, ← same.2]
    exact ⟨tree.not_mem_ancestors block, same.2 ▸ rest⟩

theorem waits : Waits (fun prev => (state.index prev).failed = true) queue state := tree.waiting

end

/-- A block with a received branch and no failure is linked. -/
theorem linked_of_received (tree : TreeOk origin total [] state)
    (received : ∀ block ∈ state.branch hash, (state.index block).fHaveData = true ∧ (state.index block).failed = false) :
    state.Linked hash := by
  apply tree.waits.linked_of_received tree.branches
  intro block member
  rw [Bool.not_eq_true]
  exact received block member

end TreeOk

/-- Only failure marks, candidates, active chain and clock differ. -/
structure Reflagged (state later : ChainState) : Prop where
  mapBlockIndex : later.mapBlockIndex = state.mapBlockIndex
  mapBlocksUnlinked : later.mapBlocksUnlinked = state.mapBlocksUnlinked
  index : ∀ hash, later.index hash = { state.index hash with
    fFailedValid := (later.index hash).fFailedValid, fFailedChild := (later.index hash).fFailedChild }

namespace Reflagged

variable {state later : ChainState}

theorem trans {last : ChainState} (first : Reflagged state later) (second : Reflagged later last) :
    Reflagged state last where
  mapBlockIndex := second.mapBlockIndex.trans first.mapBlockIndex
  mapBlocksUnlinked := second.mapBlocksUnlinked.trans first.mapBlocksUnlinked
  index := by
    intro hash
    rw [second.index hash, first.index hash]

variable (same : Reflagged state later)
include same

variable (hash : Uint256)

theorem ancestors : (later.index hash).ancestors = (state.index hash).ancestors := by rw [same.index hash]

theorem branch : later.branch hash = state.branch hash := by
  rw [ChainState.branch, ChainState.branch, same.ancestors]

theorem linked : later.Linked hash ↔ state.Linked hash := by
  rw [ChainState.Linked, ChainState.Linked, same.index hash]

theorem data : (later.index hash).fHaveData = (state.index hash).fHaveData := by rw [same.index hash]

theorem branchTx : later.branchTx hash = state.branchTx hash := by
  rw [ChainState.branchTx, same.branch]
  congr 1
  apply map_congr_left
  intro block _
  rw [same.index block]

theorem branches (branches : BranchesOk state) : BranchesOk later :=
  branches.of_same same.mapBlockIndex same.ancestors

theorem waits {excuse : Uint256 → Prop} {queue : List Uint256} (waits : Waits excuse queue state) :
    Waits excuse queue later := by
  intro hash data unlinked
  rw [same.data] at data
  rw [same.linked] at unlinked
  apply (waits hash data unlinked).imp_right
  rintro ⟨prev, first, reason⟩
  refine ⟨prev, ?_, ?_⟩
  · rw [pprev, same.ancestors]
    exact first
  · rw [same.mapBlocksUnlinked, same.linked]
    exact reason

/-- The tree does not depend on failure marks, but for blocks not registered because of one. -/
theorem tree {origin : Uint256} {total : Nat} {queue : List Uint256} (tree : TreeOk origin total queue state)
    (waits : Waits (fun prev => (later.index prev).failed = true) queue state) : TreeOk origin total queue later := by
  have nValid (hash : Uint256) : (later.index hash).nValid = (state.index hash).nValid := by rw [same.index hash]
  have nChainWork (hash : Uint256) : (later.index hash).nChainWork = (state.index hash).nChainWork := by
    rw [same.index hash]
  have nTx (hash : Uint256) : (later.index hash).nTx = (state.index hash).nTx := by rw [same.index hash]
  have nChainTx (hash : Uint256) : (later.index hash).nChainTx = (state.index hash).nChainTx := by
    rw [same.index hash]
  refine ⟨?_, ?_, ?_, ?_, ?_, ?_, ?_, ?_, ?_, ?_, ?_, ?_, ?_, ?_, ?_, same.waits waits⟩
  all_goals simp only [same.mapBlockIndex, same.mapBlocksUnlinked, same.ancestors, same.linked, same.data,
    same.branchTx, pprev, nValid, nChainWork, nTx, nChainTx]
  exacts [tree.genesis, tree.received, tree.valid, tree.known, tree.suffix, tree.work, tree.root, tree.data, tree.below,
    tree.positive, tree.chainTx, tree.total, tree.unlinked, tree.queued, tree.distinct]

end Reflagged

/-- Only candidates, active chain and clock differ, and further failure marks. -/
structure Marks (state later : ChainState) : Prop where
  mapBlockIndex : later.mapBlockIndex = state.mapBlockIndex
  mapBlocksUnlinked : later.mapBlocksUnlinked = state.mapBlocksUnlinked
  index : ∀ hash, later.index hash = { state.index hash with
    fFailedValid := (later.index hash).fFailedValid, fFailedChild := (later.index hash).fFailedChild }
  failed : ∀ hash, (state.index hash).failed = true → (later.index hash).failed = true

namespace Marks

variable {state later : ChainState}

theorem reflagged (marks : Marks state later) : Reflagged state later :=
  ⟨marks.mapBlockIndex, marks.mapBlocksUnlinked, marks.index⟩

theorem refl (state : ChainState) : Marks state state := ⟨rfl, rfl, fun _ => rfl, fun _ failed => failed⟩

theorem trans {last : ChainState} (first : Marks state later) (second : Marks later last) : Marks state last where
  mapBlockIndex := second.mapBlockIndex.trans first.mapBlockIndex
  mapBlocksUnlinked := second.mapBlocksUnlinked.trans first.mapBlocksUnlinked
  index := (first.reflagged.trans second.reflagged).index
  failed := fun hash failed => second.failed hash (first.failed hash failed)

section

variable (marks : Marks state later)
include marks

variable (hash : Uint256)

theorem branch : later.branch hash = state.branch hash :=
  marks.reflagged.branch hash

theorem linked : later.Linked hash ↔ state.Linked hash :=
  marks.reflagged.linked hash

theorem data : (later.index hash).fHaveData = (state.index hash).fHaveData := marks.reflagged.data hash

theorem key (env : NodeEnv) : later.key env = state.key env := by
  funext hash
  rw [ChainState.key, ChainState.key, marks.index hash]

theorem sound (env : NodeEnv) (hash : Uint256) : later.Sound env hash ↔ state.Sound env hash := by
  rw [ChainState.Sound, ChainState.Sound, marks.linked, marks.branch]

theorem not_failed {hash : Uint256} (alive : (later.index hash).failed = false) :
    (state.index hash).failed = false := by
  rw [Bool.eq_false_iff] at alive ⊢
  exact fun failed => alive (marks.failed hash failed)

/-- Blocks only die. -/
theorem live {hash : Uint256} (live : later.Live hash) : state.Live hash := by
  refine ⟨(marks.linked hash).mp live.1, ?_⟩
  intro block member
  rw [← marks.branch] at member
  exact marks.not_failed (live.2 block member)

/-- The tree does not depend on what activation changes. -/
theorem tree {origin : Uint256} {total : Nat} {queue : List Uint256}
    (tree : TreeOk origin total queue state) : TreeOk origin total queue later := by
  apply marks.reflagged.tree tree
  intro hash data unlinked
  apply (tree.waiting hash data unlinked).imp_right
  rintro ⟨prev, first, reason⟩
  exact ⟨prev, first, reason.imp_left (marks.failed prev)⟩

end

/-- One block's failure marks change, and it stays failed. -/
theorem modify (state : ChainState) (pindex : Uint256) {change : CBlockIndex → CBlockIndex}
    (flags : ∀ entry, change entry = { entry with
      fFailedValid := (change entry).fFailedValid, fFailedChild := (change entry).fFailedChild })
    (failed : ∀ entry, entry.failed = true → (change entry).failed = true) :
    Marks state (state.modify pindex change) := by
  refine ⟨rfl, rfl, ?_, ?_⟩
  · intro hash
    rw [state.modify_index]
    split
    · exact flags _
    · rfl
  · intro hash before
    rw [state.modify_index]
    split
    · exact failed _ before
    · exact before

/-- One block more is marked as invalid. -/
theorem invalid (state : ChainState) (pindex : Uint256) :
    Marks state (state.modify pindex fun entry => { entry with fFailedValid := true }) :=
  modify state pindex (fun _ => rfl) fun _ _ => rfl

end Marks

/-- Every failure goes back to an unconnectable block or rejected data. -/
def FailuresOk : Prop :=
  ∀ hash, (state.index hash).failed = true → ∃ block ∈ state.branch hash, (state.index block).fFailedValid = true ∧
    (env.connectBlock block ≠ .valid ∨ (state.index block).fHaveData = false)

/-- A block marked as invalid for one of the two reasons. -/
theorem FailuresOk.invalid {env : NodeEnv} {state : ChainState} (failures : FailuresOk env state) {pindex : Uint256}
    (reason : env.connectBlock pindex ≠ .valid ∨ (state.index pindex).fHaveData = false) :
    FailuresOk env (state.modify pindex fun entry => { entry with fFailedValid := true }) := by
  have index := state.modify_index pindex fun entry => { entry with fFailedValid := true }
  have marks := Marks.invalid state pindex
  intro hash failed
  rw [marks.branch]
  by_cases here : hash = pindex
  · refine ⟨pindex, here ▸ mem_cons_self, ?_, ?_⟩
    · rw [index, if_pos rfl]
    · rwa [marks.data]
  · rw [index, if_neg here] at failed
    obtain ⟨cause, member, causeFailed, why⟩ := failures hash failed
    refine ⟨cause, member, ?_, ?_⟩
    · rw [index]
      split
      · rfl
      · exact causeFailed
    · rwa [marks.data]

/-- The active chain and the candidates of a block tree. -/
structure ChainOk : Prop where
  candidates : ∀ hash ∈ state.setBlockIndexCandidates, state.Linked hash
  failures : FailuresOk env state
  active : state.chainActive = [] ∨ ∃ tip, state.chainActive = state.branch tip ∧ state.Sound env tip
  anchor : ∃ anchor, Covers (state.key env) state.Live state.setBlockIndexCandidates anchor ∧
    state.Sound env anchor ∧ ∀ tip, state.tip = some tip → state.key env tip ≤ state.key env anchor

section Chain

variable {env : NodeEnv} {state later : ChainState} {origin : Uint256} {total : Nat} {queue : List Uint256}

variable {hash : Uint256}

/-- A block whose branch can be connected has not failed. -/
theorem TreeOk.live_of_sound (tree : TreeOk origin total queue state) (failures : FailuresOk env state)
    (sound : state.Sound env hash) : state.Live hash := by
  refine ⟨sound.1, ?_⟩
  intro block member
  rw [Bool.eq_false_iff]
  intro failed
  obtain ⟨cause, below, _, reason⟩ := failures block failed
  have inBranch := (tree.branches.branch_of_mem member).mem below
  rcases reason with invalid | missing
  · exact invalid (sound.2 cause inBranch)
  · rw [tree.data cause (tree.linked_branch sound.1 cause inBranch)] at missing
    cases missing

/-- The blocks of the active chain can be connected. -/
theorem ChainOk.active_sound (chain : ChainOk env state) (tree : TreeOk origin total queue state)
    (member : hash ∈ state.chainActive) : state.Sound env hash := by
  rcases chain.active with empty | ⟨tip, whole, sound⟩
  · rw [empty] at member
    cases member
  · rw [whole] at member
    exact tree.sound_branch sound member

/-- A change of one block that is not linked keeps the chain, if the block is compared with the tip when it gets alive. -/
theorem ChainOk.grow (chain : ChainOk env state) (tree : TreeOk origin total queue state)
    (unlinked : ¬ state.Linked hash) (branch : ∀ block ≠ hash, later.branch block = state.branch block)
    (linked : ∀ block ≠ hash, later.Linked block ↔ state.Linked block)
    (keys : ∀ block ≠ hash, later.key env block = state.key env block)
    (live : ∀ block ≠ hash, later.Live block ↔ state.Live block) (active : later.chainActive = state.chainActive)
    (candidates : ∀ block ∈ later.setBlockIndexCandidates, later.Linked block) (failures : FailuresOk env later)
    (kept : ∀ block ∈ state.setBlockIndexCandidates, block ∈ later.setBlockIndexCandidates)
    (compared : later.Live hash → hash ∈ later.setBlockIndexCandidates ∨
      ∃ tip, later.tip = some tip ∧ later.key env hash < later.key env tip) : ChainOk env later := by
  have other : ∀ block, state.Sound env block → block ≠ hash := fun block sound same => unlinked (same ▸ sound.1)
  have sound : ∀ block, state.Sound env block → later.Sound env block := by
    intro block old
    rw [ChainState.Sound, linked block (other block old), branch block (other block old)]
    exact old
  obtain ⟨anchor, covers, anchorSound, above⟩ := chain.anchor
  have anchorOther := other anchor anchorSound
  have tipAbove : ∀ tip, later.tip = some tip → later.key env tip ≤ later.key env anchor := by
    intro tip isTip
    rw [ChainState.tip, active] at isTip
    rw [keys tip (other tip (chain.active_sound tree (mem_of_head? isTip))), keys anchor anchorOther]
    exact above tip isTip
  refine ⟨candidates, failures, ?_, anchor, ?_, sound anchor anchorSound, tipAbove⟩
  · rw [active]
    apply chain.active.imp_right
    rintro ⟨tip, whole, tipSound⟩
    exact ⟨tip, (branch tip (other tip tipSound)).symm ▸ whole, sound tip tipSound⟩
  · apply covers.extend keys (fun block apart => (live block apart).mp) anchorOther
      ((live anchor anchorOther).mpr covers.anchored) kept
    intro isLive
    apply (compared isLive).imp_right
    rintro ⟨tip, isTip, worse⟩
    exact worse.trans_le (tipAbove tip isTip)

/-- Marking failures keeps the chain when no live candidate is lost. -/
theorem ChainOk.mark (chain : ChainOk env state) (tree : TreeOk origin total queue state)
    (marks : Marks state later) (sameActive : later.chainActive = state.chainActive) (failures : FailuresOk env later)
    (fewer : later.setBlockIndexCandidates.Sublist state.setBlockIndexCandidates)
    (kept : ∀ hash ∈ state.setBlockIndexCandidates, later.Live hash → hash ∈ later.setBlockIndexCandidates) :
    ChainOk env later where
  candidates := fun hash member => (marks.linked hash).mpr (chain.candidates hash (fewer.mem member))
  failures := failures
  active := by
    rw [sameActive]
    apply chain.active.imp_right
    rintro ⟨tip, whole, sound⟩
    exact ⟨tip, (marks.branch tip).symm ▸ whole, (marks.sound env tip).mpr sound⟩
  anchor := by
    obtain ⟨anchor, covers, sound, above⟩ := chain.anchor
    have laterSound := (marks.sound env anchor).mpr sound
    have live := (marks.tree tree).live_of_sound failures laterSound
    rw [tip, sameActive, marks.key]
    exact ⟨anchor, covers.shrink (fun _ alive => marks.live alive) live kept, laterSound, above⟩

/-- The number of live candidates. -/
def ChainState.liveCount (state : ChainState) : Nat :=
  state.setBlockIndexCandidates.countP fun hash => decide (state.Live hash)

theorem Marks.countP_live_le (marks : Marks state later) (part : List Uint256) :
    (part.countP fun hash => decide (later.Live hash)) ≤ part.countP fun hash => decide (state.Live hash) := by
  apply countP_mono_left
  intro hash _ live
  rw [decide_eq_true_eq] at live ⊢
  exact marks.live live

theorem Marks.liveCount_le (marks : Marks state later)
    (fewer : later.setBlockIndexCandidates.Sublist state.setBlockIndexCandidates) :
    later.liveCount ≤ state.liveCount := fewer.countP_le.trans (marks.countP_live_le _)

/-- A candidate that dies is no longer counted. -/
theorem Marks.liveCount_lt (marks : Marks state later)
    (fewer : later.setBlockIndexCandidates.Sublist state.setBlockIndexCandidates)
    (member : hash ∈ state.setBlockIndexCandidates) (live : state.Live hash) (dead : ¬ later.Live hash) :
    later.liveCount < state.liveCount := by
  apply Nat.lt_of_le_of_lt fewer.countP_le
  obtain ⟨front, back, split⟩ := append_of_mem member
  have fronts := marks.countP_live_le front
  have backs := marks.countP_live_le back
  rw [liveCount, split, countP_append, countP_append, countP_cons_of_neg (by simpa using dead),
    countP_cons_of_pos (by simpa using live)]
  omega

end Chain

end Straks.Activation
