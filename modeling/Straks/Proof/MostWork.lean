import Straks.Proof.BlockTree

namespace Straks.Activation
open Candidates List ChainState

variable {env : NodeEnv} {state : ChainState} {origin : Uint256} {total : Nat}

/-- A block that can be connected as far as the index tells. -/
def CBlockIndex.Usable (pindex : CBlockIndex) : Prop := pindex.failed = false ∧ pindex.fHaveData = true

/-- A walk passes usable blocks and stops at the active chain or an unusable one. -/
structure Walk (state : ChainState) (part : List Uint256) (found : Option Uint256) (passed rest : List Uint256) : Prop where
  parts : part = passed ++ rest
  above : ∀ block ∈ passed ++ found.toList, block ∉ state.chainActive ∧
    ((state.index block).nChainTx = 0 → (state.index block).nHeight = 0)
  usable : ∀ block ∈ passed, (state.index block).Usable
  active : found = none → ∀ block ∈ rest.head?, block ∈ state.chainActive
  unusable : ∀ pindexTest ∈ found, rest.head? = some pindexTest ∧ ¬ (state.index pindexTest).Usable

section Walk

variable {part passed rest : List Uint256} {found : Option Uint256} {test : Uint256}

theorem findUnusable_walk (walked : findUnusable state part = .ok found) :
    ∃ passed rest, Walk state part found passed rest := by
  induction part with
  | nil =>
    cases walked
    exact ⟨[], [], by constructor <;> simp⟩
  | cons test below ih =>
    unfold findUnusable at walked
    split at walked
    · cases walked
      exact ⟨[], test :: below, by constructor <;> simp_all⟩
    · split at walked
      · cases walked
      · split at walked
        · cases walked
          exact ⟨[], test :: below, by constructor <;> grind [CBlockIndex.Usable, state.contains_iff]⟩
        · obtain ⟨passed, rest, parts, above, usable, active, unusable⟩ := ih walked
          exact ⟨test :: passed, rest, by constructor <;> simp_all [CBlockIndex.Usable]⟩

/-- The walk meets no assertion above a linked chain. -/
theorem findUnusable_ok (linked : ∀ block ∈ part.takeWhile fun block => !state.contains block,
    (state.index block).nChainTx = 0 → (state.index block).nHeight = 0) : ∃ found, findUnusable state part = .ok found := by
  induction part with
  | nil => exact ⟨none, rfl⟩
  | cons test below ih =>
    unfold findUnusable
    by_cases active : state.contains test = true
    · simp [active]
    · simp only [active, Bool.not_false, takeWhile_cons_of_pos, mem_cons, forall_eq_or_imp] at linked
      rw [if_neg active, if_neg fun missing => missing.2 (linked.1 missing.1)]
      split
      · exact ⟨_, rfl⟩
      · exact ih linked.2

/-- The blocks above the stop are those passed. -/
theorem Walk.takeWhile (walk : Walk state part (some test) passed rest) : part.takeWhile (· ≠ test) = passed := by
  obtain ⟨head, unusable⟩ := walk.unusable test rfl
  obtain ⟨below, rfl⟩ := head?_eq_some_iff.mp head
  rw [walk.parts, takeWhile_append_of_pos]
  · simp
  · intro block inside
    have apart : block ≠ test := fun same => unusable (same ▸ walk.usable block inside)
    simpa using apart

end Walk

/-- The walk down a received branch finds a failed block, if there is one. -/
theorem findUnusable_spec (state : ChainState) (part : List Uint256)
    (received : ∀ block ∈ part, state.Linked block ∧ (state.index block).fHaveData = true)
    (closed : ∀ block below, block :: below <:+ part → block ∈ state.chainActive →
      ∀ other ∈ below, other ∈ state.chainActive)
    (sound : ∀ block ∈ state.chainActive, (state.index block).failed = false) :
    (findUnusable state part = .ok none ∧ ∀ block ∈ part, (state.index block).failed = false) ∨
      ∃ block ∈ part, findUnusable state part = .ok (some block) ∧ (state.index block).failed = true := by
  obtain ⟨found, walked⟩ := @findUnusable_ok state part fun block inside missing =>
    absurd missing (received block ((takeWhile_sublist _).mem inside)).1
  obtain ⟨passed, rest, walk⟩ := findUnusable_walk walked
  obtain rfl := walk.parts
  cases found with
  | none =>
    refine .inl ⟨walked, fun block member => ?_⟩
    rcases mem_append.mp member with inside | lower
    · exact (walk.usable block inside).1
    · cases rest with
      | nil => cases lower
      | cons first below =>
        have active := walk.active rfl first rfl
        rcases mem_cons.mp lower with rfl | inside
        · exact sound block active
        · exact sound block (closed first below (suffix_append _ _) active block inside)
  | some test =>
    obtain ⟨head, unusable⟩ := walk.unusable test rfl
    have member : test ∈ passed ++ rest := mem_append_right _ (mem_of_head? head)
    refine .inr ⟨test, member, walked, ?_⟩
    simpa [CBlockIndex.Usable, (received test member).2] using unusable

/-- What is left when blocks stop being candidates, marked above a failed one. -/
structure Removed (fFailedChain : Bool) (above removed : List Uint256) (state later : ChainState) : Prop where
  mapBlockIndex : later.mapBlockIndex = state.mapBlockIndex
  chainActive : later.chainActive = state.chainActive
  clock : later.clock = state.clock
  mapBlocksUnlinked : fFailedChain = true → later.mapBlocksUnlinked = state.mapBlocksUnlinked
  index : ∀ hash, later.index hash =
    if fFailedChain = true ∧ hash ∈ above then { state.index hash with fFailedChild := true } else state.index hash
  candidates : later.setBlockIndexCandidates = state.setBlockIndexCandidates.filter fun hash => hash ∉ removed

theorem foldl_removed (fFailedChain : Bool) (above : List Uint256) (state : ChainState) :
    Removed fFailedChain above above state (above.foldl (removeUnusable fFailedChain) state) := by
  induction above generalizing state with
  | nil => constructor <;> simp
  | cons pindexFailed rest ih =>
    have rested := ih (removeUnusable fFailedChain state pindexFailed)
    rw [foldl_cons]
    cases fFailedChain with
    | true =>
      refine ⟨rested.mapBlockIndex, rested.chainActive, rested.clock, rested.mapBlocksUnlinked, ?_, ?_⟩
      · intro hash
        rw [rested.index]
        by_cases here : hash = pindexFailed <;> simp [here, removeUnusable, eraseCandidate, ChainState.modify]
      · rw [rested.candidates]
        simp [removeUnusable, eraseCandidate, ChainState.modify, Bool.and_comm]
    | false =>
      refine ⟨rested.mapBlockIndex, rested.chainActive, rested.clock, by simp, ?_, ?_⟩
      · intro hash
        rw [rested.index]
        simp [removeUnusable, eraseCandidate]
      · rw [rested.candidates]
        simp [removeUnusable, eraseCandidate, Bool.and_comm]

/-- An unusable block and the branch above it are taken out. -/
theorem removeBranch_removed (state : ChainState) (pindexNew test : Uint256) :
    Removed (state.index test).failed ((state.branch pindexNew).takeWhile (· ≠ test))
      (test :: (state.branch pindexNew).takeWhile (· ≠ test)) state
      (removeBranch state pindexNew test) := by
  have above := foldl_removed (state.index test).failed
    ((state.branch pindexNew).takeWhile (· ≠ test)) state
  refine ⟨above.mapBlockIndex, above.chainActive, above.clock, above.mapBlocksUnlinked, above.index, ?_⟩
  rw [removeBranch, eraseCandidate, above.candidates]
  simp

section RemoveBranch

variable (pindexNew : Uint256) {test : Uint256}

theorem mem_removeBranch {hash : Uint256} : hash ∈ (removeBranch state pindexNew test).setBlockIndexCandidates ↔
      hash ∈ state.setBlockIndexCandidates ∧ hash ∉ (state.branch pindexNew).takeWhile (· ≠ test) ∧ hash ≠ test := by
  rw [(removeBranch_removed state pindexNew test).candidates, mem_filter, decide_eq_true_eq, mem_cons,
    not_or, and_comm (a := hash ≠ test)]

/-- The best candidate itself is removed. -/
theorem not_mem_removeBranch : pindexNew ∉ (removeBranch state pindexNew test).setBlockIndexCandidates := by
  rw [mem_removeBranch]
  rintro ⟨_, notAbove, apart⟩
  apply notAbove
  rw [ChainState.branch, takeWhile_cons_of_pos (by simpa using apart)]
  exact mem_cons_self

theorem removeBranch_sublist :
    (removeBranch state pindexNew test).setBlockIndexCandidates.Sublist state.setBlockIndexCandidates := by
  rw [(removeBranch_removed state pindexNew test).candidates]
  exact filter_sublist

variable (failed : (state.index test).failed = true)
include failed

variable (hash : Uint256)

theorem removeBranch_index : (removeBranch state pindexNew test).index hash =
      if hash ∈ (state.branch pindexNew).takeWhile (· ≠ test) then { state.index hash with fFailedChild := true }
      else state.index hash := by
  simp only [(removeBranch_removed state pindexNew test).index, failed, true_and]

theorem removeBranch_failed : ((removeBranch state pindexNew test).index hash).failed = true ↔
      hash ∈ (state.branch pindexNew).takeWhile (· ≠ test) ∨ (state.index hash).failed = true := by
  rw [removeBranch_index pindexNew failed]
  by_cases inside : hash ∈ (state.branch pindexNew).takeWhile (· ≠ test)
  · rw [if_pos inside, iff_true_right (.inl inside), CBlockIndex.failed_iff]
    exact .inr rfl
  · rw [if_neg inside, or_iff_right inside]

theorem removeBranch_fFailedValid :
    ((removeBranch state pindexNew test).index hash).fFailedValid = (state.index hash).fFailedValid := by
  rw [removeBranch_index pindexNew failed]
  split <;> rfl

theorem removeBranch_marks : Marks state (removeBranch state pindexNew test) where
  mapBlockIndex := (removeBranch_removed state pindexNew test).mapBlockIndex
  mapBlocksUnlinked := (removeBranch_removed state pindexNew test).mapBlocksUnlinked failed
  index := by
    intro hash
    rw [removeBranch_index pindexNew failed]
    split <;> rfl
  failed := fun hash already => (removeBranch_failed pindexNew failed hash).mpr (.inr already)

end RemoveBranch

/-- Removing the branch above a failed block keeps the invariant. -/
theorem ChainOk.removeBranch (chain : ChainOk env state) (tree : TreeOk origin total [] state)
    {pindexNew test : Uint256} (member : test ∈ state.branch pindexNew) (failed : (state.index test).failed = true) :
    ChainOk env (Activation.removeBranch state pindexNew test) := by
  have marks := removeBranch_marks pindexNew failed
  apply chain.mark tree marks (removeBranch_removed state pindexNew test).chainActive _
    (removeBranch_sublist pindexNew)
  · intro hash candidate live
    have alive := live.2 hash mem_cons_self
    rw [Bool.eq_false_iff, Ne, removeBranch_failed pindexNew failed, not_or] at alive
    have apart : hash ≠ test := by
      intro same
      rw [same] at alive
      exact alive.2 failed
    exact (mem_removeBranch pindexNew).mpr ⟨candidate, alive.1, apart⟩
  · intro hash hashFailed
    rw [marks.branch]
    obtain ⟨cause, inBranch, causeFailed, reason⟩ : ∃ block ∈ state.branch hash,
        (state.index block).fFailedValid = true ∧
          (env.connectBlock block ≠ .valid ∨ (state.index block).fHaveData = false) := by
      rcases (removeBranch_failed pindexNew failed hash).mp hashFailed with inside | already
      · obtain ⟨cause, lower, reason⟩ := chain.failures test failed
        have above := tree.branches.mem_branch_of_above member inside
        exact ⟨cause, (tree.branches.branch_of_mem above).mem lower, reason⟩
      · exact chain.failures hash already
    refine ⟨cause, inBranch, ?_, ?_⟩
    · rw [removeBranch_fFailedValid pindexNew failed]
      exact causeFailed
    · rw [marks.data]
      exact reason

/-- `FindMostWorkChain` returns a live candidate no live block surpasses. -/
structure MostWork (env : NodeEnv) (state : ChainState) (most : Uint256) : Prop where
  member : most ∈ state.setBlockIndexCandidates
  live : state.Live most
  best : ∀ hash, state.Live hash → state.key env hash ≤ state.key env most

/-- More turns than candidates find the most work chain. -/
theorem findMostWorkChain_spec (tree : TreeOk origin total [] state) (chain : ChainOk env state)
    {fuel : Nat} (enough : state.setBlockIndexCandidates.length < fuel) :
    ∃ most later, findMostWorkChain env fuel state = .ok (some most, later) ∧ Marks state later ∧
      ChainOk env later ∧ later.chainActive = state.chainActive ∧ later.clock = state.clock ∧
      later.setBlockIndexCandidates.Sublist state.setBlockIndexCandidates ∧ MostWork env later most := by
  induction fuel generalizing state with
  | zero => exact absurd enough (Nat.not_lt_zero _)
  | succ fuel ih =>
    obtain ⟨anchor, covers, _, _⟩ := chain.anchor
    rw [findMostWorkChain]
    cases found : last (state.worse env) state.setBlockIndexCandidates with
    | none =>
      rw [last_eq_none found] at covers
      exact absurd covers.member not_mem_nil
    | some pindexNew =>
      obtain ⟨member, greatest⟩ := last_eq_some (state.worse_iff env) found
      have linked := tree.linked_branch (chain.candidates pindexNew member)
      have walk := findUnusable_spec state (state.branch pindexNew)
        (fun block inside => ⟨linked block inside, tree.data block (linked block inside)⟩)
        (by
          intro block below part active other lower
          rcases chain.active with empty | ⟨tip, whole, _⟩
          · rw [empty] at active
            cases active
          · rw [whole] at active ⊢
            have inTip := tree.branches.branch_of_mem active
            rw [tree.branches.branch_suffix part] at inTip
            exact inTip.mem (mem_cons_of_mem block lower))
        (fun block active =>
          (tree.live_of_sound chain.failures (chain.active_sound tree active)).2 block mem_cons_self)
      rcases walk with ⟨usable, clean⟩ | ⟨test, inside, unusable, failed⟩
      · simp only [usable]
        exact ⟨pindexNew, state, rfl, Marks.refl state, chain, rfl, rfl, Sublist.refl _, member,
          ⟨chain.candidates pindexNew member, clean⟩, covers.best greatest⟩
      · have marks := removeBranch_marks pindexNew failed
        have removed := chain.removeBranch tree inside failed
        have fewer := @removeBranch_sublist state pindexNew test
        have gone := @not_mem_removeBranch state pindexNew test
        have shorter : (removeBranch state pindexNew test).setBlockIndexCandidates.length < fuel := by
          have strict : (removeBranch state pindexNew test).setBlockIndexCandidates.length <
              state.setBlockIndexCandidates.length := by
            apply Nat.lt_of_le_of_ne fewer.length_le
            intro same
            rw [fewer.eq_of_length same] at gone
            exact gone member
          omega
        obtain ⟨most, later, success, laterMarks, laterChain, active, clock, laterFewer, mostWork⟩ :=
          ih (marks.tree tree) removed shorter
        simp only [unusable]
        have unchanged := removeBranch_removed state pindexNew test
        exact ⟨most, later, success, marks.trans laterMarks, laterChain, active.trans unchanged.chainActive,
          clock.trans unchanged.clock, laterFewer.trans fewer, mostWork⟩

end Straks.Activation
