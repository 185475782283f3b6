import Straks.Proof.MostWork

namespace Straks.Activation
open Candidates List ChainState CBlockIndex

/-- The blocks of a branch down to the active chain. -/
def ChainState.path (state : ChainState) (hash : Uint256) : List Uint256 :=
  (state.branch hash).takeWhile fun block => !state.contains block

/-- No block down to the active chain failed or lacks data. -/
def ChainState.Usable (state : ChainState) (hash : Uint256) : Prop :=
  ∀ block ∈ state.path hash, (state.index block).Usable

theorem mem_takeWhile_append {α : Type} {test : α → Bool} {first rest : List α} {value : α}
    (member : value ∈ (first ++ rest).takeWhile test) (outside : value ∉ first) : value ∈ rest.takeWhile test := by
  induction first with
  | nil => exact member
  | cons head tail ih =>
    rw [cons_append, takeWhile_cons] at member
    split at member
    · grind
    · cases member

variable {env : NodeEnv} {state : ChainState}

/-- A walk ends with a path of usable blocks, or at an unusable one. -/
theorem Walk.path {found : Option Uint256} {hash : Uint256} {passed rest : List Uint256}
    (walk : Walk state (state.branch hash) found passed rest) :
    (found = none → state.Usable hash) ∧ ∀ test ∈ found, test ∈ state.path hash := by
  have inactive {block : Uint256} (outside : block ∉ state.chainActive) : (!state.contains block) = true := by
    rwa [Bool.not_eq_true', Bool.eq_false_iff, Ne, state.contains_iff]
  have path : state.path hash = passed ++ rest.takeWhile fun block => !state.contains block := by
    rw [ChainState.path, walk.parts, takeWhile_append_of_pos]
    exact fun block inside => inactive (walk.above block (mem_append_left _ inside)).1
  unfold ChainState.Usable
  rw [path]
  constructor
  · intro none block inside
    rcases mem_append.mp inside with passes | below
    · exact walk.usable block passes
    · cases rest with
      | nil => cases below
      | cons first _ => simp [state.contains_iff.mpr (walk.active none first rfl)] at below
  · intro test isFound
    have outside := (walk.above test (by simp_all)).1
    obtain ⟨below, rfl⟩ := head?_eq_some_iff.mp (walk.unusable test isFound).1
    rw [takeWhile_cons_of_pos (p := fun block => !state.contains block) (inactive outside)]
    simp

namespace BranchesOk

variable {hash block pindexNew test : Uint256}

/-- The way down from a path's block is the rest of it. -/
theorem path_split (branches : BranchesOk state) (inside : block ∈ state.path hash) :
    ∃ first, state.path hash = first ++ state.path block := by
  obtain ⟨first, rest, split⟩ := append_of_mem inside
  have whole : state.branch hash = first ++ block ::
      (rest ++ (state.branch hash).dropWhile fun block => !state.contains block) := by
    rw [← cons_append, ← append_assoc, ← split]
    exact (takeWhile_append_dropWhile).symm
  have tail := branches.branch_suffix ⟨first, whole.symm⟩
  refine ⟨first, ?_⟩
  have clear : ∀ other ∈ first, (!state.contains other) = true := by
    intro other member
    have inPath : other ∈ state.path hash := split ▸ mem_append_left _ member
    exact mem_takeWhile_imp (p := fun other => !state.contains other) inPath
  rw [path, whole, takeWhile_append_of_pos clear, ← tail, path]

/-- A block above another has it on its own way down. -/
theorem mem_path_of_above (branches : BranchesOk state) (member : test ∈ state.path pindexNew)
    (above : block ∈ (state.branch pindexNew).takeWhile (· ≠ test)) : test ∈ state.path block := by
  obtain ⟨first, whole, outside⟩ := branches.branch_of_above above
  rw [path, whole] at member
  exact mem_takeWhile_append member outside

end BranchesOk

namespace Removed

variable {fFailedChain : Bool} {above removed : List Uint256} {later : ChainState}

variable (gone : Removed fFailedChain above removed state later)
include gone

variable (hash : Uint256)

theorem ancestors : (later.index hash).ancestors = (state.index hash).ancestors := by
  rw [gone.index]
  split <;> rfl

theorem nChainTx : (later.index hash).nChainTx = (state.index hash).nChainTx := by
  rw [gone.index]
  split <;> rfl

theorem worse (first second : Uint256) : later.worse env first second = state.worse env first second := by
  have key (hash : Uint256) : later.key env hash = state.key env hash := by
    rw [key, gone.index]
    split <;> rfl
  rw [Bool.eq_iff_iff, worse_iff, worse_iff, key, key]

theorem path : later.path hash = state.path hash := by
  simp only [ChainState.path, ChainState.branch, gone.ancestors, ChainState.contains, gone.chainActive]

/-- Marking above a failed block spoils no other candidate. -/
theorem usable_iff (branches : BranchesOk state) {test : Uint256} (unusable : ¬ (state.index test).Usable)
    (below : ∀ block ∈ above, test ∈ state.path block) (hash : Uint256) : later.Usable hash ↔ state.Usable hash := by
  simp only [ChainState.Usable, gone.path, gone.index]
  constructor
  · intro usable block inside
    have later := usable block inside
    split at later
    · simp [CBlockIndex.Usable, failed] at later
    · exact later
  · intro usable block inside
    split
    · rename_i isMarked
      obtain ⟨first, split⟩ := branches.path_split inside
      have lower : test ∈ state.path hash := split ▸ mem_append_right first (below block isMarked.2)
      exact absurd (usable test lower) unusable
    · exact usable block inside

end Removed

/-- For every block tree and every set of linked candidates, a search with more turns than candidates ends. It returns
the greatest usable candidate, if any, and takes only unusable candidates out of the set. -/
theorem findMostWorkChain_greatest (env : NodeEnv) (state : ChainState) (branches : BranchesOk state)
    (linked : ∀ candidate ∈ state.setBlockIndexCandidates, ∀ block ∈ state.branch candidate,
      (state.index block).nChainTx ≠ 0 ∨ (state.index block).nHeight = 0)
    (fuel : Nat) (enough : state.setBlockIndexCandidates.length < fuel) :
    ∃ found later, findMostWorkChain env fuel state = .ok (found, later) ∧
      (∀ most, found = some most → most ∈ state.setBlockIndexCandidates ∧ state.Usable most ∧
        ∀ other ∈ state.setBlockIndexCandidates, state.Usable other → state.worse env most other = false) ∧
      (found = none → ∀ candidate ∈ state.setBlockIndexCandidates, ¬ state.Usable candidate) ∧
      (∀ candidate ∈ later.setBlockIndexCandidates, candidate ∈ state.setBlockIndexCandidates) ∧
      ∀ candidate ∈ state.setBlockIndexCandidates, candidate ∉ later.setBlockIndexCandidates →
        ¬ state.Usable candidate := by
  induction fuel generalizing state with
  | zero => exact absurd enough (Nat.not_lt_zero _)
  | succ fuel ih =>
    rw [findMostWorkChain]
    cases best : last (state.worse env) state.setBlockIndexCandidates with
    | none =>
      rw [last_eq_none best]
      exact ⟨none, state, rfl, by simp, by simp, by simp [last_eq_none best], by simp⟩
    | some pindexNew =>
      obtain ⟨member, greatest⟩ := last_eq_some (state.worse_iff env) best
      obtain ⟨found, walked⟩ := @findUnusable_ok state (state.branch pindexNew) fun block inside missing =>
        (linked pindexNew member block ((takeWhile_sublist _).mem inside)).resolve_left (not_not_intro missing)
      obtain ⟨passed, rest, walk⟩ := findUnusable_walk walked
      simp only [walked]
      cases found with
      | none =>
        refine ⟨some pindexNew, state, rfl, ?_, by simp, fun _ kept => kept, fun _ kept gone => absurd kept gone⟩
        intro most isMost
        obtain rfl := Option.some.inj isMost
        refine ⟨member, walk.path.1 rfl, fun other inSet _ => ?_⟩
        rw [Bool.eq_false_iff, Ne, state.worse_iff]
        exact (greatest other inSet).not_gt
      | some pindexTest =>
        have failed := (walk.unusable pindexTest rfl).2
        have inPath := walk.path.2 pindexTest rfl
        have gone := removeBranch_removed state pindexNew pindexTest
        have usable := gone.usable_iff branches failed fun _ inside => branches.mem_path_of_above inPath inside
        have taken : ∀ block ∈ pindexTest :: (state.branch pindexNew).takeWhile (· ≠ pindexTest),
            ¬ state.Usable block := by
          intro block inside isUsable
          rcases mem_cons.mp inside with rfl | above
          · have active := mem_takeWhile_imp (p := fun other => !state.contains other) inPath
            exact failed (isUsable block (by simp [path, branch, active]))
          · exact failed (isUsable pindexTest (branches.mem_path_of_above inPath above))
        have newTaken : pindexNew ∈ pindexTest :: (state.branch pindexNew).takeWhile (· ≠ pindexTest) := by
          by_cases same : pindexNew = pindexTest
          · simp [same]
          · simp [branch, same]
        have fewer : (removeBranch state pindexNew pindexTest).setBlockIndexCandidates.length <
            state.setBlockIndexCandidates.length := by
          rw [gone.candidates]
          exact length_filter_lt_length_iff_exists.mpr ⟨pindexNew, member, by
            simpa [or_iff_not_imp_left] using newTaken⟩
        have kept (hash : Uint256) : hash ∈ (removeBranch state pindexNew pindexTest).setBlockIndexCandidates ↔
            hash ∈ state.setBlockIndexCandidates ∧
              hash ∉ pindexTest :: (state.branch pindexNew).takeWhile (· ≠ pindexTest) := by
          rw [gone.candidates, mem_filter, decide_eq_true_eq]
        obtain ⟨found, later, success, isMost, nothing, inSet, unusable⟩ := ih _ (branches.of_same gone.mapBlockIndex gone.ancestors) (by
          intro candidate inside
          simp only [branch, nHeight, gone.ancestors, gone.nChainTx]
          exact linked candidate ((kept candidate).mp inside).1) (by omega)
        simp only [usable, gone.worse] at isMost nothing unusable
        exact ⟨found, later, success, by grind, by grind, by grind, by grind⟩

/-- A failed block of more work and a usable one of less on the active block 1. -/
def forked : ChainState :=
  let block (work : Nat) (failed : Bool) : CBlockIndex := ⟨[1], work, 1, 2, 1, 3, true, failed, false⟩
  { empty with
    mapBlockIndex := [1, 2, 3]
    index := fun hash => if hash = 2 then block 9 true else if hash = 3 then block 5 false else .null
    chainActive := [1]
    setBlockIndexCandidates := [2, 3] }

theorem findMostWorkChain_greatest_forked :
    ∃ found later, findMostWorkChain ⟨1, fun _ => 0, fun _ => .valid, fun _ => false, fun _ => false⟩ 3 forked =
        .ok (found, later) ∧
      ∀ candidate ∈ forked.setBlockIndexCandidates, candidate ∉ later.setBlockIndexCandidates →
        ¬ forked.Usable candidate := by
  have ancestors (hash : Uint256) : (forked.index hash).ancestors = [] ∨ (forked.index hash).ancestors = [1] := by
    simp only [forked]
    split_ifs <;> simp [null]
  have branches : BranchesOk forked := by
    constructor
    · intro hash block below
      rcases ancestors hash with none | one <;> simp_all [forked]
    · intro hash block below part
      rcases ancestors hash with none | one
      · simp [none] at part
      · simp only [one, suffix_cons_iff, List.cons.injEq, suffix_nil, reduceCtorEq, or_false] at part
        obtain ⟨rfl, rfl⟩ := part
        simp [forked, null]
  obtain ⟨found, later, success, _, _, _, removed⟩ := findMostWorkChain_greatest
    ⟨1, fun _ => 0, fun _ => .valid, fun _ => false, fun _ => false⟩ forked branches
    (by simp [forked, branch, null, nHeight]) 3 (by simp [forked])
  exact ⟨found, later, success, removed⟩

end Straks.Activation
