import Straks.Proof.IndexInvariant

namespace Straks.Activation
open Candidates Success List ChainState CBlockIndex

variable {env : NodeEnv} {state later : ChainState} {origin : Uint256}

/-- Marks are only added, each for a block that had failed or is now invalid. -/
structure Spread (state later : ChainState) : Prop where
  marks : Marks state later
  kept : ∀ hash, (state.index hash).fFailedValid = true → (later.index hash).fFailedValid = true
  cause : ∀ hash, (later.index hash).failed = true → ∃ block ∈ state.branch hash,
    (state.index block).failed = true ∨ (later.index block).fFailedValid = true

/-- What activation and invalidation do to the index. -/
structure Settles (hashGenesisBlock : Uint256) (state later : ChainState) : Prop where
  ok : IndexOk hashGenesisBlock [] later
  spread : Spread state later

theorem Spread.of_index (marks : Marks state later) (same : later.index = state.index) : Spread state later := by
  refine ⟨marks, ?_, ?_⟩
  · intro hash invalid
    rw [same]
    exact invalid
  · intro hash failed
    rw [same] at failed
    exact ⟨hash, mem_cons_self, .inl failed⟩

namespace Settles

theorem refl (ok : IndexOk origin [] state) : Settles origin state state :=
  ⟨ok, .of_index (Marks.refl state) rfl⟩

theorem trans {last : ChainState} (first : Settles origin state later)
    (second : Settles origin later last) : Settles origin state last := by
  refine ⟨second.ok, first.spread.marks.trans second.spread.marks, ?_, ?_⟩
  · exact fun hash invalid => second.spread.kept hash (first.spread.kept hash invalid)
  · intro hash failed
    obtain ⟨block, member, reason⟩ := second.spread.cause hash failed
    rcases reason with blockFailed | invalid
    · obtain ⟨cause, lower, earlier⟩ := first.spread.cause block blockFailed
      have part := first.ok.branches.branch_of_mem member
      rw [first.spread.marks.branch, first.spread.marks.branch] at part
      exact ⟨cause, part.mem lower, earlier.imp_right (second.spread.kept cause)⟩
    · rw [first.spread.marks.branch] at member
      exact ⟨block, member, .inr invalid⟩

theorem readyBranch (settles : Settles origin state later) {hash : Uint256}
    (ready : state.ReadyBranch hash) : later.ReadyBranch hash :=
  settles.spread.marks.reflagged.readyBranch ready

variable (ok : IndexOk origin [] state)
include ok

/-- Only the active chain, the clock and fewer candidates. -/
theorem move (moved : Moved state later)
    (fewer : ∀ hash ∈ later.setBlockIndexCandidates, hash ∈ state.setBlockIndexCandidates)
    (active : later.chainActive = [] ∨ ∃ tip, later.chainActive = state.branch tip ∧ state.ReadyBranch tip) :
    Settles origin state later :=
  ⟨ok.move moved fewer active, .of_index moved.marks moved.index⟩

theorem tick : Settles origin state state.tick :=
  move ok ⟨rfl, rfl, rfl⟩ (fun _ member => member) ok.active

variable (pindex : Uint256)

/-- A block is marked as invalid. -/
theorem invalid :
    Settles origin state (state.modify pindex fun entry => { entry with fFailedValid := true }) := by
  have index := state.modify_index pindex fun entry => { entry with fFailedValid := true }
  have marked : ∀ hash, ((state.modify pindex fun entry => { entry with fFailedValid := true }).index hash).fFailedChild =
      (state.index hash).fFailedChild := by
    intro hash
    rw [index]
    split <;> rfl
  have marks := Marks.invalid state pindex
  refine ⟨ok.change marks.reflagged ?_ ?_ ok.active, marks, ?_, ?_⟩
  · intro hash member
    rw [marked]
    exact ok.candidates hash member
  · intro hash waits
    rw [marked]
    exact waits.unmarked
  · intro hash invalid
    rw [index]
    split
    · rfl
    · exact invalid
  · intro hash failed
    refine ⟨hash, mem_cons_self, ?_⟩
    rw [index] at failed ⊢
    split at failed
    · rename_i same
      rw [if_pos same]
      exact .inr rfl
    · exact .inl failed

theorem eraseCandidate : Settles origin state (state.eraseCandidate pindex) :=
  move ok ⟨rfl, rfl, rfl⟩ (fun _ member => (mem_eraseCandidate.mp member).1) ok.active

/-- A block that is marked as invalid is no candidate. -/
theorem condemn : Settles origin state
      ((state.modify pindex fun entry => { entry with fFailedValid := true }).eraseCandidate pindex) :=
  (invalid ok pindex).trans (eraseCandidate (invalid ok pindex).ok pindex)

/-- The blocks above a failed one are marked as its children. -/
theorem removeBranch {pindexNew test : Uint256} (member : test ∈ state.branch pindexNew)
    (failed : (state.index test).failed = true)
    (ready : ∀ block ∈ (state.branch pindexNew).takeWhile (· ≠ test), state.Ready block) :
    Settles origin state (Activation.removeBranch state pindexNew test) := by
  have marks := removeBranch_marks pindexNew failed
  have unmarked : ∀ hash, hash ∉ (state.branch pindexNew).takeWhile (· ≠ test) →
      (state.index hash).fFailedChild = false →
      ((Activation.removeBranch state pindexNew test).index hash).fFailedChild = false := by
    intro hash outside clean
    rw [removeBranch_index pindexNew failed, if_neg outside]
    exact clean
  refine ⟨ok.change marks.reflagged ?_ ?_ ?_, marks, ?_, ?_⟩
  · intro hash candidate
    obtain ⟨old, outside, _⟩ := (mem_removeBranch pindexNew).mp candidate
    obtain ⟨known, clean⟩ := ok.candidates hash old
    exact ⟨known, unmarked hash outside clean⟩
  · intro hash waits
    exact unmarked hash (fun inside => waits.unready (ready hash inside)) waits.unmarked
  · rw [(removeBranch_removed state pindexNew test).chainActive]
    exact ok.active
  · intro hash invalid
    rw [removeBranch_fFailedValid pindexNew failed]
    exact invalid
  · intro hash hashFailed
    rcases (removeBranch_failed pindexNew failed hash).mp hashFailed with above | already
    · exact ⟨test, ok.branches.mem_branch_of_above member above, .inl failed⟩
    · exact ⟨hash, mem_cons_self, .inl already⟩

end Settles

section

variable (ok : IndexOk origin [] state)
include ok

/-- A walk over known blocks stops only at failed ones; what it has passed is ready. -/
theorem findUnusable_ensures {pindexNew : Uint256} (known : pindexNew ∈ state.mapBlockIndex) {part : List Uint256}
    (inside : part <:+ state.branch pindexNew) : Ensures (findUnusable state part) fun found =>
      (found = none → ∀ block ∈ part, state.Ready block) ∧
        ∀ test, found = some test → test ∈ part ∧ (state.index test).failed = true ∧
          ∀ block ∈ part.takeWhile (· ≠ test), state.Ready block := by
  intro found walked
  obtain ⟨passed, rest, walk⟩ := findUnusable_walk walked
  have ready (block : Uint256) (member : block ∈ passed ++ found.toList) : state.Ready block := by
    by_cases linked : state.Linked block
    · exact .inl linked
    · exact .inr (length_eq_zero_iff.mp ((walk.above block member).2 (not_not.mp linked)))
  constructor
  · intro none block member
    rw [walk.parts] at member inside
    rcases mem_append.mp member with above | below
    · exact ready block (mem_append_left _ above)
    · cases rest with
      | nil => cases below
      | cons first lower =>
        have active := ok.readyBranch_of_active (walk.active none first rfl)
        rw [ReadyBranch, ok.branches.branch_suffix ((suffix_append _ _).trans inside)] at active
        exact (active block below).2
  · intro test isFound
    subst isFound
    obtain ⟨head, unusable⟩ := walk.unusable test rfl
    have member : test ∈ part := walk.parts ▸ mem_append_right _ (mem_of_head? head)
    have data := ok.data test (ok.branches.known_branch known (inside.mem member)) (ready test (by simp))
    refine ⟨member, by simpa [CBlockIndex.Usable, data] using unusable, ?_⟩
    rw [walk.takeWhile]
    exact fun block above => ready block (mem_append_left _ above)

theorem findMostWorkChain_settles (fuel : Nat) :
    Ensures (findMostWorkChain env fuel state) fun result => Settles origin state result.2 ∧
      ∀ most, result.1 = some most → result.2.ReadyBranch most := by
  induction fuel generalizing state with
  | zero => exact .error _ _
  | succ fuel ih =>
    rw [findMostWorkChain]
    split
    · refine .ok ?_
      exact ⟨.refl ok, fun _ impossible => by cases impossible⟩
    · rename_i pindexNew best
      have candidate := (last_eq_some (state.worse_iff env) best).1
      have known := (ok.candidates pindexNew candidate).1
      refine .bind (findUnusable_ensures ok known (suffix_refl _)) ?_
      rintro found ⟨whenNone, whenSome⟩
      cases found with
      | none =>
        refine .ok ?_
        refine ⟨.refl ok, fun most same => ?_⟩
        cases same
        exact fun block member => ⟨ok.branches.known_branch known member, whenNone rfl block member⟩
      | some test =>
        obtain ⟨member, failed, ready⟩ := whenSome test rfl
        have removed := Settles.removeBranch ok member failed ready
        intro result success
        obtain ⟨settles, readyMost⟩ := ih removed.ok result success
        exact ⟨removed.trans settles, readyMost⟩

theorem IndexOk.readyBranch_of_mem {hash block : Uint256} (ready : state.ReadyBranch hash)
    (member : block ∈ state.branch hash) : state.ReadyBranch block :=
  fun other inside => ready other ((ok.branches.branch_of_mem member).mem inside)

theorem disconnectTip_settles : Ensures (disconnectTip env state) fun result => Settles origin state result.2 := by
  rw [disconnectTip]
  split
  · exact .error _ _
  · rename_i tip isTip
    have ready := ok.readyBranch_of_active (mem_of_head? isTip)
    split
    · exact .ok (.tick ok)
    · refine .ok ?_
      refine .move ok ⟨rfl, rfl, rfl⟩ (fun _ member => member) ?_
      cases lower : (state.index tip).pprev with
      | none => exact .inl rfl
      | some prev =>
        have member : prev ∈ state.branch tip := mem_cons_of_mem tip (mem_of_head? lower)
        exact .inr ⟨prev, rfl, ok.readyBranch_of_mem ready member⟩

theorem disconnectToFork_settles (fork : Option Uint256) (fuel : Nat) :
    Ensures (disconnectToFork env fork fuel state) fun result => Settles origin state result.2 := by
  induction fuel generalizing state with
  | zero => exact .error _ _
  | succ fuel ih =>
    rw [disconnectToFork]
    split
    · exact .ok (.refl ok)
    · refine .bind (disconnectTip_settles ok) ?_
      intro disconnected settles
      split
      · intro result success
        exact settles.trans (ih settles.ok result success)
      · exact .ok settles

theorem invalidBlockFound_settles (pindex : Uint256) (corruptionPossible : Bool) :
    Ensures (invalidBlockFound state pindex corruptionPossible) fun result => Settles origin state result := by
  rw [invalidBlockFound]
  split
  · exact .ok (.refl ok)
  · refine .then ?_
    exact fun _ => .ok (.condemn ok pindex)

theorem connectTip_settles {pindexNew : Uint256} (ready : state.ReadyBranch pindexNew) :
    Ensures (connectTip env state pindexNew) fun result => Settles origin state result.2 := by
  have ticked := Settles.tick ok
  rw [connectTip]
  split
  · exact .error _ _
  · split
    · exact .ok ticked
    · split
      · refine .ok ?_
        exact .move ok ⟨rfl, rfl, rfl⟩ (fun _ member => member) (.inr ⟨pindexNew, rfl, ready⟩)
      · refine .bind (invalidBlockFound_settles ticked.ok pindexNew _) ?_
        intro marked settles
        exact .ok (ticked.trans settles)

theorem pruneBlockIndexCandidates_settles :
    Ensures (pruneBlockIndexCandidates env state) fun result => Settles origin state result := by
  rw [pruneBlockIndexCandidates]
  split
  · exact .error _ _
  · dsimp only
    split
    · exact .error _ _
    · refine .ok ?_
      exact .move ok ⟨rfl, rfl, rfl⟩ (fun _ member => (mem_filter.mp member).1) ok.active

theorem connectBlocks_settles (oldTip : Option Uint256) {part : List Uint256}
    (ready : ∀ block ∈ part, state.ReadyBranch block) :
    Ensures (connectBlocks env oldTip state part) fun result => Settles origin state result.2 := by
  induction part generalizing state with
  | nil => exact .ok (.refl ok)
  | cons block above ih =>
    refine .bind (connectTip_settles ok (ready block mem_cons_self)) ?_
    intro connected settles
    split
    · exact .ok settles
    · split
      · exact .ok settles
      · refine .then ?_
        exact fun _ => .ok settles
    · refine .bind (pruneBlockIndexCandidates_settles settles.ok) ?_
      intro pruned prunes
      have both := settles.trans prunes
      split
      · exact .ok both
      · intro result success
        refine both.trans (ih both.ok ?_ result success)
        exact fun other member => both.readyBranch (ready other (mem_cons_of_mem block member))

theorem connectBatches_settles (oldTip : Option Uint256) (fuel : Nat) {path : List Uint256}
    (ready : ∀ block ∈ path, state.ReadyBranch block) :
    Ensures (connectBatches env oldTip fuel state path) fun result => Settles origin state result.2 := by
  induction fuel generalizing state path with
  | zero => exact .error _ _
  | succ fuel ih =>
    rw [connectBatches]
    split
    · exact .ok (.refl ok)
    · refine .bind (connectBlocks_settles ok oldTip fun block member => ready block (mem_of_mem_take member)) ?_
      intro batch settles
      split
      · intro result success
        refine settles.trans (ih settles.ok ?_ result success)
        exact fun block member => settles.readyBranch (ready block (mem_of_mem_drop member))
      · exact .ok settles

theorem activateBestChainStep_settles {most : Uint256} (ready : state.ReadyBranch most) :
    Ensures (activateBestChainStep env state most) fun result => Settles origin state result.2 := by
  refine .bind (disconnectToFork_settles ok _ _) ?_
  intro disconnected settles
  split
  · exact .ok settles
  · intro result success
    refine settles.trans (connectBatches_settles settles.ok _ _ ?_ result success)
    intro block member
    have inside := mem_reverse.mp (mem_of_mem_drop member)
    exact settles.readyBranch (ok.readyBranch_of_mem ready inside)

/-- `ActivateBestChain` only marks failures in the index. -/
theorem activateBestChain_settles (fuel : Nat) {pindexMostWork : Option Uint256}
    (ready : ∀ most, pindexMostWork = some most → state.ReadyBranch most) :
    Ensures (activateBestChain env fuel state pindexMostWork) fun result =>
      Settles origin state result.state := by
  induction fuel generalizing state pindexMostWork with
  | zero => exact .error _ _
  | succ fuel ih =>
    rw [activateBestChain]
    split
    · exact .ok (.refl ok)
    · have choice : Ensures (chooseMostWork env state pindexMostWork) fun chosen =>
          Settles origin state chosen.2 ∧ ∀ most, chosen.1 = some most → chosen.2.ReadyBranch most := by
        cases pindexMostWork with
        | none => exact findMostWorkChain_settles ok _
        | some most => exact .ok ⟨.refl ok, ready⟩
      refine .bind choice ?_
      rintro chosen ⟨settles, readyMost⟩
      split
      · exact .ok settles
      · rename_i most isMost
        split
        · exact .ok settles
        · refine .bind (activateBestChainStep_settles settles.ok (readyMost most isMost)) ?_
          intro step stepped
          have both := settles.trans stepped
          split
          · exact .ok both
          · -- the search goes on towards the same block, or starts anew after an invalid one
            have readyNext : ∀ next, (if step.1 = .invalidFound then none else some most) = some next →
                step.2.ReadyBranch next := by
              intro next isNext
              split_ifs at isNext
              cases isNext
              exact stepped.readyBranch (readyMost _ isMost)
            generalize (if step.1 = Progress.invalidFound then none else some most) = next at readyNext ⊢
            dsimp only
            split
            · exact .ok both
            · intro result success
              exact both.trans (ih both.ok readyNext result success)

end

section Invalidate

variable (ok : IndexOk origin [] state)
include ok

/-- The tip above an invalid block is marked as its child. -/
theorem markTip_settles {pindex : Uint256} (active : pindex ∈ state.chainActive)
    (invalid : (state.index pindex).fFailedValid = true) : Settles origin state (markTip state) := by
  rw [markTip]
  split
  · exact .refl ok
  · rename_i walk isTip
    have ready := ok.readyBranch_of_active (mem_of_head? isTip)
    have above : pindex ∈ state.branch walk := by
      rcases ok.active with empty | ⟨tip, whole, _⟩
      · rw [empty] at active
        cases active
      · rw [ChainState.tip, whole] at isTip
        cases isTip
        exact whole ▸ active
    have index := state.modify_index walk fun entry => { entry with fFailedChild := true }
    have unmarked : ∀ hash, hash ≠ walk → (state.index hash).fFailedChild = false →
        ((state.modify walk fun entry => { entry with fFailedChild := true }).index hash).fFailedChild = false := by
      intro hash apart clean
      rw [index, if_neg apart]
      exact clean
    have marked := @Marks.modify state walk (fun entry => { entry with fFailedChild := true }) (fun _ => rfl)
      fun _ _ => (failed_iff _).mpr (.inr rfl)
    have marks : Marks state
        ((state.modify walk fun entry => { entry with fFailedChild := true }).eraseCandidate walk) :=
      ⟨rfl, rfl, marked.index, marked.failed⟩
    refine ⟨ok.change marks.reflagged ?_ ?_ ok.active, marks, ?_, ?_⟩
    · intro hash member
      obtain ⟨old, apart⟩ := mem_eraseCandidate.mp member
      obtain ⟨known, clean⟩ := ok.candidates hash old
      exact ⟨known, unmarked hash apart clean⟩
    · intro hash waits
      apply unmarked hash _ waits.unmarked
      intro same
      exact waits.unready (ready hash (same ▸ mem_cons_self)).2
    · intro hash old
      rw [eraseCandidate, index]
      split
      · exact old
      · exact old
    · intro hash failed
      rw [eraseCandidate, index] at failed
      split at failed
      · rename_i same
        refine ⟨pindex, same ▸ above, .inl ?_⟩
        exact (failed_iff _).mpr (.inl invalid)
      · exact ⟨hash, mem_cons_self, .inl failed⟩

theorem disconnectInvalid_settles {pindex : Uint256} (invalid : (state.index pindex).fFailedValid = true) (fuel : Nat) :
    Ensures (disconnectInvalid env pindex fuel state) fun result => Settles origin state result.2 := by
  induction fuel generalizing state with
  | zero => exact .error _ _
  | succ fuel ih =>
    rw [disconnectInvalid]
    split
    · rename_i active
      have marked := markTip_settles ok (state.contains_iff.mp active) invalid
      refine .bind (disconnectTip_settles marked.ok) ?_
      intro disconnected settles
      have both := marked.trans settles
      split
      · intro result success
        exact both.trans (ih both.ok (both.spread.kept pindex invalid) result success)
      · exact .ok both
    · exact .ok (.refl ok)

/-- Usable blocks become candidates again. -/
theorem foldl_readdCandidate_settles (tip : Uint256) {part : List Uint256}
    (known : ∀ hash ∈ part, hash ∈ state.mapBlockIndex) :
    Settles origin state (part.foldl (readdCandidate env tip) state) := by
  induction part generalizing state with
  | nil => exact .refl ok
  | cons hash rest ih =>
    have readded : Settles origin state (readdCandidate env tip state hash) := by
      rw [readdCandidate]
      split
      · rename_i usable
        have clean : (state.index hash).failed = false := by
          rw [Bool.and_eq_true, Bool.and_eq_true, isValid, Bool.and_eq_true, Bool.not_eq_true'] at usable
          exact usable.1.1.1
        have marks : Marks state (state.insertCandidate hash) := ⟨rfl, rfl, fun _ => rfl, fun _ failed => failed⟩
        refine ⟨ok.change marks.reflagged ?_ (fun _ waits => waits.unmarked) ok.active, .of_index marks rfl⟩
        intro block member
        rcases mem_insert_iff.mp member with rfl | old
        · exact ⟨known block mem_cons_self, (Bool.or_eq_false_iff.mp clean).2⟩
        · exact ok.candidates block old
      · exact .refl ok
    apply readded.trans
    apply ih readded.ok
    intro block member
    rw [readded.spread.marks.mapBlockIndex]
    exact known block (mem_cons_of_mem hash member)

theorem invalidateBlock_settles (pindex : Uint256) :
    Ensures (invalidateBlock env state pindex) fun result => Settles origin state result.2 := by
  have condemned := Settles.condemn ok pindex
  have invalid : (((state.modify pindex fun entry => { entry with fFailedValid := true }).eraseCandidate
      pindex).index pindex).fFailedValid = true := by
    rw [eraseCandidate, state.modify_index, if_pos rfl]
  refine .bind (disconnectInvalid_settles condemned.ok invalid _) ?_
  intro disconnected settles
  have both := condemned.trans settles
  split
  · exact .ok both
  · split
    · exact .error _ _
    · refine .then ?_
      intro _
      exact .ok (both.trans (foldl_readdCandidate_settles both.ok _ fun _ member => member))

theorem invalidateblock_settles (fuel : Nat) (hash : Uint256) (fStateError : Bool) :
    Ensures (invalidateblock env fuel state hash fStateError) fun result => Settles origin state result := by
  rw [invalidateblock]
  split
  case isFalse => exact .ok (.refl ok)
  case isTrue =>
    refine .bind (invalidateBlock_settles ok hash) ?_
    intro invalidated settles
    split
    · exact .ok settles
    · refine .bind (activateBestChain_settles settles.ok fuel fun _ impossible => by cases impossible) ?_
      intro activation activated
      exact .ok (settles.trans activated)

end Invalidate

end Straks.Activation
