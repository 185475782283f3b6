import Straks.Library.Run
import Straks.Proof.FailureSpread

namespace Straks.Activation
open Candidates Success Run List CBlockIndex ChainState

variable {env : NodeEnv} {state later : ChainState} {origin : Uint256}

/-- Some blocks have lost their failure marks, nothing else. -/
structure Cleared (which : Uint256 → Prop) (state later : ChainState) : Prop where
  mapBlockIndex : later.mapBlockIndex = state.mapBlockIndex
  mapBlocksUnlinked : later.mapBlocksUnlinked = state.mapBlocksUnlinked
  active : later.chainActive = state.chainActive
  cleared : ∀ hash, which hash → later.index hash = (state.index hash).clearFailed
  kept : ∀ hash, ¬ which hash → later.index hash = state.index hash

namespace Cleared

variable {which : Uint256 → Prop}

theorem cases (clears : Cleared which state later) (hash : Uint256) :
    later.index hash = (state.index hash).clearFailed ∨ later.index hash = state.index hash := by
  by_cases chosen : which hash
  · exact .inl (clears.cleared hash chosen)
  · exact .inr (clears.kept hash chosen)

theorem reflagged (clears : Cleared which state later) : Reflagged state later := by
  refine ⟨clears.mapBlockIndex, clears.mapBlocksUnlinked, ?_⟩
  intro hash
  rcases clears.cases hash with same | same
  · rw [same]
    rfl
  · rw [same]

theorem trans {last : ChainState} {further : Uint256 → Prop} (first : Cleared which state later)
    (second : Cleared further later last) : Cleared (fun hash => which hash ∨ further hash) state last where
  mapBlockIndex := second.mapBlockIndex.trans first.mapBlockIndex
  mapBlocksUnlinked := second.mapBlocksUnlinked.trans first.mapBlocksUnlinked
  active := second.active.trans first.active
  cleared := by
    intro hash chosen
    by_cases again : further hash
    · rw [second.cleared hash again]
      rcases first.cases hash with same | same
      · rw [same]
        rfl
      · rw [same]
    · rw [second.kept hash again]
      exact first.cleared hash (chosen.resolve_right again)
  kept := by
    intro hash neither
    rw [not_or] at neither
    rw [second.kept hash neither.2, first.kept hash neither.1]

theorem congr {other : Uint256 → Prop} (clears : Cleared which state later) (same : ∀ hash, which hash ↔ other hash) :
    Cleared other state later := by
  have equal : which = other := funext fun hash => propext (same hash)
  exact equal ▸ clears

theorem indexOk (clears : Cleared which state later) (ok : IndexOk origin [] state)
    (candidates : ∀ hash ∈ later.setBlockIndexCandidates, hash ∈ state.setBlockIndexCandidates ∨
      which hash ∧ hash ∈ state.mapBlockIndex) : IndexOk origin [] later := by
  have unmarked : ∀ hash, (state.index hash).fFailedChild = false → (later.index hash).fFailedChild = false := by
    intro hash clean
    rcases clears.cases hash with same | same
    · rw [same]
      rfl
    · rw [same]
      exact clean
  apply ok.change clears.reflagged
  · intro hash member
    rcases candidates hash member with old | ⟨chosen, known⟩
    · obtain ⟨known, clean⟩ := ok.candidates hash old
      exact ⟨known, unmarked hash clean⟩
    · rw [clears.cleared hash chosen]
      exact ⟨known, rfl⟩
  · exact fun hash waits => unmarked hash waits.unmarked
  · rw [clears.active]
    exact ok.active

end Cleared

/-- `GetAncestor` finds the blocks of the branch. -/
theorem BranchesOk.getAncestor_iff (branches : BranchesOk state) {hash pindex : Uint256} :
    state.getAncestor hash (state.index pindex).nHeight = some pindex ↔ pindex ∈ state.branch hash := by
  rw [getAncestor]
  constructor
  · intro found
    split_ifs at found
    exact mem_of_getElem? found
  · intro member
    obtain ⟨above, below, split⟩ := append_of_mem member
    have part : pindex :: below <:+ state.branch hash := ⟨above, split.symm⟩
    have lower : (state.index pindex).ancestors = below := (List.cons.inj (branches.branch_suffix part)).2
    have length : (state.index hash).ancestors.length + 1 = above.length + (below.length + 1) := by
      have whole := congrArg List.length split
      rw [length_append] at whole
      exact whole
    rw [nHeight, nHeight, lower, if_neg (by omega), split]
    have position : (state.index hash).ancestors.length - below.length = above.length := by omega
    rw [position, getElem?_append_right (Nat.le_refl _), Nat.sub_self]
    rfl

theorem CBlockIndex.clearFailed_of_clean {pindex : CBlockIndex} (clean : pindex.failed = false) :
    pindex.clearFailed = pindex := by
  obtain ⟨valid, child⟩ := Bool.or_eq_false_iff.mp clean
  cases pindex
  cases valid
  cases child
  rfl

/-- A turn clears the reconsidered block and its descendants. -/
theorem reviveBlock_clears (ok : IndexOk origin [] state) (pindex : Uint256) {hash : Uint256}
    (known : hash ∈ state.mapBlockIndex) :
    Ensures (reviveBlock env pindex state hash) fun revived => IndexOk origin [] revived ∧
      Cleared (fun block => block = hash ∧ pindex ∈ state.branch block) state revived := by
  rw [reviveBlock]
  split
  · rename_i condition
    rw [Bool.and_eq_true, decide_eq_true_eq, ok.branches.getAncestor_iff] at condition
    have index := state.modify_index hash clearFailed
    have clears : ∀ revived : ChainState, revived.mapBlockIndex = state.mapBlockIndex →
        revived.mapBlocksUnlinked = state.mapBlocksUnlinked → revived.chainActive = state.chainActive →
        revived.index = (state.modify hash clearFailed).index →
        Cleared (fun block => block = hash ∧ pindex ∈ state.branch block) state revived := by
      intro revived map unlinked active entries
      refine ⟨map, unlinked, active, ?_, ?_⟩
      · rintro block ⟨rfl, _⟩
        rw [entries, index, if_pos rfl]
      · intro block other
        rw [entries, index, if_neg]
        rintro rfl
        exact other ⟨rfl, condition.2⟩
    have plain := clears (state.modify hash clearFailed) rfl rfl rfl rfl
    have inserted := clears ((state.modify hash clearFailed).insertCandidate hash) rfl rfl rfl rfl
    have plainOk := plain.indexOk ok fun _ member => .inl member
    have insertedOk := inserted.indexOk ok (by
      intro block member
      rcases mem_insert_iff.mp member with rfl | old
      · exact .inr ⟨⟨rfl, condition.2⟩, known⟩
      · exact .inl old)
    dsimp only
    split
    · split
      · exact .error _ _
      · refine .ok ?_
        split
        · exact ⟨insertedOk, inserted⟩
        · exact ⟨plainOk, plain⟩
    · exact .ok ⟨plainOk, plain⟩
  · rename_i skipped
    refine .ok ⟨ok, rfl, rfl, rfl, ?_, fun _ _ => rfl⟩
    rintro block ⟨rfl, above⟩
    rw [Bool.and_eq_true, decide_eq_true_eq, ok.branches.getAncestor_iff] at skipped
    have valid : (state.index block).isValid blockValidTransactions = true := by
      by_contra invalid
      exact skipped ⟨by simpa using invalid, above⟩
    rw [isValid, Bool.and_eq_true, Bool.not_eq_true'] at valid
    exact (clearFailed_of_clean valid.1).symm

theorem foldlM_reviveBlock_clears (ok : IndexOk origin [] state) (pindex : Uint256) {part : List Uint256}
    (known : ∀ hash ∈ part, hash ∈ state.mapBlockIndex) :
    Ensures (part.foldlM (reviveBlock env pindex) state) fun revived => IndexOk origin [] revived ∧
      Cleared (fun block => block ∈ part ∧ pindex ∈ state.branch block) state revived := by
  induction part generalizing state with
  | nil =>
    refine .ok ⟨ok, rfl, rfl, rfl, ?_, fun _ _ => rfl⟩
    rintro block ⟨impossible, _⟩
    cases impossible
  | cons hash rest ih =>
    refine .bind (reviveBlock_clears ok pindex (known hash mem_cons_self)) ?_
    rintro revived ⟨revivedOk, first⟩
    have restKnown : ∀ block ∈ rest, block ∈ revived.mapBlockIndex := by
      intro block member
      rw [first.mapBlockIndex]
      exact known block (mem_cons_of_mem hash member)
    intro last success
    obtain ⟨lastOk, second⟩ := ih revivedOk restKnown last success
    refine ⟨lastOk, (first.trans second).congr ?_⟩
    intro block
    rw [first.reflagged.branch, mem_cons, or_and_right]

theorem foldl_clearFailed (part : List Uint256) (state : ChainState) :
    Cleared (· ∈ part) state (part.foldl (fun state hash => state.modify hash clearFailed) state) ∧
      (part.foldl (fun state hash => state.modify hash clearFailed) state).setBlockIndexCandidates =
        state.setBlockIndexCandidates := by
  induction part generalizing state with
  | nil => exact ⟨⟨rfl, rfl, rfl, fun _ impossible => (by cases impossible), fun _ _ => rfl⟩, rfl⟩
  | cons hash rest ih =>
    have index := state.modify_index hash clearFailed
    have first : Cleared (· = hash) state (state.modify hash clearFailed) := by
      refine ⟨rfl, rfl, rfl, ?_, ?_⟩
      · intro block same
        rw [index, if_pos same]
      · intro block apart
        rw [index, if_neg apart]
    obtain ⟨second, candidates⟩ := ih (state.modify hash clearFailed)
    refine ⟨(first.trans second).congr ?_, candidates⟩
    intro block
    rw [mem_cons]

/-- The block, its descendants and ancestors are cleared, no other. -/
theorem resetBlockFailureFlags_clears (ok : IndexOk origin [] state) (pindex : Uint256) :
    Ensures (resetBlockFailureFlags env state pindex) fun reset => IndexOk origin [] reset ∧
      Cleared (fun block => block ∈ state.mapBlockIndex ∧ pindex ∈ state.branch block ∨ block ∈ state.branch pindex)
        state reset := by
  refine .bind (foldlM_reviveBlock_clears ok pindex fun _ member => member) ?_
  rintro revived ⟨revivedOk, first⟩
  obtain ⟨second, candidates⟩ := foldl_clearFailed (revived.branch pindex) revived
  refine .ok ⟨second.indexOk revivedOk ?_, (first.trans second).congr ?_⟩
  · intro hash member
    rw [candidates] at member
    exact .inl member
  · intro block
    rw [first.reflagged.branch]

/-- A flagged block or one of its ancestors is marked invalid. -/
def Caused (state : ChainState) : Prop :=
  ∀ hash ∈ state.mapBlockIndex, (state.index hash).failed = true →
    ∃ block ∈ state.branch hash, (state.index block).fFailedValid = true

/-- The index invariant holds afterwards, and flags keep the causes they had. -/
structure Keeps (hashGenesisBlock : Uint256) (state later : ChainState) : Prop where
  ok : IndexOk hashGenesisBlock [] later
  caused : Caused state → Caused later

theorem Keeps.refl (ok : IndexOk origin [] state) : Keeps origin state state :=
  ⟨ok, fun caused => caused⟩

theorem Keeps.trans {last : ChainState} (first : Keeps origin state later)
    (second : Keeps origin later last) : Keeps origin state last :=
  ⟨second.ok, fun caused => second.caused (first.caused caused)⟩

theorem Settles.keeps (settles : Settles origin state later) (ok : IndexOk origin [] state) :
    Keeps origin state later := by
  refine ⟨settles.ok, ?_⟩
  intro caused hash known failed
  rw [settles.spread.marks.mapBlockIndex] at known
  rw [settles.spread.marks.branch]
  obtain ⟨block, member, reason⟩ := settles.spread.cause hash failed
  rcases reason with earlier | invalid
  · obtain ⟨cause, lower, invalid⟩ := caused block (ok.branches.known_branch known member) earlier
    exact ⟨cause, (ok.branches.branch_of_mem member).mem lower, settles.spread.kept cause invalid⟩
  · exact ⟨block, member, invalid⟩

section Arrivals

/-- A leaf carries no flag. -/
theorem LeafAdded.keeps {header : HeaderArrival} {added : ChainState} (leaf : LeafAdded state header added)
    (ok : IndexOk origin [] state) : Keeps origin state added := by
  refine ⟨leaf.indexOk ok, ?_⟩
  intro caused hash known failed
  have apart : hash ≠ header.hash := by
    intro same
    rw [same, leaf.leaf] at failed
    cases failed
  rw [leaf.mapBlockIndex] at known
  have old := (mem_cons.mp known).resolve_left apart
  rw [leaf.old old] at failed
  obtain ⟨cause, member, invalid⟩ := caused hash old failed
  rw [leaf.branch_of_ne apart]
  refine ⟨cause, member, ?_⟩
  rw [leaf.old (ok.branches.known_branch old member)]
  exact invalid

theorem HeaderOutcome.keeps {header : HeaderArrival} {result : Bool × ChainState}
    (outcome : HeaderOutcome env state header result) (ok : IndexOk origin [] state) :
    Keeps origin state result.2 := by
  cases outcome with
  | refused => exact .refl ok
  | repeated _ _ => exact .refl ok
  | added leaf _ => exact leaf.keeps ok

/-- The branches and the failure flags are as before. -/
structure SameFailures (state later : ChainState) : Prop where
  mapBlockIndex : later.mapBlockIndex = state.mapBlockIndex
  branch : ∀ hash, later.branch hash = state.branch hash
  failed : ∀ hash, (later.index hash).failed = (state.index hash).failed
  fFailedValid : ∀ hash, (later.index hash).fFailedValid = (state.index hash).fFailedValid

theorem SameFailures.trans {last : ChainState} (first : SameFailures state later) (second : SameFailures later last) :
    SameFailures state last where
  mapBlockIndex := second.mapBlockIndex.trans first.mapBlockIndex
  branch := fun hash => (second.branch hash).trans (first.branch hash)
  failed := fun hash => (second.failed hash).trans (first.failed hash)
  fFailedValid := fun hash => (second.fFailedValid hash).trans (first.fFailedValid hash)

theorem SameFailures.caused (same : SameFailures state later) (caused : Caused state) : Caused later := by
  intro hash known failed
  rw [same.mapBlockIndex] at known
  rw [same.failed] at failed
  obtain ⟨cause, member, invalid⟩ := caused hash known failed
  rw [same.branch]
  exact ⟨cause, member, (same.fFailedValid cause).trans invalid⟩

theorem BlockLinked.sameFailures {hash : Uint256} {linked : ChainState} (link : BlockLinked env state hash linked) :
    SameFailures state linked :=
  ⟨link.mapBlockIndex, link.branch, fun block => (link.fields block).2.2.2.2.2,
    fun block => (link.fields block).2.2.2.2.1⟩

theorem receivedBlockTransactions_sameFailures (state : ChainState) (hash : Uint256) (nTx : Nat) :
    SameFailures state (receivedBlockTransactions env state hash nTx) := by
  have index := fun block => (state.storeData_index hash nTx block).1
  have stored : ∀ pairs, SameFailures state { state.storeData hash nTx with mapBlocksUnlinked := pairs } := by
    intro pairs
    refine ⟨rfl, ?_, ?_, ?_⟩
    all_goals
      intro block
      simp only [ChainState.branch, CBlockIndex.failed]
      rw [index]
  rw [receivedBlockTransactions]
  split
  · apply linkBlocks_keeps (fun _ linked => SameFailures state linked) _ (stored _)
    · exact Nat.le_of_eq (Nat.add_comm _ _)
    · exact fun link same => same.trans link.sameFailures
  · split
    · split
      · exact stored _
      · exact stored _
    · exact stored _

theorem acceptBlock_keeps (ok : IndexOk env.hashGenesisBlock [] state) (block : BlockArrival) :
    Keeps env.hashGenesisBlock state (acceptBlock env state block).2 := by
  obtain ⟨header, headerOutcome, outcome⟩ := acceptBlock_outcome ok.genesisKnown ok.genesisData block
  have first := headerOutcome.keeps ok
  apply first.trans
  generalize (acceptBlock env state block).2 = accepted at outcome ⊢
  cases outcome with
  | ignored => exact .refl first.ok
  | rejected _ => exact (Settles.invalid first.ok block.hash).keeps first.ok
  | stored stores =>
    exact ⟨receivedBlockTransactions_indexOk first.ok stores.known stores.missing stores.alive block.nTx,
      (receivedBlockTransactions_sameFailures _ _ _).caused⟩

theorem processNewBlockHeaders_keeps (ok : IndexOk env.hashGenesisBlock [] state) (headers : List HeaderArrival) :
    Keeps env.hashGenesisBlock state (processNewBlockHeaders env state headers) := by
  induction headers generalizing state with
  | nil => exact .refl ok
  | cons header rest ih =>
    have accepted := (acceptBlockHeader_outcome ok.genesisKnown header).keeps ok
    rw [processNewBlockHeaders]
    split
    · exact accepted.trans (ih accepted.ok)
    · exact accepted

theorem activateBestChain_keeps (ok : IndexOk origin [] state) (fuel : Nat) :
    Ensures (activateBestChain env fuel state none) fun result => Keeps origin state result.state := by
  intro result success
  have none : ∀ most, none = some most → state.ReadyBranch most := fun _ impossible => by cases impossible
  exact (activateBestChain_settles ok fuel none result success).keeps ok

theorem processNewBlock_keeps (ok : IndexOk env.hashGenesisBlock [] state) (fuel : Nat) (block : BlockArrival) :
    Ensures (processNewBlock env fuel state block) fun result => Keeps env.hashGenesisBlock state result.2 := by
  have accepted := acceptBlock_keeps ok block
  rw [processNewBlock]
  split
  · exact .ok (.refl ok)
  · dsimp only
    split
    · exact .ok accepted
    · refine .bind (activateBestChain_keeps accepted.ok fuel) ?_
      exact fun activation keeps => .ok (accepted.trans keeps)

theorem handleEvent_keeps (ok : IndexOk env.hashGenesisBlock [] state) (fuel : Nat) (event : Event) :
    Ensures (handleEvent env fuel state event) fun later => Keeps env.hashGenesisBlock state later := by
  cases event with
  | headers headers => exact .ok (processNewBlockHeaders_keeps ok headers)
  | activate =>
    refine .bind (activateBestChain_keeps ok fuel) ?_
    exact fun activation keeps => .ok keeps
  | block block =>
    refine .bind (processNewBlock_keeps ok fuel block) ?_
    exact fun processed keeps => .ok keeps

end Arrivals

/-- Reconsidering a block clears no cause of a flag outside its line: a flagged block that is neither an ancestor nor
a descendant has an invalid block below it that is not an ancestor. -/
def Request.ClearsNoCause (state : ChainState) (request : Request hashGenesisBlock) : Prop :=
  match request.operation with
  | .reconsiderblock pindex => ∀ hash ∈ state.mapBlockIndex, (state.index hash).failed = true →
      hash ∉ state.branch pindex → pindex ∉ state.branch hash →
        ∃ block ∈ state.branch hash, (state.index block).fFailedValid = true ∧ block ∉ state.branch pindex
  | _ => True

/-- The flags of the reconsidered block's line go; what remains keeps its cause. -/
theorem reconsiderblock_keeps (ok : IndexOk env.hashGenesisBlock [] state) (fuel : Nat) (pindex : Uint256) :
    Ensures (reconsiderblock env fuel state pindex) fun later => IndexOk env.hashGenesisBlock [] later ∧
      (Request.ClearsNoCause state ⟨env, rfl, fuel, .reconsiderblock pindex⟩ → Caused state → Caused later) := by
  rw [reconsiderblock]
  split
  case isFalse => exact .ok ⟨ok, fun _ caused => caused⟩
  case isTrue =>
    refine .bind (resetBlockFailureFlags_clears ok pindex) ?_
    rintro reset ⟨resetOk, clears⟩
    refine .bind (activateBestChain_keeps resetOk fuel) ?_
    intro activation keeps
    refine .ok ⟨keeps.ok, fun condition _ => keeps.caused ?_⟩
    intro hash known failed
    rw [clears.mapBlockIndex] at known
    have outside : ¬ (hash ∈ state.mapBlockIndex ∧ pindex ∈ state.branch hash ∨ hash ∈ state.branch pindex) := by
      intro chosen
      rw [clears.cleared hash chosen] at failed
      cases failed
    rw [clears.kept hash outside] at failed
    rw [not_or, not_and] at outside
    obtain ⟨cause, member, invalid, elsewhere⟩ := condition hash known failed outside.2 (outside.1 known)
    rw [clears.reflagged.branch]
    refine ⟨cause, member, ?_⟩
    rw [clears.kept cause]
    · exact invalid
    · rintro (⟨_, above⟩ | below)
      · exact outside.1 known ((ok.branches.branch_of_mem member).mem above)
      · exact elsewhere below

theorem handle_keeps (ok : IndexOk origin [] state) (request : Request origin) :
    Ensures (handle state request) fun later => IndexOk origin [] later ∧
      (request.ClearsNoCause state → Caused state → Caused later) := by
  obtain ⟨env, rfl, fuel, operation⟩ := request
  cases operation with
  | event event =>
    intro later success
    have keeps := handleEvent_keeps ok fuel event later success
    exact ⟨keeps.ok, fun _ => keeps.caused⟩
  | invalidateblock hash fStateError =>
    intro later success
    have keeps := (invalidateblock_settles ok fuel hash fStateError later success).keeps ok
    exact ⟨keeps.ok, fun _ => keeps.caused⟩
  | reconsiderblock hash => exact reconsiderblock_keeps ok fuel hash

/-- The genesis block alone. -/
theorem Loaded.indexOk {genesis : BlockArrival} (loaded : Loaded genesis state) : IndexOk genesis.hash [] state := by
  constructor
  · exact loaded.branches
  · rw [loaded.mapBlockIndex]
    exact mem_cons_self
  · exact (loaded.data_iff _).mpr rfl
  · intro hash known _
    rw [loaded.mapBlockIndex] at known
    exact (loaded.data_iff hash).mpr (mem_singleton.mp known)
  · intro hash member
    rw [loaded.candidates] at member
    rw [loaded.mapBlockIndex]
    exact ⟨member, (Bool.or_eq_false_iff.mp (loaded.clean hash)).2⟩
  · rw [loaded.unlinked]
    exact forall_mem_nil _
  · exact forall_mem_nil _
  · rw [loaded.unlinked]
    exact nodup_nil
  · exact .inl loaded.active

section Search

/-- The blocks the walk down from a candidate looks at, until one failed, lacks data or is active. -/
def examined (state : ChainState) : List Uint256 → List Uint256
  | [] => []
  | pindexTest :: below =>
    if state.contains pindexTest then []
    else if (state.index pindexTest).failed || !(state.index pindexTest).fHaveData then [pindexTest]
    else pindexTest :: examined state below

/-- `FindMostWorkChain` walks down a path in one of its turns. -/
inductive Examines (env : NodeEnv) : ChainState → List Uint256 → Prop where
  | now {state : ChainState} {pindexNew : Uint256}
      (best : last (state.worse env) state.setBlockIndexCandidates = some pindexNew) :
      Examines env state (examined state (state.branch pindexNew))
  | later {state : ChainState} {pindexNew pindexTest : Uint256} {path : List Uint256}
      (best : last (state.worse env) state.setBlockIndexCandidates = some pindexNew)
      (unusable : findUnusable state (state.branch pindexNew) = .ok (some pindexTest))
      (rest : Examines env (removeBranch state pindexNew pindexTest) path) : Examines env state path

/-- Candidates are only removed, only the children's flag is set. -/
structure Removes (state later : ChainState) : Prop where
  candidates : ∀ hash ∈ later.setBlockIndexCandidates, hash ∈ state.setBlockIndexCandidates
  fFailedValid : ∀ hash, (later.index hash).fFailedValid = (state.index hash).fFailedValid
  fFailedChild : ∀ hash, (state.index hash).fFailedChild = true → (later.index hash).fFailedChild = true

theorem Removes.refl (state : ChainState) : Removes state state :=
  ⟨fun _ member => member, fun _ => rfl, fun _ marked => marked⟩

theorem Removes.trans {last : ChainState} (first : Removes state later) (second : Removes later last) :
    Removes state last where
  candidates := fun hash member => first.candidates hash (second.candidates hash member)
  fFailedValid := fun hash => (second.fFailedValid hash).trans (first.fFailedValid hash)
  fFailedChild := fun hash marked => second.fFailedChild hash (first.fFailedChild hash marked)

theorem removeUnusable_removes (fFailedChain : Bool) (state : ChainState) (pindexFailed : Uint256) :
    Removes state (removeUnusable fFailedChain state pindexFailed) := by
  have index := state.modify_index pindexFailed fun entry => { entry with fFailedChild := true }
  rw [removeUnusable]
  split
  · refine ⟨fun _ member => (mem_eraseCandidate.mp member).1, ?_, ?_⟩
    · intro hash
      rw [eraseCandidate, index]
      split <;> rfl
    · intro hash marked
      rw [eraseCandidate, index]
      split
      · rfl
      · exact marked
  · exact ⟨fun _ member => (mem_eraseCandidate.mp member).1, fun _ => rfl, fun _ marked => marked⟩

theorem removeBranch_removes (state : ChainState) (pindexNew test : Uint256) :
    Removes state (removeBranch state pindexNew test) := by
  have above : ∀ (part : List Uint256) (current : ChainState), Removes current
      (part.foldl (removeUnusable (state.index test).failed) current) := by
    intro part
    induction part with
    | nil => exact Removes.refl
    | cons block rest ih => exact fun current => (removeUnusable_removes _ current block).trans (ih _)
  apply (above _ state).trans
  exact ⟨fun _ member => (mem_eraseCandidate.mp member).1, fun _ => rfl, fun _ marked => marked⟩

theorem findMostWorkChain_removes (fuel : Nat) (state : ChainState) :
    Ensures (findMostWorkChain env fuel state) fun result => Removes state result.2 := by
  induction fuel generalizing state with
  | zero => exact .error _ _
  | succ fuel ih =>
    rw [findMostWorkChain]
    split
    · exact .ok (.refl state)
    · refine .then ?_
      intro found
      cases found with
      | none => exact .ok (.refl state)
      | some test =>
        intro result success
        exact (removeBranch_removes state _ test).trans (ih _ result success)

theorem Walk.examined {part passed rest : List Uint256} {found : Option Uint256}
    (walk : Walk state part found passed rest) : examined state part = passed ++ found.toList := by
  obtain ⟨rfl, above, usable, active, unusable⟩ := walk
  induction passed with
  | nil =>
    cases rest <;> cases found <;> simp_all [Activation.examined, CBlockIndex.Usable]
  | cons first passed ih =>
    simp_all [Activation.examined, CBlockIndex.Usable]

/-- A walk without an unusable block saw no failed block. -/
theorem examined_of_none {part : List Uint256} (usable : findUnusable state part = .ok none) :
    ∀ block ∈ examined state part, (state.index block).failed = false := by
  obtain ⟨passed, rest, walk⟩ := findUnusable_walk usable
  simp only [walk.examined, Option.toList_none, append_nil]
  exact fun block member => (walk.usable block member).1

/-- A walk that stops at an unusable block has looked at it and at none that failed before. -/
structure StopsAt (state : ChainState) (part : List Uint256) (pindexTest : Uint256) : Prop where
  unusable : ((state.index pindexTest).failed || !(state.index pindexTest).fHaveData) = true
  inside : ∀ block ∈ examined state part, block ∈ part.takeWhile (· ≠ pindexTest) ∨ block = pindexTest
  clean : ∀ block ∈ examined state part, block ≠ pindexTest → (state.index block).failed = false

theorem stopsAt_of_some {part : List Uint256} {test : Uint256}
    (found : findUnusable state part = .ok (some test)) : StopsAt state part test := by
  obtain ⟨passed, rest, walk⟩ := findUnusable_walk found
  have unusable := (walk.unusable test rfl).2
  refine ⟨by simpa [CBlockIndex.Usable, imp_iff_not_or] using unusable, ?_, ?_⟩ <;> rw [walk.examined] <;> intro block member
  · rw [walk.takeWhile]
    simpa using member
  · intro apart
    exact (walk.usable block (by simpa [apart] using member)).1

/-- No block of a path to an invalid block stays a candidate; those above it are marked. -/
theorem findMostWorkChain_excludes {fuel : Nat} {result : Option Uint256 × ChainState} {path : List Uint256}
    (success : findMostWorkChain env fuel state = .ok result) (examines : Examines env state path) {failing : Uint256}
    (member : failing ∈ path) (invalid : (result.2.index failing).fFailedValid = true) :
    ∀ block ∈ path, block ∉ result.2.setBlockIndexCandidates ∧
      (block ≠ failing → (result.2.index block).fFailedChild = true) := by
  induction fuel generalizing state with
  | zero => cases success
  | succ fuel ih =>
    rw [findMostWorkChain] at success
    cases examines with
    | @later _ pindexNew test _ best unusable rest =>
      simp only [best, unusable] at success
      exact ih success rest
    | @now _ pindexNew best =>
      simp only [best] at success
      obtain ⟨found, walked, searched⟩ := bind_eq_ok.mp success
      cases found with
      | none =>
        cases searched
        have clean := examined_of_none walked failing member
        rw [CBlockIndex.failed, invalid] at clean
        cases clean
      | some test =>
        have stops := stopsAt_of_some walked
        have after := findMostWorkChain_removes fuel _ result searched
        have whole := (removeBranch_removes state pindexNew test).trans after
        rw [whole.fFailedValid] at invalid
        have failed := (failed_iff _).mpr (.inl invalid)
        have same : failing = test := by
          by_contra apart
          have clean := stops.clean failing member apart
          rw [failed] at clean
          cases clean
        rw [same] at failed
        intro block inside
        refine ⟨?_, ?_⟩
        · intro candidate
          obtain ⟨_, outside, apart⟩ := (mem_removeBranch pindexNew).mp (after.candidates block candidate)
          exact (stops.inside block inside).elim outside apart
        · intro apart
          have above := (stops.inside block inside).resolve_right (same ▸ apart)
          apply after.fFailedChild
          rw [removeBranch_index pindexNew failed, if_pos above]

end Search

/-- Every failure flag has a cause, and no block marked as a child is a candidate. -/
structure FlagsOk (state : ChainState) : Prop where
  caused : Caused state
  candidates : ∀ hash ∈ state.setBlockIndexCandidates, (state.index hash).fFailedChild = false

/-- When no reconsideration clears the only cause of another flag, every failure flag has a cause in every reached
state. In every state `FindMostWorkChain` removes the paths that lead to an invalid block. -/
theorem failureFlags_caused (env : NodeEnv) (genesis : BlockArrival) (requests : List (Request genesis.hash))
    (state : ChainState)
    (along : Along handle (fun state request => request.ClearsNoCause state) (initBlockIndex env genesis) requests)
    (reached : runUntil handle (initBlockIndex env genesis) requests = .ok state) :
    FlagsOk state ∧ ∀ (before : ChainState) (env : NodeEnv) (fuel : Nat) (result : Option Uint256 × ChainState)
      (path : List Uint256), findMostWorkChain env fuel before = .ok result → Examines env before path →
        ∀ failing ∈ path, (result.2.index failing).fFailedValid = true →
          ∀ block ∈ path, block ∉ result.2.setBlockIndexCandidates ∧
            (block ≠ failing → (result.2.index block).fFailedChild = true) := by
  have loaded := initBlockIndex_loaded env genesis
  have start : Caused (initBlockIndex env genesis) := by
    intro hash _ failed
    rw [loaded.clean] at failed
    cases failed
  have steps : ∀ (state : ChainState) (request : Request genesis.hash),
      IndexOk genesis.hash [] state ∧ Caused state → request.ClearsNoCause state →
        Ensures (handle state request) fun later => IndexOk genesis.hash [] later ∧ Caused later := by
    rintro state request ⟨ok, caused⟩ condition later success
    obtain ⟨laterOk, keeps⟩ := handle_keeps ok request later success
    exact ⟨laterOk, keeps condition caused⟩
  obtain ⟨ok, caused⟩ := runUntil_ensures steps ⟨loaded.indexOk, start⟩ along reached
  refine ⟨⟨caused, fun hash member => (ok.candidates hash member).2⟩, ?_⟩
  intro before env fuel result path success examines failing member invalid
  exact findMostWorkChain_excludes success examines member invalid

/-- A node to which every block is valid. -/
def lenientNode : NodeEnv := ⟨1, BitVec.toNat, fun _ => .valid, fun _ => false, fun _ => false⟩

def lenientRequest (operation : Operation) : Request 1 := ⟨lenientNode, rfl, 9, operation⟩

/-- A block on the tip is invalidated and reconsidered. -/
def reconsidered : List (Request 1) :=
  [lenientRequest (.event (.block (forkBlock 2 1 1 (by decide)))), lenientRequest (.invalidateblock 2 false),
    lenientRequest (.reconsiderblock 2)]

theorem failureFlags_caused_reconsidered :
    ∃ state, runUntil handle (initBlockIndex lenientNode (forkBlock 1 0 1 (by decide))) reconsidered = .ok state ∧
      FlagsOk state := by
  obtain ⟨state, reached⟩ : ∃ state,
      runUntil handle (initBlockIndex lenientNode (forkBlock 1 0 1 (by decide))) reconsidered = .ok state := ⟨_, rfl⟩
  refine ⟨state, reached, (failureFlags_caused lenientNode (forkBlock 1 0 1 (by decide)) reconsidered state ?_ reached).1⟩
  refine ⟨trivial, fun later handled => ?_⟩
  cases handled
  refine ⟨trivial, fun later handled => ?_⟩
  cases handled
  refine ⟨?_, fun _ _ => trivial⟩
  intro hash member _ notBelow notAbove
  have either : hash = 2 ∨ hash = 1 := by simpa using (show hash ∈ [2, 1] from member)
  rcases either with rfl | rfl
  · exact absurd mem_cons_self notBelow
  · exact absurd (mem_cons_of_mem 2 mem_cons_self) notBelow

/-- Of two blocks above an invalidated one, one is marked and the other reconsidered. -/
def siblingReconsidered : List (Request 1) :=
  [lenientRequest (.event (.block (forkBlock 2 1 1 (by decide)))),
    lenientRequest (.event (.block (forkBlock 4 2 1 (by decide)))),
    lenientRequest (.event (.headers [(forkBlock 3 2 1 (by decide)).toHeaderArrival])),
    lenientRequest (.invalidateblock 2 false), lenientRequest (.reconsiderblock 3)]

/-- The flag of the sibling outlives its cause. -/
theorem failureFlags_stale : ∃ state,
    runUntil handle (initBlockIndex lenientNode (forkBlock 1 0 1 (by decide))) siblingReconsidered = .ok state ∧
      ¬ FlagsOk state := by
  obtain ⟨state, reached, known, failed, clean⟩ : ∃ state,
      runUntil handle (initBlockIndex lenientNode (forkBlock 1 0 1 (by decide))) siblingReconsidered = .ok state ∧
        4 ∈ state.mapBlockIndex ∧ (state.index 4).failed = true ∧
        ((state.branch 4).all fun block => !(state.index block).fFailedValid) = true :=
    ⟨_, rfl, by decide, by decide, by decide⟩
  refine ⟨state, reached, fun ok => ?_⟩
  obtain ⟨cause, member, invalid⟩ := ok.caused 4 known failed
  have valid := all_eq_true.mp clean cause member
  rw [invalid] at valid
  cases valid

end Straks.Activation
