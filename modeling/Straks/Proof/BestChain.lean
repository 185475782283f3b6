import Straks.Library.Success
import Straks.Proof.MostWork

namespace Straks.Activation
open Candidates Success List Nat ChainState

variable {env : NodeEnv} {state : ChainState} {origin : Uint256} {total : Nat}

/-- Only the active chain and the clock differ. -/
structure Moved (state later : ChainState) : Prop where
  mapBlockIndex : later.mapBlockIndex = state.mapBlockIndex
  index : later.index = state.index
  mapBlocksUnlinked : later.mapBlocksUnlinked = state.mapBlocksUnlinked

namespace Moved

theorem refl (state : ChainState) : Moved state state := ⟨rfl, rfl, rfl⟩

theorem trans {later last : ChainState} (first : Moved state later) (second : Moved later last) : Moved state last :=
  ⟨second.mapBlockIndex.trans first.mapBlockIndex, second.index.trans first.index,
    second.mapBlocksUnlinked.trans first.mapBlocksUnlinked⟩

theorem marks {later : ChainState} (moved : Moved state later) : Marks state later where
  mapBlockIndex := moved.mapBlockIndex
  mapBlocksUnlinked := moved.mapBlocksUnlinked
  index := fun hash => by rw [moved.index]
  failed := fun hash failed => by rw [moved.index]; exact failed

theorem live {later : ChainState} (moved : Moved state later) (hash : Uint256) :
    later.Live hash ↔ state.Live hash := by
  rw [ChainState.Live, ChainState.Live, moved.marks.linked, moved.marks.branch, moved.index]

end Moved

variable {most : Uint256} {later : ChainState} {part : List Uint256}

/-- The active chain is the branch of its tip. -/
theorem ChainOk.active_tip (chain : ChainOk env state) :
    state.chainActive = (state.tip.map state.branch).getD [] := by
  rcases chain.active with empty | ⟨tip, whole, _⟩
  · rw [ChainState.tip, empty]
    rfl
  · rw [ChainState.tip, whole]
    rfl

/-- The active chain may be cut down to the branch of one of its blocks or none. -/
theorem ChainOk.lower (chain : ChainOk env state) (tree : TreeOk origin total [] state)
    (moved : Moved state later) (candidates : later.setBlockIndexCandidates = state.setBlockIndexCandidates)
    (shorter : later.chainActive <:+ state.chainActive) : ChainOk env later := by
  have marks := moved.marks
  have keys := marks.key env
  have sameLive : later.Live = state.Live := funext fun hash => propext (moved.live hash)
  refine ⟨?_, ?_, ?_, ?_⟩
  · rw [candidates]
    exact fun hash member => (marks.linked hash).mpr (chain.candidates hash member)
  · intro hash
    rw [marks.branch, moved.index]
    exact chain.failures hash
  · cases active : later.chainActive with
    | nil => exact .inl rfl
    | cons tip below =>
      rw [active] at shorter
      have member : tip ∈ state.chainActive := shorter.mem mem_cons_self
      have sound := chain.active_sound tree member
      rcases chain.active with empty | ⟨oldTip, whole, _⟩
      · rw [empty] at member
        cases member
      · rw [whole] at shorter
        refine .inr ⟨tip, ?_, (marks.sound env tip).mpr sound⟩
        rw [marks.branch, tree.branches.branch_suffix shorter]
  · obtain ⟨anchor, covers, sound, above⟩ := chain.anchor
    rw [candidates, keys, sameLive]
    refine ⟨anchor, covers, (marks.sound env anchor).mpr sound, ?_⟩
    intro tip isTip
    have member := shorter.mem (mem_of_head? isTip)
    rw [chain.active_tip] at member
    cases oldIsTip : state.tip with
    | none =>
      rw [oldIsTip] at member
      cases member
    | some oldTip =>
      rw [oldIsTip] at member
      exact (tree.key_le env member).trans (above oldTip oldIsTip)

/-- Disconnecting ends at the fork, or with a system error. -/
theorem disconnectToFork_spec (tree : TreeOk origin total [] state) (chain : ChainOk env state)
    (fork : Option Uint256) (shared : ∀ block, fork = some block → block ∈ state.chainActive) {fuel : Nat}
    (enough : state.chainActive.length < fuel) :
    ∃ done later, disconnectToFork env fork fuel state = .ok (done, later) ∧ Moved state later ∧ ChainOk env later ∧
      later.setBlockIndexCandidates = state.setBlockIndexCandidates ∧
      (done = true → later.chainActive = (fork.map state.branch).getD []) := by
  induction fuel generalizing state with
  | zero => exact absurd enough (not_lt_zero _)
  | succ fuel ih =>
    rw [disconnectToFork]
    by_cases stop : state.tip = none ∨ state.tip = fork
    · rw [if_pos stop]
      refine ⟨true, state, rfl, Moved.refl state, chain, rfl, fun _ => ?_⟩
      rw [chain.active_tip]
      rcases stop with none | same
      · cases fork with
        | none => rw [none]
        | some block =>
          have member := shared block rfl
          rw [chain.active_tip, none] at member
          cases member
      · rw [same]
    · rw [if_neg stop, disconnectTip]
      obtain ⟨notEmpty, notFork⟩ := not_or.mp stop
      obtain ⟨tip, isTip⟩ := Option.ne_none_iff_exists'.mp notEmpty
      have whole : state.chainActive = state.branch tip := by
        rw [chain.active_tip, isTip]
        rfl
      simp only [isTip]
      cases env.systemError state.clock with
      | true =>
        refine ⟨false, state.tick, rfl, ⟨rfl, rfl, rfl⟩, ?_, rfl, fun impossible => absurd impossible Bool.false_ne_true⟩
        exact chain.lower tree ⟨rfl, rfl, rfl⟩ rfl (suffix_refl _)
      | false =>
        have active : (state.tick.setTip (state.index tip).pprev).chainActive = (state.index tip).ancestors :=
          tree.branches.setTip_pprev tip
        have moved : Moved state (state.tick.setTip (state.index tip).pprev) := ⟨rfl, rfl, rfl⟩
        have lowered := chain.lower tree moved rfl (by
          rw [active, whole]
          exact suffix_cons tip _)
        have stillShared : ∀ block, fork = some block →
            block ∈ (state.tick.setTip (state.index tip).pprev).chainActive := by
          intro block isFork
          have member := shared block isFork
          rw [whole] at member
          rw [active]
          rcases mem_cons.mp member with rfl | below
          · exact absurd (isTip.trans isFork.symm) notFork
          · exact below
        have shorter : (state.tick.setTip (state.index tip).pprev).chainActive.length < fuel := by
          rw [active]
          rw [whole, branch, length_cons] at enough
          omega
        obtain ⟨done, later, success, laterMoved, laterChain, candidates, ends⟩ :=
          ih (moved.marks.tree tree) lowered stillShared shorter
        exact ⟨done, later, success, moved.trans laterMoved, laterChain, candidates, ends⟩

/-- Genesis is valid, and blocks are read back as accepted. -/
structure NodeEnv.Faithful (env : NodeEnv) : Prop where
  genesis : env.connectBlock env.hashGenesisBlock = .valid
  storage : ∀ hash, env.connectBlock hash ≠ .invalid true

/-- Connecting a block and dropping worse candidates keeps the invariant. -/
theorem ChainOk.connect (chain : ChainOk env state) (tree : TreeOk origin total [] state) {block : Uint256}
    (onTip : (state.index block).ancestors = state.chainActive) (live : state.Live block)
    (valid : env.connectBlock block = .valid) :
    ∃ later, pruneBlockIndexCandidates env (state.tick.setTip (some block)) = .ok later ∧ Moved state later ∧
      ChainOk env later ∧ later.setBlockIndexCandidates.Sublist state.setBlockIndexCandidates ∧
      later.chainActive = block :: state.chainActive ∧
      ∀ candidate ∈ state.setBlockIndexCandidates, state.key env block ≤ state.key env candidate →
        candidate ∈ later.setBlockIndexCandidates := by
  have active : state.branch block = block :: state.chainActive := by rw [branch, onTip]
  have sound : state.Sound env block := by
    refine ⟨live.1, ?_⟩
    intro other member
    rw [active] at member
    rcases mem_cons.mp member with rfl | below
    · exact valid
    · exact (chain.active_sound tree below).2 other mem_cons_self
  obtain ⟨anchor, covers, anchorSound, _⟩ := chain.anchor
  have kept : ∀ candidate ∈ state.setBlockIndexCandidates, state.key env block ≤ state.key env candidate →
      candidate ∈ state.setBlockIndexCandidates.filter fun candidate => !state.worse env candidate block := by
    intro candidate member above
    rw [mem_filter, Bool.not_eq_true', Bool.eq_false_iff, Ne, state.worse_iff env, not_lt]
    exact ⟨member, above⟩
  obtain ⟨next, nextCovers, nextAbove, choice⟩ := covers.prune live kept
  have nextSound : state.Sound env next := by
    rcases choice with rfl | rfl
    · exact anchorSound
    · exact sound
  have nonempty : (state.setBlockIndexCandidates.filter fun candidate =>
      !state.worse env candidate block).isEmpty = false := by
    rw [isEmpty_eq_false_iff]
    exact ne_nil_of_mem nextCovers.member
  have pruned : pruneBlockIndexCandidates env (state.tick.setTip (some block)) =
      .ok { state.tick.setTip (some block) with
        setBlockIndexCandidates := state.setBlockIndexCandidates.filter fun candidate =>
          !state.worse env candidate block } := by
    change (if (state.setBlockIndexCandidates.filter fun candidate => !state.worse env candidate block).isEmpty
      then _ else _) = _
    rw [nonempty]
    rfl
  refine ⟨_, pruned, ⟨rfl, rfl, rfl⟩, ⟨?_, chain.failures, ?_, ?_⟩, filter_sublist, active, kept⟩
  · intro candidate member
    exact chain.candidates candidate (mem_filter.mp member).1
  · exact .inr ⟨block, rfl, sound⟩
  · refine ⟨next, nextCovers, nextSound, ?_⟩
    intro tip isTip
    cases isTip
    exact nextAbove

/-- The state after an attempt to connect an invalid block. -/
def ChainState.invalidated (state : ChainState) (block : Uint256) : ChainState :=
  (state.tick.modify block fun entry => { entry with fFailedValid := true }).eraseCandidate block

/-- Marking an unconnectable block keeps the invariant. -/
theorem ChainOk.invalidate (chain : ChainOk env state) (tree : TreeOk origin total [] state)
    {block : Uint256} (invalid : env.connectBlock block ≠ .valid) :
    Marks state (state.invalidated block) ∧ ChainOk env (state.invalidated block) ∧
      (state.invalidated block).setBlockIndexCandidates.Sublist state.setBlockIndexCandidates ∧
      ((state.invalidated block).index block).failed = true := by
  have blockFailed : ((state.invalidated block).index block).failed = true := by
    rw [invalidated, eraseCandidate, modify_index, if_pos rfl]
    rfl
  have marked := Marks.invalid state block
  have marks : Marks state (state.invalidated block) := ⟨rfl, rfl, marked.index, marked.failed⟩
  have fewer : (state.invalidated block).setBlockIndexCandidates.Sublist state.setBlockIndexCandidates :=
    filter_sublist
  refine ⟨marks, ?_, fewer, blockFailed⟩
  apply chain.mark tree marks rfl _ fewer
  · intro hash member live
    refine mem_eraseCandidate.mpr ⟨member, fun same => ?_⟩
    have alive := live.2 hash mem_cons_self
    rw [same, blockFailed] at alive
    cases alive
  · exact chain.failures.invalid (.inl invalid)

/-- The blocks were connected on the way to a candidate. -/
structure Advance (most : Uint256) (state later : ChainState) (front : List Uint256) : Prop where
  moved : Moved state later
  active : later.chainActive = front.reverse ++ state.chainActive
  member : most ∈ later.setBlockIndexCandidates

/-- How connecting a list of blocks can end. -/
def Progressed (most : Uint256) (state : ChainState) (part : List Uint256) (later : ChainState) : Progress → Prop
  | .complete => Advance most state later part
  | .better => ∃ front, front ≠ [] ∧ front <+: part ∧ Advance most state later front
  | .invalidFound => later.tip ≠ none ∧ ∃ block ∈ state.branch most, (later.index block).failed = true
  | .failure => True

theorem Advance.trans {middle : ChainState} {front back : List Uint256} (first : Advance most state middle front)
    (second : Advance most middle later back) : Advance most state later (front ++ back) := by
  refine ⟨first.moved.trans second.moved, ?_, second.member⟩
  rw [second.active, first.active, reverse_append, append_assoc]

/-- Progress after connecting some blocks is progress on all. -/
theorem Advance.progressed {middle : ChainState} {front : List Uint256} {progress : Progress}
    (advance : Advance most state middle front) (further : Progressed most middle part later progress) :
    Progressed most state (front ++ part) later progress := by
  cases progress with
  | complete => exact advance.trans further
  | better =>
    obtain ⟨more, nonempty, ⟨rest, split⟩, last⟩ := further
    refine ⟨front ++ more, ?_, ⟨rest, ?_⟩, advance.trans last⟩
    · exact fun empty => nonempty (append_eq_nil_iff.mp empty).2
    · rw [append_assoc, split]
  | invalidFound =>
    obtain ⟨hasTip, block, inside, failed⟩ := further
    exact ⟨hasTip, block, advance.moved.marks.branch most ▸ inside, failed⟩
  | failure => trivial

/-- Connecting blocks towards a live candidate keeps the invariant without assertions. -/
theorem connectBlocks_spec (faithful : env.Faithful) (tree : TreeOk env.hashGenesisBlock total [] state)
    (chain : ChainOk env state) (oldTip : Option Uint256) {above : List Uint256}
    (path : state.branch most = (part ++ above).reverse ++ state.chainActive) (live : state.Live most)
    (member : most ∈ state.setBlockIndexCandidates) :
    ∃ progress later, connectBlocks env oldTip state part = .ok (progress, later) ∧ Marks state later ∧
      ChainOk env later ∧ later.setBlockIndexCandidates.Sublist state.setBlockIndexCandidates ∧
      Progressed most state part later progress := by
  induction part generalizing state with
  | nil =>
    exact ⟨.complete, state, rfl, Marks.refl state, chain, Sublist.refl _, Moved.refl state, rfl, member⟩
  | cons block rest ih =>
    have whole : state.branch most = (rest ++ above).reverse ++ block :: state.chainActive := by
      rw [path, cons_append, reverse_cons, append_assoc]
      rfl
    have part : block :: state.chainActive <:+ state.branch most := ⟨_, whole.symm⟩
    have inside : block ∈ state.branch most := part.mem mem_cons_self
    have onTip : (state.index block).ancestors = state.chainActive := (List.cons.inj (tree.branches.branch_suffix part)).2
    have blockLive := tree.live_branch live inside
    have linkedTo : ¬ (state.index block).pprev ≠ state.tip := by
      rw [CBlockIndex.pprev, onTip]
      exact fun apart => apart rfl
    rw [connectBlocks, connectTip, if_neg linkedTo]
    cases env.systemError state.clock with
    | true =>
      refine ⟨.failure, state.tick, rfl, (Moved.marks ⟨rfl, rfl, rfl⟩), ?_, Sublist.refl _, trivial⟩
      exact chain.lower tree ⟨rfl, rfl, rfl⟩ rfl (suffix_refl _)
    | false =>
      cases verdict : env.connectBlock block with
      | valid =>
        obtain ⟨later, pruned, moved, connected, fewer, active, kept⟩ := chain.connect tree onTip blockLive verdict
        have laterMember := kept most member (tree.key_le env inside)
        have advance : Advance most state later [block] := ⟨moved, active, laterMember⟩
        change ∃ progress last, (do
          let pruned ← pruneBlockIndexCandidates env (state.tick.setTip (some block))
          if inBetterPosition pruned oldTip then pure (Progress.better, pruned)
          else connectBlocks env oldTip pruned rest) = .ok (progress, last) ∧ _
        rw [pruned]
        change ∃ progress last, (if inBetterPosition later oldTip then _ else _) = _ ∧ _
        split
        · exact ⟨.better, later, rfl, moved.marks, connected, fewer, [block], cons_ne_nil _ _, ⟨rest, rfl⟩, advance⟩
        · have laterPath : later.branch most = (rest ++ above).reverse ++ later.chainActive := by
            rw [moved.marks.branch, active, whole]
          obtain ⟨progress, last, success, marks, lastChain, lastFewer, progressed⟩ :=
            ih (moved.marks.tree tree) connected laterPath ((moved.live most).mpr live) laterMember
          refine ⟨progress, last, success, moved.marks.trans marks, lastChain, lastFewer.trans fewer, ?_⟩
          exact advance.progressed progressed
      | invalid corruptionPossible =>
        have stored : corruptionPossible = false := by
          cases corruptionPossible with
          | true => exact absurd verdict (faithful.storage block)
          | false => rfl
        have notValid : env.connectBlock block ≠ .valid := by
          intro impossible
          rw [verdict] at impossible
          cases impossible
        obtain ⟨marks, marked, fewer, failed⟩ := chain.invalidate tree notValid
        have hasTip : state.tip ≠ none := by
          intro noTip
          rw [tip, head?_eq_none_iff] at noTip
          have known := tree.received block (tree.data block blockLive.1)
          have root := tree.root block known (onTip.trans noTip)
          exact notValid (root ▸ faithful.genesis)
        have asserted : invalidChainFound (state.invalidated block) = .ok () := if_neg hasTip
        have found : invalidBlockFound state.tick block false = .ok (state.invalidated block) := by
          change (do invalidChainFound (state.invalidated block); pure (state.invalidated block)) = _
          rw [asserted]
          rfl
        refine ⟨.invalidFound, state.invalidated block, ?_, marks, marked, fewer, hasTip, block, inside, failed⟩
        simp only [stored, Bool.false_eq_true, if_false, found]
        change (do invalidChainFound (state.invalidated block); pure _) = _
        rw [asserted]
        rfl

/-- The batches connect the same blocks as one long list. -/
theorem connectBatches_spec (faithful : env.Faithful) (tree : TreeOk env.hashGenesisBlock total [] state)
    (chain : ChainOk env state) (oldTip : Option Uint256) (path : state.branch most = part.reverse ++ state.chainActive)
    (live : state.Live most) (member : most ∈ state.setBlockIndexCandidates) {fuel : Nat} (enough : part.length < fuel)
    : ∃ progress later, connectBatches env oldTip fuel state part = .ok (progress, later) ∧ Marks state later ∧
      ChainOk env later ∧ later.setBlockIndexCandidates.Sublist state.setBlockIndexCandidates ∧
      Progressed most state part later progress := by
  induction fuel generalizing state part with
  | zero => exact absurd enough (not_lt_zero _)
  | succ fuel ih =>
    rw [connectBatches]
    cases empty : part.isEmpty with
    | true =>
      rw [isEmpty_iff.mp empty]
      exact ⟨.complete, state, rfl, Marks.refl state, chain, Sublist.refl _, Moved.refl state, rfl, member⟩
    | false =>
      have batches : part.take 32 ++ part.drop 32 = part := take_append_drop 32 part
      rw [← batches] at path
      obtain ⟨progress, later, success, marks, laterChain, fewer, progressed⟩ :=
        connectBlocks_spec faithful tree chain oldTip path live member
      simp only [Bool.false_eq_true, if_false, success]
      by_cases complete : progress = .complete
      · subst complete
        have laterPath : later.branch most = (part.drop 32).reverse ++ later.chainActive := by
          rw [marks.branch, progressed.active, path, reverse_append, append_assoc]
        have shorter : (part.drop 32).length < fuel := by
          have nonempty := length_pos_iff.mpr (isEmpty_eq_false_iff.mp empty)
          rw [length_drop]
          omega
        obtain ⟨last, final, finished, finalMarks, finalChain, finalFewer, further⟩ :=
          ih (marks.tree tree) laterChain laterPath ((progressed.moved.live most).mpr live) progressed.member shorter
        refine ⟨last, final, ?_, marks.trans finalMarks, finalChain, finalFewer.trans fewer, ?_⟩
        · exact finished
        · rw [← batches]
          exact progressed.progressed further
      · refine ⟨progress, later, ?_, marks, laterChain, fewer, ?_⟩
        · change (if progress = .complete then _ else _) = _
          rw [if_neg complete]
          rfl
        · cases progress with
          | complete => exact absurd rfl complete
          | better =>
            obtain ⟨front, nonempty, inside, advance⟩ := progressed
            exact ⟨front, nonempty, inside.trans ( take_prefix 32 part), advance⟩
          | invalidFound => exact progressed
          | failure => trivial

theorem findFork_shared {fork : Uint256} (found : findFork state most = some fork) :
    fork ∈ state.branch most ∧ fork ∈ state.chainActive := by
  refine ⟨mem_of_mem_drop (mem_of_find?_eq_some found), ?_⟩
  exact state.contains_iff.1 (find?_some found)

/-- Towards a block above the tip nothing is disconnected. -/
theorem findFork_of_suffix (above : state.chainActive <:+ state.branch most) : findFork state most = state.tip := by
  rw [findFork, ← suffix_iff_eq_drop.mp above, tip]
  cases active : state.chainActive with
  | nil => rfl
  | cons tip below => simp [active]

/-- What a step achieves when no block is found invalid. -/
structure Approach (most : Uint256) (state later : ChainState) : Prop where
  moved : Moved state later
  member : most ∈ later.setBlockIndexCandidates
  above : later.chainActive <:+ state.branch most
  longer : state.chainActive <:+ state.branch most → state.chainActive.length < later.chainActive.length

/-- The result of one step towards the most work chain. -/
def Stepped (most : Uint256) (state later : ChainState) : Progress → Prop
  | .complete | .better => Approach most state later
  | .invalidFound => later.tip ≠ none ∧ ∃ block ∈ state.branch most, (later.index block).failed = true
  | .failure => True

/-- The most work chain does not end below the live tip. -/
theorem MostWork.not_active (mostWork : MostWork env state most) (tree : TreeOk origin total [] state)
    (chain : ChainOk env state) (elsewhere : state.tip ≠ some most) : most ∉ state.chainActive := by
  intro member
  rcases chain.active with empty | ⟨tip, whole, sound⟩
  · rw [empty] at member
    cases member
  · rw [whole] at member
    rcases mem_cons.mp member with rfl | below
    · apply elsewhere
      rw [tip, whole]
      rfl
    · have better := mostWork.best tip (tree.live_of_sound chain.failures sound)
      exact absurd (tree.key_lt env below) (not_lt.mpr better)

theorem activateBestChainStep_spec (faithful : env.Faithful) (tree : TreeOk env.hashGenesisBlock total [] state)
    (chain : ChainOk env state) (mostWork : MostWork env state most) (elsewhere : state.tip ≠ some most) :
    ∃ progress later, activateBestChainStep env state most = .ok (progress, later) ∧ Marks state later ∧
      ChainOk env later ∧ later.setBlockIndexCandidates.Sublist state.setBlockIndexCandidates ∧
      Stepped most state later progress := by
  obtain ⟨done, lowered, disconnected, moved, loweredChain, candidates, reached⟩ :=
    disconnectToFork_spec tree chain (findFork state most)
      (fun block found => (findFork_shared found).2) (lt_succ_self _)
  rw [activateBestChainStep, disconnected]
  cases done with
  | false => exact ⟨.failure, lowered, rfl, moved.marks, loweredChain, candidates ▸ Sublist.refl _, trivial⟩
  | true =>
    have active := reached rfl
    -- the blocks that are left to connect and the active chain make up the branch
    obtain ⟨path, split, isPath⟩ : ∃ path, state.branch most = path.reverse ++ lowered.chainActive ∧
        (state.branch most).reverse.drop (((findFork state most).map fun fork =>
          (state.index fork).nHeight + 1).getD 0) = path := by
      cases found : findFork state most with
      | none =>
        rw [found] at active
        refine ⟨(state.branch most).reverse, ?_, rfl⟩
        rw [active, reverse_reverse]
        exact (append_nil _).symm
      | some fork =>
        rw [found] at active
        obtain ⟨above, split⟩ := tree.branches.branch_of_mem (findFork_shared found).1
        refine ⟨above.reverse, ?_, ?_⟩
        · rw [active, reverse_reverse]
          exact split.symm
        · have height : (state.index fork).nHeight + 1 = (state.branch fork).reverse.length := by
            rw [length_reverse]
            rfl
          rw [← split, reverse_append, Option.map_some, Option.getD_some, height, drop_left]
    have loweredPath : lowered.branch most = path.reverse ++ lowered.chainActive := by
      rw [moved.marks.branch, split]
    obtain ⟨progress, later, success, marks, laterChain, fewer, progressed⟩ :=
      connectBatches_spec faithful (moved.marks.tree tree) loweredChain state.tip loweredPath
        ((moved.live most).mpr mostWork.live) (candidates ▸ mostWork.member) (lt_succ_self path.length)
    refine ⟨progress, later, ?_, moved.marks.trans marks, laterChain, candidates ▸ fewer, ?_⟩
    · change connectBatches env state.tip (_ + 1) lowered _ = _
      rw [isPath]
      exact success
    · have approach : ∀ front, front <+: path → front ≠ [] → Advance most lowered later front →
          Approach most state later := by
        intro front inside nonempty advance
        refine ⟨moved.trans advance.moved, advance.member, ?_, ?_⟩
        · obtain ⟨rest, split'⟩ := inside
          refine ⟨rest.reverse, ?_⟩
          rw [advance.active, split, ← split', reverse_append, append_assoc]
        · intro above
          have sameActive : lowered.chainActive = state.chainActive := by
            rw [active, findFork_of_suffix above]
            exact chain.active_tip.symm
          have positive := length_pos_iff.mpr nonempty
          rw [advance.active, sameActive, length_append, length_reverse]
          omega
      cases progress with
      | complete =>
        apply approach path (prefix_refl path) _ progressed
        intro empty
        rw [empty, active] at split
        cases found : findFork state most with
        | none =>
          rw [found] at split
          cases split
        | some fork =>
          rw [found] at split
          obtain rfl : most = fork := (List.cons.inj split).1
          exact mostWork.not_active tree chain elsewhere (findFork_shared found).2
      | better =>
        obtain ⟨front, nonempty, inside, advance⟩ := progressed
        exact approach front inside nonempty advance
      | invalidFound =>
        obtain ⟨hasTip, block, inside, failed⟩ := progressed
        exact ⟨hasTip, block, moved.marks.branch most ▸ inside, failed⟩
      | failure => trivial

/-- What holds when `ActivateBestChain` returns. -/
structure Activated (env : NodeEnv) (total : Nat) (result : ActivationResult) : Prop where
  tree : TreeOk env.hashGenesisBlock total [] result.state
  chain : ChainOk env result.state
  best : result.fSuccess = true → result.fInterrupted = false → ∃ tip, result.state.tip = some tip ∧
    ∀ hash, result.state.Live hash → result.state.key env hash ≤ result.state.key env tip

/-- With enough turns the loop ends, always in the same way. -/
def Terminates (env : NodeEnv) (total : Nat) (state : ChainState) (pindexMostWork : Option Uint256) : Prop :=
  ∃ fuel, ∀ more, fuel ≤ more → ∃ result, activateBestChain env more state pindexMostWork = .ok result ∧
    Activated env total result

/-- The turns left until the tip reaches its target. -/
def distance (state : ChainState) (most : Uint256) : Nat :=
  if state.chainActive <:+ state.branch most then (state.branch most).length - state.chainActive.length
  else (state.branch most).length + 1

/-- A step that finds no invalid block comes nearer. -/
theorem Approach.distance_lt (approach : Approach most state later) : distance later most < distance state most := by
  have sameBranch := approach.moved.marks.branch most
  have bounded := approach.above.length_le
  rw [distance, distance, sameBranch, if_pos approach.above]
  split
  · rename_i above
    have longer := approach.longer above
    omega
  · omega

/-- While a block is worked towards, every turn comes nearer, ends the loop or loses a candidate. -/
theorem terminates_towards (faithful : env.Faithful) {bound : Nat}
    (again : ∀ later, TreeOk env.hashGenesisBlock total [] later → ChainOk env later → later.liveCount < bound → Terminates env total later none)
    (tree : TreeOk env.hashGenesisBlock total [] state) (chain : ChainOk env state) (bounded : state.liveCount ≤ bound)
    (mostWork : MostWork env state most) : Terminates env total state (some most) := by
  induction left : distance state most using Nat.strong_induction_on generalizing state with
  | _ left ih =>
    have interrupted : Activated env total ⟨!env.systemError state.clock, true, state⟩ :=
      ⟨tree, chain, fun _ impossible => nomatch impossible⟩
    by_cases there : state.tip = some most
    · refine ⟨1, fun more enough => ?_⟩
      obtain ⟨turns, rfl⟩ := Nat.exists_eq_add_of_le' enough
      rw [activateBestChain]
      cases env.shutdownRequested state.clock with
      | true => exact ⟨_, rfl, interrupted⟩
      | false =>
        refine ⟨⟨true, false, state⟩, ?_, tree, chain, fun _ _ => ⟨most, there, mostWork.best⟩⟩
        change (if state.tip = some most then _ else _) = _
        rw [if_pos there]
        rfl
    · obtain ⟨progress, later, step, marks, laterChain, fewer, stepped⟩ :=
        activateBestChainStep_spec faithful tree chain mostWork there
      have laterTree := marks.tree tree
      -- one turn, and then whatever the rest needs
      suffices rest : ∃ fuel, ∀ more, fuel ≤ more → ∃ result,
          (if progress = .failure then .ok ⟨false, false, later⟩
            else if later.tip = (if progress = .invalidFound then none else some most) then
              .ok ⟨!env.systemError later.clock, false, later⟩
            else activateBestChain env more later (if progress = .invalidFound then none else some most)) =
            .ok result ∧ Activated env total result by
        obtain ⟨fuel, ends⟩ := rest
        refine ⟨fuel + 1, fun more enough => ?_⟩
        obtain ⟨turns, rfl⟩ := Nat.exists_eq_add_of_le' (Nat.le_trans (Nat.le_add_left 1 fuel) enough)
        cases running : env.shutdownRequested state.clock with
        | true =>
          rw [activateBestChain, running]
          exact ⟨_, rfl, interrupted⟩
        | false =>
          rw [activateBestChain, running]
          change ∃ result, (if state.tip = some most then _ else _) = _ ∧ _
          rw [if_neg there, step]
          exact ends turns (Nat.le_of_succ_le_succ enough)
      have approached : Approach most state later → ∃ fuel, ∀ more, fuel ≤ more → ∃ result,
          (if later.tip = some most then .ok ⟨!env.systemError later.clock, false, later⟩
            else activateBestChain env more later (some most)) = .ok result ∧ Activated env total result := by
        intro approach
        have laterMost : MostWork env later most := by
          refine ⟨approach.member, (approach.moved.live most).mpr mostWork.live, ?_⟩
          rw [marks.key]
          exact fun hash live => mostWork.best hash ((approach.moved.live hash).mp live)
        by_cases arrived : later.tip = some most
        · refine ⟨0, fun more _ => ⟨⟨_, false, later⟩, if_pos arrived, laterTree, laterChain, ?_⟩⟩
          exact fun _ _ => ⟨most, arrived, laterMost.best⟩
        · obtain ⟨fuel, ends⟩ := ih (distance later most) (left ▸ approach.distance_lt) laterTree laterChain
            (Nat.le_trans (marks.liveCount_le fewer) bounded) laterMost rfl
          refine ⟨fuel, fun more enough => ?_⟩
          rw [if_neg arrived]
          exact ends more enough
      cases progress with
      | failure =>
        exact ⟨0, fun _ _ => ⟨_, rfl, laterTree, laterChain, fun impossible => nomatch impossible⟩⟩
      | complete => exact approached stepped
      | better => exact approached stepped
      | invalidFound =>
        obtain ⟨hasTip, block, inside, failed⟩ := stepped
        have dead : ¬ later.Live most := by
          intro live
          have alive := live.2 block (marks.branch most ▸ inside)
          rw [failed] at alive
          cases alive
        have lost := marks.liveCount_lt fewer mostWork.member mostWork.live dead
        obtain ⟨fuel, ends⟩ := again later laterTree laterChain (Nat.lt_of_lt_of_le lost bounded)
        refine ⟨fuel, fun more enough => ?_⟩
        change ∃ result, (if later.tip = none then _ else activateBestChain env more later none) = _ ∧ _
        rw [if_neg hasTip]
        exact ends more enough

/-- `ActivateBestChain` ends. -/
theorem activateBestChain_terminates (faithful : env.Faithful) (tree : TreeOk env.hashGenesisBlock total [] state)
    (chain : ChainOk env state) : Terminates env total state none := by
  induction count : state.liveCount using Nat.strong_induction_on generalizing state with
  | _ count ih =>
    obtain ⟨most, later, found, marks, laterChain, _, clock, fewer, mostWork⟩ :=
      findMostWorkChain_spec tree chain (Nat.lt_succ_self _)
    have again : ∀ last, TreeOk env.hashGenesisBlock total [] last → ChainOk env last →
        last.liveCount < later.liveCount → Terminates env total last none := by
      intro last lastTree lastChain less
      have fewerLive := marks.liveCount_le fewer
      exact ih last.liveCount (by omega) lastTree lastChain rfl
    obtain ⟨fuel, ends⟩ := terminates_towards faithful again (marks.tree tree) laterChain (Nat.le_refl _) mostWork
    refine ⟨fuel + 1, fun more enough => ?_⟩
    obtain ⟨turns, rfl⟩ := Nat.exists_eq_add_of_le' (Nat.le_trans (Nat.le_add_left 1 fuel) enough)
    cases running : env.shutdownRequested state.clock with
    | true =>
      refine ⟨⟨!env.systemError state.clock, true, state⟩, ?_, tree, chain, fun _ impossible => nomatch impossible⟩
      rw [activateBestChain, running]
      rfl
    | false =>
      have same : activateBestChain env (turns + 1) state none =
          activateBestChain env (turns + 1) later (some most) := by
        rw [activateBestChain, activateBestChain, clock, running]
        simp only [chooseMostWork, found]
        rfl
      rw [same]
      exact ends (turns + 1) (by omega)

end Straks.Activation
