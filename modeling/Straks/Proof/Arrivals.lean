import Straks.Proof.Linking

namespace Straks.Activation
open Candidates List ChainState Function Nat CBlockIndex

variable {env : NodeEnv} {state : ChainState} {total : Nat}

/-- Both parts of the invariant. -/
structure NodeOk (env : NodeEnv) (total : Nat) (state : ChainState) : Prop where
  tree : TreeOk env.hashGenesisBlock total [] state
  chain : ChainOk env state

theorem NodeOk.mono {more : Nat} (ok : NodeOk env total state) (le : total ≤ more) : NodeOk env more state :=
  ⟨{ ok.tree with total := fun hash => le_trans (ok.tree.total hash) le }, ok.chain⟩

/-- The entry a header adds. -/
def newEntry (state : ChainState) (header : HeaderArrival) : CBlockIndex :=
  ⟨state.branch header.hashPrevBlock, (state.index header.hashPrevBlock).nChainWork + header.nProof, 0, 0, 0,
    blockValidTree, false, false, false⟩

variable {header : HeaderArrival}

theorem addToBlockIndex_eq (new : header.hash ∉ state.mapBlockIndex)
    (known : header.hashPrevBlock ∈ state.mapBlockIndex) : addToBlockIndex state header = { state with
      mapBlockIndex := header.hash :: state.mapBlockIndex
      index := update state.index header.hash (newEntry state header) } := by
  rw [addToBlockIndex, if_neg new]
  simp only [if_pos known]
  rfl

/-- The second state has one more entry, a leaf, nothing else. -/
structure LeafAdded (state : ChainState) (header : HeaderArrival) (added : ChainState) : Prop where
  new : header.hash ∉ state.mapBlockIndex
  known : header.hashPrevBlock ∈ state.mapBlockIndex
  mapBlockIndex : added.mapBlockIndex = header.hash :: state.mapBlockIndex
  mapBlocksUnlinked : added.mapBlocksUnlinked = state.mapBlocksUnlinked
  candidates : added.setBlockIndexCandidates = state.setBlockIndexCandidates
  active : added.chainActive = state.chainActive
  leaf : added.index header.hash = newEntry state header
  other : ∀ hash, hash ≠ header.hash → added.index hash = state.index hash

theorem addToBlockIndex_leaf (new : header.hash ∉ state.mapBlockIndex)
    (known : header.hashPrevBlock ∈ state.mapBlockIndex) : LeafAdded state header (addToBlockIndex state header) := by
  rw [addToBlockIndex_eq new known]
  exact ⟨new, known, rfl, rfl, rfl, rfl, update_self _ _ _, fun hash apart =>
    update_of_ne apart _ _⟩

namespace LeafAdded

variable {header : HeaderArrival} {added : ChainState}

variable {origin hash : Uint256}

variable (leaf : LeafAdded state header added)
include leaf

theorem old (member : hash ∈ state.mapBlockIndex) : added.index hash = state.index hash :=
  leaf.other hash fun same => leaf.new (same ▸ member)

theorem not_data (data : (added.index hash).fHaveData = true) : hash ≠ header.hash := by
  intro same
  rw [same, leaf.leaf] at data
  cases data

theorem linked_iff (tree : TreeOk origin total [] state) (hash : Uint256) :
    added.Linked hash ↔ state.Linked hash := by
  by_cases same : hash = header.hash
  · subst same
    have unlinked : ¬ state.Linked header.hash := fun linked =>
      leaf.new (tree.received header.hash (tree.data header.hash linked))
    rw [iff_false_right unlinked, ChainState.Linked, leaf.leaf]
    exact fun nonzero => nonzero rfl
  · rw [ChainState.Linked, ChainState.Linked, leaf.other hash same]

theorem branch_of_ne (apart : hash ≠ header.hash) : added.branch hash = state.branch hash := by
  rw [branch, branch, leaf.other hash apart]

/-- The blocks of an old branch are old. -/
theorem old_of_branch (tree : TreeOk origin total [] state) {block : Uint256} (apart : hash ≠ header.hash)
    (member : block ∈ state.branch hash) : added.index block = state.index block := by
  rcases mem_cons.mp member with rfl | inside
  · exact leaf.other block apart
  · exact leaf.old (tree.known hash block inside)

theorem branchTx_of_ne (tree : TreeOk origin total [] state) (apart : hash ≠ header.hash) :
    added.branchTx hash = state.branchTx hash := by
  rw [branchTx, leaf.branch_of_ne apart]
  congr 1
  apply map_congr_left
  intro block member
  rw [leaf.old_of_branch tree apart member]

/-- The new branch is the predecessor's and the leaf. -/
theorem branches (branches : BranchesOk state) : BranchesOk added where
  known := by
    intro hash block member
    rw [leaf.mapBlockIndex]
    apply mem_cons_of_mem
    by_cases same : hash = header.hash
    · rw [same, leaf.leaf] at member
      exact branches.known_branch leaf.known member
    · rw [leaf.other hash same] at member
      exact branches.known hash block member
  suffix := by
    intro hash block below part
    by_cases same : hash = header.hash
    · rw [same, leaf.leaf] at part
      have oldBlock := leaf.old (branches.known_branch leaf.known (part.mem mem_cons_self))
      rw [oldBlock]
      exact (List.cons.inj (branches.branch_suffix part)).2
    · rw [leaf.other hash same] at part
      rw [leaf.old (branches.known hash block (part.mem mem_cons_self))]
      exact branches.suffix hash block below part

theorem waits (tree : TreeOk origin total [] state) {excuse : Uint256 → Prop} (waits : Waits excuse [] state) :
    Waits excuse [] added := by
  intro hash data unlinked
  have apart := leaf.not_data data
  rw [leaf.other hash apart] at data ⊢
  rw [leaf.linked_iff tree] at unlinked
  apply (waits hash data unlinked).imp_right
  rintro ⟨prev, first, reason⟩
  rw [leaf.mapBlocksUnlinked]
  simp only [leaf.linked_iff tree]
  exact ⟨prev, first, reason⟩

/-- The tree stays a tree. -/
theorem tree (tree : TreeOk origin total [] state) : TreeOk origin total [] added where
  genesis := (leaf.linked_iff tree origin).mpr tree.genesis
  received := by
    intro hash data
    have apart := leaf.not_data data
    rw [leaf.other hash apart] at data
    rw [leaf.mapBlockIndex]
    exact mem_cons_of_mem _ (tree.received hash data)
  valid := by
    intro hash member
    rw [leaf.mapBlockIndex] at member
    rcases mem_cons.mp member with rfl | oldMember
    · rw [leaf.leaf]
      exact Nat.le_refl _
    · rw [leaf.old oldMember]
      exact tree.valid hash oldMember
  known := (leaf.branches tree.branches).known
  suffix := (leaf.branches tree.branches).suffix
  work := by
    intro hash block member
    by_cases same : hash = header.hash
    · rw [same, leaf.leaf] at member ⊢
      have positive := header.positive
      rcases mem_cons.mp member with rfl | inside
      · rw [leaf.old leaf.known]
        exact Nat.lt_add_of_pos_right positive
      · rw [leaf.old (tree.known header.hashPrevBlock block inside)]
        exact Nat.lt_of_lt_of_le (tree.work header.hashPrevBlock block inside) (Nat.le_add_right _ _)
    · rw [leaf.other hash same] at member ⊢
      rw [leaf.old (tree.known hash block member)]
      exact tree.work hash block member
  root := by
    intro hash member lowest
    by_cases same : hash = header.hash
    · rw [same, leaf.leaf] at lowest
      cases lowest
    · rw [leaf.mapBlockIndex] at member
      rw [leaf.other hash same] at lowest
      exact tree.root hash ((mem_cons.mp member).resolve_left same) lowest
  data := by
    intro hash linked
    have oldLinked := (leaf.linked_iff tree hash).mp linked
    have data := tree.data hash oldLinked
    rw [leaf.old (tree.received hash data)]
    exact data
  below := by
    intro hash linked block member
    have oldLinked := (leaf.linked_iff tree hash).mp linked
    rw [leaf.old (tree.received hash (tree.data hash oldLinked))] at member
    exact (leaf.linked_iff tree block).mpr (tree.below hash oldLinked block member)
  positive := by
    intro hash data
    have apart := leaf.not_data data
    rw [leaf.other hash apart] at data ⊢
    exact tree.positive hash data
  chainTx := by
    intro hash
    by_cases same : hash = header.hash
    · rw [same, leaf.leaf]
      exact Nat.zero_le _
    · rw [leaf.branchTx_of_ne tree same, leaf.other hash same]
      exact tree.chainTx hash
  total := by
    intro hash
    by_cases same : hash = header.hash
    · have prevOld : header.hashPrevBlock ≠ header.hash := fun loop => leaf.new (loop ▸ leaf.known)
      have sum : added.branchTx hash = state.branchTx header.hashPrevBlock := by
        rw [← leaf.branchTx_of_ne tree prevOld, same, branchTx, branch, map_cons,
          leaf.leaf, branchTx, leaf.branch_of_ne prevOld]
        exact Nat.zero_add _
      rw [sum]
      exact tree.total header.hashPrevBlock
    · rw [leaf.branchTx_of_ne tree same]
      exact tree.total hash
  unlinked := by
    intro pair member
    rw [leaf.mapBlocksUnlinked] at member
    obtain ⟨prev, data, unlinked⟩ := tree.unlinked pair member
    rw [leaf.old (tree.received pair.2 data), leaf.linked_iff tree]
    exact ⟨prev, data, unlinked⟩
  queued := forall_mem_nil _
  distinct := by
    rw [leaf.mapBlocksUnlinked]
    exact tree.distinct
  waiting := by
    intro hash data unlinked
    have old := leaf.waits tree tree.waits hash data unlinked
    apply old.imp_right
    rintro ⟨prev, first, reason⟩
    refine ⟨prev, first, ?_⟩
    have apart := leaf.not_data data
    rw [leaf.other hash apart] at first
    rw [leaf.old (tree.known hash prev (mem_of_head? first))]
    exact reason

/-- The candidates and the active chain are not concerned. -/
theorem chain (tree : TreeOk origin total [] state) (chain : ChainOk env state) : ChainOk env added := by
  have unlinked : ¬ state.Linked header.hash := fun linked =>
    leaf.new (tree.received header.hash (tree.data header.hash linked))
  apply chain.grow tree unlinked (fun _ => leaf.branch_of_ne) (fun hash _ => leaf.linked_iff tree hash) _ _ leaf.active
  · rw [leaf.candidates]
    exact fun hash member => (leaf.linked_iff tree hash).mpr (chain.candidates hash member)
  · intro hash failed
    have apart : hash ≠ header.hash := by
      intro same
      rw [same, leaf.leaf] at failed
      cases failed
    rw [leaf.other hash apart] at failed
    obtain ⟨cause, member, reason⟩ := chain.failures hash failed
    rw [leaf.branch_of_ne apart]
    refine ⟨cause, member, ?_⟩
    rw [leaf.old_of_branch tree apart member]
    exact reason
  · rw [leaf.candidates]
    exact fun _ member => member
  · exact fun isLive => absurd ((leaf.linked_iff tree header.hash).mp isLive.1) unlinked
  · intro hash apart
    rw [key, key, leaf.other hash apart]
  · intro hash apart
    rw [ChainState.Live, leaf.linked_iff tree, leaf.branch_of_ne apart]
    apply and_congr_right'
    apply forall₂_congr
    intro block member
    rw [leaf.old_of_branch tree apart member]

end LeafAdded

/-- `AcceptBlockHeader` refuses the header, knows it or adds a leaf. -/
inductive HeaderOutcome (env : NodeEnv) (state : ChainState) (header : HeaderArrival) : Bool × ChainState → Prop where
  | refused : HeaderOutcome env state header (false, state)
  | repeated (known : header.hash ∈ state.mapBlockIndex)
      (alive : header.hash ≠ env.hashGenesisBlock → (state.index header.hash).failed = false) :
      HeaderOutcome env state header (true, state)
  | added {added : ChainState} (leaf : LeafAdded state header added)
      (parent : (state.index header.hashPrevBlock).failed = false) : HeaderOutcome env state header (true, added)

theorem acceptBlockHeader_outcome (genesisKnown : env.hashGenesisBlock ∈ state.mapBlockIndex)
    (header : HeaderArrival) : HeaderOutcome env state header (acceptBlockHeader env state header) := by
  by_cases genesis : header.hash = env.hashGenesisBlock
  · rw [acceptBlockHeader, if_neg (not_not.mpr genesis), addToBlockIndex, if_pos (genesis ▸ genesisKnown)]
    exact .repeated (genesis ▸ genesisKnown) fun apart => absurd genesis apart
  · rw [acceptBlockHeader, if_pos genesis]
    by_cases known : header.hash ∈ state.mapBlockIndex
    · rw [if_pos known]
      cases failed : (state.index header.hash).failed with
      | true => exact .refused
      | false => exact .repeated known fun _ => failed
    · rw [if_neg known]
      cases header.fAcceptable with
      | false => exact .refused
      | true =>
        by_cases prevKnown : header.hashPrevBlock ∈ state.mapBlockIndex
        · simp only [Bool.not_true, Bool.false_eq_true, if_false, prevKnown, not_true_eq_false]
          cases parent : (state.index header.hashPrevBlock).failed with
          | true => exact .refused
          | false => exact .added (addToBlockIndex_leaf known prevKnown) parent
        · simp only [Bool.not_true, Bool.false_eq_true, if_false, prevKnown, not_false_eq_true, if_true]
          exact .refused

variable {hash : Uint256} {result : Bool × ChainState}

/-- An accepted header is indexed, and only genesis can have failed. -/
theorem HeaderOutcome.accepted (outcome : HeaderOutcome env state header result) (isAccepted : result.1 = true) :
    header.hash ∈ result.2.mapBlockIndex ∧
      (header.hash ≠ env.hashGenesisBlock → (result.2.index header.hash).failed = false) := by
  cases outcome with
  | refused => cases isAccepted
  | repeated known alive => exact ⟨known, alive⟩
  | added leaf _ =>
    refine ⟨?_, fun _ => ?_⟩
    · rw [leaf.mapBlockIndex]
      exact mem_cons_self
    · rw [leaf.leaf]
      rfl

/-- What has been received stays received. -/
theorem HeaderOutcome.data (outcome : HeaderOutcome env state header result) (known : hash ∈ state.mapBlockIndex)
    (data : (state.index hash).fHaveData = true) : (result.2.index hash).fHaveData = true := by
  cases outcome with
  | refused => exact data
  | repeated _ _ => exact data
  | added leaf _ =>
    rw [leaf.old known]
    exact data

theorem TreeOk.genesisKnown (tree : TreeOk env.hashGenesisBlock total [] state) :
    env.hashGenesisBlock ∈ state.mapBlockIndex :=
  tree.received _ (tree.data _ tree.genesis)

theorem HeaderOutcome.ok (outcome : HeaderOutcome env state header result) (ok : NodeOk env total state) :
    NodeOk env total result.2 := by
  cases outcome with
  | refused => exact ok
  | repeated _ _ => exact ok
  | added leaf _ => exact ⟨leaf.tree ok.tree, leaf.chain ok.tree ok.chain⟩

theorem processNewBlockHeaders_ok (ok : NodeOk env total state) (headers : List HeaderArrival) :
    NodeOk env total (processNewBlockHeaders env state headers) := by
  induction headers generalizing state with
  | nil => exact ok
  | cons header rest ih =>
    have accepted := (acceptBlockHeader_outcome ok.tree.genesisKnown header).ok ok
    rw [processNewBlockHeaders]
    split
    · exact ih accepted
    · exact accepted

theorem raiseValidity_eq (pindex : CBlockIndex) (nUpTo : Nat) :
    pindex.raiseValidity nUpTo = { pindex with nValid := (pindex.raiseValidity nUpTo).nValid } ∧
      pindex.nValid ≤ (pindex.raiseValidity nUpTo).nValid := by
  rw [raiseValidity]
  split
  · exact ⟨rfl, le_refl _⟩
  · split
    · rename_i lower
      exact ⟨rfl, le_of_lt lower⟩
    · exact ⟨rfl, le_refl _⟩

/-- The transactions of a block are there, but not yet linked. -/
def ChainState.storeData (state : ChainState) (hash : Uint256) (nTx : Nat) : ChainState :=
  state.modify hash fun entry =>
    { entry with nTx := nTx, nChainTx := 0, fHaveData := true }.raiseValidity blockValidTransactions

theorem ChainState.storeData_index (state : ChainState) (hash : Uint256) (nTx : Nat) (block : Uint256) :
    (state.storeData hash nTx).index block = { state.index block with
      nTx := if block = hash then nTx else (state.index block).nTx
      nChainTx := if block = hash then 0 else (state.index block).nChainTx
      nValid := ((state.storeData hash nTx).index block).nValid
      fHaveData := if block = hash then true else (state.index block).fHaveData } ∧
      (state.index block).nValid ≤ ((state.storeData hash nTx).index block).nValid := by
  by_cases same : block = hash
  · subst same
    obtain ⟨fields, level⟩ := raiseValidity_eq
      { state.index block with nTx := nTx, nChainTx := 0, fHaveData := true } blockValidTransactions
    simp only [storeData, modify, update_self, if_true]
    exact ⟨fields, level⟩
  · simp [storeData, modify, same]

/-- The transactions of a block are stored and linked if possible. -/
theorem receivedBlockTransactions_stored (env : NodeEnv) {origin : Uint256}
    (tree : TreeOk origin total [] state) {nTx : Nat} (known : hash ∈ state.mapBlockIndex)
    (missing : (state.index hash).fHaveData = false) (alive : (state.index hash).failed = false) (positive : 0 < nTx) :
    ∃ queue stored, DataStored state hash nTx queue stored ∧ queue.length ≤ 1 ∧
      (queue = [] → ∀ prev, (state.index hash).pprev = some prev → ¬ state.Linked prev) ∧
      receivedBlockTransactions env state hash nTx =
        linkBlocks env (stored.mapBlocksUnlinked.length + 1) stored queue := by
  obtain ⟨stored, isStored⟩ : ∃ stored, stored = state.storeData hash nTx := ⟨_, rfl⟩
  have index := state.storeData_index hash nTx
  rw [← isStored] at index
  have build : ∀ queue pairs, Placed state hash queue pairs →
      DataStored state hash nTx queue { stored with mapBlocksUnlinked := pairs } := by
    intro queue pairs placed
    have fields : stored.mapBlockIndex = state.mapBlockIndex ∧
        stored.setBlockIndexCandidates = state.setBlockIndexCandidates ∧
        stored.chainActive = state.chainActive := by
      rw [isStored]
      exact ⟨rfl, rfl, rfl⟩
    exact ⟨known, missing, alive, positive, fields.1, placed, fields.2.1, fields.2.2, fun block => (index block).1,
      fun block => (index block).2⟩
  have pairs : stored.mapBlocksUnlinked = state.mapBlocksUnlinked := by
    rw [isStored]
    rfl
  have ancestors : (stored.index hash).ancestors = (state.index hash).ancestors := by rw [(index hash).1]
  have linkedIff : ∀ block, (stored.index block).nChainTx ≠ 0 → state.Linked block := by
    intro block linked
    rw [(index block).1] at linked
    by_cases same : block = hash
    · simp [same] at linked
    · simpa [same, ChainState.Linked] using linked
  rw [receivedBlockTransactions, ← storeData, ← isStored]
  cases prev : prevLinked stored hash with
  | true =>
    have below : ∀ block ∈ (state.index hash).ancestors, state.Linked block := by
      intro block member
      rw [prevLinked, pprev, ancestors] at prev
      cases lower : (state.index hash).ancestors with
      | nil =>
        rw [lower] at member
        cases member
      | cons first rest =>
        rw [lower] at prev member
        have firstLinked := linkedIff first (by simpa using prev)
        rcases mem_cons.mp member with rfl | deeper
        · exact firstLinked
        · have firstBelow : (state.index first).ancestors = rest := by
            apply tree.suffix hash
            rw [lower]
          exact tree.below first firstLinked block (firstBelow ▸ deeper)
    have data := build [hash] state.mapBlocksUnlinked (.queued below)
    rw [← pairs] at data
    exact ⟨[hash], stored, data, le_refl 1, fun impossible => (by cases impossible), rfl⟩
  | false =>
    rw [prevLinked] at prev
    cases first : (stored.index hash).pprev with
    | none =>
      rw [first] at prev
      cases prev
    | some before =>
      rw [first] at prev
      have firstOld : (state.index hash).pprev = some before := by
        rw [pprev, ← ancestors]
        exact first
      have beforeKnown := tree.known hash before (mem_of_head? firstOld)
      have beforeElse : before ≠ hash := by
        intro same
        have member := mem_of_head? firstOld
        rw [same] at member
        exact tree.not_mem_ancestors hash member
      have beforeIndex := (index before).1
      have unlinked : ¬ state.Linked before := by
        intro linked
        apply (by simpa using prev : ¬ (stored.index before).nChainTx ≠ 0)
        rw [beforeIndex]
        simpa [beforeElse, ChainState.Linked] using linked
      have unlinkedPrev : ∀ prev, (state.index hash).pprev = some prev → ¬ state.Linked prev := by
        intro prev isPrev
        rw [firstOld] at isPrev
        cases isPrev
        exact unlinked
      simp only [Bool.false_eq_true, if_false]
      split
      · have data := build [] _ (.waiting firstOld unlinked)
        rw [← pairs] at data
        exact ⟨[], _, data, zero_le 1, fun _ => unlinkedPrev, rfl⟩
      · rename_i invalid
        have failed : (state.index before).failed = true := by
          by_contra usable
          apply invalid
          have level := le_trans (tree.valid before beforeKnown) (index before).2
          have clean : (stored.index before).failed = false := by
            rw [beforeIndex]
            exact Bool.eq_false_iff.mpr usable
          rw [isValid, clean]
          simpa using level
        have data := build [] _ (.abandoned firstOld failed)
        rw [← pairs] at data
        exact ⟨[], _, data, zero_le 1, fun _ => unlinkedPrev, rfl⟩

/-- Storing the transactions of a block keeps the invariant, with room for them. -/
theorem receivedBlockTransactions_ok (ok : NodeOk env total state) {nTx : Nat} (known : hash ∈ state.mapBlockIndex)
    (missing : (state.index hash).fHaveData = false) (alive : (state.index hash).failed = false) (positive : 0 < nTx)
    (fits : total + nTx < 4294967296) : NodeOk env (total + nTx) (receivedBlockTransactions env state hash nTx) := by
  obtain ⟨queue, stored, data, short, _, same⟩ :=
    receivedBlockTransactions_stored env ok.tree known missing alive positive
  have enough : queue.length + stored.mapBlocksUnlinked.length ≤ stored.mapBlocksUnlinked.length + 1 := by omega
  obtain ⟨finalTree, finalChain⟩ := linkBlocks_ok (data.tree ok.tree) (data.chain ok.tree ok.chain) fits enough
  rw [same]
  exact ⟨finalTree, finalChain⟩

/-- A block whose data is rejected is marked. -/
theorem NodeOk.reject (ok : NodeOk env total state) (missing : (state.index hash).fHaveData = false) :
    NodeOk env total (state.modify hash fun entry => { entry with fFailedValid := true }) := by
  have marks := Marks.invalid state hash
  have failures := ok.chain.failures.invalid (.inr missing)
  exact ⟨marks.tree ok.tree, ok.chain.mark ok.tree marks rfl failures (Sublist.refl _) fun _ member _ => member⟩

/-- When `AcceptBlock` stores the transactions of a block. -/
structure Stores (state : ChainState) (block : BlockArrival) : Prop where
  known : block.hash ∈ state.mapBlockIndex
  alive : (state.index block.hash).failed = false
  missing : (state.index block.hash).fHaveData = false
  wanted : fUnwanted state block = false
  passed : block.check = .passed

/-- What `AcceptBlock` does once the header is accepted. -/
inductive BlockOutcome (env : NodeEnv) (state : ChainState) (block : BlockArrival) : ChainState → Prop where
  | ignored : BlockOutcome env state block state
  | rejected (missing : (state.index block.hash).fHaveData = false) :
      BlockOutcome env state block (state.modify block.hash fun entry => { entry with fFailedValid := true })
  | stored (stores : Stores state block) :
      BlockOutcome env state block (receivedBlockTransactions env state block.hash block.nTx)

theorem acceptBlock_outcome (genesisKnown : env.hashGenesisBlock ∈ state.mapBlockIndex)
    (genesisData : (state.index env.hashGenesisBlock).fHaveData = true) (block : BlockArrival) :
    ∃ header, HeaderOutcome env state block.toHeaderArrival header ∧
      BlockOutcome env header.2 block (acceptBlock env state block).2 := by
  have outcome := acceptBlockHeader_outcome genesisKnown block.toHeaderArrival
  refine ⟨_, outcome, ?_⟩
  rw [acceptBlock]
  split
  · exact .ignored
  · rename_i isAccepted
    obtain ⟨known, alive⟩ := outcome.accepted (by simpa using isAccepted)
    split
    · exact .ignored
    · rename_i wanted
      rw [Bool.or_eq_true, not_or] at wanted
      have missing := Bool.eq_false_iff.mpr wanted.1
      have notGenesis : block.hash ≠ env.hashGenesisBlock := by
        intro same
        have received := outcome.data genesisKnown genesisData
        rw [← same, missing] at received
        cases received
      cases check : block.check with
      | passed => exact .stored ⟨known, alive notGenesis, missing, Bool.eq_false_iff.mpr wanted.2, check⟩
      | rejected corruptionPossible =>
        cases corruptionPossible with
        | true => exact .ignored
        | false => exact .rejected missing

theorem acceptBlock_ok (ok : NodeOk env total state) (block : BlockArrival) (fits : total + block.nTx < 4294967296) :
    NodeOk env (total + block.nTx) (acceptBlock env state block).2 := by
  obtain ⟨header, headerOutcome, outcome⟩ :=
    acceptBlock_outcome ok.tree.genesisKnown (ok.tree.data _ ok.tree.genesis) block
  have headerOk := headerOutcome.ok ok
  have roomier := headerOk.mono (le_add_right total block.nTx)
  generalize (acceptBlock env state block).2 = later at outcome ⊢
  cases outcome with
  | ignored => exact roomier
  | rejected missing => exact roomier.reject missing
  | stored stores =>
    exact receivedBlockTransactions_ok headerOk stores.known stores.missing stores.alive (block.nonempty stores.passed)
      fits

end Straks.Activation
