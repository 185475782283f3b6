import Straks.Proof.FailureFlags

namespace Straks.Activation
open Success Run

variable {env : NodeEnv} {state later : ChainState} {origin : Uint256} {total : Nat} {queue : List Uint256}

/-- The block tree when received unlinked blocks are registered. -/
structure LinkOk (hashGenesisBlock : Uint256) (total : Nat) (queue : List Uint256) (state : ChainState) : Prop where
  tree : TreeOk hashGenesisBlock total queue state
  waits : Waits (fun _ => False) queue state
  counted : ∀ hash, (state.index hash).nTx ≠ 0 → (state.index hash).fHaveData = true

theorem LinkOk.mono {more : Nat} (ok : LinkOk origin total [] state) (le : total ≤ more) :
    LinkOk origin more [] state :=
  { ok with tree := { ok.tree with total := fun hash => le_trans (ok.tree.total hash) le } }

/-- Failure marks may come and go. -/
theorem Reflagged.linkOk (same : Reflagged state later) (ok : LinkOk origin total queue state) :
    LinkOk origin total queue later := by
  refine ⟨same.tree ok.tree ?_, same.waits ok.waits, ?_⟩
  · intro hash data unlinked
    apply (ok.waits hash data unlinked).imp_right
    rintro ⟨prev, first, reason⟩
    exact ⟨prev, first, reason.imp_left False.elim⟩
  · intro hash transactions
    rw [same.index hash] at transactions
    rw [same.data]
    exact ok.counted hash transactions

variable {header : HeaderArrival} {hash : Uint256} {result : Bool × ChainState}

theorem LeafAdded.linkOk {added : ChainState} (leaf : LeafAdded state header added)
    (ok : LinkOk origin total [] state) : LinkOk origin total [] added := by
  refine ⟨leaf.tree ok.tree, leaf.waits ok.tree ok.waits, ?_⟩
  intro hash transactions
  have apart : hash ≠ header.hash := by
    intro same
    rw [same, leaf.leaf] at transactions
    exact transactions rfl
  rw [leaf.other hash apart] at transactions ⊢
  exact ok.counted hash transactions

theorem BlockLinked.linkOk {linked : ChainState} (link : BlockLinked env state hash linked) (fits : total < 4294967296)
    (ok : LinkOk origin total (hash :: queue) state) : LinkOk origin total
      (queue ++ (state.mapBlocksUnlinked.filter fun pair => pair.1 = hash).map Prod.snd) linked := by
  refine ⟨link.tree ok.tree fits, link.waits (link.linked_iff ok.tree fits) ok.waits, ?_⟩
  intro block transactions
  rw [(link.fields block).2.1] at transactions
  rw [(link.fields block).2.2.2.1]
  exact ok.counted block transactions

/-- A block over a linked or sound predecessor is linked or registered. -/
theorem receivedBlockTransactions_linkOk (ok : LinkOk origin total [] state) {nTx : Nat}
    (known : hash ∈ state.mapBlockIndex) (missing : (state.index hash).fHaveData = false)
    (alive : (state.index hash).failed = false) (positive : 0 < nTx) (fits : total + nTx < 4294967296)
    (parent : ∀ prev, (state.index hash).pprev = some prev → (state.index prev).failed = true → state.Linked prev) :
    LinkOk origin (total + nTx) [] (receivedBlockTransactions env state hash nTx) := by
  obtain ⟨queue, stored, data, short, unlinked, same⟩ :=
    receivedBlockTransactions_stored env ok.tree known missing alive positive
  have storedOk : LinkOk origin (total + nTx) queue stored := by
    refine ⟨data.tree ok.tree, ?_, ?_⟩
    · apply data.waits ok.tree ok.waits
      exact fun empty prev first failed => unlinked empty prev first (parent prev first failed)
    · intro block transactions
      rw [data.fHaveData]
      by_cases here : block = hash
      · exact .inl here
      · rw [data.index block] at transactions
        simp only [if_neg here] at transactions
        exact .inr (ok.counted block transactions)
  rw [same]
  apply linkBlocks_keeps (LinkOk origin (total + nTx)) (fun link linkOk => link.linkOk fits linkOk) storedOk
  omega

/-- A block stored under a failure flag has all its ancestors already. -/
def Request.RegistersData (state : ChainState) (request : Request hashGenesisBlock) : Prop :=
  match request.operation with
  | .event (.block block) => block.fChecked = true → Stores state block →
      ∀ prev, (state.index block.hash).pprev = some prev → (state.index prev).failed = true → state.Linked prev
  | _ => True

/-- The transactions a request carries. -/
def Request.nTx (request : Request hashGenesisBlock) : Nat :=
  match request.operation with
  | .event (.block block) => block.nTx
  | _ => 0

theorem HeaderOutcome.linkOk (outcome : HeaderOutcome env state header result) (ok : LinkOk origin total [] state) :
    LinkOk origin total [] result.2 := by
  cases outcome with
  | refused => exact ok
  | repeated _ _ => exact ok
  | added leaf _ => exact leaf.linkOk ok

theorem processNewBlockHeaders_linkOk (ok : LinkOk env.hashGenesisBlock total [] state) (headers : List HeaderArrival) :
    LinkOk env.hashGenesisBlock total [] (processNewBlockHeaders env state headers) := by
  induction headers generalizing state with
  | nil => exact ok
  | cons header rest ih =>
    have accepted := (acceptBlockHeader_outcome ok.tree.genesisKnown header).linkOk ok
    rw [processNewBlockHeaders]
    split
    · exact ih accepted
    · exact accepted

/-- A new header's predecessor has not failed, so the condition concerns known headers. -/
theorem HeaderOutcome.parent {block : BlockArrival} (outcome : HeaderOutcome env state block.toHeaderArrival result)
    (condition : Stores state block → ∀ prev, (state.index block.hash).pprev = some prev → (state.index prev).failed = true → state.Linked prev)
    (stores : Stores result.2 block) :
    ∀ prev, (result.2.index block.hash).pprev = some prev → (result.2.index prev).failed = true →
      result.2.Linked prev := by
  cases outcome with
  | refused => exact condition stores
  | repeated _ _ => exact condition stores
  | added leaf alive =>
    intro prev first failed
    rw [leaf.leaf] at first
    cases first
    rw [leaf.old leaf.known, alive] at failed
    cases failed

theorem acceptBlock_linkOk (ok : LinkOk env.hashGenesisBlock total [] state) (block : BlockArrival)
    (fits : total + block.nTx < 4294967296)
    (condition : Stores state block → ∀ prev, (state.index block.hash).pprev = some prev →
      (state.index prev).failed = true → state.Linked prev) :
    LinkOk env.hashGenesisBlock (total + block.nTx) [] (acceptBlock env state block).2 := by
  obtain ⟨header, headerOutcome, outcome⟩ :=
    acceptBlock_outcome ok.tree.genesisKnown (ok.tree.data _ ok.tree.genesis) block
  have headerOk := headerOutcome.linkOk ok
  have roomier := headerOk.mono (Nat.le_add_right total block.nTx)
  generalize (acceptBlock env state block).2 = accepted at outcome ⊢
  cases outcome with
  | ignored => exact roomier
  | rejected _ => exact (Marks.invalid header.2 block.hash).reflagged.linkOk roomier
  | stored stores =>
    exact receivedBlockTransactions_linkOk headerOk stores.known stores.missing stores.alive
      (block.nonempty stores.passed) fits (headerOutcome.parent condition stores)

theorem activateBestChain_linkOk (indexOk : IndexOk origin [] state)
    (ok : LinkOk origin total [] state) (fuel : Nat) :
    Ensures (activateBestChain env fuel state none) fun result => LinkOk origin total [] result.state := by
  intro result success
  have none : ∀ most, none = some most → state.ReadyBranch most := fun _ impossible => by cases impossible
  exact (activateBestChain_settles indexOk fuel none result success).spread.marks.reflagged.linkOk ok

theorem processNewBlock_linkOk (indexOk : IndexOk env.hashGenesisBlock [] state)
    (ok : LinkOk env.hashGenesisBlock total [] state) (fuel : Nat) (block : BlockArrival)
    (fits : total + block.nTx < 4294967296)
    (condition : block.fChecked = true → Stores state block → ∀ prev, (state.index block.hash).pprev = some prev →
      (state.index prev).failed = true → state.Linked prev) :
    Ensures (processNewBlock env fuel state block) fun result =>
      LinkOk env.hashGenesisBlock (total + block.nTx) [] result.2 := by
  rw [processNewBlock]
  split
  · exact .ok (ok.mono (Nat.le_add_right _ _))
  · rename_i checked
    have accepted := acceptBlock_linkOk ok block fits (condition (by simpa using checked))
    dsimp only
    split
    · exact .ok accepted
    · refine .bind (activateBestChain_linkOk (acceptBlock_keeps indexOk block).ok accepted fuel) ?_
      exact fun activation activated => .ok activated

/-- Every request keeps the received blocks registered. -/
theorem handle_linkOk (indexOk : IndexOk origin [] state) (ok : LinkOk origin total [] state)
    (request : Request origin) (fits : total + request.nTx < 4294967296) (condition : request.RegistersData state) :
    Ensures (handle state request) fun later => LinkOk origin (total + request.nTx) [] later := by
  obtain ⟨env, rfl, fuel, operation⟩ := request
  cases operation with
  | event event =>
    cases event with
    | headers headers => exact .ok (processNewBlockHeaders_linkOk ok headers)
    | activate =>
      refine .bind (activateBestChain_linkOk indexOk ok fuel) ?_
      exact fun activation activated => .ok activated
    | block block =>
      refine .bind (processNewBlock_linkOk indexOk ok fuel block fits condition) ?_
      exact fun processed linked => .ok linked
  | invalidateblock hash fStateError =>
    intro later success
    exact (invalidateblock_settles indexOk fuel hash fStateError later success).spread.marks.reflagged.linkOk ok
  | reconsiderblock hash =>
    show Ensures (reconsiderblock env fuel state hash) _
    rw [reconsiderblock]
    split
    case isFalse => exact .ok ok
    case isTrue =>
      refine .bind (resetBlockFailureFlags_clears indexOk hash) ?_
      rintro reset ⟨resetOk, clears⟩
      refine .bind (activateBestChain_linkOk resetOk (clears.reflagged.linkOk ok) fuel) ?_
      exact fun activation activated => .ok activated

theorem runUntil_linkOk {requests : List (Request origin)} (indexOk : IndexOk origin [] state)
    (ok : LinkOk origin total [] state) (fits : total + (requests.map Request.nTx).sum < 4294967296)
    (along : Along handle (fun state request => request.RegistersData state) state requests)
    (reached : runUntil handle state requests = .ok later) :
    LinkOk origin (total + (requests.map Request.nTx).sum) [] later := by
  induction requests generalizing state total with
  | nil =>
    cases reached
    exact ok
  | cons request rest ih =>
    rw [List.map_cons, List.sum_cons, ← add_assoc] at fits ⊢
    obtain ⟨next, handled, reachedRest⟩ := bind_eq_ok.mp reached
    have nextIndex := (handle_keeps indexOk request next handled).1
    have nextOk := handle_linkOk indexOk ok request (by omega) along.1 next handled
    exact ih nextIndex nextOk fits (along.2 next handled) reachedRest

/-- A block has its number of linked transactions exactly when it and its ancestors have been received, and one that
waits for an ancestor is registered under its predecessor, if no ancestor carries a failure flag. -/
structure LinksOk (state : ChainState) : Prop where
  linked_iff : ∀ hash ∈ state.mapBlockIndex, (state.index hash).nChainTx ≠ 0 ↔
    ∀ block ∈ state.branch hash, (state.index block).nTx ≠ 0
  registered : ∀ hash ∈ state.mapBlockIndex, (state.index hash).fHaveData = true →
    (∃ block ∈ state.branch hash, (state.index block).nTx = 0) →
      (∀ block ∈ (state.index hash).ancestors, (state.index block).failed = false) →
        ∃ prev, (state.index hash).pprev = some prev ∧ (prev, hash) ∈ state.mapBlocksUnlinked

theorem LinkOk.links (ok : LinkOk origin total [] state) : LinksOk state := by
  have linkedIff : ∀ hash, state.Linked hash ↔ ∀ block ∈ state.branch hash, (state.index block).nTx ≠ 0 := by
    intro hash
    constructor
    · intro linked block member
      have data := ok.tree.data block (ok.tree.linked_branch linked block member)
      exact ne_of_gt (ok.tree.positive block data)
    · intro received
      apply ok.waits.linked_of_received ok.tree.branches
      exact fun block member => ⟨ok.counted block (received block member), not_false⟩
  refine ⟨fun hash _ => linkedIff hash, ?_⟩
  rintro hash _ data ⟨block, member, missing⟩ _
  have unlinked : ¬ state.Linked hash := fun linked => (linkedIff hash).mp linked block member missing
  rcases ok.waits hash data unlinked with queued | ⟨prev, first, excused | ⟨registered, _⟩⟩
  · cases queued
  · cases excused
  · exact ⟨prev, first, registered⟩

/-- The genesis block is linked. -/
theorem Loaded.linkOk {genesis : BlockArrival} (loaded : Loaded genesis state) (start : GenesisOk env genesis)
    (fits : genesis.nTx < 4294967296) : LinkOk env.hashGenesisBlock genesis.nTx [] state := by
  refine ⟨loaded.tree start fits, ?_, ?_⟩
  · intro hash data unlinked
    exact absurd ((loaded.linked_iff start.transactions fits hash).mpr ((loaded.data_iff hash).mp data)) unlinked
  · intro hash transactions
    apply (loaded.data_iff hash).mpr
    by_contra apart
    rw [loaded.other hash apart] at transactions
    exact transactions rfl

/-- When no data is stored under a failed predecessor that lacks ancestors, and 32 bits count the transactions, the
links keep their promise in every reached state. -/
theorem unlinkedBlocks_registered (env : NodeEnv) (genesis : BlockArrival) (positive : 0 < genesis.nTx)
    (requests : List (Request genesis.hash)) (state : ChainState)
    (fits : genesis.nTx + (requests.map Request.nTx).sum < 4294967296)
    (along : Along handle (fun state request => request.RegistersData state) (initBlockIndex env genesis) requests)
    (reached : runUntil handle (initBlockIndex env genesis) requests = .ok state) : LinksOk state := by
  have loaded := initBlockIndex_loaded env genesis
  have start : GenesisOk { env with hashGenesisBlock := genesis.hash } genesis := ⟨rfl, positive⟩
  exact (runUntil_linkOk loaded.indexOk (loaded.linkOk start (by omega)) fits along reached).links

/-- A block arrives before its predecessor. -/
def lateParent : List (Request 1) :=
  [lenientRequest (.event .activate),
    lenientRequest (.event (.headers [(forkBlock 2 1 1 Nat.one_pos).toHeaderArrival])),
    lenientRequest (.event (.block (forkBlock 3 2 1 Nat.one_pos)))]

theorem unlinkedBlocks_registered_late :
    ∃ state, runUntil handle (initBlockIndex lenientNode (forkBlock 1 0 1 (by decide))) lateParent = .ok state ∧
      LinksOk state := by
  obtain ⟨state, reached⟩ : ∃ state,
      runUntil handle (initBlockIndex lenientNode (forkBlock 1 0 1 (by decide))) lateParent = .ok state := ⟨_, rfl⟩
  refine ⟨state, reached, unlinkedBlocks_registered lenientNode (forkBlock 1 0 1 (by decide)) (by decide) lateParent state
    (by decide) ?_ reached⟩
  refine ⟨trivial, fun later handled => ?_⟩
  cases handled
  refine ⟨trivial, fun later handled => ?_⟩
  cases handled
  refine ⟨?_, fun _ _ => trivial⟩
  -- the header is new, so there is nothing to store under it yet
  intro _ stores
  have known : (3 : Uint256) ∈ [2, 1] := stores.known
  simp at known

/-- A block is stored while its header-only predecessor is invalidated. -/
def orphaned : List (Request 1) :=
  [lenientRequest (.event .activate),
    lenientRequest (.event (.headers [(forkBlock 2 1 1 Nat.one_pos).toHeaderArrival,
      (forkBlock 3 2 1 Nat.one_pos).toHeaderArrival])),
    lenientRequest (.invalidateblock 2 false), lenientRequest (.event (.block (forkBlock 3 2 1 Nat.one_pos))),
    lenientRequest (.reconsiderblock 2)]

/-- The predecessor is reconsidered without registering the block, which stays unlinked. -/
theorem unlinkedBlocks_lost :
    (∃ state, runUntil handle (initBlockIndex lenientNode (forkBlock 1 0 1 (by decide))) orphaned = .ok state ∧
      ¬ LinksOk state) ∧
    ∃ state, runUntil handle (initBlockIndex lenientNode (forkBlock 1 0 1 (by decide)))
      (orphaned ++ [lenientRequest (.event (.block (forkBlock 2 1 1 (by decide))))]) = .ok state ∧ ¬ LinksOk state := by
  constructor
  · obtain ⟨state, reached, known, data, missing, clean, unlinked⟩ : ∃ state,
        runUntil handle (initBlockIndex lenientNode (forkBlock 1 0 1 (by decide))) orphaned = .ok state ∧
          3 ∈ state.mapBlockIndex ∧ (state.index 3).fHaveData = true ∧
          (2 ∈ state.branch 3 ∧ (state.index 2).nTx = 0) ∧
          ((state.index 3).ancestors.all fun block => !(state.index block).failed) = true ∧
          state.mapBlocksUnlinked = [] :=
      ⟨_, rfl, by decide, by decide, by decide, by decide, rfl⟩
    refine ⟨state, reached, fun ok => ?_⟩
    obtain ⟨prev, _, registered⟩ := ok.registered 3 known data ⟨2, missing⟩ fun block member => by
      simpa using List.all_eq_true.mp clean block member
    rw [unlinked] at registered
    cases registered
  · obtain ⟨state, reached, known, received, unlinked⟩ : ∃ state,
        runUntil handle (initBlockIndex lenientNode (forkBlock 1 0 1 (by decide)))
          (orphaned ++ [lenientRequest (.event (.block (forkBlock 2 1 1 (by decide))))]) = .ok state ∧
          3 ∈ state.mapBlockIndex ∧ ((state.branch 3).all fun block => decide ((state.index block).nTx ≠ 0)) = true ∧
          (state.index 3).nChainTx = 0 :=
      ⟨_, rfl, by decide, by decide, rfl⟩
    refine ⟨state, reached, fun ok => (ok.linked_iff 3 known).mpr ?_ unlinked⟩
    intro block member
    simpa using List.all_eq_true.mp received block member

end Straks.Activation
