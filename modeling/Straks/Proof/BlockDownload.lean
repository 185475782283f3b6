import Straks.Library.Run
import Straks.Proof.DownloadChanges
import Straks.Proof.MoneySupply

namespace Straks.Net
open Chain Success Run PartiallyDownloadedBlock Function DownloadState

variable {state : DownloadState} {hash : Uint256}

namespace DownloadState

/-- A partial block in flight is initialised and not used up. -/
def Ready (state : DownloadState) (hash : Uint256) : Prop :=
  ∀ nodeid partialBlock, state.mapBlocksInFlight hash = some ⟨nodeid, some partialBlock⟩ →
    partialBlock.header.isNull = false

@[simp]
theorem markBlockAsReceived_map (state : DownloadState) (hash : Uint256) :
    (state.markBlockAsReceived hash).2.mapBlocksInFlight = Function.update state.mapBlocksInFlight hash none := by
  cases flying : state.mapBlocksInFlight hash with
  | none =>
    simp only [markBlockAsReceived, flying]
    exact (update_eq_self_iff.mpr flying.symm).symm
  | some entry => simp only [markBlockAsReceived, flying]

variable {later : DownloadState}

theorem ready_update {entry : Option BlockInFlight} (ready : ∀ other, other ≠ hash → state.Ready other)
    (same : later.mapBlocksInFlight = Function.update state.mapBlocksInFlight hash entry)
    (here : ∀ nodeid partialBlock, entry = some ⟨nodeid, some partialBlock⟩ → partialBlock.header.isNull = false)
    (other : Uint256) : later.Ready other := by
  intro nodeid partialBlock flying
  rw [same] at flying
  by_cases equal : other = hash
  · subst equal
    rw [update_self] at flying
    exact here nodeid partialBlock flying
  · rw [update_of_ne equal] at flying
    exact ready other equal nodeid partialBlock flying

/-- If completed blocks are settled, the partial blocks stay ready. -/
theorem Change.ready {settled : Prop} (change : Change settled state later) (settles : settled)
    (ready : ∀ hash, state.Ready hash) (other : Uint256) : later.Ready other := by
  cases change with
  | received hash =>
    apply ready_update (fun other _ => ready other) (state.markBlockAsReceived_map hash)
    intro nodeid partialBlock impossible
    cases impossible
  | requested room =>
    apply ready_update (fun other _ => ready other) rfl
    intro nodeid partialBlock impossible
    cases impossible
  | announced room notNull =>
    apply ready_update (fun other _ => ready other) rfl
    rintro nodeid partialBlock ⟨rfl, rfl⟩
    exact notNull
  | rejected room partialBlock =>
    apply ready_update (fun other _ => ready other)
      ((markBlockAsReceived_map _ _).trans (update_idem _ _ _))
    intro nodeid partialBlock impossible
    cases impossible
  | answered flying notNull =>
    apply ready_update (fun other _ => ready other) rfl
    rintro nodeid partialBlock ⟨rfl, rfl⟩
    exact notNull
  | usedUp flying partialBlock unsettled => exact absurd settles unsettled
  | finalized nodeid =>
    intro owner partialBlock flying
    simp only [finalizeNode] at flying
    split_ifs at flying
    exact ready other owner partialBlock flying

theorem Changes.ready {settled : Prop} (changes : Changes settled state later) (settles : settled)
    (ready : ∀ hash, state.Ready hash) : ∀ hash, later.Ready hash := by
  induction changes with
  | refl => exact ready
  | tail _ change ih => exact change.ready settles ih

theorem Ready.fills {event : Event} (ready : ∀ hash, state.Ready hash) : event.Fills state := by
  cases event with
  | blocktxn env pfrom resp => exact fun partialBlock flying => ready _ pfrom partialBlock flying
  | _ => trivial

theorem initial_ready (hash : Uint256) : initial.Ready hash := by
  intro nodeid partialBlock impossible
  cases impossible

end DownloadState

/-- In every run in which `CheckBlock` settles each completed block in flight, no assertion about a partial block
fails, and no vector or pointer is misused. -/
theorem partialBlocks_safe (events : List Event)
    (settled : Along downloadStep (fun state event => event.Settles state) initial events) :
    runUntil downloadStep initial events ≠ .error .assertion ∧
      runUntil downloadStep initial events ≠ .error .undefined := by
  have steps (state : DownloadState) (event : Event) (ready : ∀ hash, state.Ready hash)
      (settles : event.Settles state) :
      Ends (downloadStep state event) (· = .diverges) fun later => ∀ hash, later.Ready hash :=
    (downloadStep_ends (DownloadState.Ready.fills ready)).mono (fun _ same => same) fun _ changes =>
      changes.ready settles ready
  have ends := runUntil_ends steps initial_ready settled
  constructor
  · intro failed
    rw [failed] at ends
    cases ends
  · intro failed
    rw [failed] at ends
    cases ends

/-- A node without transactions of its own. -/
def emptyPools : TxSources where
  shortTxIDSelector := fun _ _ => (0, 0)
  sipHashUint256 := fun _ _ _ => 0
  getWitnessHash := fun _ => 0
  bucketSize := fun _ _ => 1
  vTxHashes := []
  extraTxn := []

/-- A new block on top of the active chain. -/
def newTip : CmpctView where
  sources := emptyPools
  env := lenientEnv
  prevKnown := true
  headerInvalid := none
  fHaveData := false
  nChainWork := 2
  nTx := 0
  nHeight := 1
  tipChainWork := 1
  tipHeight := 0
  canDirectFetch := true
  isWitnessEnabled := false
  fSupportsDesiredCmpctVersion := true
  validAfterwards := true
  walk := ⟨[], List.nodup_nil⟩

/-- The coinbase is prefilled, one more has a short id. -/
def announcement (hashMerkleRoot : Uint256) : CBlockHeaderAndShortTxIDs :=
  ⟨⟨1, 0, hashMerkleRoot, 0, 1, 0⟩, 0, [7], [⟨0, firstCoinbase⟩]⟩

def payment : CTransaction := ⟨1, [⟨⟨5, 0⟩, [], 0, []⟩], [⟨1, []⟩], 0⟩

def transactions : BlockTransactions := ⟨1, [payment]⟩

/-- A compact block, its missing transaction, and that again. -/
def relayed (hashMerkleRoot : Uint256) : List Event :=
  [.cmpctblock newTip 3 (announcement hashMerkleRoot), .blocktxn lenientEnv 3 transactions,
    .blocktxn lenientEnv 3 transactions]

/-- A peer sends transactions of another block twice: an assertion fails. -/
theorem partialBlocks_filled_twice :
    runUntil downloadStep initial (relayed 1) = .error .assertion := rfl

/-- With the right transaction the block is complete, the second message unexpected. -/
theorem partialBlocks_safe_relayed :
    Along downloadStep (fun state event => event.Settles state) initial (relayed 0) ∧
      runUntil downloadStep initial (relayed 0) ≠ .error .assertion := by
  have settled : Along downloadStep (fun state event => event.Settles state) initial (relayed 0) := by
    refine ⟨?_, ?_⟩
    · intro _ partialBlock block read complete
      cases read
      cases complete
    · intro later stepped
      cases stepped
      refine ⟨?_, ?_⟩
      · intro partialBlock block flying complete
        cases flying
        cases complete
        trivial
      · intro later stepped
        cases stepped
        refine ⟨?_, fun _ _ => trivial⟩
        intro partialBlock block flying
        cases flying
  exact ⟨settled, (partialBlocks_safe (relayed 0) settled).1⟩

end Straks.Net
