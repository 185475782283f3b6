import Straks.Construction.Net.BlockDownload
import Straks.Proof.PartialBlock

namespace Straks.Net
open Chain Success PartiallyDownloadedBlock Relation List Ends

namespace DownloadState

/-- A block can be queued for the peer. -/
structure Room (state : DownloadState) (nodeid : NodeId) (hash : Uint256) : Prop where
  absent : state.mapBlocksInFlight hash = none
  room : (state.nodeState nodeid).nBlocksInFlight < maxBlocksInTransitPerPeer

/-- How the download state changes. A partial block is used up in flight only if not all completed ones are settled.
-/
inductive Change (settled : Prop) : DownloadState → DownloadState → Prop where
  | received (state : DownloadState) (hash : Uint256) : Change settled state (state.markBlockAsReceived hash).2
  | requested {state : DownloadState} {nodeid : NodeId} {hash : Uint256} (room : state.Room nodeid hash) :
      Change settled state (state.queueBlock nodeid hash ⟨nodeid, none⟩)
  | announced {state : DownloadState} {nodeid : NodeId} {hash : Uint256} (room : state.Room nodeid hash)
      {partialBlock : PartiallyDownloadedBlock} (notNull : partialBlock.header.isNull = false) :
      Change settled state (state.queueBlock nodeid hash ⟨nodeid, some partialBlock⟩)
  | rejected {state : DownloadState} {nodeid : NodeId} {hash : Uint256} (room : state.Room nodeid hash)
      (partialBlock : PartiallyDownloadedBlock) :
      Change settled state ((state.queueBlock nodeid hash ⟨nodeid, some partialBlock⟩).markBlockAsReceived hash).2
  | answered {state : DownloadState} {hash : Uint256} {entry : BlockInFlight}
      (flying : state.mapBlocksInFlight hash = some entry) {partialBlock : PartiallyDownloadedBlock}
      (notNull : partialBlock.header.isNull = false) :
      Change settled state (state.setPartialBlock hash entry partialBlock)
  | usedUp {state : DownloadState} {hash : Uint256} {entry : BlockInFlight}
      (flying : state.mapBlocksInFlight hash = some entry) (partialBlock : PartiallyDownloadedBlock)
      (unsettled : ¬ settled) : Change settled state (state.setPartialBlock hash entry partialBlock)
  | finalized (state : DownloadState) (nodeid : NodeId) : Change settled state (state.finalizeNode nodeid)

/-- An event is handled by some changes, one after the other. -/
abbrev Changes (settled : Prop) : DownloadState → DownloadState → Prop := ReflTransGen (Change settled)

variable {allowed : DownloadError → Prop} {state : DownloadState} {hash : Uint256} {pfrom : NodeId}

variable {walk : BranchWalk} {later : DownloadState} {entry : BlockInFlight}

theorem Change.mono {settled weaker : Prop} (implies : weaker → settled) (change : Change settled state later) :
    Change weaker state later := by
  cases change with
  | received hash => exact .received state hash
  | requested room => exact .requested room
  | announced room notNull => exact .announced room notNull
  | rejected room partialBlock => exact .rejected room partialBlock
  | answered flying notNull => exact .answered flying notNull
  | usedUp flying partialBlock unsettled => exact .usedUp flying partialBlock (mt implies unsettled)
  | finalized nodeid => exact .finalized state nodeid

theorem Changes.mono {settled weaker : Prop} (implies : weaker → settled) (changes : Changes settled state later) :
    Changes weaker state later :=
  ReflTransGen.mono (fun _ _ => Change.mono implies) _ _ changes

theorem received_setPartialBlock (flying : state.mapBlocksInFlight hash = some entry)
    (partialBlock : PartiallyDownloadedBlock) :
    ((state.setPartialBlock hash entry partialBlock).markBlockAsReceived hash).2 =
      (state.markBlockAsReceived hash).2 := by
  simp [markBlockAsReceived, setPartialBlock, flying]

theorem queueBlock_setPartialBlock (state : DownloadState) (hash : Uint256) (nodeid : NodeId)
    (before : Option PartiallyDownloadedBlock) (partialBlock : PartiallyDownloadedBlock) :
    (state.queueBlock nodeid hash ⟨nodeid, before⟩).setPartialBlock hash ⟨nodeid, before⟩ partialBlock =
      state.queueBlock nodeid hash ⟨nodeid, some partialBlock⟩ := by
  simp [queueBlock, setPartialBlock]

theorem markBlockAsInFlight_absent (absent : state.mapBlocksInFlight hash = none) (pit : Bool) :
    state.markBlockAsInFlight pfrom hash pit = .ok (true, ⟨pfrom, if pit then some .new else none⟩,
        state.queueBlock pfrom hash ⟨pfrom, if pit then some .new else none⟩) := by
  simp only [markBlockAsInFlight, markBlockAsReceived, absent, Option.filter_none]

theorem markBlockAsInFlight_listed (flying : state.mapBlocksInFlight hash = some entry) :
    state.markBlockAsInFlight entry.nodeid hash true = .ok (false, entry, state) := by
  have listed : (some entry).filter (fun other => other.nodeid == entry.nodeid) = some entry := by
    simp [Option.filter]
  rw [markBlockAsInFlight, flying, listed]
  rfl

variable {settled : Prop}

/-- Blocks not in flight are requested without a partial block. -/
theorem fetchBlocks_ends {blocks : List Uint256} (nodup : blocks.Nodup)
    (absent : ∀ block ∈ blocks, state.mapBlocksInFlight block = none) :
    Ends (fetchBlocks pfrom blocks state) allowed fun result => Changes settled state result.2 := by
  induction blocks generalizing state with
  | nil => exact .ok .refl
  | cons block rest ih =>
    obtain ⟨notLater, nodup⟩ := nodup_cons.mp nodup
    have missing := absent block mem_cons_self
    apply branch
    · intro _
      exact .ok .refl
    · intro room
      have requested : Change settled state (state.queueBlock pfrom block ⟨pfrom, none⟩) :=
        .requested ⟨missing, Nat.lt_of_not_le room⟩
      have absentLater : ∀ other ∈ rest,
          (state.queueBlock pfrom block ⟨pfrom, none⟩).mapBlocksInFlight other = none := by
        intro other member
        have apart : other ≠ block := by
          intro same
          exact notLater (same ▸ member)
        simp only [queueBlock, Function.update_of_ne apart]
        exact absent other (mem_cons_of_mem _ member)
      rw [markBlockAsInFlight_absent missing]
      apply bind (ih nodup absentLater)
      rintro ⟨fetched, later⟩ changes
      exact .ok (.head requested changes)

theorem absent_of_filter {count : Nat} {block : Uint256}
    (member : block ∈ (walk.blocks.filter fun hash => !state.inFlight hash).take count) :
    state.mapBlocksInFlight block = none := by
  have kept := (mem_filter.mp (mem_of_mem_take member)).2
  simpa [inFlight] using kept

theorem directFetch_ends :
    Ends (state.directFetch pfrom walk) allowed fun result => Changes settled state result.1 := by
  apply bind (fetchBlocks_ends _ _)
  · rintro ⟨fetched, later⟩ changes
    exact .ok changes
  · exact nodup_reverse.mpr ((walk.nodup.filter _).sublist (take_sublist _ _))
  · intro block member
    exact absent_of_filter (mem_reverse.mp member)

theorem sendMessages_ends :
    Ends (state.sendMessages pfrom walk) allowed fun result => Changes settled state result.1 := by
  apply bind (fetchBlocks_ends _ _)
  · rintro ⟨fetched, later⟩ changes
    exact .ok changes
  · exact (walk.nodup.filter _).sublist (take_sublist _ _)
  · intro block member
    exact absent_of_filter member

end DownloadState

variable {allowed : DownloadError → Prop} {state : DownloadState} {hash : Uint256} {pfrom : NodeId}

/-- `CheckBlock` returns, and does not blame how the block was put together. -/
def Settled (env : BlockEnv) (block : CBlock) : Prop :=
  match checkBlock env block true true with
  | .ok () => True
  | .error (.reject reject) => reject.corruptionPossible = false
  | .error _ => False

theorem checkFilled_settled {env : BlockEnv} {block : CBlock} (settled : Settled env block) :
    checkFilled env block ≠ .threw ∧ checkFilled env block ≠ .returned .failed := by
  rw [Settled] at settled
  rw [checkFilled]
  generalize checkBlock env block true true = verdict at settled ⊢
  rcases verdict with (reject | - | -) | -
  · have plain : reject.corruptionPossible = false := settled
    simp [plain]
  · exact settled.elim
  · exact settled.elim
  · simp

/-- `CheckBlock` settles a block in flight that is completed. -/
def SettlesFill (env : BlockEnv) (state : DownloadState) (pfrom : NodeId) (resp : BlockTransactions) : Prop :=
  ∀ partialBlock block, state.mapBlocksInFlight resp.blockhash = some ⟨pfrom, some partialBlock⟩ →
    partialBlock.completed resp.txn = some block → Settled env block

/-- The partial block a message would fill is ready. -/
def Fillable (state : DownloadState) (pfrom : NodeId) (resp : BlockTransactions) : Prop :=
  ∀ partialBlock, state.mapBlocksInFlight resp.blockhash = some ⟨pfrom, some partialBlock⟩ →
    partialBlock.header.isNull = false

open DownloadState in
/-- The transactions of a message use up a partial block; a settled one leaves flight. -/
theorem processBlockTxn_ends {env : BlockEnv} {resp : BlockTransactions} (fillable : Fillable state pfrom resp) :
    Ends (processBlockTxn env state pfrom resp) allowed fun result =>
      Changes (SettlesFill env state pfrom resp) state result.1 := by
  rw [processBlockTxn]
  cases flying : state.mapBlocksInFlight resp.blockhash with
  | none => exact .ok .refl
  | some entry =>
    obtain ⟨nodeid, stored⟩ := entry
    cases stored with
    | none => exact .ok .refl
    | some partialBlock =>
      apply branch
      · intro _
        exact .ok .refl
      · intro same
        rw [not_not] at same
        subst same
        apply bind (fillBlock_ends (fillable _ flying) resp.txn)
        intro filled outcome
        have received : Change (SettlesFill env state nodeid resp) state _ := .received state resp.blockhash
        rw [← received_setPartialBlock flying filled.partialBlock] at received
        have stays (unsettled : ¬ SettlesFill env state nodeid resp) :=
          Change.usedUp flying filled.partialBlock unsettled
        rcases outcome with invalid | ⟨block, complete, checked⟩
        · rw [invalid]
          exact .ok (.single received)
        · have ended (settles : SettlesFill env state nodeid resp) :=
            checkFilled_settled (settles partialBlock block flying complete)
          rw [← checked] at ended
          cases result : filled.result with
          | threw => exact .ok (.single (stays fun settles => (ended settles).1 result))
          | returned status =>
            cases status with
            | ok => exact .ok (.single received)
            | invalid => exact .ok (.single received)
            | failed => exact .ok (.single (stays fun settles => (ended settles).2 result))
            | checkBlockFailed => exact .ok (.single received)

/-- A request names exactly the positions that are free. -/
theorem missingIndexes_ends {cmpctblock : CBlockHeaderAndShortTxIDs} {partialBlock : PartiallyDownloadedBlock}
    (initialised : Initialised cmpctblock partialBlock) {positions : List Nat}
    (inside : ∀ position ∈ positions, position < cmpctblock.blockTxCount) :
    Ends (missingIndexes partialBlock positions) allowed
      (· = positions.filter fun index => partialBlock.txnAvailable[index]? = some none) := by
  induction positions with
  | nil => exact .ok rfl
  | cons position rest ih =>
    rw [forall_mem_cons] at inside
    apply bind (isTxAvailable_ends initialised.notNull (by rw [initialised.length]; exact inside.1))
    intro available here
    apply bind (ih inside.2)
    intro indexes missing
    apply ok
    rw [missing]
    cases available with
    | true =>
      have present : ¬ partialBlock.txnAvailable[position]? = some none := by simp [here]
      rw [filter_cons_of_neg (by simpa using present), if_pos rfl]
    | false =>
      have free : partialBlock.txnAvailable[position]? = some none := here.mpr rfl
      rw [filter_cons_of_pos (by simpa using free), if_neg Bool.false_ne_true]

/-- `CheckBlock` settles a block with nothing to request. -/
def SettlesCompact (view : CmpctView) (cmpctblock : CBlockHeaderAndShortTxIDs) : Prop :=
  ∀ partialBlock block, PartiallyDownloadedBlock.new.initData view.sources cmpctblock = .ok (.ok, partialBlock) →
    partialBlock.completed [] = some block → Settled view.env block

section Compact

open DownloadState

variable {view : CmpctView} {cmpctblock : CBlockHeaderAndShortTxIDs}

/-- A compact block gives a new partial block, from any state. -/
theorem readCompactBlock_ends {before : DownloadState} {entry : BlockInFlight}
    (fresh : entry.partialBlock.getD .new = .new)
    (stored : ∀ partialBlock : PartiallyDownloadedBlock, partialBlock.header.isNull = false →
      Changes (SettlesCompact view cmpctblock) before (state.setPartialBlock hash entry partialBlock))
    (dropped : ∀ partialBlock, Changes (SettlesCompact view cmpctblock) before
      ((state.setPartialBlock hash entry partialBlock).markBlockAsReceived hash).2) :
    Ends (readCompactBlock view state pfrom hash entry cmpctblock) (· = .diverges) fun result =>
      Changes (SettlesCompact view cmpctblock) before result.1 := by
  rw [readCompactBlock, fresh]
  apply Ends.bind_eq (initData_ends.mono (fun _ endless => endless.1) fun _ after => after)
  rintro ⟨status, partialBlock⟩ read after
  cases status with
  | invalid => exact .ok (dropped partialBlock)
  | checkBlockFailed => exact after.elim
  | failed => exact .ok (stored partialBlock after.notNull)
  | ok =>
    apply Ends.bind (missingIndexes_ends after (by simp))
    intro indexes _
    apply Ends.branch
    · intro _
      have only {owner : NodeId} {other : PartiallyDownloadedBlock}
          (flying : (state.setPartialBlock hash entry partialBlock).mapBlocksInFlight hash =
            some ⟨owner, some other⟩) : other = partialBlock := by
        simp only [setPartialBlock, Function.update_self, Option.some_inj, BlockInFlight.mk.injEq] at flying
        exact flying.2.symm
      have fillable : Fillable (state.setPartialBlock hash entry partialBlock) pfrom ⟨hash, []⟩ := by
        intro other flying
        rw [only flying]
        exact after.notNull
      apply (processBlockTxn_ends fillable).mono (fun _ same => same)
      intro result changes
      apply (stored partialBlock after.notNull).trans (changes.mono _)
      intro settles other block flying complete
      rw [only flying] at complete
      exact settles partialBlock block read complete
    · intro _
      exact .ok (stored partialBlock after.notNull)

theorem fetchCompactBlock_ends (may : state.mayFetchFrom pfrom hash = true) :
    Ends (fetchCompactBlock view state pfrom hash cmpctblock) (· = .diverges) fun result =>
      Changes (SettlesCompact view cmpctblock) state result.1 := by
  rw [fetchCompactBlock]
  cases flying : state.mapBlocksInFlight hash with
  | none =>
    rw [mayFetchFrom, flying] at may
    have room : state.Room pfrom hash := ⟨flying, of_decide_eq_true may⟩
    rw [markBlockAsInFlight_absent flying]
    apply readCompactBlock_ends rfl
    · intro partialBlock notNull
      rw [queueBlock_setPartialBlock]
      exact .single (.announced room notNull)
    · intro partialBlock
      rw [queueBlock_setPartialBlock]
      exact .single (.rejected room partialBlock)
  | some entry =>
    have owner : entry.nodeid = pfrom := by
      rw [mayFetchFrom, flying] at may
      exact eq_of_beq may
    rw [← owner, markBlockAsInFlight_listed flying]
    apply branch
    · intro _
      exact .ok .refl
    · intro plain
      have absent : entry.partialBlock = none := by simpa using plain
      apply readCompactBlock_ends (by rw [absent]; rfl)
      · intro partialBlock notNull
        exact .single (.answered flying notNull)
      · intro partialBlock
        rw [received_setPartialBlock flying]
        exact .single (.received state hash)

theorem reconstructBlock_ends {settled : Prop} :
    Ends (reconstructBlock view state cmpctblock) (· = .diverges) fun result => Changes settled state result.1 := by
  apply bind (initData_ends.mono (fun _ endless => endless.1) fun _ after => after)
  rintro ⟨status, tempBlock⟩ after
  apply branch
  · intro _
    exact .ok .refl
  · intro read
    rw [not_not] at read
    subst read
    apply bind (fillBlock_ends after.notNull [])
    intro filled _
    split
    · split
      · exact .ok (.single (.received state _))
      · exact .ok .refl
    · exact .ok .refl

/-- When a fetched compact block leaves nothing to request, `CheckBlock` settles it. -/
def SettlesAnnounced (view : CmpctView) (state : DownloadState) (pfrom : NodeId)
    (cmpctblock : CBlockHeaderAndShortTxIDs) : Prop :=
  state.mayFetchFrom pfrom (view.env.getBlockHash cmpctblock.header) = true → SettlesCompact view cmpctblock

theorem processCmpctBlock_ends : Ends (processCmpctBlock view state pfrom cmpctblock) (· = .diverges) fun result =>
      Changes (SettlesAnnounced view state pfrom cmpctblock) state result.1 := by
  have unchanged (effects : List Effect) : Ends (.ok (state, effects)) (· = DownloadError.diverges) fun result =>
      Changes (SettlesAnnounced view state pfrom cmpctblock) state result.1 :=
    .ok .refl
  simp only [processCmpctBlock]
  split
  · exact unchanged _
  · split
    · exact unchanged _
    · refine .branch (fun _ => unchanged _) fun _ => ?_
      refine .branch (fun _ => unchanged _) fun _ => ?_
      refine .branch (fun _ => unchanged _) fun _ => ?_
      refine .branch (fun _ => unchanged _) fun _ => ?_
      apply branch
      · intro _
        apply branch
        · intro may
          exact (fetchCompactBlock_ends may).mono (fun _ same => same) fun _ changes =>
            changes.mono fun settles => settles may
        · intro _
          exact reconstructBlock_ends
      · intro _
        exact .branch (fun _ => unchanged _) fun _ => directFetch_ends

end Compact

/-- `CheckBlock` settles each block in flight it completes. -/
def Event.Settles (state : DownloadState) : Event → Prop
  | .cmpctblock view pfrom compact => SettlesAnnounced view state pfrom compact
  | .blocktxn env pfrom resp => SettlesFill env state pfrom resp
  | _ => True

/-- The event does not fill a partial block that is used up. -/
def Event.Fills (state : DownloadState) : Event → Prop
  | .blocktxn _ pfrom resp => Fillable state pfrom resp
  | _ => True

open DownloadState in
/-- What an event can do to the download state. -/
theorem downloadStep_ends {event : Event} (fills : event.Fills state) :
    Ends (downloadStep state event) (· = .diverges) fun later => Changes (event.Settles state) state later := by
  apply Ends.map
  cases event with
  | cmpctblock view pfrom cmpctblock => exact processCmpctBlock_ends
  | blocktxn env pfrom resp => exact processBlockTxn_ends fills
  | block env block fWhitelisted => exact .ok (.single (.received state _))
  | headers pfrom walk => exact directFetch_ends
  | sendMessages pto walk => exact sendMessages_ends
  | finalizeNode nodeid => exact .ok (.single (.finalized state nodeid))

end Straks.Net
