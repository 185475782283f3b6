import Straks.Construction.Net.InFlight
import Straks.Library.Run
import Mathlib.Algebra.BigOperators.Ring.Finset
import Mathlib.Tactic.Ring

namespace Straks.Net.InFlight
open Run Success List Function QueuedBlock AList Nodup

/-- The peer was asked for a block with a validated header. -/
def CNodeState.downloading (node : CNodeState) : Bool := node.vBlocksInFlight.any fValidatedHeaders

/-- The counters of a peer are those of its queue, with different addresses. -/
structure CNodeState.Ok (freeAddress : Nat) (node : CNodeState) : Prop where
  distinct : (node.vBlocksInFlight.map QueuedBlock.address).Nodup
  fresh : ∀ entry ∈ node.vBlocksInFlight, entry.address < freeAddress
  total : node.nBlocksInFlight = node.vBlocksInFlight.length
  validated : node.nBlocksInFlightValidHeaders = node.vBlocksInFlight.countP fValidatedHeaders

/-- The number of connected peers that pass a test. -/
def peersWith (connected : Finset NodeId) (nodeState : NodeId → CNodeState) (test : CNodeState → Bool) : Int :=
  (connected.filter fun nodeid => test (nodeState nodeid) = true).card

/-- The table leads to the one entry for each block in the queues of the connected peers, and the counters agree with
queues and peers. -/
structure Consistent (state : DownloadState) : Prop where
  table : ∀ hash nodeid address, state.mapBlocksInFlight.lookup hash = some (nodeid, address) ↔
    nodeid ∈ state.connected ∧
      ∃ entry ∈ (state.nodeState nodeid).vBlocksInFlight, entry.hash = hash ∧ entry.address = address
  nodes : ∀ nodeid ∈ state.connected, (state.nodeState nodeid).Ok state.freeAddress
  preferred : state.nPreferredDownload = peersWith state.connected state.nodeState CNodeState.fPreferredDownload
  downloading : state.nPeersWithValidatedDownloads = peersWith state.connected state.nodeState CNodeState.downloading

section Count

variable {connected : Finset NodeId} {nodeState : NodeId → CNodeState} {test : CNodeState → Bool} {nodeid : NodeId}

theorem peersWith_erase (inside : nodeid ∈ connected) : peersWith (connected.erase nodeid) nodeState test =
      peersWith connected nodeState test - (test (nodeState nodeid)).toNat := by
  rw [peersWith, peersWith, Finset.natCast_card_filter, Finset.natCast_card_filter,
    ← Finset.add_sum_erase connected _ inside]
  cases test (nodeState nodeid) <;> simp

theorem peersWith_insert (outside : nodeid ∉ connected) : peersWith (insert nodeid connected) nodeState test =
      peersWith connected nodeState test + (test (nodeState nodeid)).toNat := by
  rw [peersWith, peersWith, Finset.natCast_card_filter, Finset.sum_insert outside]
  cases test (nodeState nodeid) <;> simp [add_comm]

theorem peersWith_update_of_notMem (outside : nodeid ∉ connected) (node : CNodeState) :
    peersWith connected (Function.update nodeState nodeid node) test = peersWith connected nodeState test := by
  have apart : ∀ other ∈ connected, Function.update nodeState nodeid node other = nodeState other := by
    intro other inside
    apply update_of_ne
    rintro rfl
    exact outside inside
  rw [peersWith, peersWith, Finset.filter_congr fun other inside => by rw [apart other inside]]

theorem peersWith_update (inside : nodeid ∈ connected) (node : CNodeState) :
    peersWith connected (Function.update nodeState nodeid node) test =
      peersWith connected nodeState test - (test (nodeState nodeid)).toNat + (test node).toNat := by
  have others := @peersWith_update_of_notMem (connected.erase nodeid) nodeState test nodeid
    (Finset.notMem_erase nodeid connected) node
  rw [peersWith_erase inside, peersWith_erase inside, update_self] at others
  omega

end Count

theorem CNodeState.Ok.downloading {freeAddress : Nat} {node : CNodeState} (ok : node.Ok freeAddress) :
    node.downloading = decide (node.nBlocksInFlightValidHeaders ≠ 0) := by
  rw [ok.validated, CNodeState.downloading, Bool.eq_iff_iff]
  simp [countP_eq_zero]

namespace CNodeState.Ok

variable {freeAddress : Nat} {node : CNodeState} {entry : QueuedBlock}

/-- The address of an entry leads to it alone. -/
theorem entry_unique (ok : node.Ok freeAddress) (queued : entry ∈ node.vBlocksInFlight) :
    node.vBlocksInFlight.find? (fun other => other.address = entry.address) = some entry ∧
      node.vBlocksInFlight.filter (fun other => other.address ≠ entry.address) = node.vBlocksInFlight.erase entry := by
  have unique : ∀ other ∈ node.vBlocksInFlight, other.address = entry.address → other = entry :=
    fun other inQueue same => inj_on_of_nodup_map ok.distinct inQueue queued same
  constructor
  · cases found : node.vBlocksInFlight.find? fun other => other.address = entry.address with
    | none => simpa using find?_eq_none.mp found entry queued
    | some other =>
      have same := find?_some found
      rw [unique other (mem_of_find?_eq_some found) (by simpa using same)]
  · rw [erase_eq_filter (of_map _ ok.distinct)]
    apply filter_congr
    grind

/-- The counters follow when an entry leaves the queue. -/
theorem erase (ok : node.Ok freeAddress) (queued : entry ∈ node.vBlocksInFlight) : CNodeState.Ok freeAddress { node with
    vBlocksInFlight := node.vBlocksInFlight.erase entry
    nBlocksInFlight := node.nBlocksInFlight - 1
    nBlocksInFlightValidHeaders := node.nBlocksInFlightValidHeaders - entry.fValidatedHeaders.toNat } where
  distinct := ok.distinct.sublist (erase_sublist.map _)
  fresh := fun other left => ok.fresh other (mem_of_mem_erase left)
  total := by
    have positive := length_pos_of_mem queued
    have total := ok.total
    simp only [length_erase_of_mem queued]
    omega
  validated := by
    have positive : entry.fValidatedHeaders = true → 0 < node.vBlocksInFlight.countP fValidatedHeaders :=
      fun valid => countP_pos_iff.mpr ⟨entry, queued, valid⟩
    simp only [ok.validated, countP_erase]
    cases valid : entry.fValidatedHeaders <;> grind

/-- The counters follow when a block is queued. -/
theorem append (ok : node.Ok freeAddress) (hash : Uint256) (pindex : Bool) : CNodeState.Ok (freeAddress + 1) { node with
    vBlocksInFlight := node.vBlocksInFlight ++ [⟨freeAddress, hash, pindex⟩]
    nBlocksInFlight := node.nBlocksInFlight + 1
    nBlocksInFlightValidHeaders := node.nBlocksInFlightValidHeaders + pindex.toNat } where
  distinct := by
    have distinct := ok.distinct
    have fresh := ok.fresh
    grind
  fresh := by
    have fresh := ok.fresh
    grind
  total := by simp [ok.total]
  validated := by
    rw [ok.validated]
    cases pindex <;> simp

end CNodeState.Ok

theorem lookup_foldl_erase (table : AList fun _ : Uint256 => NodeId × Nat) (entries : List QueuedBlock) (hash : Uint256) :
    (entries.foldl (fun table entry => table.erase entry.hash) table).lookup hash =
      if hash ∈ entries.map QueuedBlock.hash then none else table.lookup hash := by
  induction entries generalizing table with
  | nil => simp
  | cons entry rest ih =>
    rw [foldl_cons, ih]
    by_cases same : hash = entry.hash
    · subst same
      simp
    · simp [same, lookup_erase_ne same]

variable {state : DownloadState}

namespace Consistent

theorem initial : Consistent .initial where
  table := by simp [DownloadState.initial]
  nodes := by simp [DownloadState.initial]
  preferred := rfl
  downloading := rfl

variable (consistent : Consistent state)
include consistent

variable (nodeid : NodeId)

theorem initializeNode : Consistent (state.initializeNode nodeid) := by
  unfold DownloadState.initializeNode
  split
  · exact consistent
  · rename_i outside
    constructor
    · intro hash other address
      rw [DownloadState.setNode, consistent.table]
      by_cases same : other = nodeid <;> simp_all [CNodeState.new]
    · intro other inside
      by_cases same : other = nodeid
      · subst same
        simp only [DownloadState.setNode, update_self]
        exact ⟨nodup_nil, by simp [CNodeState.new], rfl, rfl⟩
      · simp_all [DownloadState.setNode, consistent.nodes]
    · simp only [DownloadState.setNode, peersWith_insert outside, peersWith_update_of_notMem outside,
        update_self, consistent.preferred]
      simp [CNodeState.new]
    · simp only [DownloadState.setNode, peersWith_insert outside, peersWith_update_of_notMem outside,
        update_self, consistent.downloading]
      simp [CNodeState.new, CNodeState.downloading]

theorem updatePreferredDownload (fInbound fWhitelisted fOneShot fClient : Bool) :
    Ends (state.updatePreferredDownload nodeid fInbound fWhitelisted fOneShot fClient) (· = .misuse) Consistent := by
  unfold DownloadState.updatePreferredDownload
  split
  · exact .error rfl
  · rename_i inside
    rw [not_not] at inside
    constructor
    · intro hash other address
      by_cases same : other = nodeid <;> simp_all [DownloadState.setNode, consistent.table]
    · intro other connected
      have ok := consistent.nodes other connected
      by_cases same : other = nodeid
      · subst same
        simp only [DownloadState.setNode, update_self]
        exact ⟨ok.distinct, ok.fresh, ok.total, ok.validated⟩
      · simp_all [DownloadState.setNode]
    · simp only [DownloadState.setNode, peersWith_update inside, consistent.preferred]
    · simp only [DownloadState.setNode, peersWith_update inside, consistent.downloading]
      simp [CNodeState.downloading]

/-- A block is in one queue only. -/
theorem owner_unique {first second : NodeId} {one two : QueuedBlock} (inFirst : first ∈ state.connected)
    (oneQueued : one ∈ (state.nodeState first).vBlocksInFlight) (inSecond : second ∈ state.connected)
    (twoQueued : two ∈ (state.nodeState second).vBlocksInFlight) (same : one.hash = two.hash) :
    first = second ∧ one.address = two.address := by
  have found := (consistent.table one.hash first one.address).mpr ⟨inFirst, one, oneQueued, rfl, rfl⟩
  rw [(consistent.table one.hash second two.address).mpr ⟨inSecond, two, twoQueued, same.symm, rfl⟩] at found
  grind

theorem finalized {nodeid : NodeId} (inside : nodeid ∈ state.connected) :
    let node := state.nodeState nodeid
    Consistent { state with
      connected := state.connected.erase nodeid
      mapBlocksInFlight := node.vBlocksInFlight.foldl (fun table entry => table.erase entry.hash) state.mapBlocksInFlight
      nPreferredDownload := state.nPreferredDownload - node.fPreferredDownload.toNat
      nPeersWithValidatedDownloads :=
        state.nPeersWithValidatedDownloads - (decide (node.nBlocksInFlightValidHeaders ≠ 0)).toNat } where
  table := by
    intro hash other address
    simp only [lookup_foldl_erase, Option.ite_none_left_eq_some, consistent.table, Finset.mem_erase]
    constructor
    · grind
    · rintro ⟨⟨apart, connected⟩, entry, queued, rfl, rfl⟩
      refine ⟨?_, connected, entry, queued, rfl, rfl⟩
      rw [mem_map]
      rintro ⟨removed, inQueue, same⟩
      exact apart (consistent.owner_unique connected queued inside inQueue same.symm).1
  nodes := fun other connected => consistent.nodes other (Finset.mem_of_mem_erase connected)
  preferred := by rw [peersWith_erase inside, consistent.preferred]
  downloading := by
    rw [peersWith_erase inside, consistent.downloading, (consistent.nodes nodeid inside).downloading]

theorem keys_eq_nil (nobody : state.connected = ∅) : state.mapBlocksInFlight.keys = [] := by
  rw [eq_nil_iff_forall_not_mem]
  intro hash listed
  obtain ⟨⟨nodeid, address⟩, found⟩ := Option.isSome_iff_exists.mp (lookup_isSome.mpr listed)
  have connected := ((consistent.table hash nodeid address).mp found).1
  simp [nobody] at connected

theorem finalizeNode : Ends (state.finalizeNode nodeid) (· = .misuse) Consistent := by
  unfold DownloadState.finalizeNode
  split
  · exact .error rfl
  · rename_i inside
    have later := consistent.finalized (not_not.mp inside)
    dsimp only at later ⊢
    rw [if_neg, if_neg]
    · exact .ok later
    · rintro ⟨nobody, wrong⟩
      apply wrong
      have preferred := later.preferred
      have downloading := later.downloading
      rw [nobody] at preferred downloading
      exact ⟨later.keys_eq_nil nobody, preferred, downloading⟩
    · have downloading := later.downloading
      dsimp only at downloading
      rw [downloading, peersWith]
      omega

/-- A received block is in no queue any more. -/
theorem markBlockAsReceived (hash : Uint256) :
    ∃ received later, state.markBlockAsReceived hash = .ok (received, later) ∧ Consistent later ∧
      later.connected = state.connected ∧ later.mapBlocksInFlight.lookup hash = none := by
  unfold DownloadState.markBlockAsReceived
  cases listed : state.mapBlocksInFlight.lookup hash with
  | none => exact ⟨false, state, rfl, consistent, rfl, listed⟩
  | some place =>
    obtain ⟨nodeid, address⟩ := place
    obtain ⟨inside, entry, queued, rfl, rfl⟩ := (consistent.table hash nodeid address).mp listed
    have ok := consistent.nodes nodeid inside
    obtain ⟨found, erased⟩ := ok.entry_unique queued
    have okLater := ok.erase queued
    simp only [inside, not_true_eq_false, if_false, found, erased]
    refine ⟨true, _, rfl, ⟨?_, ?_, ?_, ?_⟩, rfl, lookup_erase _ _⟩
    · intro other peer address
      simp only [DownloadState.setNode]
      by_cases same : other = entry.hash
      · subst same
        simp only [lookup_erase, reduceCtorEq, false_iff]
        rintro ⟨connected, one, oneQueued, sameHash, rfl⟩
        by_cases here : peer = nodeid
        · subst here
          rw [update_self, mem_erase_iff (of_map _ ok.distinct)] at oneQueued
          have unique := consistent.owner_unique connected oneQueued.2 inside queued sameHash
          exact oneQueued.1 (inj_on_of_nodup_map ok.distinct oneQueued.2 queued unique.2)
        · rw [update_of_ne here] at oneQueued
          exact here (consistent.owner_unique connected oneQueued inside queued sameHash).1
      · rw [lookup_erase_ne same, consistent.table]
        by_cases here : peer = nodeid
        · subst here
          grind
        · rw [update_of_ne here]
    · intro peer connected
      by_cases here : peer = nodeid
      · subst here
        simp only [DownloadState.setNode, update_self]
        exact okLater
      · simp only [DownloadState.setNode, update_of_ne here]
        exact consistent.nodes peer connected
    · simp only [DownloadState.setNode, peersWith_update inside, consistent.preferred]
      omega
    · simp only [DownloadState.setNode, peersWith_update inside, consistent.downloading, ok.downloading,
        okLater.downloading]
      have positive : entry.fValidatedHeaders = true → 0 < (state.nodeState nodeid).nBlocksInFlightValidHeaders := by
        intro valid
        rw [ok.validated]
        exact_mod_cast countP_pos_iff.mpr ⟨entry, queued, valid⟩
      cases valid : entry.fValidatedHeaders with
      | false => simp
      | true =>
        have nonzero := (positive valid).ne'
        by_cases last : (state.nodeState nodeid).nBlocksInFlightValidHeaders = 1
        · simp [last]
        · simp [last, nonzero, sub_eq_zero]

theorem markBlockAsInFlight (hash : Uint256) (pindex pit : Bool) :
    Ends (state.markBlockAsInFlight nodeid hash pindex pit) (· = .misuse) fun result => Consistent result.2 := by
  unfold DownloadState.markBlockAsInFlight
  split
  · exact .error rfl
  rename_i inside
  split
  · split
    · exact .ok consistent
    · exact .error rfl
  obtain ⟨received, later, marked, laterOk, sameNodes, absent⟩ := consistent.markBlockAsReceived hash
  rw [not_not, ← sameNodes] at inside
  simp only [marked]
  have ok := laterOk.nodes nodeid inside
  have okLater := ok.append hash pindex
  refine ⟨?_, ?_, ?_, ?_⟩
  · intro other peer address
    have table := laterOk.table other peer address
    simp only [DownloadState.setNode]
    by_cases here : peer = nodeid
    · subst here
      simp only [update_self, mem_append, mem_singleton, or_and_right, exists_or, exists_eq_left]
      by_cases same : other = hash
      · subst same
        rw [lookup_insert]
        grind
      · rw [lookup_insert_ne same]
        grind
    · rw [update_of_ne here]
      by_cases same : other = hash
      · subst same
        rw [lookup_insert]
        grind
      · rw [lookup_insert_ne same, table]
  · intro peer connected
    by_cases here : peer = nodeid
    · subst here
      simp only [DownloadState.setNode, update_self]
      exact okLater
    · simp only [DownloadState.setNode, update_of_ne here]
      have other := laterOk.nodes peer connected
      exact ⟨other.distinct, fun entry queued => (other.fresh entry queued).trans (Nat.lt_succ_self _), other.total,
        other.validated⟩
  · simp only [DownloadState.setNode, peersWith_update inside, laterOk.preferred]
    omega
  · simp only [DownloadState.setNode, peersWith_update inside, laterOk.downloading, ok.downloading, okLater.downloading]
    have nonneg : 0 ≤ (later.nodeState nodeid).nBlocksInFlightValidHeaders := by
      rw [ok.validated]
      omega
    cases pindex with
    | false => simp
    | true =>
      have more : (later.nodeState nodeid).nBlocksInFlightValidHeaders + 1 ≠ 0 := by omega
      by_cases none : (later.nodeState nodeid).nBlocksInFlightValidHeaders = 0 <;> simp [none, more]

end Consistent

/-- After every interleaving of connections, disconnections, updates, requests and receipts the books are consistent, and
no assertion of `FinalizeNode` fails: a run only stops where a caller misuses a function. -/
theorem downloads_consistent (events : List Event) :
    (∃ state, runUntil downloadStep .initial events = .ok state ∧ Consistent state) ∨
      runUntil downloadStep .initial events = .error .misuse := by
  have steps (state : DownloadState) (event : Event) (consistent : Consistent state) :
      Ends (downloadStep state event) (· = .misuse) Consistent := by
    cases event with
    | initializeNode nodeid => exact .ok (consistent.initializeNode nodeid)
    | updatePreferredDownload nodeid fInbound fWhitelisted fOneShot fClient =>
      exact consistent.updatePreferredDownload nodeid fInbound fWhitelisted fOneShot fClient
    | finalizeNode nodeid => exact consistent.finalizeNode nodeid
    | markBlockAsInFlight nodeid hash pindex pit =>
      exact .map (consistent.markBlockAsInFlight nodeid hash pindex pit)
    | markBlockAsReceived hash =>
      obtain ⟨received, later, marked, laterOk, -⟩ := consistent.markBlockAsReceived hash
      rw [downloadStep, marked]
      exact .ok laterOk
  have ends := runUntil_ends (fun state event consistent _ => steps state event consistent) Consistent.initial
    (along_of_forall (fun _ _ => trivial) _ events)
  cases ran : runUntil downloadStep .initial events with
  | ok state =>
    rw [ran] at ends
    exact .inl ⟨state, rfl, ends⟩
  | error error =>
    rw [ran] at ends
    exact .inr (congrArg _ ends)

end Straks.Net.InFlight
