import Straks.Proof.Arrivals

namespace Straks.Activation
open Candidates Success List Nat ChainState CBlockIndex

variable {env : NodeEnv} {genesis : BlockArrival} {state : ChainState}

/-- The hard-coded genesis block. -/
structure GenesisOk (env : NodeEnv) (genesis : BlockArrival) : Prop where
  hash : genesis.hash = env.hashGenesisBlock
  transactions : 0 < genesis.nTx

/-- The entry of the genesis block. -/
def genesisEntry (genesis : BlockArrival) : CBlockIndex :=
  ⟨[], genesis.nProof, genesis.nTx, genesis.nTx % 4294967296, 1, blockValidTransactions, true, false, false⟩

theorem initBlockIndex_eq (env : NodeEnv) (genesis : BlockArrival) : initBlockIndex env genesis = ⟨[genesis.hash],
      Function.update (fun _ => null) genesis.hash (genesisEntry genesis), [], [genesis.hash], [], 2, 0⟩ := by
  simp [initBlockIndex, addToBlockIndex, receivedBlockTransactions, ChainState.empty, ChainState.modify,
    raiseValidity, failed, null, prevLinked, pprev, linkBlocks, linkBlock,
    ChainState.tip, ChainState.insertCandidate, blockValidTree, blockValidTransactions, genesisEntry]

/-- The genesis block alone, not yet connected. -/
structure Loaded (genesis : BlockArrival) (state : ChainState) : Prop where
  mapBlockIndex : state.mapBlockIndex = [genesis.hash]
  candidates : state.setBlockIndexCandidates = [genesis.hash]
  unlinked : state.mapBlocksUnlinked = []
  active : state.chainActive = []
  here : state.index genesis.hash = genesisEntry genesis
  other : ∀ hash, hash ≠ genesis.hash → state.index hash = null

theorem initBlockIndex_loaded (env : NodeEnv) (genesis : BlockArrival) :
    Loaded genesis (initBlockIndex env genesis) := by
  rw [initBlockIndex_eq]
  refine ⟨rfl, rfl, rfl, rfl, ?_, ?_⟩
  · exact Function.update_self (f := fun _ => null) genesis.hash (genesisEntry genesis)
  · intro hash apart
    exact Function.update_of_ne (f := fun _ => null) apart (genesisEntry genesis)

namespace Loaded

variable (loaded : Loaded genesis state)
include loaded

variable (hash : Uint256)

theorem ancestors : (state.index hash).ancestors = [] := by
  by_cases same : hash = genesis.hash
  · rw [same, loaded.here]
    rfl
  · rw [loaded.other hash same]
    rfl

theorem branch : state.branch hash = [hash] := by
  rw [ChainState.branch, loaded.ancestors]

theorem clean : (state.index hash).failed = false := by
  by_cases same : hash = genesis.hash
  · rw [same, loaded.here]
    rfl
  · rw [loaded.other hash same]
    rfl

theorem data_iff : (state.index hash).fHaveData = true ↔ hash = genesis.hash := by
  by_cases same : hash = genesis.hash
  · rw [same, loaded.here]
    exact iff_of_true rfl rfl
  · rw [loaded.other hash same]
    exact iff_of_false Bool.false_ne_true same

theorem linked_iff (positive : 0 < genesis.nTx) (fits : genesis.nTx < 4294967296) (hash : Uint256) :
    state.Linked hash ↔ hash = genesis.hash := by
  rw [ChainState.Linked]
  by_cases same : hash = genesis.hash
  · rw [same, loaded.here, genesisEntry, mod_eq_of_lt fits]
    exact iff_of_true (ne_of_gt positive) rfl
  · rw [loaded.other hash same]
    exact iff_of_false (fun nonzero => nonzero rfl) same

theorem branches : BranchesOk state where
  known := by
    intro hash block member
    rw [loaded.ancestors] at member
    cases member
  suffix := by
    intro hash block below part
    rw [loaded.ancestors] at part
    cases suffix_nil.mp part

theorem tree (start : GenesisOk env genesis) (fits : genesis.nTx < 4294967296) :
    TreeOk env.hashGenesisBlock genesis.nTx [] state := by
  have linkedIff := loaded.linked_iff start.transactions fits
  have transactions : ∀ hash, state.branchTx hash = (state.index hash).nTx := by
    intro hash
    rw [branchTx, loaded.branch]
    exact add_zero _
  refine {
    genesis := (linkedIff _).mpr start.hash.symm
    known := loaded.branches.known, suffix := loaded.branches.suffix
    received := ?_, valid := ?_, work := ?_, root := ?_, data := ?_, below := ?_, positive := ?_, chainTx := ?_,
    total := ?_, unlinked := ?_, queued := ?_, distinct := ?_, waiting := ?_ }
  · intro hash data
    rw [loaded.mapBlockIndex, (loaded.data_iff hash).mp data]
    exact mem_cons_self
  · intro hash member
    rw [loaded.mapBlockIndex] at member
    rw [mem_singleton.mp member, loaded.here]
    exact le_succ _
  · intro hash block member
    rw [loaded.ancestors] at member
    cases member
  · intro hash member _
    rw [loaded.mapBlockIndex] at member
    rw [mem_singleton.mp member, start.hash]
  · intro hash linked
    exact (loaded.data_iff hash).mpr ((linkedIff hash).mp linked)
  · intro hash _ block member
    rw [loaded.ancestors] at member
    cases member
  · intro hash data
    rw [(loaded.data_iff hash).mp data, loaded.here]
    exact start.transactions
  · intro hash
    rw [transactions]
    by_cases same : hash = genesis.hash
    · rw [same, loaded.here, genesisEntry, mod_eq_of_lt fits]
    · rw [loaded.other hash same]
      exact le_refl _
  · intro hash
    rw [transactions]
    by_cases same : hash = genesis.hash
    · rw [same, loaded.here]
      exact le_refl _
    · rw [loaded.other hash same]
      exact zero_le _
  · intro pair member
    rw [loaded.unlinked] at member
    cases member
  · intro hash member
    cases member
  · rw [loaded.unlinked]
    exact nodup_nil
  · intro hash data notLinked
    exact absurd ((linkedIff hash).mpr ((loaded.data_iff hash).mp data)) notLinked

theorem chain (faithful : env.Faithful) (start : GenesisOk env genesis) (fits : genesis.nTx < 4294967296) :
    ChainOk env state := by
  have linkedIff := loaded.linked_iff start.transactions fits
  have sound : state.Sound env genesis.hash := by
    refine ⟨(linkedIff _).mpr rfl, ?_⟩
    intro block member
    rw [loaded.branch] at member
    rw [mem_singleton.mp member, start.hash]
    exact faithful.genesis
  refine ⟨?_, ?_, .inl loaded.active, ?_⟩
  · intro hash member
    rw [loaded.candidates] at member
    exact (linkedIff hash).mpr (mem_singleton.mp member)
  · intro hash failed
    rw [loaded.clean] at failed
    cases failed
  · refine ⟨genesis.hash, ⟨?_, ⟨sound.1, fun block _ => loaded.clean block⟩, ?_⟩, sound, ?_⟩
    · rw [loaded.candidates]
      exact mem_cons_self
    · intro hash live
      rw [loaded.candidates, (linkedIff hash).mp live.1]
      exact .inl mem_cons_self
    · intro tip isTip
      rw [ChainState.tip, loaded.active] at isTip
      cases isTip

end Loaded

theorem initBlockIndex_ok (faithful : env.Faithful) (start : GenesisOk env genesis)
    (fits : genesis.nTx < 4294967296) : NodeOk env genesis.nTx (initBlockIndex env genesis) :=
  ⟨(initBlockIndex_loaded env genesis).tree start fits, (initBlockIndex_loaded env genesis).chain faithful start fits⟩

/-- A loop that has ended ends the same way with more turns. -/
theorem activateBestChain_mono {fuel more : Nat} {pindexMostWork : Option Uint256} {result : ActivationResult}
    (success : activateBestChain env fuel state pindexMostWork = .ok result) (le : fuel ≤ more) :
    activateBestChain env more state pindexMostWork = .ok result := by
  induction fuel generalizing state pindexMostWork more with
  | zero => cases success
  | succ fuel ih =>
    obtain ⟨turns, rfl⟩ := Nat.exists_eq_add_of_le' (Nat.le_trans (Nat.le_add_left 1 fuel) le)
    rw [activateBestChain] at success ⊢
    cases shutdown : env.shutdownRequested state.clock with
    | true =>
      rw [shutdown] at success
      exact success
    | false =>
      simp only [shutdown, Bool.false_eq_true, if_false] at success ⊢
      obtain ⟨chosen, chooses, afterChoice⟩ := bind_eq_ok.mp success
      refine bind_eq_ok.mpr ⟨chosen, chooses, ?_⟩
      cases most : chosen.1 with
      | none =>
        simp only [most] at afterChoice ⊢
        exact afterChoice
      | some block =>
        simp only [most] at afterChoice ⊢
        split at afterChoice
        · rename_i there
          rw [if_pos there]
          exact afterChoice
        · rename_i elsewhere
          rw [if_neg elsewhere]
          obtain ⟨step, steps, afterStep⟩ := bind_eq_ok.mp afterChoice
          refine bind_eq_ok.mpr ⟨step, steps, ?_⟩
          split at afterStep
          · rename_i failed
            rw [if_pos failed]
            exact afterStep
          · rename_i running
            rw [if_neg running]
            generalize (if step.1 = Progress.invalidFound then none else some block) = next at afterStep ⊢
            split at afterStep
            · rename_i arrived
              rw [if_pos arrived]
              exact afterStep
            · rename_i further
              rw [if_neg further]
              exact ih afterStep (Nat.le_of_succ_le_succ le)

/-- Whatever `ActivateBestChain` returns keeps the invariant. -/
theorem NodeOk.activated {total fuel : Nat} {result : ActivationResult} (faithful : env.Faithful)
    (ok : NodeOk env total state) (success : activateBestChain env fuel state none = .ok result) :
    NodeOk env total result.state := by
  obtain ⟨enough, ends⟩ := activateBestChain_terminates faithful ok.tree ok.chain
  obtain ⟨other, otherSuccess, activated⟩ := ends (max enough fuel) (le_max_left _ _)
  have same := activateBestChain_mono success (le_max_right enough fuel)
  rw [otherSuccess] at same
  cases same
  exact ⟨activated.tree, activated.chain⟩

theorem processNewBlock_ok {total fuel : Nat} {block : BlockArrival} {result : Bool × ChainState}
    (faithful : env.Faithful) (ok : NodeOk env total state) (fits : total + block.nTx < 4294967296)
    (success : processNewBlock env fuel state block = .ok result) : NodeOk env (total + block.nTx) result.2 := by
  have accepted := acceptBlock_ok ok block fits
  rw [processNewBlock] at success
  split at success
  · cases success
    exact ok.mono (le_add_right _ _)
  · dsimp only at success
    split at success
    · cases success
      exact accepted
    · obtain ⟨activation, activated, returned⟩ := bind_eq_ok.mp success
      cases returned
      exact accepted.activated faithful activated

/-- The invariant holds after every history. -/
theorem History.ok {events : List Event} (faithful : env.Faithful) (start : GenesisOk env genesis)
    (history : History env genesis events state) (fits : genesis.nTx + receivedTransactions events < 4294967296) :
    NodeOk env (genesis.nTx + receivedTransactions events) state := by
  induction history with
  | start => exact initBlockIndex_ok faithful start fits
  | @headers events state _ headers ih =>
    have same : receivedTransactions (.headers headers :: events) = receivedTransactions events := zero_add _
    rw [same] at fits ⊢
    exact processNewBlockHeaders_ok (ih fits) headers
  | @block events state _ block fuel result processed ih =>
    have more : receivedTransactions (.block block :: events) = block.nTx + receivedTransactions events := rfl
    have before := ih (by omega)
    have after := processNewBlock_ok faithful before (by omega) processed
    exact after.mono (by omega)
  | @activate events state _ fuel result activated ih =>
    have same : receivedTransactions (.activate :: events) = receivedTransactions events := zero_add _
    rw [same] at fits ⊢
    exact (ih fits).activated faithful activated

/-- Every block of the branch is received, none found invalid. -/
def Received (state : ChainState) (hash : Uint256) : Prop :=
  ∀ block ∈ state.branch hash, (state.index block).fHaveData = true ∧ (state.index block).failed = false

/-- More work, or the same work and no later sequence number. -/
def AtLeastAsGood (state : ChainState) (left right : Uint256) : Prop :=
  (state.index right).nChainWork < (state.index left).nChainWork ∨
    (state.index right).nChainWork = (state.index left).nChainWork ∧
      (state.index left).nSequenceId ≤ (state.index right).nSequenceId

theorem atLeastAsGood_of_key {left right : Uint256} (le : state.key env right ≤ state.key env left) :
    AtLeastAsGood state left right := by
  rw [key, key, Prod.Lex.toLex_le_toLex, Prod.Lex.toLex_le_toLex] at le
  rw [AtLeastAsGood]
  omega

/-- A node that finds the block with hash 4 invalid. -/
def forkEnv : NodeEnv :=
  ⟨1, BitVec.toNat, fun hash => if hash = 4 then .invalid false else .valid, fun _ => false, fun _ => false⟩

def forkBlock (hash hashPrevBlock : Uint256) (nProof : Nat) (positive : 0 < nProof) : BlockArrival :=
  ⟨⟨hash, hashPrevBlock, nProof, positive, true⟩, 1, true, true, .passed, fun _ => one_pos⟩

end Straks.Activation
