import Straks.Construction.Mempool.LockPoints
import Straks.Proof.DeploymentState

namespace Straks.Mempool

open VersionBits List SequenceView

/-- A running node: the chain follows the rules, the coins lie in it. -/
structure ViewOk (view : SequenceView) : Prop where
  chain : ChainOk view.tip
  some : view.tip ≠ []
  coins : ∀ txid nHeight, view.coinsTip txid = .some nHeight → 0 ≤ nHeight ∧ nHeight < view.nextHeight
  low : view.nextHeight < mempoolHeight

/-- An input allows a block at a height and median time past, by the lock from a coin. -/
def InputMet (tip : IndexPointer) (nextHeight medianTime : Int) (txin : CTxIn) (nCoinHeight : Int) : Prop :=
  isLockDisabled txin = false →
    if isTimeLock txin then
      coinTime tip nCoinHeight + (lockValue txin <<< sequenceLocktimeGranularity).toNat - 1 < medianTime
    else nCoinHeight + (lockValue txin).toNat - 1 < nextHeight

/-- The locks are below two bounds exactly when each input is. -/
theorem foldl_lockInput_lt (tip : IndexPointer) (nextHeight medianTime : Int) (inputs : List (CTxIn × Int))
    (pair : LockPair) : (inputs.foldl (lockInput tip) pair).nMinHeight < nextHeight ∧
        (inputs.foldl (lockInput tip) pair).nMinTime < medianTime ↔
      (pair.nMinHeight < nextHeight ∧ pair.nMinTime < medianTime) ∧
        ∀ input ∈ inputs, InputMet tip nextHeight medianTime input.1 input.2 := by
  induction inputs generalizing pair with
  | nil => simp
  | cons input rest ih =>
    rw [foldl_cons, ih, forall_mem_cons, ← and_assoc]
    apply and_congr_left
    intro _
    rw [lockInput, InputMet]
    cases isLockDisabled input.1 with
    | true => simp
    | false =>
      cases isTimeLock input.1 with
      | true =>
        simp only [Bool.false_eq_true, if_false, if_true, max_lt_iff, true_implies]
        tauto
      | false =>
        simp only [Bool.false_eq_true, if_false, max_lt_iff, true_implies]
        tauto

theorem evaluateSequenceLocks_iff (view : SequenceView) (lockPair : LockPair) :
    evaluateSequenceLocks view lockPair = true ↔
      lockPair.nMinHeight < view.nextHeight ∧ lockPair.nMinTime < getMedianTimePast view.tip := by
  simp [evaluateSequenceLocks]

namespace ViewOk

variable {view : SequenceView}

variable (ok : ViewOk view)
include ok

theorem nextHeight_eq : view.nextHeight = view.tip.length := by
  rw [nextHeight]
  cases isTip : view.tip with
  | nil => exact absurd isTip ok.some
  | cons block older =>
    have chain := ok.chain
    rw [isTip] at chain
    rw [head?_cons, Option.map_some, chain.1]
    rfl

theorem nextHeight_pos : 0 < view.nextHeight := by
  rw [ok.nextHeight_eq]
  exact_mod_cast length_pos_iff.mpr ok.some

/-- Header times are unsigned. -/
theorem medianTime_nonneg : 0 ≤ getMedianTimePast view.tip := by
  rw [le_getMedianTimePast_iff ok.some]
  have none : (recentTimes view.tip).countP (fun time => decide (time < 0)) = 0 := by
    rw [countP_eq_zero]
    intro time member
    rw [recentTimes, mem_map] at member
    obtain ⟨block, -, rfl⟩ := member
    rw [decide_eq_true_eq, not_lt]
    exact Int.natCast_nonneg _
  rw [none]
  exact Nat.zero_le _

/-- The ancestor at a height is reached from the tip. -/
theorem getAncestor_eq {height : Int} (low : 0 ≤ height) (high : height < view.nextHeight) :
    getAncestor view.tip height = view.tip.drop (view.tip.length - 1 - height.toNat) := by
  rw [ok.nextHeight_eq] at high
  have same : height = (view.tip.length : Int) - 1 - (view.tip.length - 1 - height.toNat : Nat) := by omega
  rw [same, ok.chain.getAncestor_eq]
  congr 1
  omega

theorem getAncestor_ne_nil {height : Int} (low : 0 ≤ height) (high : height < view.nextHeight) :
    getAncestor view.tip height ≠ [] := by
  have length := ok.nextHeight_eq
  rw [ok.getAncestor_eq low high, ne_eq, drop_eq_nil_iff]
  omega

/-- An ancestor's median time past is no later than the tip's. -/
theorem coinTime_le {nCoinHeight : Int} (high : nCoinHeight ≤ view.nextHeight) :
    coinTime view.tip nCoinHeight ≤ getMedianTimePast view.tip := by
  have positive := ok.nextHeight_pos
  have length := ok.nextHeight_eq
  rw [coinTime, ok.getAncestor_eq (le_max_right _ _) (by omega)]
  exact ok.chain.getMedianTimePast_drop_le (by omega)

/-- A coin of the pool counts from the tip. -/
theorem coinTime_next : coinTime view.tip view.nextHeight = getMedianTimePast view.tip := by
  have positive := ok.nextHeight_pos
  have length := ok.nextHeight_eq
  rw [coinTime, ok.getAncestor_eq (le_max_right _ _) (by omega)]
  congr 1
  rw [show view.tip.length - 1 - (max (view.nextHeight - 1) 0).toNat = 0 by omega, drop_zero]

/-- The heights the check reads. -/
theorem prevHeight_eq {txin : CTxIn} {nHeight : Int} (found : view.prevHeight txin = .some nHeight) :
    (view.inPool txin.prevout.hash = true ∧ nHeight = view.nextHeight) ∨
      (view.inPool txin.prevout.hash = false ∧ view.coinsTip txin.prevout.hash = .some nHeight ∧
        0 ≤ nHeight ∧ nHeight < view.nextHeight) := by
  rw [prevHeight, getCoins] at found
  cases pooled : view.inPool txin.prevout.hash with
  | true =>
    rw [pooled] at found
    exact .inl ⟨rfl, (Option.some.inj found).symm⟩
  | false =>
    rw [pooled, if_neg (by decide)] at found
    cases coins : view.coinsTip txin.prevout.hash with
    | none =>
      rw [coins] at found
      cases found
    | some height =>
      obtain ⟨low, high⟩ := ok.coins _ _ coins
      have notPool : height ≠ mempoolHeight := by
        have bound := ok.low
        omega
      rw [coins, Option.map_some, if_neg notPool] at found
      cases found
      exact .inr ⟨rfl, rfl, low, high⟩

end ViewOk

variable {height : CTxIn → Int} {inputs : List CTxIn} {view : SequenceView}

/-- The heights of inputs that are all there. -/
theorem mapM_prevHeight (found : ∀ txin ∈ inputs, view.prevHeight txin = some (height txin)) :
    inputs.mapM view.prevHeight = some (inputs.map height) := by
  induction inputs with
  | nil => rfl
  | cons txin rest ih =>
    rw [forall_mem_cons] at found
    rw [mapM_cons, found.1, ih found.2]
    rfl

theorem isSome_of_mapM {prevHeights : List Int} (all : inputs.mapM view.prevHeight = some prevHeights) :
    ∀ txin ∈ inputs, (view.prevHeight txin).isSome := by
  induction inputs generalizing prevHeights with
  | nil => simp
  | cons txin rest ih =>
    rw [mapM_cons, Option.bind_eq_bind, Option.bind_eq_some_iff] at all
    obtain ⟨height, first, others⟩ := all
    rw [Option.bind_eq_bind, Option.bind_eq_some_iff] at others
    obtain ⟨heights, later, -⟩ := others
    rw [forall_mem_cons]
    exact ⟨Option.isSome_of_mem first, ih later⟩

theorem exists_height (present : ∀ txin ∈ inputs, (view.prevHeight txin).isSome) :
    ∃ height : CTxIn → Int, ∀ txin ∈ inputs, view.prevHeight txin = some (height txin) := by
  refine ⟨fun txin => (view.prevHeight txin).getD 0, fun txin input => ?_⟩
  obtain ⟨nHeight, found⟩ := Option.isSome_iff_exists.mp (present txin input)
  dsimp only
  rw [found, Option.getD_some]

variable {tx : CTransaction}

/-- The locks are below two bounds exactly when each enforced input is. -/
theorem calculateSequenceLocks_lt {flags : UInt32} {tip : IndexPointer} {nextHeight medianTime : Int}
    (positive : 0 < nextHeight) (nonneg : 0 ≤ medianTime) :
    (calculateSequenceLocks tx flags (tx.vin.map height) tip).1.nMinHeight < nextHeight ∧
        (calculateSequenceLocks tx flags (tx.vin.map height) tip).1.nMinTime < medianTime ↔
      (enforcesBIP68 tx flags = true → ∀ txin ∈ tx.vin, InputMet tip nextHeight medianTime txin (height txin)) := by
  rw [calculateSequenceLocks]
  cases enforcesBIP68 tx flags with
  | false =>
    simp only [Bool.false_eq_true, if_false, false_implies, iff_true]
    omega
  | true =>
    have pairs : tx.vin.zip (tx.vin.map height) = tx.vin.map fun txin => (txin, height txin) := by
      have both : (tx.vin.map id).zip (tx.vin.map height) = tx.vin.map fun txin => (id txin, height txin) := zip_map'
      rw [map_id] at both
      exact both
    rw [if_pos rfl, pairs, foldl_lockInput_lt, forall_mem_map]
    simp only [true_implies]
    apply and_iff_right
    constructor
    · exact lt_of_lt_of_le (by decide) positive.le
    · exact lt_of_lt_of_le (by decide) nonneg

theorem foldl_maxInputHeight (next : Int) (heights : List Int) (start : Int) :
    let highest := heights.foldl (fun highest height => if height ≠ next then max highest height else highest) start
    start ≤ highest ∧ (∀ height ∈ heights, height ≠ next → height ≤ highest) ∧
      (highest = start ∨ highest ∈ heights ∧ highest ≠ next) := by
  induction heights generalizing start with
  | nil => simp
  | cons height rest ih =>
    rw [foldl_cons]
    by_cases isNext : height = next
    · obtain ⟨above, each, reached⟩ := ih start
      rw [if_neg (not_not.mpr isNext)]
      refine ⟨above, ?_, reached.imp_right fun member => ⟨mem_cons_of_mem _ member.1, member.2⟩⟩
      rw [forall_mem_cons]
      exact ⟨fun other => absurd isNext other, each⟩
    · obtain ⟨above, each, reached⟩ := ih (max start height)
      rw [if_pos isNext]
      refine ⟨le_trans (le_max_left _ _) above, ?_, ?_⟩
      · rw [forall_mem_cons]
        exact ⟨fun _ => le_trans (le_max_right _ _) above, each⟩
      · rcases reached with same | member
        · rcases max_choice start height with first | second
          · exact .inl (same.trans first)
          · right
            rw [same, second]
            exact ⟨mem_cons_self, isNext⟩
        · exact .inr ⟨mem_cons_of_mem _ member.1, member.2⟩

/-- Below a shared block, the coins have the same times. -/
theorem coinTime_shared {old new : SequenceView} (oldOk : ViewOk old) (newOk : ViewOk new) {highest : Int}
    (low : 0 ≤ highest) (high : highest < old.nextHeight)
    (shared : chainContains new.tip (getAncestor old.tip highest) = true) {nCoinHeight : Int}
    (below : nCoinHeight ≤ highest) : coinTime new.tip nCoinHeight = coinTime old.tip nCoinHeight := by
  have oldLength := oldOk.nextHeight_eq
  have newLength := newOk.nextHeight_eq
  rw [oldOk.getAncestor_eq low high] at shared
  have chain := oldOk.chain.drop (old.tip.length - 1 - highest.toNat)
  have length := @length_drop _ (old.tip.length - 1 - highest.toNat) old.tip
  cases isBlock : old.tip.drop (old.tip.length - 1 - highest.toNat) with
  | nil =>
    rw [isBlock, length_nil] at length
    omega
  | cons block older =>
    rw [isBlock] at shared chain length
    have height : block.nHeight = highest := by
      have counted := chain.1
      rw [length_cons] at length
      omega
    rw [chainContains, head?_cons, Option.any_some, decide_eq_true_eq, height] at shared
    have inside : highest < new.nextHeight := by
      by_contra above
      cases isTip : new.tip with
      | nil => exact newOk.some isTip
      | cons top rest =>
        have topHeight := newOk.chain
        rw [isTip] at topHeight shared
        rw [isTip, length_cons] at newLength
        rw [getAncestor, if_pos (.inl (by have counted := topHeight.1; omega))] at shared
        cases shared
    rw [newOk.getAncestor_eq low inside, ← isBlock] at shared
    have lower : ∀ tip : IndexPointer, highest < tip.length →
        tip.drop (tip.length - 1 - (max (nCoinHeight - 1) 0).toNat) =
          (tip.drop (tip.length - 1 - highest.toNat)).drop (highest.toNat - (max (nCoinHeight - 1) 0).toNat) := by
      intro tip long
      rw [drop_drop]
      congr 1
      omega
    rw [coinTime, coinTime, newOk.getAncestor_eq (le_max_right _ _) (by omega),
      oldOk.getAncestor_eq (le_max_right _ _) (by omega), lower new.tip (by omega), lower old.tip (by omega), shared]

/-- The check of the locks when all inputs are there. -/
theorem checkSequenceLocks_known (found : ∀ txin ∈ tx.vin, view.prevHeight txin = some (height txin)) (flags : UInt32)
    (lp : LockPoints) : checkSequenceLocks view tx flags lp false =
      (evaluateSequenceLocks view (calculateSequenceLocks tx flags (tx.vin.map height) view.tip).1,
        ⟨(calculateSequenceLocks tx flags (tx.vin.map height) view.tip).1.nMinHeight,
          (calculateSequenceLocks tx flags (tx.vin.map height) view.tip).1.nMinTime,
          getAncestor view.tip (maxInputHeight view
            (calculateSequenceLocks tx flags (tx.vin.map height) view.tip).2)⟩) := by
  rw [checkSequenceLocks, if_neg (by decide), mapM_prevHeight found]

/-- The check that computes the locks asks each input. -/
theorem checkSequenceLocks_fresh (ok : ViewOk view)
    (found : ∀ txin ∈ tx.vin, view.prevHeight txin = some (height txin)) (flags : UInt32) (lp : LockPoints) :
    (checkSequenceLocks view tx flags lp false).1 = true ↔ (enforcesBIP68 tx flags = true → ∀ txin ∈ tx.vin,
        InputMet view.tip view.nextHeight (getMedianTimePast view.tip) txin (height txin)) := by
  rw [checkSequenceLocks_known found, evaluateSequenceLocks_iff,
    calculateSequenceLocks_lt ok.nextHeight_pos ok.medianTime_nonneg]

/-- The last block with a locked input is in the chain, above every locked coin. -/
theorem maxInputHeight_bounds (ok : ViewOk view) {flags : UInt32}
    (found : ∀ txin ∈ tx.vin, view.prevHeight txin = some (height txin)) (enforced : enforcesBIP68 tx flags = true) :
    let highest := maxInputHeight view (calculateSequenceLocks tx flags (tx.vin.map height) view.tip).2
    0 ≤ highest ∧ highest < view.nextHeight ∧
      ∀ txin ∈ tx.vin, isLockDisabled txin = false → height txin ≠ view.nextHeight → height txin ≤ highest := by
  have heights : (calculateSequenceLocks tx flags (tx.vin.map height) view.tip).2 =
      tx.vin.map fun txin => if isLockDisabled txin then 0 else height txin := by
    rw [calculateSequenceLocks, if_pos enforced, zipWith_map_right, zipWith_self]
  obtain ⟨nonneg, each, reached⟩ := foldl_maxInputHeight view.nextHeight
    (tx.vin.map fun txin => if isLockDisabled txin then 0 else height txin) 0
  rw [heights]
  refine ⟨nonneg, ?_, ?_⟩
  · rcases reached with zero | ⟨member, apart⟩
    · exact lt_of_eq_of_lt zero ok.nextHeight_pos
    · obtain ⟨txin, input, same⟩ := mem_map.mp member
      change maxInputHeight view _ ≠ _ at apart
      change _ = maxInputHeight view _ at same
      have positive := ok.nextHeight_pos
      split at same
      · omega
      · rcases ok.prevHeight_eq (found txin input) with ⟨_, isNext⟩ | ⟨_, _, _, high⟩
        · omega
        · omega
  · intro txin input enabled confirmed
    apply each (height txin) (mem_map.mpr ⟨txin, input, ?_⟩) confirmed
    rw [enabled, if_neg (by decide)]

/-- Every lock from the pool, taken to confirm in the next block of the old chain, allows the next block of the later
one. -/
def PoolLocksFollow (old new : SequenceView) (tx : CTransaction) : Prop :=
  ∀ txin ∈ tx.vin, old.inPool txin.prevout.hash = true → isLockDisabled txin = false →
    if isTimeLock txin then getMedianTimePast old.tip ≤ getMedianTimePast new.tip
    else old.nextHeight ≤ new.nextHeight

/-- A confirmed coin's lock forbids the later chain's next block. -/
def ConfirmedLockUnmet (old new : SequenceView) (tx : CTransaction) : Prop :=
  ∃ txin ∈ tx.vin, old.inPool txin.prevout.hash = false ∧ ∃ nCoinHeight, old.coinsTip txin.prevout.hash = some nCoinHeight ∧
    ¬ InputMet new.tip new.nextHeight (getMedianTimePast new.tip) txin nCoinHeight

/-- A lock from the pool that passed is zero, so it allows every next block. -/
theorem InputMet.pooled {old : SequenceView} (oldOk : ViewOk old) {txin : CTxIn}
    (met : InputMet old.tip old.nextHeight (getMedianTimePast old.tip) txin old.nextHeight)
    (enabled : isLockDisabled txin = false) :
    if isTimeLock txin then (lockValue txin <<< sequenceLocktimeGranularity).toNat = 0
    else (lockValue txin).toNat = 0 := by
  have passed := met enabled
  split at passed
  · rename_i timed
    rw [oldOk.coinTime_next] at passed
    rw [if_pos timed]
    omega
  · rename_i timed
    rw [if_neg timed]
    omega

section Reorganised

variable {old new : SequenceView} {tx : CTransaction} {flags : UInt32} {oldHeight newHeight : CTxIn → Int}

/-- On a later chain a pool input never fails the fresh check. -/
theorem InputMet.later (oldOk : ViewOk old) (newOk : ViewOk new) {txin : CTxIn}
    (met : InputMet old.tip old.nextHeight (getMedianTimePast old.tip) txin old.nextHeight) {nHeight : Int}
    (found : new.prevHeight txin = some nHeight) :
    InputMet new.tip new.nextHeight (getMedianTimePast new.tip) txin nHeight := by
  intro enabled
  have zero := met.pooled oldOk enabled
  have high : nHeight ≤ new.nextHeight := by
    rcases newOk.prevHeight_eq found with ⟨_, isNext⟩ | ⟨_, _, _, inside⟩
    · exact le_of_eq isNext
    · exact le_of_lt inside
  have time := newOk.coinTime_le high
  split at zero
  · rename_i timed
    rw [if_pos timed]
    omega
  · rename_i timed
    rw [if_neg timed]
    omega

/-- With the cached locks a pool input passes exactly when its lock follows. -/
theorem InputMet.cached_iff (oldOk : ViewOk old) {txin : CTxIn}
    (met : InputMet old.tip old.nextHeight (getMedianTimePast old.tip) txin old.nextHeight)
    (nextHeight medianTime : Int) : InputMet old.tip nextHeight medianTime txin old.nextHeight ↔
      (isLockDisabled txin = false →
        if isTimeLock txin then getMedianTimePast old.tip ≤ medianTime else old.nextHeight ≤ nextHeight) := by
  apply forall_congr'
  intro enabled
  have zero := met.pooled oldOk enabled
  split at zero
  · rename_i timed
    rw [if_pos timed, if_pos timed, oldOk.coinTime_next]
    omega
  · rename_i timed
    rw [if_neg timed, if_neg timed]
    omega

/-- Confirmed inputs have the same locks on both chains. -/
theorem InputMet.confirmed_iff {tip later : IndexPointer} {txin : CTxIn} {nCoinHeight : Int}
    (same : isLockDisabled txin = false → coinTime later nCoinHeight = coinTime tip nCoinHeight)
    (nextHeight medianTime : Int) :
    InputMet tip nextHeight medianTime txin nCoinHeight ↔ InputMet later nextHeight medianTime txin nCoinHeight := by
  apply forall_congr'
  intro enabled
  rw [same enabled]

/-- The cached verdict is the fresh one together with the locks from the pool. -/
theorem cached_iff_fresh (oldOk : ViewOk old) (newOk : ViewOk new)
    (foundOld : ∀ txin ∈ tx.vin, old.prevHeight txin = some (oldHeight txin))
    (foundNew : ∀ txin ∈ tx.vin, new.prevHeight txin = some (newHeight txin))
    (kept : ∀ txin ∈ tx.vin, old.inPool txin.prevout.hash = false → newHeight txin = oldHeight txin)
    (times : ∀ txin ∈ tx.vin, old.inPool txin.prevout.hash = false → isLockDisabled txin = false →
      coinTime new.tip (oldHeight txin) = coinTime old.tip (oldHeight txin))
    (passed : ∀ txin ∈ tx.vin, InputMet old.tip old.nextHeight (getMedianTimePast old.tip) txin (oldHeight txin)) :
    (∀ txin ∈ tx.vin, InputMet old.tip new.nextHeight (getMedianTimePast new.tip) txin (oldHeight txin)) ↔
      (∀ txin ∈ tx.vin, InputMet new.tip new.nextHeight (getMedianTimePast new.tip) txin (newHeight txin)) ∧
        PoolLocksFollow old new tx := by
  rw [PoolLocksFollow, ← forall₂_and]
  apply forall₂_congr
  intro txin input
  rcases oldOk.prevHeight_eq (foundOld txin input) with ⟨pooled, isNext⟩ | ⟨confirmed, _, _⟩
  · have met := passed txin input
    rw [isNext] at met ⊢
    rw [met.cached_iff oldOk]
    have fresh := met.later oldOk newOk (foundNew txin input)
    tauto
  · rw [kept txin input confirmed, InputMet.confirmed_iff (times txin input confirmed)]
    simp [confirmed]

end Reorganised

/-- For a transaction of the pool with stored lock points, and a later chain on which these count as valid and the
confirmed inputs keep their heights, the check with the cached lock points agrees with the fresh one exactly when the
locks from the pool follow or a confirmed lock is not met anyway. -/
theorem lockPoints_agree_iff (tx : CTransaction) (flags : UInt32) (old new : SequenceView) (oldOk : ViewOk old)
    (newOk : ViewOk new) (before lp : LockPoints) (stored : checkSequenceLocks old tx flags before false = (true, lp))
    (valid : testLockPointValidity new lp = true) (kept : ∀ txin ∈ tx.vin, old.inPool txin.prevout.hash = false →
      new.getCoins txin.prevout.hash = old.getCoins txin.prevout.hash)
    (present : ∀ txin ∈ tx.vin, (new.getCoins txin.prevout.hash).isSome) :
    (checkSequenceLocks new tx flags lp true).1 = (checkSequenceLocks new tx flags lp false).1 ↔
      (enforcesBIP68 tx flags = true → PoolLocksFollow old new tx ∨ ConfirmedLockUnmet old new tx) := by
  have presentOld : ∀ txin ∈ tx.vin, (old.prevHeight txin).isSome := by
    rw [checkSequenceLocks] at stored
    cases all : tx.vin.mapM old.prevHeight with
    | none =>
      rw [all] at stored
      cases stored
    | some prevHeights => exact isSome_of_mapM all
  have presentNew : ∀ txin ∈ tx.vin, (new.prevHeight txin).isSome := by
    intro txin input
    rw [prevHeight, Option.isSome_map]
    exact present txin input
  obtain ⟨oldHeight, foundOld⟩ := exists_height presentOld
  obtain ⟨newHeight, foundNew⟩ := exists_height presentNew
  have passed := (checkSequenceLocks_fresh oldOk foundOld flags before).mp (by rw [stored])
  have fresh := checkSequenceLocks_fresh newOk foundNew flags lp
  rw [checkSequenceLocks_known foundOld] at stored
  have isStored := (Prod.mk.inj stored).2
  have cached : (checkSequenceLocks new tx flags lp true).1 = true ↔ (enforcesBIP68 tx flags = true →
      ∀ txin ∈ tx.vin, InputMet old.tip new.nextHeight (getMedianTimePast new.tip) txin (oldHeight txin)) := by
    rw [checkSequenceLocks, if_pos rfl, evaluateSequenceLocks_iff, ← isStored]
    exact calculateSequenceLocks_lt newOk.nextHeight_pos newOk.medianTime_nonneg
  rw [Bool.eq_iff_iff, fresh, cached]
  cases enforced : enforcesBIP68 tx flags with
  | false => simp
  | true =>
    have coins : ∀ txin ∈ tx.vin, old.inPool txin.prevout.hash = false →
        old.coinsTip txin.prevout.hash = some (oldHeight txin) ∧ 0 ≤ oldHeight txin ∧
          oldHeight txin < old.nextHeight := by
      intro txin input confirmed
      rcases oldOk.prevHeight_eq (foundOld txin input) with ⟨pooled, _⟩ | ⟨_, found⟩
      · rw [pooled] at confirmed
        cases confirmed
      · exact found
    have sameHeight : ∀ txin ∈ tx.vin, old.inPool txin.prevout.hash = false → newHeight txin = oldHeight txin := by
      intro txin input confirmed
      obtain ⟨found, _, high⟩ := coins txin input confirmed
      have notPool : oldHeight txin ≠ mempoolHeight := ne_of_lt (high.trans oldOk.low)
      have later := foundNew txin input
      rw [prevHeight, kept txin input confirmed, getCoins, confirmed,
        if_neg (by decide), found, Option.map_some, if_neg notPool] at later
      exact (Option.some.inj later).symm
    have times : ∀ txin ∈ tx.vin, old.inPool txin.prevout.hash = false → isLockDisabled txin = false →
        coinTime new.tip (oldHeight txin) = coinTime old.tip (oldHeight txin) := by
      intro txin input confirmed enabled
      obtain ⟨low, high, each⟩ := maxInputHeight_bounds oldOk foundOld enforced
      have shared := valid
      rw [← isStored, testLockPointValidity, decide_eq_false (oldOk.getAncestor_ne_nil low high)] at shared
      have below := (coins txin input confirmed).2.2
      exact coinTime_shared oldOk newOk low high shared (each txin input enabled (ne_of_lt below))
    have unmet : ConfirmedLockUnmet old new tx ↔ ¬ ∀ txin ∈ tx.vin,
        InputMet new.tip new.nextHeight (getMedianTimePast new.tip) txin (newHeight txin) := by
      rw [not_forall₂]
      constructor
      · rintro ⟨txin, input, confirmed, nCoinHeight, found, fails⟩
        rw [(coins txin input confirmed).1] at found
        cases found
        rw [← sameHeight txin input confirmed] at fails
        exact ⟨txin, input, fails⟩
      · rintro ⟨txin, input, fails⟩
        rcases oldOk.prevHeight_eq (foundOld txin input) with ⟨_, isNext⟩ | ⟨confirmed, found, _⟩
        · have met := passed enforced txin input
          rw [isNext] at met
          exact absurd (met.later oldOk newOk (foundNew txin input)) fails
        · rw [sameHeight txin input confirmed] at fails
          exact ⟨txin, input, confirmed, oldHeight txin, found, fails⟩
    rw [unmet]
    simp only [true_implies]
    rw [cached_iff_fresh oldOk newOk foundOld foundNew sameHeight times (passed enforced), and_iff_left_iff_imp]
    exact imp_iff_or_not

/-- A chain of so many blocks with rising times. -/
def risingChain : Nat → IndexPointer
  | 0 => []
  | count + 1 =>
    { nHeight := count, nTime := UInt32.ofNat (100 * count), nBits := 0, nChainWork := 0, nVersion := 1 } ::
      risingChain count

/-- A node that has the parent of a transaction in its pool. -/
def pooledView (count : Nat) : SequenceView := ⟨risingChain count, fun _ => true, fun _ => none⟩

theorem pooledView_two_ok : ViewOk (pooledView 2) := ⟨by decide +kernel, by decide, by simp [pooledView], by decide⟩

/-- A transaction with a relative lock of no blocks. -/
def zeroLocked : CTransaction := ⟨2, [⟨⟨7, 0⟩, [], 0, []⟩], [], 0⟩

theorem lockPoints_agree_iff_longer :
    ∃ lp, checkSequenceLocks (pooledView 2) zeroLocked 1 ⟨0, 0, []⟩ false = (true, lp) ∧
      testLockPointValidity (pooledView 3) lp = true ∧
      (checkSequenceLocks (pooledView 3) zeroLocked 1 lp true).1 =
        (checkSequenceLocks (pooledView 3) zeroLocked 1 lp false).1 := by
  have longer : ViewOk (pooledView 3) := ⟨by decide +kernel, by decide, by simp [pooledView], by decide⟩
  obtain ⟨lp, stored, valid⟩ : ∃ lp, checkSequenceLocks (pooledView 2) zeroLocked 1 ⟨0, 0, []⟩ false = (true, lp) ∧
      testLockPointValidity (pooledView 3) lp = true := ⟨⟨1, -1, risingChain 1⟩, by decide +kernel, by decide +kernel⟩
  have agree := (lockPoints_agree_iff zeroLocked 1 (pooledView 2) (pooledView 3) pooledView_two_ok longer
    ⟨0, 0, []⟩ lp stored valid (fun _ _ confirmed => Bool.noConfusion confirmed) (fun _ _ => rfl)).mpr
  refine ⟨lp, stored, valid, agree fun _ => .inl fun txin input _ _ => ?_⟩
  rw [mem_singleton.mp input]
  decide +kernel

/-- On a shorter chain the cached lock points reject an acceptable transaction. -/
theorem lockPoints_disagree_shorter : ViewOk (pooledView 2) ∧ ViewOk (pooledView 1) ∧
      ∃ lp, checkSequenceLocks (pooledView 2) zeroLocked 1 ⟨0, 0, []⟩ false = (true, lp) ∧
        testLockPointValidity (pooledView 1) lp = true ∧
        (checkSequenceLocks (pooledView 1) zeroLocked 1 lp true).1 = false ∧
        (checkSequenceLocks (pooledView 1) zeroLocked 1 lp false).1 = true := by
  refine ⟨pooledView_two_ok, ⟨by decide +kernel, by decide, by simp [pooledView], by decide⟩,
    ⟨1, -1, risingChain 1⟩, ?_, ?_, ?_, ?_⟩
  · decide +kernel
  · decide +kernel
  · decide +kernel
  · decide +kernel

end Straks.Mempool
