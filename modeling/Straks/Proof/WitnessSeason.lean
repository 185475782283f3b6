import Straks.Construction.Chain.WitnessRules
import Straks.Proof.DeploymentState

namespace Straks.VersionBits
open Chain List Nat Prod

section Persistence

variable {checker : ThresholdConditionChecker}

/-- A later state is computed from a block past the start time. -/
theorem Boundary.past_of_ne {pindex : IndexPointer} (boundary : Boundary checker pindex) (positive : 0 < checker.period)
    (left : codeState checker pindex ≠ .defined) : pindex ≠ [] ∧ checker.beginTime ≤ getMedianTimePast pindex := by
  have some : pindex ≠ [] := by
    rintro rfl
    exact left codeState_nil
  refine ⟨some, not_lt.mp fun early => left ?_⟩
  rw [boundary.codeState_eq positive some, if_pos early]

theorem succ_mod_cases (count : Nat) {width : Nat} (positive : 0 < width) :
    (count + 1) % width = 0 ∧ count % width + 1 = width ∨ (count + 1) % width = count % width + 1 := by
  have split := div_add_mod count width
  rcases lt_or_eq_of_le (succ_le_of_lt (mod_lt count positive)) with inside | last
  · right
    rw [← split, add_assoc, mul_add_mod, mul_add_mod, mod_mod]
    exact mod_eq_of_lt inside
  · left
    refine ⟨?_, last⟩
    rw [← split, add_assoc, mul_add_mod, ← succ_eq_add_one, last, mod_self]

/-- A deployment active for a block is active for the next. -/
theorem ChainOk.active_next {block : VersionIndex} {older : IndexPointer} (chain : ChainOk (block :: older))
    (positive : 0 < checker.period) (active : codeState checker (periodParent checker older) = .active) :
    codeState checker (periodParent checker (block :: older)) = .active := by
  have width : 0 < span checker := by
    rw [span]
    omega
  have left : codeState checker (periodParent checker older) ≠ .defined := by
    rw [active]
    exact ThresholdState.noConfusion
  obtain ⟨some, past⟩ := (chain.2.2.boundary_periodParent positive).past_of_ne positive left
  have boundary := chain.boundary_periodParent positive
  rw [chain.2.2.periodParent_eq positive] at active some past
  rw [chain.periodParent_eq positive, length_cons] at boundary ⊢
  rcases succ_mod_cases older.length width with ⟨last, short⟩ | next
  · -- the block ends a period, so the state after it is computed from the state of that period
    have under : (block :: older).drop (span checker) = older.drop (older.length % span checker) := by
      calc (block :: older).drop (span checker)
          = (block :: older).drop (older.length % span checker + 1) := by rw [short]
        _ = older.drop (older.length % span checker) := drop_succ_cons
    have inside : span checker < (block :: older).length := by
      rw [← under, ← length_pos_iff, length_drop] at some
      omega
    have grows := chain.getMedianTimePast_drop_le inside
    rw [under] at grows
    rw [last, drop_zero] at boundary ⊢
    rw [boundary.codeState_eq positive (cons_ne_nil _ _), under, active, if_neg (by omega)]
    rfl
  · rw [next]
    exact active

end Persistence

variable (params : DeploymentParams)

/-- The witness deployment is active for the block so many positions before the next one. -/
def SegwitActive (cache : ThresholdConditionCache) (pindex : IndexPointer)
    (positions : Nat) : Prop :=
  positions ≤ pindex.length ∧ ∃ later, versionBitsState params (pindex.drop positions) cache = some (.active, later)

/-- Blocks on top of `pindex` get the enlarged limits exactly when the witness deployment is active for the block
`BIP102HeightDelta` positions before; without a waiting period that is as soon as it is enabled. -/
def SeasonedOnTime (cache : ThresholdConditionCache) (pindex : IndexPointer) : Prop :=
  ∃ fSeasoned later, isWitnessSeasoned params pindex cache = some (fSeasoned, later) ∧
    (fSeasoned = true ↔ SegwitActive params cache pindex params.BIP102HeightDelta.toNat) ∧
    (params.BIP102HeightDelta = 0 → ∀ enabledCache, isWitnessEnabled params pindex cache = some (true, enabledCache) →
      maxBlockBaseSize fSeasoned = maxBaseBlockSize ∧ maxBlockWeight fSeasoned = 4 * maxBaseBlockSize ∧
        maxBlockSigOpsCost fSeasoned = 320000)

section Season

variable {params : DeploymentParams} {cache : ThresholdConditionCache} {pindex : IndexPointer}

/-- The deployment is active for a block exactly when the code's recursion says so. -/
theorem segwitActive_iff (positive : 0 < params.checker.period) (ok : CacheOk params.checker cache)
    (chain : ChainOk pindex) (positions : Nat) : SegwitActive params cache pindex positions ↔
      codeState params.checker (periodParent params.checker (pindex.drop positions)) = .active := by
  obtain ⟨later, state, -⟩ := getStateFor_ok positive ok (chain.drop positions)
  rw [SegwitActive, versionBitsState, state]
  constructor
  · rintro ⟨-, _, same⟩
    rw [Option.some.injEq, mk.injEq] at same
    exact same.1
  · intro active
    refine ⟨?_, later, by rw [active]⟩
    by_contra outside
    rw [drop_eq_nil_of_le (by omega)] at active
    cases codeState_nil.symm.trans active

theorem segwitActive_of_enabled {later : ThresholdConditionCache}
    (enabled : isWitnessEnabled params pindex cache = some (true, later)) : SegwitActive params cache pindex 0 := by
  refine ⟨zero_le _, ?_⟩
  obtain ⟨⟨state, stateCache⟩, found, same⟩ := Option.bind_eq_some_iff.mp enabled
  rw [Option.pure_def, Option.some.injEq, mk.injEq, beq_iff_eq] at same
  rw [drop_zero, found, same.1]
  exact ⟨stateCache, rfl⟩

/-- A block later the deployment is still active. -/
theorem segwitActive_mono (positive : 0 < params.checker.period) (ok : CacheOk params.checker cache)
    (chain : ChainOk pindex) {positions : Nat} (active : SegwitActive params cache pindex (positions + 1)) :
    SegwitActive params cache pindex positions := by
  have inside : positions < pindex.length := active.1
  rw [segwitActive_iff positive ok chain] at active ⊢
  have split := drop_eq_getElem_cons inside
  rw [split]
  apply ChainOk.active_next _ positive active
  rw [← split]
  exact chain.drop positions

/-- The ancestor the code looks at for a waiting period: one block later than the period asks for, and none at all
for an empty period. -/
theorem ChainOk.forkBuffer_eq {block : VersionIndex} {older : IndexPointer} (chain : ChainOk (block :: older))
    {delta : Nat} : getAncestor (block :: older) (block.nHeight + 1 - (delta : Int)) =
      if delta = 0 then [] else (block :: older).drop (delta - 1) := by
  split
  · rename_i zero
    rw [getAncestor, if_pos (.inl (by omega))]
  · rename_i waits
    rw [← chain.getAncestor_eq, chain.1, length_cons]
    congr 1
    omega

theorem isWitnessSeasoned_eq (positive : 0 < params.checker.period) (ok : CacheOk params.checker cache)
    (chain : ChainOk pindex) (tip : pindex ≠ []) {delta : Nat} (waits : params.BIP102HeightDelta = delta) :
    ∃ fSeasoned later, isWitnessSeasoned params pindex cache = some (fSeasoned, later) ∧
      (fSeasoned = true ↔ delta ≠ 0 ∧ SegwitActive params cache pindex (delta - 1)) := by
  cases pindex with
  | nil => exact absurd rfl tip
  | cons block older =>
    have forkOk : ChainOk (getAncestor (block :: older) (block.nHeight + 1 - (delta : Int))) := by
      rw [chain.forkBuffer_eq]
      split
      · trivial
      · exact chain.drop _
    obtain ⟨later, state, -⟩ := getStateFor_ok positive ok forkOk
    have answer : isWitnessSeasoned params (block :: older) cache = some (codeState params.checker
        (periodParent params.checker (getAncestor (block :: older) (block.nHeight + 1 - (delta : Int)))) == .active,
          later) := by
      rw [isWitnessSeasoned, waits, versionBitsState, state]
      rfl
    refine ⟨_, later, answer, ?_⟩
    rw [beq_iff_eq, chain.forkBuffer_eq, segwitActive_iff positive ok chain]
    split
    · rename_i zero
      refine iff_of_false ?_ fun both => both.1 zero
      rw [show periodParent params.checker [] = [] from rfl, codeState_nil]
      exact ThresholdState.noConfusion
    · rename_i nonzero
      exact ⟨fun active => ⟨nonzero, active⟩, fun both => both.2⟩

end Season

/-- The limits are enlarged on time exactly in two cases: without a waiting period, the deployment is not active for the
block to be built; with one, the deployment does not become active exactly one block after the block the waiting
period is counted from. -/
theorem seasonedOnTime_iff (positive : 0 < params.checker.period) (tree : BlockTree)
    (calls : List IndexPointer) (called : ∀ call ∈ calls, call ∈ tree.blocks) (cache : ThresholdConditionCache)
    (filled : cacheAfter params.checker calls = some cache) (pindexPrev : IndexPointer)
    (queried : pindexPrev ∈ tree.blocks) (tip : pindexPrev ≠ []) (delta : Nat)
    (waits : params.BIP102HeightDelta = delta) : SeasonedOnTime params cache pindexPrev ↔
      if delta = 0 then ¬ SegwitActive params cache pindexPrev 0
      else ¬ (SegwitActive params cache pindexPrev (delta - 1) ∧ ¬ SegwitActive params cache pindexPrev delta) := by
  have chain := tree.ok pindexPrev queried
  obtain ⟨right, filledRight, ok⟩ := cacheAfter_ok positive fun call member => tree.ok call (called call member)
  rw [filled, Option.some.injEq] at filledRight
  rw [← filledRight] at ok
  obtain ⟨fSeasoned, later, seasoned, isSeasoned⟩ := isWitnessSeasoned_eq positive ok chain tip waits
  have onTime : SeasonedOnTime params cache pindexPrev ↔
      (fSeasoned = true ↔ SegwitActive params cache pindexPrev delta) ∧
      (delta = 0 → ∀ enabledCache, isWitnessEnabled params pindexPrev cache = some (true, enabledCache) →
        maxBlockBaseSize fSeasoned = maxBaseBlockSize ∧ maxBlockWeight fSeasoned = 4 * maxBaseBlockSize ∧
          maxBlockSigOpsCost fSeasoned = 320000) := by
    rw [SeasonedOnTime, waits, seasoned, Int.natCast_eq_zero]
    constructor
    · rintro ⟨_, _, same, rest⟩
      cases same
      exact rest
    · exact fun rest => ⟨fSeasoned, later, rfl, rest⟩
  rw [onTime, isSeasoned]
  split
  · rename_i zero
    rw [zero]
    constructor
    · rintro ⟨exact, -⟩ active
      exact (exact.mpr active).1 rfl
    · intro inactive
      refine ⟨iff_of_false (fun both => both.1 rfl) inactive, fun _ enabledCache enabled => ?_⟩
      exact absurd (segwitActive_of_enabled enabled) inactive
  · rename_i nonzero
    obtain ⟨earlier, rfl⟩ := exists_eq_succ_of_ne_zero nonzero
    constructor
    · rintro ⟨exact, -⟩ ⟨active, inactive⟩
      exact inactive (exact.mp ⟨nonzero, active⟩)
    · intro steady
      refine ⟨⟨fun both => by_contra fun inactive => steady ⟨both.2, inactive⟩, fun active => ?_⟩, fun zero => absurd zero nonzero⟩
      exact ⟨nonzero, segwitActive_mono positive ok chain active⟩

/-- Periods of one block, as every network sets them, and a signal on the lowest bit. -/
def signalParams (delta : Nat) : DeploymentParams := ⟨9576, 10080, delta, ⟨0, 50, 1000, 1, 1⟩⟩

theorem seasonedOnTime_waiting : SeasonedOnTime (signalParams 1) (fun _ => none) (minuteChain.drop 1) := by
  refine (seasonedOnTime_iff (signalParams 1) (by decide) minuteTree [] (forall_mem_nil _) _ rfl
    (minuteChain.drop 1) (show ChainOk _ by decide) (by decide) 1 rfl).mpr ?_
  rintro ⟨⟨-, later, active⟩, -⟩
  cases congrArg (Option.map fst) active

/-- The deployment is active for the block on top of the chain. Without a waiting period the limits are not enlarged, and
with a waiting period of one block they are enlarged a block too early. -/
theorem seasonedOnTime_fails : ChainOk minuteChain ∧
      (isWitnessEnabled (signalParams 0) minuteChain fun _ => none).map fst = some true ∧
      (isWitnessSeasoned (signalParams 0) minuteChain fun _ => none).map fst = some false ∧
      maxBlockBaseSize false = maxLegacyBlockSize ∧
      (isWitnessSeasoned (signalParams 1) minuteChain fun _ => none).map fst = some true ∧
      ¬ SegwitActive (signalParams 1) (fun _ => none) minuteChain 1 := by
  refine ⟨by decide, by decide, by decide, rfl, by decide, ?_⟩
  rintro ⟨-, later, active⟩
  cases congrArg (Option.map fst) active

end Straks.VersionBits
