import Straks.Construction.Chain.VersionBits
import Straks.Library.OrderStatistic
import Mathlib.Tactic.Ring

namespace Straks.VersionBits
open OrderStatistic List Chain Nat

/-- Heights count from zero, and every header is later than its ancestors' median. -/
def ChainOk : IndexPointer → Prop
  | [] => True
  | block :: older =>
    block.nHeight = older.length ∧ (older ≠ [] → timeTooOld block.getBlockTime (older.map (·.toCBlockIndex)) = false) ∧
      ChainOk older

instance decidableChainOk : (pindex : IndexPointer) → Decidable (ChainOk pindex)
  | [] => .isTrue trivial
  | _ :: older =>
    have := decidableChainOk older
    inferInstanceAs (Decidable (_ ∧ _ ∧ _))

/-- A tree of blocks: forks share older blocks, and every entry follows the rules. -/
structure BlockTree where
  blocks : Set IndexPointer
  ok : ∀ pindex ∈ blocks, ChainOk pindex

namespace ChainOk

variable {pindex : IndexPointer} (ok : ChainOk pindex)
include ok

theorem drop (count : Nat) : ChainOk (pindex.drop count) := by
  induction count generalizing pindex with
  | zero => exact ok
  | succ count ih =>
    cases pindex with
    | nil => trivial
    | cons block older => exact ih ok.2.2

theorem dropWhile_eq {keep : Nat} (inside : keep ≤ pindex.length) :
    pindex.dropWhile (fun ancestor => (keep : Int) - 1 < ancestor.nHeight) = pindex.drop (pindex.length - keep) := by
  induction pindex with
  | nil => rw [drop_nil, dropWhile_nil]
  | cons block older ih =>
    have height := ok.1
    rw [length_cons] at inside ⊢
    by_cases lower : keep ≤ older.length
    · rw [dropWhile_cons_of_pos (by rw [decide_eq_true_iff]; omega), ih ok.2.2 lower,
        Nat.sub_add_comm lower, drop_succ_cons]
    · rw [dropWhile_cons_of_neg (by rw [decide_eq_true_iff]; omega), Nat.sub_eq_zero_of_le (by omega),
        drop_zero]

/-- Going back to a height drops the blocks above it; below the first there is none. -/
theorem getAncestor_eq (count : Nat) :
    getAncestor pindex ((pindex.length : Int) - 1 - count) = pindex.drop count := by
  cases pindex with
  | nil => rw [drop_nil]; rfl
  | cons block older =>
    have height := ok.1
    rw [getAncestor]
    by_cases inside : count < (block :: older).length
    · have kept : ((block :: older).length : Int) - 1 - count = ((block :: older).length - count : Nat) - 1 := by omega
      rw [if_neg (by rw [length_cons] at inside ⊢; omega), kept, ok.dropWhile_eq (Nat.sub_le _ _),
        Nat.sub_sub_self inside.le]
    · rw [if_pos (by omega), drop_eq_nil_of_le (Nat.le_of_not_lt inside)]

end ChainOk

/-- The times of the last eleven blocks, or of all. -/
def recentTimes (pindex : IndexPointer) : List Int := (pindex.take nMedianTimeSpan).map (·.getBlockTime)

/-- A bound is at most the median exactly when at most half of the times are below. -/
theorem le_getMedianTimePast_iff {pindex : IndexPointer} (some : pindex ≠ []) (bound : Int) :
    bound ≤ getMedianTimePast pindex ↔ (recentTimes pindex).countP (· < bound) ≤ (recentTimes pindex).length / 2 := by
  have times : ((pindex.map VersionIndex.toCBlockIndex).take Chain.nMedianTimeSpan).map Chain.CBlockIndex.getBlockTime =
      recentTimes pindex := by
    rw [← map_take, map_map]
    rfl
  have positive : 0 < (recentTimes pindex).length := by
    rw [recentTimes, length_map, length_take]
    have length := length_pos_iff.mpr some
    have span : 0 < Chain.nMedianTimeSpan := by decide
    omega
  rw [getMedianTimePast, Chain.getMedianTimePast, times, length_insertionSort]
  exact le_getD_insertionSort_iff (div_lt_self positive one_lt_two) bound 0

/-- The median time past does not decrease: the oldest gives way to one above it. -/
theorem getMedianTimePast_le {block : VersionIndex} {older : IndexPointer} (some : older ≠ [])
    (rule : timeTooOld block.getBlockTime (older.map (·.toCBlockIndex)) = false) :
    getMedianTimePast older ≤ getMedianTimePast (block :: older) := by
  have later : getMedianTimePast older < block.getBlockTime := by
    rw [timeTooOld, decide_eq_false_iff_not, not_le] at rule
    exact rule
  have below := (le_getMedianTimePast_iff some (getMedianTimePast older)).mp le_rfl
  rw [le_getMedianTimePast_iff (cons_ne_nil block older)]
  have newer : recentTimes (block :: older) =
      block.getBlockTime :: (older.take (nMedianTimeSpan - 1)).map (·.getBlockTime) := rfl
  rw [newer, countP_cons_of_neg (by rw [decide_eq_true_iff]; omega), length_cons]
  have fewer : ((older.take (nMedianTimeSpan - 1)).map (·.getBlockTime)).Sublist (recentTimes older) :=
    ((take_sublist_take_left (sub_le _ _))).map _
  have counted := fewer.countP_le (p := fun time => decide (time < getMedianTimePast older))
  have shorter : (recentTimes older).length ≤
      ((older.take (nMedianTimeSpan - 1)).map (·.getBlockTime)).length + 1 := by
    rw [recentTimes, length_map, length_map, length_take, length_take]
    omega
  omega

theorem ChainOk.getMedianTimePast_drop_le {pindex : IndexPointer} (ok : ChainOk pindex) {count : Nat}
    (inside : count < pindex.length) : getMedianTimePast (pindex.drop count) ≤ getMedianTimePast pindex := by
  induction count generalizing pindex with
  | zero => exact le_rfl
  | succ count ih =>
    cases pindex with
    | nil => exact absurd inside (not_lt_zero _)
    | cons block older =>
      have lower := lt_of_succ_lt_succ inside
      have some : older ≠ [] := ne_nil_of_length_pos (zero_lt_of_lt lower)
      exact (ih ok.2.2 lower).trans (getMedianTimePast_le some (ok.2.1 some))

/-- Each block but the first satisfies the timestamp rule of `ContextualCheckBlockHeader`. -/
def Timestamped : IndexPointer → Prop
  | [] => True
  | block :: older =>
    (older ≠ [] → timeTooOld block.getBlockTime (older.map (·.toCBlockIndex)) = false) ∧ Timestamped older

theorem Timestamped.suffix {chain part : IndexPointer} (timestamped : Timestamped chain) (inside : part <:+ chain) :
    Timestamped part := by
  induction chain with
  | nil => exact suffix_nil.mp inside ▸ timestamped
  | cons block older ih =>
    rcases suffix_cons_iff.mp inside with whole | below
    · exact whole ▸ timestamped
    · exact ih timestamped.2 below

/-- Along every chain of timestamped blocks, however short, no child has a lower median time past than its parent. -/
theorem getMedianTimePast_monotone (chain : IndexPointer) (timestamped : Timestamped chain)
    (child parent : VersionIndex) (older : IndexPointer) (inside : child :: parent :: older <:+ chain) :
    getMedianTimePast (parent :: older) ≤ getMedianTimePast (child :: parent :: older) :=
  getMedianTimePast_le (cons_ne_nil _ _) ((timestamped.suffix inside).1 (cons_ne_nil _ _))

def stamped (nTime : UInt32) : VersionIndex := ⟨⟨0, nTime, 0, 0⟩, 0⟩

/-- The newest stamp is between the median and another stamp. -/
theorem getMedianTimePast_monotone_stamps : getMedianTimePast [stamped 20, stamped 10, stamped 5] = 10 ∧
    getMedianTimePast [stamped 20, stamped 10, stamped 5] ≤
      getMedianTimePast [stamped 11, stamped 20, stamped 10, stamped 5] :=
  ⟨by decide, getMedianTimePast_monotone [stamped 11, stamped 20, stamped 10, stamped 5]
    ⟨fun _ => by decide, fun _ => by decide, fun _ => by decide, fun none => absurd rfl none, trivial⟩ _ _ _
    (suffix_refl _)⟩

section Checker

variable (checker : ThresholdConditionChecker)

/-- The number of blocks of a period. -/
def span : Nat := checker.period.toNat

/-- The plain recursion over periods: a state follows from the state and last block of the period before. -/
def bip9State : Nat → IndexPointer → ThresholdState
  | 0, _ => .defined
  | period + 1, pindexPrev => nextState checker (bip9State period (pindexPrev.drop (span checker))) pindexPrev

variable (pindex : IndexPointer)

/-- The state of a period on a block's chain, from zero. -/
def periodState (period : Nat) : ThresholdState :=
  bip9State checker period (pindex.drop (pindex.length - period * span checker))

/-- The state of the block after `pindexPrev`. -/
def plainState (pindexPrev : IndexPointer) : ThresholdState :=
  periodState checker pindexPrev (pindexPrev.length / span checker)

/-- The same recursion with the early exit of the code. -/
def exitState : Nat → IndexPointer → ThresholdState
  | 0, _ => .defined
  | period + 1, pindexPrev =>
    if getMedianTimePast pindexPrev < checker.beginTime then .defined
    else nextState checker (exitState period (pindexPrev.drop (span checker))) pindexPrev

/-- The last block of a number of periods, or null. -/
structure Boundary : Prop where
  ok : ChainOk pindex
  whole : span checker ∣ pindex.length

/-- The state the code computes after a boundary. -/
def codeState : ThresholdState := exitState checker (pindex.length / span checker) pindex

/-- Every cached state belongs to a boundary and is right. -/
def CacheOk (cache : ThresholdConditionCache) : Prop :=
  ∀ pindex state, cache pindex = some state → Boundary checker pindex ∧ state = codeState checker pindex

variable {checker} {cache : ThresholdConditionCache} {pindex : IndexPointer} {state : ThresholdState}

theorem span_pos (positive : 0 < checker.period) : 0 < span checker := by
  rw [span]
  omega

theorem CacheOk.insert (ok : CacheOk checker cache) (boundary : Boundary checker pindex)
    (same : state = codeState checker pindex) : CacheOk checker (cache.insert pindex state) := by
  intro other cached found
  rw [ThresholdConditionCache.insert] at found
  split at found
  · rename_i here
    cases found
    rw [here]
    exact ⟨boundary, same⟩
  · exact ok other cached found

theorem Boundary.drop (boundary : Boundary checker pindex) : Boundary checker (pindex.drop (span checker)) := by
  refine ⟨boundary.ok.drop _, ?_⟩
  rw [length_drop]
  exact dvd_sub boundary.whole (dvd_refl _)

theorem codeState_nil : codeState checker [] = .defined := by
  rw [codeState, length_nil, Nat.zero_div]
  rfl

/-- The recursion of the code, from one boundary to the next. -/
theorem Boundary.codeState_eq (boundary : Boundary checker pindex) (positive : 0 < checker.period)
    (some : pindex ≠ []) : codeState checker pindex = if getMedianTimePast pindex < checker.beginTime then .defined
      else nextState checker (codeState checker (pindex.drop (span checker))) pindex := by
  obtain ⟨periods, length⟩ := boundary.whole
  have width := span_pos positive
  cases periods with
  | zero => exact absurd (length_eq_zero_iff.mp length) some
  | succ periods =>
    have count : pindex.length / span checker = periods + 1 := by rw [length, Nat.mul_div_cancel_left _ width]
    have below : (pindex.drop (span checker)).length / span checker = periods := by
      rw [length_drop, length, Nat.mul_succ, Nat.add_sub_cancel, Nat.mul_div_cancel_left _ width]
    rw [codeState, codeState, count, below, exitState]

/-- Each stacked entry is a boundary past the start time, above the boundary before. -/
def Stacked (checker : ThresholdConditionChecker) : IndexPointer → List IndexPointer → Prop
  | _, [] => True
  | below, pindex :: above =>
    (Boundary checker pindex ∧ pindex ≠ [] ∧ ¬ getMedianTimePast pindex < checker.beginTime ∧
      pindex.drop (span checker) = below) ∧ Stacked checker pindex above

section

variable (positive : 0 < checker.period)
include positive

variable {vToCompute calls : List IndexPointer}

theorem walkForward_ok {below : IndexPointer} (ok : CacheOk checker cache) (stacked : Stacked checker below vToCompute)
    (same : state = codeState checker below) : CacheOk checker (walkForward checker cache state vToCompute).2 ∧
      (walkForward checker cache state vToCompute).1 =
        codeState checker ((below :: vToCompute).getLast (cons_ne_nil _ _)) := by
  induction vToCompute generalizing cache state below with
  | nil => exact ⟨ok, same⟩
  | cons pindex above ih =>
    obtain ⟨⟨boundary, some, past, under⟩, rest⟩ := stacked
    have next : nextState checker state pindex = codeState checker pindex := by
      rw [boundary.codeState_eq positive some, if_neg past, under, same]
    exact ih (ok.insert boundary next) rest next

/-- A period below a boundary is the boundary before. -/
theorem Boundary.getAncestor_period {block : VersionIndex} {older : IndexPointer}
    (boundary : Boundary checker (block :: older)) :
    getAncestor (block :: older) (block.nHeight - checker.period) = (block :: older).drop (span checker) := by
  rw [← boundary.ok.getAncestor_eq, span, Int.toNat_of_nonneg positive.le, boundary.ok.1, length_cons]
  congr 1
  push_cast
  ring

theorem walkBackward_ok (ok : CacheOk checker cache) (boundary : Boundary checker pindex)
    (stacked : Stacked checker pindex vToCompute) {fuel : Nat} (enough : pindex.length < fuel) :
    ∃ later known above, walkBackward checker fuel cache pindex vToCompute = some (later, known, above) ∧
      CacheOk checker later ∧ later known = some (codeState checker known) ∧ Stacked checker known above ∧
      (known :: above).getLast (cons_ne_nil _ _) = (pindex :: vToCompute).getLast (cons_ne_nil _ _) := by
  induction fuel generalizing pindex vToCompute with
  | zero => exact absurd enough (not_lt_zero _)
  | succ fuel ih =>
    unfold walkBackward
    split
    · rename_i cached
      obtain ⟨state, found⟩ := Option.isSome_iff_exists.mp cached
      refine ⟨cache, pindex, vToCompute, rfl, ok, ?_, stacked, rfl⟩
      rw [found, (ok pindex state found).2]
    · cases pindex with
      | nil =>
        refine ⟨_, _, _, rfl, ok.insert boundary codeState_nil.symm, ?_, stacked, rfl⟩
        rw [ThresholdConditionCache.insert, if_pos rfl, codeState_nil]
      | cons block older =>
        have some : block :: older ≠ [] := cons_ne_nil block older
        dsimp only
        split
        · rename_i early
          have early' : codeState checker (block :: older) = .defined := by
            rw [boundary.codeState_eq positive some, if_pos early]
          refine ⟨_, _, _, rfl, ok.insert boundary early'.symm, ?_, stacked, rfl⟩
          rw [ThresholdConditionCache.insert, if_pos rfl, early']
        · rename_i past
          rw [boundary.getAncestor_period positive]
          have shorter : ((block :: older).drop (span checker)).length < fuel := by
            have width := span_pos positive
            rw [length_drop, length_cons] at *
            omega
          -- the entry goes on the stack, above the boundary that the walk looks at next
          have pushed : Stacked checker ((block :: older).drop (span checker)) ((block :: older) :: vToCompute) :=
            ⟨⟨boundary, some, past, rfl⟩, stacked⟩
          obtain ⟨later, known, above, walked, laterOk, found, rest, last⟩ := ih boundary.drop pushed shorter
          refine ⟨later, known, above, walked, laterOk, found, rest, ?_⟩
          rw [last, getLast_cons (cons_ne_nil _ _)]

/-- Dropping the unfinished period gives the starting boundary. -/
theorem ChainOk.periodParent_eq (ok : ChainOk pindex) :
    periodParent checker pindex = pindex.drop (pindex.length % span checker) := by
  cases pindex with
  | nil => rw [drop_nil]; rfl
  | cons block older =>
    rw [periodParent, ← ok.getAncestor_eq, ok.1, length_cons, span]
    congr 1
    push_cast
    rw [Int.toNat_of_nonneg positive.le]
    ring

theorem ChainOk.boundary_periodParent (ok : ChainOk pindex) : Boundary checker (periodParent checker pindex) := by
  rw [ok.periodParent_eq positive]
  refine ⟨ok.drop _, ?_⟩
  rw [length_drop]
  exact dvd_sub_mod _

/-- Whatever the cache holds, the code computes its recursion and keeps it right. -/
theorem getStateFor_ok (ok : CacheOk checker cache) (chain : ChainOk pindex) :
    ∃ later, getStateFor checker pindex cache = some (codeState checker (periodParent checker pindex), later) ∧
      CacheOk checker later := by
  have boundary := chain.boundary_periodParent positive
  obtain ⟨middle, known, above, walked, middleOk, found, stacked, last⟩ :=
    walkBackward_ok positive ok boundary (show Stacked checker _ [] from trivial) (lt_succ_self _)
  obtain ⟨laterOk, state⟩ := walkForward_ok positive middleOk stacked rfl
  refine ⟨_, ?_, laterOk⟩
  rw [getStateFor, walked]
  simp only [Option.bind_eq_bind, Option.bind_some, found]
  rw [getLast_singleton] at last
  rw [← last, ← state]
  rfl

theorem foldlM_cacheOk (ok : CacheOk checker cache) {calls : List IndexPointer} (chains : ∀ call ∈ calls, ChainOk call)
    : ∃ later, calls.foldlM (fun cache pindexPrev => (getStateFor checker pindexPrev cache).map Prod.snd) cache =
      some later ∧ CacheOk checker later := by
  induction calls generalizing cache with
  | nil => exact ⟨cache, rfl, ok⟩
  | cons call rest ih =>
    rw [forall_mem_cons] at chains
    obtain ⟨middle, called, middleOk⟩ := getStateFor_ok positive ok chains.1
    rw [foldlM_cons, called]
    exact ih middleOk chains.2

/-- Every sequence of calls ends with a right cache. -/
theorem cacheAfter_ok (chains : ∀ call ∈ calls, ChainOk call) :
    ∃ later, cacheAfter checker calls = some later ∧ CacheOk checker later :=
  foldlM_cacheOk positive (fun _ _ found => by cases found) chains

end

variable {period : Nat}

/-- Before the start time the recursion is in its first state. -/
theorem bip9State_defined (ordered : checker.beginTime ≤ checker.endTime) (chain : ChainOk pindex)
    (length : pindex.length = period * span checker) (early : getMedianTimePast pindex < checker.beginTime) :
    bip9State checker period pindex = .defined := by
  induction period generalizing pindex with
  | zero => rfl
  | succ period ih =>
    have shorter : (pindex.drop (span checker)).length = period * span checker := by
      rw [length_drop, length, Nat.succ_mul, Nat.add_sub_cancel]
    have before : bip9State checker period (pindex.drop (span checker)) = .defined := by
      cases period with
      | zero => rfl
      | succ period =>
        by_cases empty : span checker = 0
        · apply ih (chain.drop _) shorter
          rw [empty]
          exact early
        · apply ih (chain.drop _) shorter
          refine lt_of_le_of_lt (chain.getMedianTimePast_drop_le ?_) early
          rw [length, Nat.succ_mul, Nat.succ_mul]
          omega
    rw [bip9State, before, nextState, if_neg (by omega), if_neg (by omega)]

/-- The early exit changes nothing if a start precedes its timeout. -/
theorem exitState_eq (ordered : checker.beginTime ≤ checker.endTime) (chain : ChainOk pindex)
    (length : pindex.length = period * span checker) :
    exitState checker period pindex = bip9State checker period pindex := by
  induction period generalizing pindex with
  | zero => rfl
  | succ period ih =>
    have shorter : (pindex.drop (span checker)).length = period * span checker := by
      rw [length_drop, length, Nat.succ_mul, Nat.add_sub_cancel]
    rw [exitState]
    split
    · rename_i early
      exact (bip9State_defined ordered chain length early).symm
    · rw [ih (chain.drop _) shorter, bip9State]

section Periods

variable (checker)

/-- The last block before a period of the chain. -/
def parentOf (pindex : IndexPointer) (period : Nat) : IndexPointer :=
  pindex.drop (pindex.length - period * span checker)

variable {checker} {period : Nat}

theorem length_parentOf (inside : period * span checker ≤ pindex.length) :
    (parentOf checker pindex period).length = period * span checker := by
  rw [parentOf, length_drop]
  omega

theorem ChainOk.boundary_parentOf (chain : ChainOk pindex) (inside : period * span checker ≤ pindex.length) :
    Boundary checker (parentOf checker pindex period) :=
  ⟨chain.drop _, length_parentOf inside ▸ dvd_mul_left _ _⟩

theorem drop_parentOf (inside : (period + 1) * span checker ≤ pindex.length) :
    (parentOf checker pindex (period + 1)).drop (span checker) = parentOf checker pindex period := by
  rw [parentOf, drop_drop]
  rw [succ_mul] at inside ⊢
  congr 1
  omega

theorem ChainOk.codeState_parentOf (chain : ChainOk pindex) (positive : 0 < checker.period)
    (ordered : checker.beginTime ≤ checker.endTime) (inside : period * span checker ≤ pindex.length) :
    codeState checker (parentOf checker pindex period) = periodState checker pindex period := by
  have width := span_pos positive
  have boundary := chain.boundary_parentOf inside
  rw [codeState, exitState_eq ordered boundary.ok (Nat.div_mul_cancel boundary.whole).symm, length_parentOf inside,
    Nat.mul_div_cancel _ width]
  rfl

theorem ChainOk.periodParent_eq_parentOf (chain : ChainOk pindex) (positive : 0 < checker.period) :
    periodParent checker pindex = parentOf checker pindex (pindex.length / span checker) := by
  rw [chain.periodParent_eq positive]
  congr 1
  have split := div_add_mod' pindex.length (span checker)
  omega

end Periods

/-- The height is the first of the run of periods in the next block's state. -/
def RunStart (checker : ThresholdConditionChecker) (pindex : IndexPointer) (height : Int) : Prop :=
  ∃ first ≤ pindex.length / span checker, height = (first * span checker : Nat) ∧
    (∀ period, first ≤ period → period ≤ pindex.length / span checker →
      periodState checker pindex period = plainState checker pindex) ∧
    (first = 0 ∨ periodState checker pindex (first - 1) ≠ plainState checker pindex)

theorem nextState_eq_defined {earlier : ThresholdState} (stays : nextState checker earlier pindex = .defined) :
    earlier = .defined := by
  cases earlier with
  | defined => rfl
  | started =>
    rw [nextState] at stays
    split_ifs at stays
  | lockedIn => cases stays
  | active => cases stays
  | failed => cases stays

/-- No period returns to the first state. -/
theorem periodState_defined (inside : period * span checker ≤ pindex.length)
    (now : periodState checker pindex period = .defined) {earlier : Nat} (before : earlier ≤ period) :
    periodState checker pindex earlier = .defined := by
  induction period with
  | zero =>
    rw [le_zero.mp before]
    rfl
  | succ period ih =>
    rcases lt_or_eq_of_le before with lower | same
    · have lastBefore : bip9State checker period ((parentOf checker pindex (period + 1)).drop (span checker)) =
          .defined := nextState_eq_defined now
      rw [drop_parentOf inside] at lastBefore
      have fewer : period * span checker ≤ pindex.length := (mul_le_mul_right _ (le_succ period)).trans inside
      exact ih fewer lastBefore (le_of_lt_succ lower)
    · rw [same]
      exact now

theorem Boundary.periodParent_eq (boundary : Boundary checker pindex) (positive : 0 < checker.period) :
    periodParent checker pindex = pindex := by
  rw [boundary.ok.periodParent_eq positive, mod_eq_zero_of_dvd boundary.whole, drop_zero]

/-- One turn of the walk ends before the second period, or looks at the one before. -/
theorem walkSince_step (positive : 0 < checker.period) (chain : ChainOk pindex) (initialState : ThresholdState)
    (inside : (period + 1) * span checker ≤ pindex.length) (fuel : Nat) :
    walkSince checker initialState (fuel + 1) (parentOf checker pindex (period + 1)) cache =
      if parentOf checker pindex period = [] then some ((((period + 1) * span checker : Nat) : Int), cache)
      else (getStateFor checker (parentOf checker pindex period) cache).bind fun result =>
        if result.1 = initialState then walkSince checker initialState fuel (parentOf checker pindex period) result.2
        else some ((((period + 1) * span checker : Nat) : Int), result.2) := by
  have width := span_pos positive
  have boundary := chain.boundary_parentOf inside
  have below := drop_parentOf inside
  have length := length_parentOf inside
  cases parent : parentOf checker pindex (period + 1) with
  | nil =>
    rw [parent, length_nil, succ_mul] at length
    omega
  | cons block older =>
    rw [parent] at boundary below length
    have height : block.nHeight + 1 = ((period + 1) * span checker : Nat) := by
      rw [← length, boundary.ok.1]
      rfl
    conv_lhs => unfold walkSince
    rw [boundary.getAncestor_period positive, below, height]
    rfl

/-- The walk over the periods stops at the first. -/
theorem walkSince_ok (positive : 0 < checker.period) (ordered : checker.beginTime ≤ checker.endTime)
    (chain : ChainOk pindex) (left : plainState checker pindex ≠ .defined) (ok : CacheOk checker cache) {period fuel : Nat}
    (enough : period < fuel) (inside : period + 1 ≤ pindex.length / span checker)
    (same : ∀ later, period + 1 ≤ later → later ≤ pindex.length / span checker →
      periodState checker pindex later = plainState checker pindex) :
    ∃ height later, walkSince checker (plainState checker pindex) fuel (parentOf checker pindex (period + 1)) cache =
      some (height, later) ∧ RunStart checker pindex height := by
  induction fuel generalizing cache period with
  | zero => exact absurd enough (not_lt_zero _)
  | succ fuel ih =>
    have whole : (period + 1) * span checker ≤ pindex.length :=
      (mul_le_mul_right _ inside).trans (div_mul_le_self _ _)
    rw [walkSince_step positive chain _ whole]
    cases period with
    | zero =>
      have first : parentOf checker pindex 0 = [] := by
        rw [← length_eq_zero_iff, length_parentOf (by omega), zero_mul]
      rw [if_pos first]
      exact ⟨_, cache, rfl, 1, inside, rfl, same, .inr left.symm⟩
    | succ period =>
      have fewer : (period + 1) * span checker ≤ pindex.length := (mul_le_mul_right _ (le_succ _)).trans whole
      have boundary := chain.boundary_parentOf fewer
      have later : parentOf checker pindex (period + 1) ≠ [] := by
        rw [← length_pos_iff, length_parentOf fewer]
        exact mul_pos (succ_pos period) (span_pos positive)
      obtain ⟨cached, state, cachedOk⟩ := getStateFor_ok positive ok boundary.ok
      rw [boundary.periodParent_eq positive, chain.codeState_parentOf positive ordered fewer] at state
      rw [if_neg later, state]
      dsimp only [Option.bind_some]
      split
      · rename_i continues
        refine ih cachedOk (lt_of_succ_lt_succ enough) ((le_succ _).trans inside) ?_
        intro other atLeast atMost
        rcases lt_or_eq_of_le atLeast with above | here
        · exact same other above atMost
        · rw [← here]
          exact continues
      · rename_i stops
        exact ⟨_, cached, rfl, period + 1 + 1, inside, rfl, same, .inr stops⟩

end Checker

/-- On a tree that follows the median-time rule, for a deployment with a positive period that starts no later than its
timeout, and whatever the cache holds, the state is that of the plain recursion and the height is the first of its run
of periods. -/
theorem getStateFor_refines (checker : ThresholdConditionChecker) (positive : 0 < checker.period)
    (ordered : checker.beginTime ≤ checker.endTime) (tree : BlockTree) (calls : List IndexPointer)
    (called : ∀ call ∈ calls, call ∈ tree.blocks) (pindexPrev : IndexPointer) (queried : pindexPrev ∈ tree.blocks) :
    ∃ cache, cacheAfter checker calls = some cache ∧
      (∃ later, getStateFor checker pindexPrev cache = some (plainState checker pindexPrev, later)) ∧
      ∃ height later, getStateSinceHeightFor checker pindexPrev cache = some (height, later) ∧
        RunStart checker pindexPrev height := by
  have chain := tree.ok pindexPrev queried
  have whole := div_mul_le_self pindexPrev.length (span checker)
  obtain ⟨cache, filled, ok⟩ := cacheAfter_ok positive fun call member => tree.ok call (called call member)
  obtain ⟨later, state, laterOk⟩ := getStateFor_ok positive ok chain
  rw [chain.periodParent_eq_parentOf positive, chain.codeState_parentOf positive ordered whole] at state
  refine ⟨cache, filled, ⟨later, state⟩, ?_⟩
  have since : getStateSinceHeightFor checker pindexPrev cache =
      if plainState checker pindexPrev = .defined then some (0, later)
      else walkSince checker (plainState checker pindexPrev) (pindexPrev.length + 1) (periodParent checker pindexPrev)
        later := by
    rw [getStateSinceHeightFor, state]
    rfl
  rw [since]
  split
  · rename_i first
    refine ⟨0, later, rfl, 0, zero_le _, by rw [zero_mul]; rfl, ?_, .inl rfl⟩
    intro period _ atMost
    rw [first]
    exact periodState_defined whole first atMost
  · rename_i left
    rw [chain.periodParent_eq_parentOf positive]
    cases periods : pindexPrev.length / span checker with
    | zero =>
      rw [plainState, periods] at left
      exact absurd rfl left
    | succ period =>
      have enough : period < pindexPrev.length + 1 := by
        have atMost := div_le_self pindexPrev.length (span checker)
        omega
      refine walkSince_ok positive ordered chain left laterOk enough periods.ge ?_
      intro other atLeast atMost
      have same : other = pindexPrev.length / span checker := by omega
      rw [same]
      rfl

/-- Three blocks a minute apart. -/
def minuteChain : IndexPointer :=
  [⟨⟨2, 220, 1, 3⟩, 0x20000001⟩, ⟨⟨1, 160, 1, 2⟩, 0x20000001⟩, ⟨⟨0, 100, 1, 1⟩, 0x20000001⟩]

def minuteTree : BlockTree where
  blocks := { pindex | ChainOk pindex }
  ok := fun _ member => member

/-- Periods of one block, which always signals. -/
def eagerChecker (beginTime endTime : Int) : ThresholdConditionChecker := ⟨fun _ => true, beginTime, endTime, 1, 1⟩

theorem getStateFor_refines_minute : ∃ cache, cacheAfter (eagerChecker 50 1000) [minuteChain.drop 1] = some cache ∧
      (∃ later, getStateFor (eagerChecker 50 1000) minuteChain cache = some (.active, later)) ∧
      ∃ height later, getStateSinceHeightFor (eagerChecker 50 1000) minuteChain cache = some (height, later) ∧
        RunStart (eagerChecker 50 1000) minuteChain height := by
  have chain : ChainOk minuteChain := by decide
  exact getStateFor_refines (eagerChecker 50 1000) (by decide) (by decide) minuteTree [minuteChain.drop 1]
    (forall_mem_singleton.mpr (chain.drop 1)) minuteChain chain

/-- With a start after the timeout the early exit hides the failure. -/
theorem getStateFor_hides_timeout : ChainOk (minuteChain.drop 2) ∧ 0 < (eagerChecker 150 80).period ∧
      (getStateFor (eagerChecker 150 80) (minuteChain.drop 2) fun _ => none).map Prod.fst = some .defined ∧
      plainState (eagerChecker 150 80) (minuteChain.drop 2) = .failed := by
  refine ⟨by decide, by decide, ?_, ?_⟩ <;> decide

end Straks.VersionBits
