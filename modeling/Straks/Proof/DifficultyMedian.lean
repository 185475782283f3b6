import Straks.Construction.Chain.Pow
import Straks.Library.Success
import Mathlib.Tactic

namespace Straks.Chain

open List CBlockIndex

theorem lt_two_pow_bits (value : Nat) : value < 2 ^ bits value := by
  unfold bits
  split
  next zero => simp [zero]
  next => exact Nat.lt_log2_self

theorem bits_le {value width : Nat} (fits : value < 2 ^ width) : bits value ≤ width := by
  unfold bits
  split
  next => exact Nat.zero_le _
  next nonzero => exact (Nat.log2_lt nonzero).mpr fits

/-- The mantissa of a number has at most three bytes. -/
theorem mantissa_lt (value nSize : Nat) (fits : value < 256 ^ nSize) :
    (if nSize ≤ 3 then value * 256 ^ (3 - nSize) else value / 256 ^ (nSize - 3)) < 2 ^ 24 := by
  have bytes : (2 : Nat) ^ 24 = 256 ^ 3 := by norm_num
  rw [bytes]
  split
  next small =>
    have whole : 256 ^ nSize * 256 ^ (3 - nSize) = 256 ^ 3 := by
      rw [← pow_add, Nat.add_sub_cancel' small]
    rw [← whole]
    exact Nat.mul_lt_mul_of_pos_right fits (Nat.pow_pos (by decide))
  next large =>
    rw [Nat.div_lt_iff_lt_mul (Nat.pow_pos (by decide)), ← pow_add]
    rwa [Nat.add_sub_cancel' (by omega)]

theorem normalizeCompact_bounds (nCompact nSize : Nat) (mantissa : nCompact < 2 ^ 24) (size : nSize < 255) :
    (normalizeCompact nCompact nSize).1 < 2 ^ 23 ∧ (normalizeCompact nCompact nSize).2 < 256 := by
  unfold normalizeCompact
  split <;> constructor <;> simp only <;> omega

/-- The assertions of the compact form never fail. -/
theorem getCompact_ok (value : Uint256) : ∃ nCompact, getCompact value = .ok nCompact := by
  have bounded : bits value.toNat ≤ 256 := bits_le value.isLt
  have fits : value.toNat < 256 ^ ((bits value.toNat + 7) / 8) := by
    calc value.toNat < 2 ^ bits value.toNat := lt_two_pow_bits _
      _ ≤ 2 ^ (8 * ((bits value.toNat + 7) / 8)) := Nat.pow_le_pow_right (by decide) (by omega)
      _ = 256 ^ ((bits value.toNat + 7) / 8) := by rw [pow_mul]; norm_num
  have mantissa := mantissa_lt _ _ fits
  have normal := normalizeCompact_bounds _ ((bits value.toNat + 7) / 8)
    (lt_of_le_of_lt (Nat.mod_le _ (2 ^ 32)) mantissa) (by omega)
  unfold getCompact
  rw [if_neg (by omega)]
  exact ⟨_, rfl⟩

/-- The chosen block is one of the three. -/
theorem sortingNetwork_mem (block0 block1 block2 : CBlockIndex) :
    sortingNetwork block0 block1 block2 ∈ [block2, block1, block0] := by
  unfold sortingNetwork
  simp only [mem_cons, not_mem_nil, or_false]
  split_ifs <;> simp

/-- A time is below the chosen stamp iff below two of the three. -/
theorem lt_sortingNetwork_iff (time : UInt32) (block0 block1 block2 : CBlockIndex) :
    time < (sortingNetwork block0 block1 block2).nTime ↔
      2 ≤ ([block2, block1, block0].map nTime).countP (time < ·) := by
  unfold sortingNetwork
  simp only [UInt32.lt_iff_toNat_lt, map_cons, map_nil, countP_cons, countP_nil, gt_iff_lt]
  split_ifs <;> simp_all <;> omega

/-- A time is above the chosen stamp iff above two of the three. -/
theorem sortingNetwork_lt_iff (time : UInt32) (block0 block1 block2 : CBlockIndex) :
    (sortingNetwork block0 block1 block2).nTime < time ↔
      2 ≤ ([block2, block1, block0].map nTime).countP (· < time) := by
  unfold sortingNetwork
  simp only [UInt32.lt_iff_toNat_lt, map_cons, map_nil, countP_cons, countP_nil, gt_iff_lt]
  split_ifs <;> simp_all <;> omega

/-- Heights count up from zero at genesis. -/
def Linked : Branch → Prop
  | [] => False
  | [genesis] => genesis.nHeight = 0
  | block :: parent :: older => block.nHeight = parent.nHeight + 1 ∧ Linked (parent :: older)

instance Linked.decide : (branch : Branch) → Decidable (Linked branch)
  | [] => .isFalse id
  | [genesis] => inferInstanceAs (Decidable (genesis.nHeight = 0))
  | block :: parent :: older =>
    have := Linked.decide (parent :: older)
    inferInstanceAs (Decidable (block.nHeight = parent.nHeight + 1 ∧ Linked (parent :: older)))

theorem Linked.height {block : CBlockIndex} {older : Branch} (linked : Linked (block :: older)) :
    block.nHeight = older.length := by
  induction older generalizing block with
  | nil => exact linked
  | cons parent older ih =>
    have below := ih linked.2
    rw [linked.1, below]
    rfl

variable {branch : Branch}

theorem Linked.drop (linked : Linked branch) {count : Nat} (inside : count < branch.length) :
    Linked (branch.drop count) := by
  induction count generalizing branch with
  | zero => exact linked
  | succ count ih =>
    match branch, linked with
    | [genesis], _ => simp at inside
    | block :: parent :: older, linked => exact ih linked.2 (by simpa using inside)

/-- Going back by height drops as many blocks. -/
theorem Linked.getAncestor_eq (linked : Linked branch) (count : Nat) (inside : count < branch.length) :
    getAncestor branch ((branch.length : Int) - 1 - count) = branch.drop count := by
  induction count generalizing branch with
  | zero =>
    cases branch with
    | nil => exact linked.elim
    | cons block older =>
      have height := linked.height
      simp [getAncestor, height]
  | succ count ih =>
    match branch, linked with
    | [genesis], _ => simp at inside
    | block :: parent :: older, linked =>
      have height := linked.height
      have step := ih linked.2 (by simpa using inside)
      simp only [length_cons, getAncestor] at step height ⊢
      rw [dropWhile_cons_of_pos (by simp only [decide_eq_true_eq]; omega), drop_succ_cons, ← step]
      congr 1
      funext other
      congr 1
      push_cast
      ring_nf

/-- Two newer stamps are each later than two older ones. -/
def StampedLater (newer older : List UInt32) : Prop :=
  2 ≤ newer.countP fun stamp => 2 ≤ older.countP (· < stamp)

instance (newer older : List UInt32) : Decidable (StampedLater newer older) :=
  inferInstanceAs (Decidable (_ ≤ _))

/-- Comparing stamps in pairs is comparing the chosen blocks. -/
theorem stampedLater_iff (last0 last1 last2 first0 first1 first2 : CBlockIndex) :
    StampedLater ([last2, last1, last0].map nTime) ([first2, first1, first0].map nTime) ↔
      (sortingNetwork first0 first1 first2).nTime < (sortingNetwork last0 last1 last2).nTime := by
  rw [lt_sortingNetwork_iff, StampedLater]
  simp only [← sortingNetwork_lt_iff]

/-- Each header is later than its ancestors' median and at most two hours ahead of a clock that never runs backwards.
-/
def Timely : Branch → List Int → Prop
  | [_], [] => True
  | block :: parent :: older, clock :: clocks =>
    timeTooOld block.getBlockTime (parent :: older) = false ∧ timeTooNew block.getBlockTime clock = false ∧
      (∀ earlier ∈ clocks.head?, earlier ≤ clock) ∧ Timely (parent :: older) clocks
  | _, _ => False

instance Timely.decide : (branch : Branch) → (clocks : List Int) → Decidable (Timely branch clocks)
  | [], _ => .isFalse id
  | [_], [] => .isTrue trivial
  | [_], _ :: _ => .isFalse id
  | _ :: _ :: _, [] => .isFalse id
  | block :: parent :: older, clock :: clocks =>
    have := Timely.decide (parent :: older) clocks
    inferInstanceAs (Decidable (timeTooOld block.getBlockTime (parent :: older) = false ∧
      timeTooNew block.getBlockTime clock = false ∧ (∀ earlier ∈ clocks.head?, earlier ≤ clock) ∧
      Timely (parent :: older) clocks))

/-- A branch whose headers passed the time rules on arrival. -/
structure HeaderChain where
  blocks : Branch
  clocks : List Int
  linked : Linked blocks
  timely : Timely blocks clocks

variable (chain : HeaderChain)

/-- Three consecutive stamps, the newest so deep below the tip. -/
def HeaderChain.stamps (depth : Nat) : List UInt32 :=
  ((chain.blocks.drop depth).take 3).map nTime

/-- The median block at the tip is later than that twelve lower. -/
def MediansIncrease (branch : Branch) : Prop :=
  ∃ pindexFirst pindexLast, getSuitableBlock branch = .ok pindexLast ∧
    getSuitableBlock (branch.drop 12) = .ok pindexFirst ∧ pindexFirst.nTime < pindexLast.nTime

/-- Three blocks exist at a depth that leaves height three. -/
theorem Linked.three (linked : Linked branch) (depth : Nat) (deep : depth + 3 < branch.length) :
    ∃ block2 block1 block0 older, branch.drop depth = block2 :: block1 :: block0 :: older ∧
      block2.nHeight = branch.length - 1 - depth ∧ block1.nHeight = branch.length - 2 - depth ∧
      block0.nHeight = branch.length - 3 - depth ∧
      getSuitableBlock (branch.drop depth) = .ok (sortingNetwork block0 block1 block2) := by
  have dropped : Linked (branch.drop depth) := linked.drop (by omega)
  have length : (branch.drop depth).length = branch.length - depth := length_drop
  match split : branch.drop depth, dropped with
  | [_], _ => simp [split] at length; omega
  | [_, _], _ => simp [split] at length; omega
  | block2 :: block1 :: block0 :: older, dropped =>
    have height2 := dropped.height
    have height1 := dropped.2.height
    have height0 := dropped.2.2.height
    simp only [split, length_cons] at length height2 height1 height0
    refine ⟨block2, block1, block0, older, rfl, by omega, by omega, by omega, ?_⟩
    rw [getSuitableBlock, if_neg (by omega)]

/-- The target is computed without a failing assertion for blocks in order. -/
theorem computeTarget_no_assertion {pindexFirst pindexLast : CBlockIndex} (params : ConsensusParams)
    (higher : pindexFirst.nHeight < pindexLast.nHeight) (later : pindexFirst.nTime < pindexLast.nTime) :
    computeTarget pindexFirst pindexLast params ≠ .error .assertion := by
  unfold computeTarget
  rw [if_neg (not_not.mpr higher), if_neg (not_not.mpr later)]
  simp only
  split_ifs <;> simp

theorem getCompact_no_assertion (value : Uint256) : getCompact value ≠ .error .assertion := by
  obtain ⟨nCompact, encoded⟩ := getCompact_ok value
  rw [encoded]
  exact fun impossible => nomatch impossible

/-- Above the switch height the adjustment interval has passed. -/
theorem interval_passed {network : Network} {height : Int}
    (retargets : (getConsensus network).fPowNoRetargeting = false)
    (above : (getConsensus network).fPowD106SwitchHeight < height) :
    height ≥ (getConsensus network).difficultyAdjustmentInterval := by
  cases network with
  | main =>
    change 30 < height at above
    change height ≥ 1800 / 60
    omega
  | test =>
    change 30 < height at above
    change height ≥ 60 / 10
    omega
  | regtest => exact nomatch retargets

/-- The medians increase exactly when the stamps do, in pairs. -/
theorem HeaderChain.mediansIncrease_iff (long : 15 < chain.blocks.length) :
    MediansIncrease chain.blocks ↔ StampedLater (chain.stamps 0) (chain.stamps 12) := by
  obtain ⟨last2, last1, last0, _, newest, -, -, -, chosenLast⟩ := chain.linked.three 0 (by omega)
  obtain ⟨first2, first1, first0, _, lower, -, -, -, chosenFirst⟩ := chain.linked.three 12 (by omega)
  have stampsLast : chain.stamps 0 = [last2, last1, last0].map nTime := by
    rw [HeaderChain.stamps, newest]
    rfl
  have stampsFirst : chain.stamps 12 = [first2, first1, first0].map nTime := by
    rw [HeaderChain.stamps, lower]
    rfl
  rw [stampsLast, stampsFirst, stampedLater_iff]
  rw [drop_zero] at chosenLast
  constructor
  · rintro ⟨pindexFirst, pindexLast, last, first, later⟩
    rw [chosenLast] at last
    rw [chosenFirst] at first
    cases last
    cases first
    exact later
  · intro later
    exact ⟨_, _, chosenLast, chosenFirst, later⟩

/-- With increasing medians no difficulty assertion fails. -/
theorem HeaderChain.no_assertion (network : Network) (chain : HeaderChain) (pblock : CBlockHeader)
    (above : (getConsensus network).fPowD106SwitchHeight < (chain.blocks.length : Int) - 1)
    (increase : MediansIncrease chain.blocks) :
    getNextWorkRequired chain.blocks pblock (getConsensus network) ≠ .error .assertion := by
  have switch : (getConsensus network).fPowD106SwitchHeight = 30 := by cases network <;> rfl
  obtain ⟨last2, last1, last0, older, newest, height2, height1, height0, chosenLast⟩ :=
    chain.linked.three 0 (by omega)
  obtain ⟨first2, first1, first0, _, lower, lower2, lower1, lower0, chosenFirst⟩ := chain.linked.three 12 (by omega)
  obtain ⟨pindexFirst, pindexLast, last, first, later⟩ := increase
  have ancestor : getAncestor chain.blocks (last2.nHeight - 12) = chain.blocks.drop 12 := by
    rw [height2, ← chain.linked.getAncestor_eq 12 (by omega)]
    norm_num
  rw [drop_zero] at newest chosenLast
  have memberLast := sortingNetwork_mem last0 last1 last2
  have memberFirst := sortingNetwork_mem first0 first1 first2
  rw [chosenLast] at last
  rw [chosenFirst] at first
  cases last
  cases first
  have higher : (sortingNetwork first0 first1 first2).nHeight < (sortingNetwork last0 last1 last2).nHeight := by
    simp only [mem_cons, not_mem_nil, or_false] at memberLast memberFirst
    rcases memberLast with same | same | same <;> rcases memberFirst with same' | same' | same' <;>
      rw [same, same'] <;> omega
  rw [newest] at chosenLast ancestor ⊢
  simp only [getNextWorkRequired, getNextWorkRequiredD106]
  split_ifs with noRetargeting below minDifficulty early
  · exact fun impossible => nomatch impossible
  · omega
  · exact getCompact_no_assertion _
  · rw [ancestor, chosenLast, ← newest, chosenFirst]
    have target := computeTarget_no_assertion (getConsensus network) higher later
    simp only [bind, Except.bind]
    cases computed : computeTarget (sortingNetwork first0 first1 first2) (sortingNetwork last0 last1 last2)
        (getConsensus network) with
    | error failure =>
      rw [computed] at target
      intro assertion
      cases assertion
      exact target rfl
    | ok nextTarget =>
      simp only
      split_ifs
      · exact getCompact_no_assertion _
      · exact getCompact_no_assertion _
  · rw [Bool.not_eq_true] at noRetargeting
    exact absurd (interval_passed noRetargeting (by rw [switch]; omega)) early

def HeaderChain.tipHeight : Int :=
  (chain.blocks.head?.map nHeight).getD 0

theorem HeaderChain.tipHeight_eq : chain.tipHeight = (chain.blocks.length : Int) - 1 := by
  have linked := chain.linked
  unfold tipHeight
  cases split : chain.blocks with
  | nil =>
    rw [split] at linked
    exact linked.elim
  | cons tip older =>
    rw [split] at linked
    have height := linked.height
    simp [height]

/-- The header of a mined block: time and bits. -/
def minedHeader (nTime nBits : UInt32) : CBlockHeader := ⟨4, 0, 0, nTime, nBits, 0⟩

/-- Blocks mined at the given times, the oldest last. -/
def mineBranch (params : ConsensusParams) : List UInt32 → Branch
  | [] => []
  | nTime :: older =>
    let branch := mineBranch params older
    match branch with
    | [] => [⟨0, nTime, 0x1e0ffff0, getBlockProof 0x1e0ffff0⟩]
    | pindexPrev :: _ =>
      match getNextWorkRequired branch (minedHeader nTime 0) params with
      | .ok nBits => indexHeader (minedHeader nTime nBits) pindexPrev :: branch
      | .error _ => branch

/-- The times of blocks at the target spacing, the newest first. -/
def regularTimes : Nat → List Int
  | 0 => []
  | count + 1 => (1510000000 + 60 * (count : Int)) :: regularTimes count

/-- Heights seventeen and eighteen are stamped two hours ahead. -/
def skewedTimes : Nat → List UInt32
  | 0 => []
  | count + 1 =>
    UInt32.ofNat (1510000000 + 60 * count + if count = 17 ∨ count = 18 then 7200 else 0) :: skewedTimes count

/-- A main network chain of 32 blocks at the target spacing but for two stamps. -/
def skewedChain : HeaderChain where
  blocks := mineBranch mainParams (skewedTimes 32)
  clocks := (regularTimes 32).take 31
  linked := by decide +kernel
  timely := by decide +kernel

/-- The same chain without the skewed stamps. -/
def regularChain : HeaderChain where
  blocks := mineBranch mainParams ((regularTimes 32).map fun time => UInt32.ofNat time.toNat)
  clocks := (regularTimes 32).take 31
  linked := by decide +kernel
  timely := by decide +kernel

end Straks.Chain
