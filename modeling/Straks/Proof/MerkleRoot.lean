import Straks.Construction.Chain.Merkle
import Straks.Library.MerkleTree
import Mathlib.Data.List.Induction

namespace Straks.Chain
open MerkleTree List Function Nat

section Dyadic

variable {count level factor : Nat}

theorem testBit_mul_pow : (factor * 2 ^ level).testBit level = decide (factor % 2 = 1) := by
  rw [Nat.testBit_eq_decide_div_mod_eq, Nat.mul_div_cancel _ (Nat.two_pow_pos level)]

/-- A clear bit lets a power of two divide once more. -/
theorem exists_factor_succ (divides : 2 ^ level ∣ count) (clear : count.testBit level = false) :
    ∃ factor, count = 2 * factor * 2 ^ level := by
  obtain ⟨factor, rfl⟩ := divides
  rw [mul_comm, testBit_mul_pow, decide_eq_false_iff_not] at clear
  refine ⟨factor / 2, ?_⟩
  rw [mul_comm, show 2 * (factor / 2) = factor by omega]

theorem not_dvd_of_testBit (set : count.testBit level = true) : ¬ 2 ^ (level + 1) ∣ count := by
  rintro ⟨factor, rfl⟩
  rw [pow_succ, mul_assoc, mul_comm, testBit_mul_pow, decide_eq_true_eq] at set
  omega

theorem level_lt_of_dvd (divides : 2 ^ level ∣ count) (positive : 0 < count) : level < count :=
  lt_of_lt_of_le Nat.lt_two_pow_self (Nat.le_of_dvd positive divides)

/-- An indivisible number has its predecessor's quotient. -/
theorem div_pred (exact : ¬ 2 ^ level ∣ count + 1) : (count + 1) / 2 ^ level = count / 2 ^ level := by
  rw [Nat.succ_div, if_neg exact, add_zero]

theorem pred_div_of_dvd (divides : 2 ^ level ∣ count) (positive : 0 < count) :
    (count - 1) / 2 ^ level = count / 2 ^ level - 1 := by
  obtain ⟨factor, rfl⟩ := divides
  obtain ⟨before, rfl⟩ := Nat.exists_eq_succ_of_ne_zero (Nat.pos_of_mul_pos_left positive).ne'
  have width := Nat.two_pow_pos level
  rw [Nat.mul_div_cancel_left _ width, Nat.succ_eq_add_one, mul_add]
  apply Nat.div_eq_of_lt_le
  · rw [Nat.add_sub_cancel, mul_comm]
    omega
  · rw [mul_comm _ (2 ^ level), Nat.add_sub_cancel, mul_add]
    omega

/-- The lowest level that holds so many leaves. -/
theorem clog_eq_of_lowest (fits : count ≤ 2 ^ level) (below : ∀ lower < level, 2 ^ lower < count) :
    clog 2 count = level := by
  apply le_antisymm
  · exact clog_le_of_le_pow fits
  · by_contra! low
    exact absurd (le_pow_clog one_lt_two count) (not_le.mpr (below _ low))

end Dyadic

variable {pair : Uint256 → Uint256 → Uint256} (hashPair : Uint256 → Uint256 → Uint256)

/-- Equal complete neighbours end with the list on a lower level. -/
def RepeatsAtEnd (top : Nat) (leaves : List Uint256) : Prop :=
  ∃ level < top, ∃ index, (2 * index + 2) * 2 ^ level = leaves.length ∧
    nodeAt hashPair level (2 * index) leaves = nodeAt hashPair level (2 * index + 1) leaves

variable {leaves : List Uint256}

theorem repeatsAtEnd_succ {level index : Nat} (length : leaves.length = (2 * index + 2) * 2 ^ level) :
    RepeatsAtEnd pair (level + 1) leaves ↔ RepeatsAtEnd pair level leaves ∨
      nodeAt pair level (2 * index) leaves = nodeAt pair level (2 * index + 1) leaves := by
  constructor
  · rintro ⟨lower, below, other, exact, equal⟩
    rcases Nat.lt_succ_iff_lt_or_eq.mp below with below | rfl
    · exact .inl ⟨lower, below, other, exact, equal⟩
    · rw [length] at exact
      have same := Nat.eq_of_mul_eq_mul_right (Nat.two_pow_pos lower) exact
      obtain rfl : other = index := by omega
      exact .inr equal
  · rintro (⟨lower, below, rest⟩ | equal)
    · exact ⟨lower, Nat.lt_succ_of_lt below, rest⟩
    · exact ⟨level, Nat.lt_succ_self _, index, length.symm, equal⟩

/-- A further leaf repeats only together with its left neighbours. -/
theorem repeats_append_iff {leaf : Uint256} {level : Nat} (set : (leaves ++ [leaf]).length.testBit level = true) :
    Repeats pair (leaves ++ [leaf]) ↔ Repeats pair leaves ∨ RepeatsAtEnd pair level (leaves ++ [leaf]) := by
  have unchanged {lower index : Nat} (within : (2 * index + 2) * 2 ^ lower ≤ leaves.length) :
      nodeAt pair lower (2 * index) (leaves ++ [leaf]) = nodeAt pair lower (2 * index) leaves ∧
        nodeAt pair lower (2 * index + 1) (leaves ++ [leaf]) = nodeAt pair lower (2 * index + 1) leaves := by
    constructor <;> apply nodeAt_append
    · exact le_trans (mul_le_mul_right _ (le_succ _)) within
    · exact within
  have length : (leaves ++ [leaf]).length = leaves.length + 1 := by simp
  constructor
  · rintro ⟨lower, index, within, equal⟩
    rcases lt_or_eq_of_le within with before | exact
    · have before : (2 * index + 2) * 2 ^ lower ≤ leaves.length := by omega
      rw [(unchanged before).1, (unchanged before).2] at equal
      exact .inl ⟨lower, index, before, equal⟩
    · refine .inr ⟨lower, ?_, index, exact, equal⟩
      by_contra! high
      apply not_dvd_of_testBit set
      rw [← exact, show (2 * index + 2) * 2 ^ lower = (index + 1) * 2 ^ (lower + 1) by ring]
      exact Dvd.dvd.mul_left (pow_dvd_pow 2 (by omega)) _
  · rintro (⟨lower, index, within, equal⟩ | ⟨lower, _, index, exact, equal⟩)
    · rw [← (unchanged within).1, ← (unchanged within).2] at equal
      exact ⟨lower, index, by omega, equal⟩
    · exact ⟨lower, index, exact.le, equal⟩

/-- What inner values and flag say about the leaves so far. -/
structure Processed (leaves : List Uint256) (state : MerkleState) : Prop where
  count : state.count = leaves.length
  inner : ∀ level, leaves.length.testBit level = true →
    state.inner level = nodeAt hashPair level (leaves.length / 2 ^ level - 1) leaves
  mutated : state.mutated = true ↔ Repeats hashPair leaves

/-- What the hash moving up says about the leaves. -/
structure Climbing (leaves : List Uint256) (leaf : Uint256)
    (climb : MerkleClimb) : Prop where
  divides : 2 ^ climb.level ∣ (leaves ++ [leaf]).length
  h : climb.h = nodeAt hashPair climb.level ((leaves ++ [leaf]).length / 2 ^ climb.level - 1) (leaves ++ [leaf])
  mutated : climb.mutated = true ↔
    Repeats hashPair leaves ∨ RepeatsAtEnd hashPair climb.level (leaves ++ [leaf])

section Leaf

variable {leaves : List Uint256} {leaf : Uint256} {state : MerkleState} {climb : MerkleClimb}

section

variable (processed : Processed pair leaves state)
include processed

/-- The inner value the hash meets is its left neighbour. -/
theorem Processed.inner_left {level index : Nat} (length : (leaves ++ [leaf]).length = (2 * index + 2) * 2 ^ level) :
    state.inner level = nodeAt pair level (2 * index) (leaves ++ [leaf]) := by
  have before : leaves.length = (2 * index + 1) * 2 ^ level + (2 ^ level - 1) := by
    have positive := Nat.two_pow_pos level
    rw [length_append, length_singleton] at length
    rw [show (2 * index + 2) * 2 ^ level = (2 * index + 1) * 2 ^ level + 2 ^ level by ring] at length
    omega
  have quotient : leaves.length / 2 ^ level = 2 * index + 1 := by
    apply Nat.div_eq_of_lt_le
    · omega
    · rw [add_mul]
      have positive := Nat.two_pow_pos level
      omega
  have set : leaves.length.testBit level = true := by
    rw [Nat.testBit_eq_decide_div_mod_eq, decide_eq_true_eq]
    omega
  rw [processed.inner level set, quotient, Nat.add_sub_cancel, nodeAt_append]
  omega

/-- The other inner values lie higher and stay. -/
theorem Processed.inner_above {lowest level : Nat} (divides : 2 ^ lowest ∣ (leaves ++ [leaf]).length)
    (set : (leaves ++ [leaf]).length.testBit lowest = true) (bit : (leaves ++ [leaf]).length.testBit level = true)
    (other : level ≠ lowest) :
    state.inner level = nodeAt pair level ((leaves ++ [leaf]).length / 2 ^ level - 1) (leaves ++ [leaf]) := by
  have higher : lowest < level := by
    by_contra! low
    exact not_dvd_of_testBit bit (dvd_trans (Nat.pow_dvd_pow 2 (by omega)) divides)
  have same : (leaves ++ [leaf]).length / 2 ^ level = leaves.length / 2 ^ level := by
    rw [length_append]
    apply div_pred
    intro divides
    apply not_dvd_of_testBit set
    rw [length_append]
    exact dvd_trans (Nat.pow_dvd_pow 2 higher) divides
  rw [Nat.testBit_eq_decide_div_mod_eq, same, ← Nat.testBit_eq_decide_div_mod_eq] at bit
  rw [processed.inner level bit, same, nodeAt_append]
  have positive : 1 ≤ leaves.length / 2 ^ level := by
    rw [Nat.testBit_eq_decide_div_mod_eq, decide_eq_true_eq] at bit
    generalize leaves.length / 2 ^ level = quotient at bit ⊢
    omega
  rw [Nat.sub_add_cancel positive]
  exact Nat.div_mul_le_self ..

theorem Climbing.step (climbing : Climbing pair leaves leaf climb)
    (clear : (leaves ++ [leaf]).length.testBit climb.level = false) :
    Climbing pair leaves leaf { combineInner pair state.inner state.matchlevel climb with
      mutated := climb.mutated || state.inner climb.level == climb.h } := by
  obtain ⟨factor, length⟩ := exists_factor_succ climbing.divides clear
  obtain ⟨index, rfl⟩ : ∃ index, factor = index + 1 := by
    apply Nat.exists_eq_succ_of_ne_zero
    rintro rfl
    simp at length
  have h : climb.h = nodeAt pair climb.level (2 * index + 1) (leaves ++ [leaf]) := by
    rw [climbing.h, length, Nat.mul_div_cancel _ (Nat.two_pow_pos _)]
    rfl
  have above : (leaves ++ [leaf]).length = (index + 1) * 2 ^ (climb.level + 1) := by
    rw [length]
    ring
  have many : (2 * index + 1) * 2 ^ climb.level < (leaves ++ [leaf]).length := by
    rw [length]
    exact Nat.mul_lt_mul_of_pos_right (Nat.lt_succ_self _) (Nat.two_pow_pos _)
  have left := processed.inner_left length
  constructor
  · exact above ▸ Nat.dvd_mul_left ..
  · show pair (state.inner climb.level) climb.h =
      nodeAt pair (climb.level + 1) ((leaves ++ [leaf]).length / 2 ^ (climb.level + 1) - 1) (leaves ++ [leaf])
    rw [above, Nat.mul_div_cancel _ (Nat.two_pow_pos _), Nat.add_sub_cancel, nodeAt_succ_of_lt pair many, left, h]
  · show (climb.mutated || state.inner climb.level == climb.h) = true ↔
      _ ∨ RepeatsAtEnd pair (climb.level + 1) (leaves ++ [leaf])
    rw [repeatsAtEnd_succ length, ← or_assoc, Bool.or_eq_true, climbing.mutated, beq_iff_eq, left, h]

/-- The loop stops on the level of the lowest set bit. -/
theorem climbLeaf_spec {fuel : Nat} (enough : (leaves ++ [leaf]).length ≤ fuel + climb.level)
    (climbing : Climbing pair leaves leaf climb) :
    Climbing pair leaves leaf (climbLeaf pair state (leaves ++ [leaf]).length fuel climb) ∧
      (leaves ++ [leaf]).length.testBit (climbLeaf pair state (leaves ++ [leaf]).length fuel climb).level = true := by
  induction fuel generalizing climb with
  | zero =>
    have below := level_lt_of_dvd climbing.divides (by simp)
    omega
  | succ fuel ih =>
    rw [climbLeaf]
    split
    · rename_i set
      exact ⟨climbing, set⟩
    · rename_i clear
      apply ih
      · show _ ≤ fuel + (climb.level + 1)
        omega
      · exact climbing.step processed (by simpa using clear)

theorem Processed.next (branchpos : Nat) :
    Processed pair (leaves ++ [leaf]) (processLeaf pair branchpos state leaf) := by
  have count : state.count + 1 = (leaves ++ [leaf]).length := by simp [processed.count]
  have start : Climbing pair leaves leaf ⟨0, leaf, state.count == branchpos, state.mutated, state.pbranch⟩ := by
    constructor
    · exact one_dvd _
    · simp [nodeAt_leaf]
    · show state.mutated = true ↔ _
      rw [processed.mutated, or_iff_left]
      rintro ⟨level, impossible, _⟩
      exact absurd impossible (not_lt_zero _)
  rw [processLeaf, count]
  obtain ⟨climbing, set⟩ := climbLeaf_spec processed (le_add_right _ _) start
  generalize climbLeaf pair state (leaves ++ [leaf]).length _ _ = climb at *
  constructor
  · rfl
  · intro level bit
    show update state.inner climb.level climb.h level = _
    rcases eq_or_ne level climb.level with rfl | other
    · rw [update_self, climbing.h]
    · rw [update_of_ne other, processed.inner_above climbing.divides set bit other]
  · show climb.mutated = true ↔ _
    rw [climbing.mutated, repeats_append_iff set]

end

/-- Every list of leaves is processed one by one. -/
theorem processed_foldl (branchpos : Nat) (leaves : List Uint256) :
    Processed pair leaves (leaves.foldl (processLeaf pair branchpos) ⟨false, 0, fun _ => 0, none, []⟩) := by
  induction leaves using List.reverseRecOn with
  | nil =>
    constructor
    · rfl
    · simp
    · simp [Repeats]
  | append_singleton leaves leaf ih =>
    rw [foldl_append]
    exact ih.next branchpos

end Leaf

/-- The level the first loop of the sweep skips to. -/
theorem lowestLevel_spec {count fuel level : Nat} (positive : 0 < count) (enough : count ≤ fuel + level)
    (divides : 2 ^ level ∣ count) :
    2 ^ lowestLevel count fuel level ∣ count ∧ count.testBit (lowestLevel count fuel level) = true := by
  induction fuel generalizing level with
  | zero =>
    have below := level_lt_of_dvd divides positive
    omega
  | succ fuel ih =>
    rw [lowestLevel]
    split
    · rename_i set
      exact ⟨divides, set⟩
    · rename_i clear
      obtain ⟨factor, length⟩ := exists_factor_succ divides (by simpa using clear)
      apply ih
      · omega
      · exact ⟨factor, by rw [length]; ring⟩

section Sweep

variable {leaves : List Uint256} {state : MerkleState} {climb : MerkleClimb} {count : Nat}

/-- In the sweep the hash is the last node of its level, the count what completing it gives. -/
structure Sweeping (hashPair : Uint256 → Uint256 → Uint256) (leaves : List Uint256) (mutated : Bool) (count : Nat)
    (climb : MerkleClimb) : Prop where
  count : count = ((leaves.length - 1) / 2 ^ climb.level + 1) * 2 ^ climb.level
  h : climb.h = nodeAt hashPair climb.level ((leaves.length - 1) / 2 ^ climb.level) leaves
  mutated : climb.mutated = mutated
  below : ∀ level < climb.level, 2 ^ level < leaves.length

variable {mutated : Bool} {level fuel : Nat}

/-- Below an incomplete node the values are left neighbours. -/
theorem Processed.inner_sweep (processed : Processed pair leaves state) (some : leaves ≠ [])
    (incomplete : ¬ 2 ^ level ∣ leaves.length) (odd : (leaves.length - 1) / 2 ^ level % 2 = 1) :
    state.inner level = nodeAt pair level ((leaves.length - 1) / 2 ^ level - 1) leaves := by
  have positive := length_pos_iff.mpr some
  have same : leaves.length / 2 ^ level = (leaves.length - 1) / 2 ^ level := by
    obtain ⟨before, length⟩ := exists_eq_succ_of_ne_zero positive.ne'
    rw [length] at incomplete ⊢
    exact div_pred incomplete
  have set : leaves.length.testBit level = true := by
    rw [testBit_eq_decide_div_mod_eq, same, decide_eq_true_eq, odd]
  rw [processed.inner level set, same]

/-- The quotient of the level above. -/
theorem div_pow_succ (count level : Nat) : count / 2 ^ (level + 1) = count / 2 ^ level / 2 := by
  rw [pow_succ, Nat.div_div_eq_div_mul]

/-- The sweep starts with the last complete node. -/
theorem Processed.sweeping (processed : Processed pair leaves state) (divides : 2 ^ level ∣ leaves.length)
    (set : leaves.length.testBit level = true) (some : leaves ≠ []) {matchh : Bool} {pbranch : List Uint256} :
    Sweeping pair leaves state.mutated leaves.length ⟨level, state.inner level, matchh, state.mutated, pbranch⟩ := by
  have positive := length_pos_iff.mpr some
  have last : (leaves.length - 1) / 2 ^ level = leaves.length / 2 ^ level - 1 := pred_div_of_dvd divides positive
  constructor
  · show leaves.length = ((leaves.length - 1) / 2 ^ level + 1) * 2 ^ level
    rw [last, Nat.sub_add_cancel (Nat.div_pos (Nat.le_of_dvd positive divides) (Nat.two_pow_pos _)),
      Nat.div_mul_cancel divides]
  · show state.inner level = nodeAt pair level ((leaves.length - 1) / 2 ^ level) leaves
    rw [last, processed.inner level set]
  · rfl
  · intro lower low
    exact lt_of_lt_of_le (Nat.pow_lt_pow_right Nat.one_lt_two low) (Nat.le_of_dvd positive divides)

theorem Sweeping.below_succ (sweeping : Sweeping pair leaves mutated count climb)
    (more : (leaves.length - 1) / 2 ^ climb.level ≠ 0) : ∀ level < climb.level + 1, 2 ^ level < leaves.length := by
  intro level low
  rcases Nat.lt_succ_iff_lt_or_eq.mp low with low | rfl
  · exact sweeping.below level low
  · have wide := (Nat.div_ne_zero_iff.mp more).2
    have positive := Nat.two_pow_pos climb.level
    omega

theorem Sweeping.combineInner (processed : Processed pair leaves state) (some : leaves ≠ [])
    (incomplete : ¬ 2 ^ climb.level ∣ leaves.length) (sweeping : Sweeping pair leaves state.mutated count climb)
    (odd : (leaves.length - 1) / 2 ^ climb.level % 2 = 1) :
    Sweeping pair leaves state.mutated count (combineInner pair state.inner state.matchlevel climb) := by
  have positive := length_pos_iff.mpr some
  have left := processed.inner_sweep some incomplete odd
  have reached := div_mul_le_self (leaves.length - 1) (2 ^ climb.level)
  have below := sweeping.below_succ (by omega)
  obtain ⟨complete, h, mutated, -⟩ := sweeping
  have above := div_pow_succ (leaves.length - 1) climb.level
  generalize (leaves.length - 1) / 2 ^ climb.level = last at *
  obtain ⟨index, rfl⟩ : ∃ index, last = 2 * index + 1 := ⟨last / 2, by omega⟩
  replace above : (leaves.length - 1) / 2 ^ (climb.level + 1) = index := by omega
  refine ⟨?_, ?_, mutated, below⟩
  · show count = ((leaves.length - 1) / 2 ^ (climb.level + 1) + 1) * 2 ^ (climb.level + 1)
    rw [above, complete]
    ring
  · show pair (state.inner climb.level) climb.h =
      nodeAt pair (climb.level + 1) ((leaves.length - 1) / 2 ^ (climb.level + 1)) leaves
    rw [above, nodeAt_succ_of_lt pair (by omega), left, h]
    rfl

theorem Sweeping.combineSelf (some : leaves ≠ []) (sweeping : Sweeping pair leaves state.mutated count climb)
    (more : (leaves.length - 1) / 2 ^ climb.level ≠ 0) (even : (leaves.length - 1) / 2 ^ climb.level % 2 = 0) :
    Sweeping pair leaves state.mutated (count + 2 ^ climb.level) (combineSelf pair climb) := by
  have positive := length_pos_iff.mpr some
  have short := Nat.lt_mul_of_div_lt (Nat.lt_succ_self ((leaves.length - 1) / 2 ^ climb.level)) (Nat.two_pow_pos _)
  have below := sweeping.below_succ more
  obtain ⟨complete, h, mutated, -⟩ := sweeping
  have above := div_pow_succ (leaves.length - 1) climb.level
  generalize (leaves.length - 1) / 2 ^ climb.level = last at *
  obtain ⟨index, rfl⟩ : ∃ index, last = 2 * index := ⟨last / 2, by omega⟩
  replace above : (leaves.length - 1) / 2 ^ (climb.level + 1) = index := by omega
  refine ⟨?_, ?_, mutated, below⟩
  · show count + 2 ^ climb.level = ((leaves.length - 1) / 2 ^ (climb.level + 1) + 1) * 2 ^ (climb.level + 1)
    rw [above, complete]
    ring
  · show pair climb.h climb.h =
      nodeAt pair (climb.level + 1) ((leaves.length - 1) / 2 ^ (climb.level + 1)) leaves
    rw [Nat.succ_eq_add_one] at short
    rw [above, nodeAt_succ_of_le pair (by omega), h]

/-- The last node of a level is a left one exactly when the count has its bit. -/
theorem Sweeping.testBit (sweeping : Sweeping pair leaves mutated count climb) :
    count.testBit climb.level = true ↔ (leaves.length - 1) / 2 ^ climb.level % 2 = 0 := by
  rw [sweeping.count, testBit_mul_pow, decide_eq_true_eq]
  omega

theorem climbSweep_spec (processed : Processed pair leaves state) (some : leaves ≠ [])
    (sweeping : Sweeping pair leaves state.mutated count climb) (incomplete : ¬ 2 ^ climb.level ∣ leaves.length)
    (enough : count ≤ fuel + climb.level) :
    Sweeping pair leaves state.mutated count (climbSweep pair state count fuel climb) ∧
      climb.level ≤ (climbSweep pair state count fuel climb).level ∧
      count.testBit (climbSweep pair state count fuel climb).level = true := by
  induction fuel generalizing climb with
  | zero =>
    have divides : 2 ^ climb.level ∣ count := sweeping.count ▸ Nat.dvd_mul_left ..
    have below := level_lt_of_dvd divides (sweeping.count ▸ Nat.mul_pos (Nat.succ_pos _) (Nat.two_pow_pos _))
    omega
  | succ fuel ih =>
    rw [climbSweep]
    split
    · rename_i set
      exact ⟨sweeping, le_refl _, set⟩
    · rename_i clear
      have odd : (leaves.length - 1) / 2 ^ climb.level % 2 = 1 := by
        rw [sweeping.testBit] at clear
        generalize (leaves.length - 1) / 2 ^ climb.level = last at clear ⊢
        omega
      have above : ¬ 2 ^ (climb.level + 1) ∣ leaves.length :=
        fun divides => incomplete (dvd_trans (Nat.pow_dvd_pow 2 (Nat.le_succ _)) divides)
      have left : count ≤ fuel + (climb.level + 1) := by omega
      obtain ⟨next, higher, set⟩ := ih (sweeping.combineInner processed some incomplete odd) above left
      exact ⟨next, le_trans (Nat.le_succ _) higher, set⟩

/-- A level with a single node is the top. -/
theorem Sweeping.top (sweeping : Sweeping pair leaves mutated count climb)
    (single : (leaves.length - 1) / 2 ^ climb.level = 0) : climb.h = root pair leaves := by
  have fits : leaves.length ≤ 2 ^ climb.level := by
    have short := (Nat.div_eq_zero_iff_lt (Nat.two_pow_pos _)).mp single
    omega
  rw [sweeping.h, single, nodeAt_zero_of_le pair fits, root, clog_eq_of_lowest fits sweeping.below]

/-- The sweep ends at the root and leaves the flag as it is. -/
theorem sweep_spec (processed : Processed pair leaves state) (some : leaves ≠ [])
    (sweeping : Sweeping pair leaves state.mutated count climb) (set : count.testBit climb.level = true)
    (incomplete : ¬ 2 ^ (climb.level + 1) ∣ leaves.length) (enough : leaves.length ≤ fuel + climb.level) :
    (sweep pair state fuel count climb).h = root pair leaves ∧
      (sweep pair state fuel count climb).mutated = state.mutated := by
  induction fuel generalizing count climb with
  | zero =>
    have short : leaves.length < 2 ^ climb.level := lt_of_le_of_lt (by omega) Nat.lt_two_pow_self
    exact ⟨sweeping.top (Nat.div_eq_of_lt (by omega)), sweeping.mutated⟩
  | succ fuel ih =>
    rw [sweep]
    split
    · rename_i top
      have single : (leaves.length - 1) / 2 ^ climb.level = 0 := by
        have once := sweeping.count.symm.trans (top.trans (one_mul _).symm)
        exact Nat.succ.inj (Nat.eq_of_mul_eq_mul_right (Nat.two_pow_pos _) once)
      exact ⟨sweeping.top single, sweeping.mutated⟩
    · rename_i lower
      have more : (leaves.length - 1) / 2 ^ climb.level ≠ 0 := by
        intro single
        have complete := sweeping.count
        rw [single, zero_add, one_mul] at complete
        exact lower complete
      obtain ⟨next, higher, bit⟩ := climbSweep_spec processed some
        (sweeping.combineSelf some more (sweeping.testBit.mp set)) incomplete (Nat.le_add_right _ _)
      replace higher : climb.level + 1 ≤ _ := higher
      apply ih next bit
      · exact fun divides => incomplete (dvd_trans (Nat.pow_dvd_pow 2 (by omega)) divides)
      · omega

end Sweep

/-- The computation finds the root and reports equal complete neighbours. -/
theorem merkleComputation_spec (some : leaves ≠ []) (branchpos : Nat) :
    (merkleComputation pair leaves branchpos).1 = root pair leaves ∧
      ((merkleComputation pair leaves branchpos).2.1 = true ↔ Repeats pair leaves) := by
  have positive := length_pos_iff.mpr some
  have processed : Processed pair leaves _ := processed_foldl branchpos leaves
  have nonempty : ¬ leaves.isEmpty = true := by simpa using some
  rw [merkleComputation, if_neg nonempty]
  generalize leaves.foldl (processLeaf pair branchpos) _ = state at processed
  simp only [processed.count]
  obtain ⟨divides, set⟩ := lowestLevel_spec positive (le_refl (leaves.length + 0)) (one_dvd _)
  have sweeping := processed.sweeping divides set
  obtain ⟨top, mutated⟩ := sweep_spec processed some (sweeping some) set (not_dvd_of_testBit set) (le_add_right _ _)
  rw [mutated]
  exact ⟨top, processed.mutated⟩

/-- The root and the flag of a nonempty list. -/
theorem computeMerkleRoot_spec (pair : Uint256 → Uint256 → Uint256) (some : leaves ≠ []) :
    (computeMerkleRoot pair leaves).1 = root pair leaves ∧
      ((computeMerkleRoot pair leaves).2 = true ↔ Repeats pair leaves) :=
  merkleComputation_spec some 0xffffffff

/-- Two lists that are not found mutated and whose roots agree are equal, for a hash that separates the pairs it is
applied to and never gives a leaf; and the root is that of the tree built level by level. -/
theorem computeMerkleRoot_sound : (∀ leaves others : List Uint256, leaves ≠ [] → others ≠ [] →
      Set.InjOn (uncurry hashPair) { hashed | hashed ∈ hashedPairs hashPair leaves ++ hashedPairs hashPair others } →
      (∀ hashed ∈ hashedPairs hashPair leaves ++ hashedPairs hashPair others,
        uncurry hashPair hashed ∉ leaves ++ others) →
      (computeMerkleRoot hashPair leaves).1 = (computeMerkleRoot hashPair others).1 →
      (computeMerkleRoot hashPair leaves).2 = false → (computeMerkleRoot hashPair others).2 = false →
      leaves = others) ∧
    ∀ leaves : List Uint256, (computeMerkleRoot hashPair leaves).1 = (recursiveRoot hashPair leaves).getD 0 := by
  constructor
  · intro leaves others someLeft someRight injective separate equal cleanLeft cleanRight
    obtain ⟨rootLeft, mutatedLeft⟩ := computeMerkleRoot_spec hashPair someLeft
    obtain ⟨rootRight, mutatedRight⟩ := computeMerkleRoot_spec hashPair someRight
    rw [rootLeft, rootRight] at equal
    rw [← Bool.not_eq_true, mutatedLeft] at cleanLeft
    rw [← Bool.not_eq_true, mutatedRight] at cleanRight
    exact root_injective injective (fun _ => mem_append_left _) (fun _ => mem_append_right _) someLeft someRight
      separate cleanLeft cleanRight equal
  · intro leaves
    rcases eq_or_ne leaves [] with rfl | some
    · rw [recursiveRoot]
      rfl
    · rw [(computeMerkleRoot_spec hashPair some).1, recursiveRoot_eq_root some]
      rfl

/-- A stand-in for the hash that separates small words. -/
def joinedWords (left right : Uint256) : Uint256 := left * 65536 + right + 4294967296

theorem joinedWords_injOn {pairs : List (Uint256 × Uint256)}
    (separates : (pairs.all fun first => pairs.all fun second =>
      decide (uncurry joinedWords first = uncurry joinedWords second → first = second)) = true) :
    Set.InjOn (uncurry joinedWords) { hashed | hashed ∈ pairs } := by
  intro first inFirst second inSecond
  exact of_decide_eq_true (all_eq_true.mp (all_eq_true.mp separates first inFirst) second inSecond)

theorem computeMerkleRoot_sound_three :
    (computeMerkleRoot joinedWords [1, 2, 3]).2 = false ∧ ([1, 2, 3] : List Uint256) = [1, 2, 3] ∧
      (computeMerkleRoot joinedWords [1, 2, 3]).1 = (recursiveRoot joinedWords [1, 2, 3]).getD 0 := by
  have clean : (computeMerkleRoot joinedWords [1, 2, 3]).2 = false := by decide +kernel
  have fresh : ((hashedPairs joinedWords [1, 2, 3] ++ hashedPairs joinedWords [1, 2, 3]).all fun hashed =>
      decide (uncurry joinedWords hashed ∉ ([1, 2, 3] ++ [1, 2, 3] : List Uint256))) = true := by decide +kernel
  refine ⟨clean, (computeMerkleRoot_sound joinedWords).1 _ _ (by simp) (by simp) (joinedWords_injOn (by decide +kernel))
    ?_ rfl clean clean, (computeMerkleRoot_sound joinedWords).2 _⟩
  intro hashed member
  exact of_decide_eq_true (all_eq_true.mp fresh hashed member)

end Straks.Chain
