import Straks.Construction.Chain.SkipList
import Mathlib.Tactic.Common

namespace Straks.SkipList

variable {Header : Type}

theorem invertLowestOne_le (n : Nat) : invertLowestOne n ≤ n - 1 := Nat.and_le_right

/-- A skip pointer leads below its block. -/
theorem getSkipHeight_lt {height : Nat} (positive : 0 < height) : getSkipHeight height < height := by
  have once := invertLowestOne_le height
  have inner := invertLowestOne_le (height - 1)
  have outer := invertLowestOne_le (invertLowestOne (height - 1))
  unfold getSkipHeight
  split_ifs with low odd
  · exact positive
  · -- at height three both inversions give zero
    omega
  · omega

/-- The skip pointer is the ancestor at the skip height, here and in all predecessors. -/
def CBlockIndex.Linked : CBlockIndex Header → Prop
  | .null => True
  | .entry _ nHeight pprev pskip => pprev.Linked ∧
      (pprev.isNull = true ∧ nHeight = 0 ∨ pprev.isNull = false ∧ nHeight = pprev.nHeight + 1 ∧
        pskip = CBlockIndex.pprev^[nHeight - 1 - getSkipHeight nHeight] pprev)

variable {pindex : CBlockIndex Header}

/-- The predecessors of a linked entry go down to zero, one height at a time. -/
theorem CBlockIndex.Linked.ancestor (linked : pindex.Linked) (present : pindex.isNull = false) {count : Nat}
    (within : count ≤ pindex.nHeight) :
    let ancestor := CBlockIndex.pprev^[count] pindex
    ancestor.Linked ∧ ancestor.isNull = false ∧ ancestor.nHeight = pindex.nHeight - count := by
  induction count generalizing pindex with
  | zero => exact ⟨linked, present, rfl⟩
  | succ count ih =>
    cases pindex with
    | null => cases present
    | entry header nHeight pprev pskip =>
      obtain ⟨prevLinked, ⟨-, genesis⟩ | ⟨prevPresent, next, -⟩⟩ := linked
      · exact absurd within (by simp [CBlockIndex.nHeight, genesis])
      · simp only [CBlockIndex.nHeight] at within ⊢
        obtain ⟨first, second, third⟩ := ih prevLinked prevPresent (by omega)
        exact ⟨first, second, third.trans (by omega)⟩

theorem CBlockIndex.Linked.pskip_eq {header : Header} {nHeight : Nat} {pprev pskip : CBlockIndex Header}
    (linked : (entry header nHeight pprev pskip).Linked) (positive : 0 < nHeight) :
    pskip = CBlockIndex.pprev^[nHeight - getSkipHeight nHeight] (entry header nHeight pprev pskip) := by
  have down := getSkipHeight_lt positive
  obtain ⟨-, ⟨-, genesis⟩ | ⟨-, -, skip⟩⟩ := linked
  · omega
  · rw [show nHeight - getSkipHeight nHeight = nHeight - 1 - getSkipHeight nHeight + 1 by omega]
    exact skip

/-- The loop finds the predecessor at the height, whichever pointers it follows. -/
theorem walkBack_eq {height fuel heightWalk : Nat} (linked : pindex.Linked) (present : pindex.isNull = false)
    (top : pindex.nHeight = heightWalk) (below : height ≤ heightWalk) (enough : heightWalk ≤ fuel) :
    walkBack height fuel pindex heightWalk = .ok (CBlockIndex.pprev^[heightWalk - height] pindex) := by
  induction fuel generalizing pindex heightWalk with
  | zero => rw [walkBack, if_neg (by omega), Nat.sub_eq_zero_of_le (by omega), Function.iterate_zero_apply]
  | succ fuel ih =>
    cases pindex with
    | null => cases present
    | entry header nHeight pprev pskip =>
      obtain rfl : nHeight = heightWalk := top
      simp only [walkBack]
      split_ifs with above taken lost
      · have down := getSkipHeight_lt (Nat.zero_lt_of_lt above)
        have skip := linked.pskip_eq (Nat.zero_lt_of_lt above)
        obtain ⟨skipLinked, skipPresent, skipHeight⟩ :=
          linked.ancestor present (Nat.sub_le nHeight (getSkipHeight nHeight))
        rw [← skip] at skipLinked skipPresent skipHeight
        have turns : nHeight - height = getSkipHeight nHeight - height + (nHeight - getSkipHeight nHeight) := by
          omega
        rw [turns, Function.iterate_add_apply, ← skip]
        exact ih skipLinked skipPresent (skipHeight.trans (Nat.sub_sub_self (Nat.le_of_lt down))) (by omega) (by omega)
      · obtain ⟨-, ⟨-, genesis⟩ | ⟨prevPresent, -⟩⟩ := linked
        · omega
        · exact absurd lost (by simp [prevPresent])
      · obtain ⟨prevLinked, prevPresent, prevHeight⟩ := linked.ancestor present (Nat.one_le_of_lt above)
        rw [show nHeight - height = (nHeight - 1 - height) + 1 by omega]
        exact ih prevLinked prevPresent prevHeight (Nat.le_sub_one_of_lt above) (Nat.sub_le_of_le_add enough)
      · rw [Nat.sub_eq_zero_of_le (Nat.le_of_not_lt above), Function.iterate_zero_apply]

theorem getAncestor_eq (linked : pindex.Linked) (present : pindex.isNull = false) {height : Nat}
    (below : height ≤ pindex.nHeight) :
    pindex.getAncestor height = .ok (CBlockIndex.pprev^[pindex.nHeight - height] pindex) := by
  cases pindex with
  | null => cases present
  | entry header nHeight pprev pskip =>
    simp only [CBlockIndex.nHeight] at below
    rw [CBlockIndex.getAncestor, if_neg (by omega)]
    exact walkBack_eq linked present rfl below Nat.le.refl

theorem buildChain_linked (headers : List Header) :
    ∃ pindex, buildChain headers = .ok pindex ∧ pindex.Linked ∧ pindex.isNull = headers.isEmpty ∧
      pindex.nHeight = headers.length - 1 := by
  induction headers with
  | nil => exact ⟨_, rfl, trivial, rfl, rfl⟩
  | cons header older ih =>
    obtain ⟨pprev, built, linked, present, height⟩ := ih
    have step : buildChain (header :: older) = buildSkip header pprev := by
      rw [buildChain, built]
      rfl
    rw [step]
    cases older with
    | nil =>
      cases pprev with
      | null => exact ⟨.entry header 0 .null .null, rfl, ⟨trivial, .inl ⟨rfl, rfl⟩⟩, rfl, rfl⟩
      | entry => cases present
    | cons previous rest =>
      cases pprev with
      | null => cases present
      | entry previous nHeight before pskip =>
        have low : getSkipHeight (nHeight + 1) ≤ nHeight := Nat.le_of_lt_succ (getSkipHeight_lt nHeight.succ_pos)
        have skip := getAncestor_eq linked rfl low
        refine ⟨.entry header (nHeight + 1) _ _, ?_, ⟨linked, .inr ⟨rfl, rfl, rfl⟩⟩, rfl, congrArg (· + 1) height⟩
        rw [buildSkip, skip]
        rfl

/-- Building a chain never fails, and from its newest block `GetAncestor` returns for every height up to the block's
own the entry of that height which `pprev` leads to. -/
theorem buildChain_getAncestor (header : Header) (older : List Header) :
    ∃ pindex, buildChain (header :: older) = .ok pindex ∧ pindex.nHeight = older.length ∧ ∀ height ≤ older.length,
        pindex.getAncestor height = .ok (CBlockIndex.pprev^[older.length - height] pindex) ∧
          (CBlockIndex.pprev^[older.length - height] pindex).nHeight = height := by
  obtain ⟨pindex, built, linked, present, top⟩ := buildChain_linked (header :: older)
  have top : pindex.nHeight = older.length := top
  refine ⟨pindex, built, top, fun height below => ?_⟩
  rw [← top] at below ⊢
  have reached := (linked.ancestor present (Nat.sub_le _ height)).2.2
  exact ⟨getAncestor_eq linked present below, reached.trans (Nat.sub_sub_self below)⟩

end Straks.SkipList
