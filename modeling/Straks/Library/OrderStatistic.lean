import Mathlib.Data.List.GetD
import Mathlib.Data.List.Sort

namespace Straks.OrderStatistic

open List

variable {Value : Type} [LinearOrder Value]

/-- An entry of a sorted list is at least a bound exactly when at most those before it are below. -/
theorem le_getElem_iff {values : List Value} (sorted : values.Pairwise (· ≤ ·)) {rank : Nat} (inside : rank < values.length)
    (bound : Value) : bound ≤ values[rank] ↔ values.countP (· < bound) ≤ rank := by
  induction values generalizing rank with
  | nil => exact absurd inside (Nat.not_lt_zero rank)
  | cons least rest ih =>
    rw [pairwise_cons] at sorted
    rw [countP_cons]
    by_cases below : least < bound
    · rw [if_pos (decide_eq_true below)]
      cases rank with
      | zero => exact iff_of_false (not_le.mpr below) (Nat.not_succ_le_zero _)
      | succ rank =>
        rw [Nat.add_le_add_iff_right]
        exact ih sorted.2 (Nat.lt_of_succ_lt_succ inside)
    · have above : ∀ value ∈ least :: rest, bound ≤ value :=
        forall_mem_cons.mpr ⟨not_lt.mp below, fun value member => (not_lt.mp below).trans (sorted.1 value member)⟩
      have none : rest.countP (· < bound) = 0 := by
        rw [countP_eq_zero]
        intro value member
        rw [decide_eq_true_iff, not_lt]
        exact above value (mem_cons_of_mem least member)
      rw [none, if_neg (by simpa using below)]
      exact iff_of_true (above _ (getElem_mem inside)) (Nat.zero_le rank)

/-- The same for an entry of the sorted form of any list. -/
theorem le_getD_insertionSort_iff {values : List Value} {rank : Nat} (inside : rank < values.length)
    (bound default : Value) :
    bound ≤ (values.insertionSort (· ≤ ·)).getD rank default ↔ values.countP (· < bound) ≤ rank := by
  have sorted := pairwise_insertionSort (· ≤ ·) values
  have same := perm_insertionSort (· ≤ ·) values
  have inside' : rank < (values.insertionSort (· ≤ ·)).length := by rwa [same.length_eq]
  rw [getD_eq_getElem _ _ inside', le_getElem_iff sorted inside' bound, same.countP_eq]

end Straks.OrderStatistic
