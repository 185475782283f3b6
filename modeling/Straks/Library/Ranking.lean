import Mathlib.Order.Lattice

namespace Straks.Ranking

variable {Name Score : Type}

/-- The names with their scores. -/
def tabulate (score : Name → Score) (names : List Name) : List (Score × Name) :=
  names.map fun name => (score name, name)

variable [LinearOrder Score]

/-- Puts the highest scores first, equal ones in any order. -/
structure Sorter (Score Name : Type) [LinearOrder Score] where
  sort : List (Score × Name) → List (Score × Name)
  perm : ∀ table, (sort table).Perm table
  descending : ∀ table, (sort table).Pairwise fun first second => second.1 ≤ first.1

/-- The names in the order of a sorting algorithm. -/
def Sorter.order (sorter : Sorter Score Name) (score : Name → Score) (names : List Name) : List Name :=
  (sorter.sort (tabulate score names)).map Prod.snd

theorem Sorter.order_perm (sorter : Sorter Score Name) (score : Name → Score) (names : List Name) :
    (sorter.order score names).Perm names := by
  have back : (tabulate score names).map Prod.snd = names := by simp [tabulate, Function.comp_def]
  have sorted := (sorter.perm (tabulate score names)).map Prod.snd
  rwa [back] at sorted

end Straks.Ranking
