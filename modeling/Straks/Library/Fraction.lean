import Mathlib.Algebra.Order.Field.Rat
import Mathlib.Tactic.FieldSimp

namespace Straks.Fraction

variable {Item : Type}

/-- Fractions are compared by cross products, the higher first; equal ones by a second comparison. -/
def Precedes (numerator denominator : Item → Int) (tie : Item → Item → Prop) (first second : Item) : Prop :=
  if numerator first * denominator second = numerator second * denominator first then tie first second
  else numerator second * denominator first < numerator first * denominator second

variable {a b c d : Int} {numerator denominator : Item → Int} {tie : Item → Item → Prop}

theorem cross_lt_iff (positiveLeft : 0 < b) (positiveRight : 0 < d) : a * d < c * b ↔ (a / b : ℚ) < c / d := by
  rw [div_lt_div_iff₀ (by exact_mod_cast positiveLeft) (by exact_mod_cast positiveRight)]
  exact_mod_cast Iff.rfl

theorem cross_eq_iff (positiveLeft : 0 < b) (positiveRight : 0 < d) : a * d = c * b ↔ (a / b : ℚ) = c / d := by
  rw [div_eq_div_iff (by exact_mod_cast positiveLeft.ne') (by exact_mod_cast positiveRight.ne')]
  exact_mod_cast Iff.rfl

/-- The comparison is lexicographic in the values of the fractions. -/
theorem precedes_iff {first second : Item} (positive : 0 < denominator first) (positiveOther : 0 < denominator second) :
    Precedes numerator denominator tie first second ↔
      (numerator second / denominator second : ℚ) < numerator first / denominator first ∨
        (numerator first / denominator first : ℚ) = numerator second / denominator second ∧ tie first second := by
  rw [Precedes, ← cross_lt_iff positiveOther positive, ← cross_eq_iff positive positiveOther]
  split
  · rename_i same
    simp [same]
  · rename_i apart
    simp [apart]

/-- With a strict weak order among equals the comparison is one. -/
theorem precedes_strictWeak {Sized : Item → Prop} (positive : ∀ item, Sized item → 0 < denominator item)
    (weak : IsStrictWeakOrder Item tie) : IsStrictWeakOrder { item // Sized item } fun first second =>
      Precedes numerator denominator tie first.1 second.1 where
  irrefl item := by
    simp [precedes_iff (positive item.1 item.2) (positive item.1 item.2), weak.irrefl]
  trans first second third := by
    have transitive := weak.trans first.1 second.1 third.1
    have each (one two : { item // Sized item }) := @precedes_iff _ numerator denominator tie one.1 two.1
      (positive one.1 one.2) (positive two.1 two.2)
    grind
  incomp_trans first second third := by
    have transitive := weak.incomp_trans first.1 second.1 third.1
    have each (one two : { item // Sized item }) := @precedes_iff _ numerator denominator tie one.1 two.1
      (positive one.1 one.2) (positive two.1 two.2)
    grind

end Straks.Fraction
