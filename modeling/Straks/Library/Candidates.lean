import Mathlib.Order.Lattice
import Mathlib.Data.List.Basic

namespace Straks.Candidates

open List

variable {Node Key : Type}

/-- The last element of a set sorted by a comparison. -/
def last (less : Node → Node → Bool) : List Node → Option Node
  | [] => none
  | first :: rest => some (rest.foldl (fun best node => if less best node then node else best) first)

variable [LinearOrder Key] {key : Node → Key} {less : Node → Node → Bool}

/-- The fold ends at its start or an element, greatest of those seen. -/
theorem foldl_last (sorted : ∀ left right, less left right = true ↔ key left < key right) (nodes : List Node)
    (first : Node) :
    let best := nodes.foldl (fun best node => if less best node then node else best) first
    (best = first ∨ best ∈ nodes) ∧ key first ≤ key best ∧ ∀ node ∈ nodes, key node ≤ key best := by
  induction nodes generalizing first with
  | nil => exact ⟨.inl rfl, le_refl _, fun _ member => nomatch member⟩
  | cons node rest ih =>
    simp only [foldl_cons]
    cases greater : less first node with
    | true =>
      obtain ⟨found, bound, all⟩ := ih node
      have larger := (sorted first node).mp greater
      simp only [if_true]
      refine ⟨?_, larger.le.trans bound, ?_⟩
      · rcases found with same | member
        · rw [same]
          exact .inr mem_cons_self
        · exact .inr (mem_cons_of_mem node member)
      · intro other member
        rcases mem_cons.mp member with rfl | inRest
        · exact bound
        · exact all other inRest
    | false =>
      obtain ⟨found, bound, all⟩ := ih first
      have smaller : key node ≤ key first := by
        rw [← not_lt, ← sorted, greater]
        exact Bool.false_ne_true
      refine ⟨?_, bound, ?_⟩
      · exact found.imp_right (mem_cons_of_mem node)
      · intro other member
        rcases mem_cons.mp member with rfl | inRest
        · exact smaller.trans bound
        · exact all other inRest

theorem last_eq_none {nodes : List Node} (empty : last less nodes = none) : nodes = [] := by
  cases nodes with
  | nil => rfl
  | cons first rest => cases empty

/-- The last element is an element, and no element is greater. -/
theorem last_eq_some (sorted : ∀ left right, less left right = true ↔ key left < key right) {nodes : List Node}
    {best : Node} (found : last less nodes = some best) : best ∈ nodes ∧ ∀ node ∈ nodes, key node ≤ key best := by
  cases nodes with
  | nil => cases found
  | cons first rest =>
    obtain rfl := Option.some.inj found
    obtain ⟨here, bound, all⟩ := foldl_last sorted rest first
    refine ⟨?_, ?_⟩
    · rcases here with same | member
      · rw [same]
        exact mem_cons_self
      · exact mem_cons_of_mem first member
    · intro node member
      rcases mem_cons.mp member with rfl | inRest
      · exact bound
      · exact all node inRest

/-- The candidates contain the anchor and every live node not below it. -/
structure Covers (key : Node → Key) (live : Node → Prop) (candidates : List Node) (anchor : Node) : Prop where
  member : anchor ∈ candidates
  anchored : live anchor
  covered : ∀ node, live node → node ∈ candidates ∨ key node < key anchor

namespace Covers

variable {live : Node → Prop} {candidates : List Node} {anchor : Node}

/-- A greatest candidate is as good as every live node. -/
theorem best (covers : Covers key live candidates anchor) {best : Node}
    (greatest : ∀ node ∈ candidates, key node ≤ key best) (node : Node) (alive : live node) :
    key node ≤ key best := by
  rcases covers.covered node alive with member | below
  · exact greatest node member
  · exact below.le.trans (greatest anchor covers.member)

/-- Live nodes may die, and dead candidates may leave, as long as the anchor lives. -/
theorem shrink (covers : Covers key live candidates anchor) {alive : Node → Prop} {remaining : List Node}
    (fewer : ∀ node, alive node → live node) (anchored : alive anchor)
    (kept : ∀ node ∈ candidates, alive node → node ∈ remaining) : Covers key alive remaining anchor where
  member := kept anchor covers.member anchored
  anchored := anchored
  covered := fun node nodeAlive =>
    (covers.covered node (fewer node nodeAlive)).imp_left fun member => kept node member nodeAlive

/-- Dropping the candidates below a live node keeps a cover, anchored at the greater of the node and the old anchor.
-/
theorem prune (covers : Covers key live candidates anchor) {node : Node} (alive : live node) {remaining : List Node}
    (kept : ∀ other ∈ candidates, key node ≤ key other → other ∈ remaining) :
    ∃ next, Covers key live remaining next ∧ key node ≤ key next ∧ (next = anchor ∨ next = node) := by
  rcases lt_or_ge (key node) (key anchor) with below | above
  · refine ⟨anchor, ⟨kept anchor covers.member below.le, covers.anchored, ?_⟩, below.le, .inl rfl⟩
    intro other otherAlive
    rcases covers.covered other otherAlive with member | less
    · rcases lt_or_ge (key other) (key node) with dropped | stays
      · exact .inr (dropped.trans below)
      · exact .inl (kept other member stays)
    · exact .inr less
  · have member : node ∈ candidates := (covers.covered node alive).resolve_right (not_lt.mpr above)
    refine ⟨node, ⟨kept node member (le_refl _), alive, ?_⟩, le_refl _, .inr rfl⟩
    intro other otherAlive
    rcases covers.covered other otherAlive with otherMember | less
    · rcases lt_or_ge (key other) (key node) with dropped | stays
      · exact .inr dropped
      · exact .inl (kept other otherMember stays)
    · exact .inr (less.trans_le above)

/-- One more node comes to life, as a candidate or below the anchor. -/
theorem extend (covers : Covers key live candidates anchor) {newKey : Node → Key} {alive : Node → Prop}
    {more : List Node} {new : Node} (sameKey : ∀ node, node ≠ new → newKey node = key node)
    (fewer : ∀ node, node ≠ new → alive node → live node) (notAnchor : anchor ≠ new) (anchored : alive anchor)
    (kept : ∀ node ∈ candidates, node ∈ more) (added : alive new → new ∈ more ∨ newKey new < newKey anchor) :
    Covers newKey alive more anchor where
  member := kept anchor covers.member
  anchored := anchored
  covered := by
    intro node nodeAlive
    by_cases isNew : node = new
    · subst isNew
      exact added nodeAlive
    · rw [sameKey node isNew, sameKey anchor notAnchor]
      exact (covers.covered node (fewer node isNew nodeAlive)).imp_left (kept node)

end Covers

end Straks.Candidates
