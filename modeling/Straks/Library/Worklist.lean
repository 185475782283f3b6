import Straks.Library.OrderedSet
import Mathlib.Tactic

namespace Straks.Worklist
open Relation Finset

variable {α Error : Type} [DecidableEq α]

/-- Stages the values that have not been found yet. -/
def stageNew (before : α → α → Bool) (found : OrderedSet α) (values : List α) (stage : OrderedSet α) : OrderedSet α :=
  values.foldl (fun stage value => if found.contains value then stage else stage.insert before value) stage

/-- Adds the first staged element and stages its successors, until nothing is staged. -/
def walk (before : α → α → Bool) (next : α → Except Error (OrderedSet α)) (diverged : Error) :
    Nat → OrderedSet α → OrderedSet α → Except Error (OrderedSet α)
  | fuel, stage, found =>
    match stage.elements with
    | [] => .ok found
    | first :: _ =>
      match fuel with
      | 0 => .error diverged
      | fuel + 1 => do
        let found := found.insert before first
        let successors ← next first
        walk before next diverged fuel (stageNew before found successors.elements (stage.erase first)) found

@[simp] theorem mem_stageNew {before : α → α → Bool} {found stage : OrderedSet α} {values : List α} {other : α} :
    other ∈ stageNew before found values stage ↔ other ∈ stage ∨ other ∈ values ∧ other ∉ found := by
  induction values generalizing stage with
  | nil => simp [stageNew]
  | cons value rest ih =>
    rw [stageNew, List.foldl_cons, ← stageNew, ih, List.mem_cons]
    by_cases seen : value ∈ found
    · rw [if_pos (OrderedSet.contains_iff.mpr seen)]
      constructor
      · tauto
      · intro either
        rcases either with staged | ⟨rfl | later, unseen⟩
        · exact .inl staged
        · exact absurd seen unseen
        · exact .inr ⟨later, unseen⟩
    · rw [if_neg (by simpa using seen), OrderedSet.mem_insert]
      constructor
      · intro either
        rcases either with (rfl | staged) | later
        · exact .inr ⟨.inl rfl, seen⟩
        · exact .inl staged
        · exact .inr ⟨.inr later.1, later.2⟩
      · tauto

/-- Before each turn: successors of what was found are found or staged, and what is left outnumbers neither the
carrier nor the fuel. -/
structure Walking (successor : α → α → Prop) (carrier : Finset α) (fuel : Nat) (stage found : OrderedSet α) : Prop where
  disjoint : ∀ value ∈ stage, value ∉ found
  closed : ∀ value ∈ found, ∀ other, successor value other → other ∈ found ∨ other ∈ stage
  inside : ∀ value ∈ stage, value ∈ carrier
  enough : (carrier \ found.toFinset).card ≤ fuel

section Step

variable {successor : α → α → Prop} {carrier : Finset α} {fuel : Nat} {stage found successors : OrderedSet α} {first : α}

theorem Walking.step (before : α → α → Bool) (walking : Walking successor carrier (fuel + 1) stage found) (member : first ∈ stage)
    (within : ∀ other, successor first other → other ∈ carrier)
    (isSuccessors : ∀ other, other ∈ successors ↔ successor first other) : Walking successor carrier fuel
      (stageNew before (found.insert before first) successors.elements (stage.erase first))
      (found.insert before first) := by
  constructor
  · intro value staged
    rw [mem_stageNew, OrderedSet.mem_erase] at staged
    rcases staged with ⟨apart, staged⟩ | ⟨-, unseen⟩
    · simp [apart, walking.disjoint value staged]
    · exact unseen
  · intro value seen other follows
    rw [mem_stageNew, OrderedSet.mem_erase, OrderedSet.mem_insert]
    rcases OrderedSet.mem_insert.mp seen with rfl | seen
    · by_cases known : other = value ∨ other ∈ found
      · exact .inl known
      · exact .inr (.inr ⟨(isSuccessors other).mpr follows, by simpa using known⟩)
    · rcases walking.closed value seen other follows with known | staged
      · exact .inl (.inr known)
      · by_cases same : other = first
        · exact .inl (.inl same)
        · exact .inr (.inl ⟨same, staged⟩)
  · intro value staged
    rw [mem_stageNew, OrderedSet.mem_erase] at staged
    rcases staged with ⟨-, staged⟩ | ⟨follows, -⟩
    · exact walking.inside value staged
    · exact within value ((isSuccessors value).mp follows)
  · have fewer : carrier \ (found.insert before first).toFinset ⊂ carrier \ found.toFinset := by
      apply (ssubset_iff_of_subset ?_).mpr
      · exact ⟨first, by simp [walking.inside first member, walking.disjoint first member], by simp⟩
      · intro value
        simp only [mem_sdiff, OrderedSet.mem_toFinset, OrderedSet.mem_insert]
        tauto
    have smaller := card_lt_card fewer
    have enough := walking.enough
    omega

end Step

/-- The walk ends with what is reachable from staged elements and what was found before. -/
theorem walk_reaches (before : α → α → Bool) {next : α → Except Error (OrderedSet α)} (diverged : Error)
    {successor : α → α → Prop} {carrier : Finset α}
    (nexts : ∀ value ∈ carrier, ∃ successors, next value = .ok successors ∧
      ∀ other, other ∈ successors ↔ successor value other)
    (within : ∀ value ∈ carrier, ∀ other, successor value other → other ∈ carrier)
    {fuel : Nat} {stage found : OrderedSet α} (walking : Walking successor carrier fuel stage found) :
    ∃ reached, walk before next diverged fuel stage found = .ok reached ∧
      ∀ other, other ∈ reached ↔ other ∈ found ∨ ∃ start ∈ stage, ReflTransGen successor start other := by
  fun_induction walk before next diverged fuel stage found with
  | case1 fuel stage found staged => simp [OrderedSet.mem_def, staged]
  | case2 stage found first rest staged =>
    have member : first ∈ stage := by simp [OrderedSet.mem_def, staged]
    have nothing := card_eq_zero.mp (Nat.le_zero.mp walking.enough)
    have remains : first ∈ carrier \ found.toFinset := by
      simp [walking.inside first member, walking.disjoint first member]
    rw [nothing] at remains
    exact absurd remains (notMem_empty first)
  | case3 stage found first rest staged fuel found' ih =>
    have member : first ∈ stage := by simp [OrderedSet.mem_def, staged]
    obtain ⟨successors, answered, isSuccessors⟩ := nexts first (walking.inside first member)
    have later := walking.step before member (within first (walking.inside first member)) isSuccessors
    obtain ⟨reached, walked, isReached⟩ := ih successors later
    rw [answered]
    refine ⟨reached, walked, fun other => ?_⟩
    -- What is reached contains the successors of each of its elements, so it contains every path from the first one.
    have closed : ∀ value ∈ reached, ∀ other, successor value other → other ∈ reached := by
      intro value seen other follows
      rw [isReached] at seen ⊢
      rcases seen with known | ⟨start, staged, path⟩
      · rcases later.closed value known other follows with known | staged
        · exact .inl known
        · exact .inr ⟨other, staged, .refl⟩
      · exact .inr ⟨start, staged, path.tail follows⟩
    constructor
    · intro seen
      rcases (isReached other).mp seen with known | ⟨start, staged, path⟩
      · rcases OrderedSet.mem_insert.mp known with rfl | known
        · exact .inr ⟨other, member, .refl⟩
        · exact .inl known
      · rw [mem_stageNew, OrderedSet.mem_erase] at staged
        rcases staged with ⟨-, staged⟩ | ⟨follows, -⟩
        · exact .inr ⟨start, staged, path⟩
        · exact .inr ⟨first, member, .head ((isSuccessors start).mp follows) path⟩
    · intro either
      rcases either with known | ⟨start, staged, path⟩
      · exact (isReached other).mpr (.inl (OrderedSet.mem_insert.mpr (.inr known)))
      · have seen : start ∈ reached := by
          by_cases same : start = first
          · exact (isReached start).mpr (.inl (OrderedSet.mem_insert.mpr (.inl same)))
          · have kept : start ∈ stage.erase first := OrderedSet.mem_erase.mpr ⟨same, staged⟩
            exact (isReached start).mpr (.inr ⟨start, mem_stageNew.mpr (.inl kept), .refl⟩)
        induction path with
        | refl => exact seen
        | tail _ follows ih => exact closed _ ih _ follows

end Straks.Worklist
