import Mathlib.Tactic

namespace Straks
open Relation Finset ReflTransGen

/-- A finite set of elements with parents among them. -/
@[ext] structure Family (α : Type) where
  carrier : Finset α
  parent : α → α → Prop
  inside : ∀ child value, parent child value → child ∈ carrier ∧ value ∈ carrier

namespace Family

variable {α : Type} (family : Family α)

/-- No element is its own proper ancestor. -/
def Acyclic : Prop := ∀ value, ¬ TransGen family.parent value value

/-- The value is the element itself or one of its ancestors. -/
def Reaches : α → α → Prop := ReflTransGen family.parent

open Classical in
/-- An element with its ancestors. -/
noncomputable def up (value : α) : Finset α := family.carrier.filter (family.Reaches value)

open Classical in
/-- An element with its descendants. -/
noncomputable def down (value : α) : Finset α := family.carrier.filter fun other => family.Reaches other value

variable {family} {value other child root added : α}

@[simp] theorem mem_up : other ∈ family.up value ↔ other ∈ family.carrier ∧ family.Reaches value other := by
  simp [up]

@[simp] theorem mem_down : other ∈ family.down value ↔ other ∈ family.carrier ∧ family.Reaches other value := by
  simp [down]

theorem up_subset : family.up value ⊆ family.carrier := fun _ member => (mem_up.mp member).1

theorem down_subset : family.down value ⊆ family.carrier := fun _ member => (mem_down.mp member).1

theorem self_mem_up (member : value ∈ family.carrier) : value ∈ family.up value := mem_up.mpr ⟨member, .refl⟩

theorem self_mem_down (member : value ∈ family.carrier) : value ∈ family.down value := mem_down.mpr ⟨member, .refl⟩

theorem Reaches.mem (reaches : family.Reaches child value) (member : child ∈ family.carrier) :
    value ∈ family.carrier := by
  induction reaches with
  | refl => exact member
  | tail _ step _ => exact (family.inside _ _ step).2

theorem Reaches.child_mem (reaches : family.Reaches child value) (member : value ∈ family.carrier) :
    child ∈ family.carrier := by
  rcases cases_head reaches with same | ⟨next, step, -⟩
  · exact same ▸ member
  · exact (family.inside _ _ step).1

/-- Proper ancestors are the ancestors but the element itself. -/
theorem Acyclic.transGen_iff (acyclic : family.Acyclic) :
    TransGen family.parent child value ↔ family.Reaches child value ∧ value ≠ child := by
  constructor
  · intro path
    refine ⟨path.to_reflTransGen, ?_⟩
    intro same
    rw [same] at path
    exact acyclic child path
  · intro path
    rcases reflTransGen_iff_eq_or_transGen.mp path.1 with same | proper
    · exact absurd same path.2
    · exact proper

/-- Relations agreeing on an upward closed region reach the same from it. -/
theorem reaches_congr {first second : α → α → Prop} (region : α → Prop)
    (same : ∀ child value, region child → (first child value ↔ second child value))
    (closed : ∀ child value, region child → first child value → region value) (inside : region child) :
    ReflTransGen first child value ↔ ReflTransGen second child value := by
  constructor
  · intro path
    induction path using head_induction_on with
    | refl => exact .refl
    | head step _ ih => exact .head ((same _ _ inside).mp step) (ih (closed _ _ inside step))
  · intro path
    induction path using head_induction_on with
    | refl => exact .refl
    | head step _ ih =>
      have original := (same _ _ inside).mpr step
      exact .head original (ih (closed _ _ inside original))

section Add

variable [DecidableEq α]

/-- A new element joins, with parents but without children. -/
def add (family : Family α) (added : α) (parents : Finset α) : Family α where
  carrier := insert added family.carrier
  parent child value := family.parent child value ∨ child = added ∧ value ∈ parents ∧ value ∈ family.carrier
  inside := by
    intro child value step
    rcases step with old | ⟨rfl, -, member⟩
    · have both := family.inside _ _ old
      exact ⟨mem_insert_of_mem both.1, mem_insert_of_mem both.2⟩
    · exact ⟨mem_insert_self _ _, mem_insert_of_mem member⟩

variable {parents : Finset α} (fresh : added ∉ family.carrier)
include fresh

theorem add_reaches_of_ne (old : child ≠ added) :
    (family.add added parents).Reaches child value ↔ family.Reaches child value := by
  apply (reaches_congr (fun other => other ≠ added) _ _ old).symm
  · intro child value apart
    simp [add, apart]
  · intro child value _ step same
    exact fresh (same ▸ (family.inside _ _ step).2)

theorem add_not_reaches (apart : child ≠ added) : ¬ (family.add added parents).Reaches child added := by
  intro path
  rcases path.cases_tail with same | ⟨last, -, step⟩
  · exact apart same.symm
  · rcases step with old | ⟨-, -, member⟩
    · exact fresh (family.inside _ _ old).2
    · exact fresh member

theorem Acyclic.add (acyclic : family.Acyclic) : (family.add added parents).Acyclic := by
  intro value cycle
  obtain ⟨next, step, path⟩ := TransGen.head'_iff.mp cycle
  by_cases same : value = added
  · rcases step with old | ⟨-, -, member⟩
    · exact fresh (same ▸ (family.inside _ _ old).1)
    · have apart : next ≠ added := fun same => fresh (same ▸ member)
      rw [same] at path
      exact add_not_reaches fresh apart path
  · rcases step with old | ⟨isAdded, -, -⟩
    · have apart : next ≠ added := fun same => fresh (same ▸ (family.inside _ _ old).2)
      exact acyclic value (.head' old ((add_reaches_of_ne fresh apart).mp path))
    · exact same isAdded

theorem add_up_of_mem (member : value ∈ family.carrier) : (family.add added parents).up value = family.up value := by
  have apart : value ≠ added := fun same => fresh (same ▸ member)
  ext other
  rw [mem_up, mem_up, add_reaches_of_ne fresh apart]
  constructor
  · exact fun both => ⟨both.2.mem member, both.2⟩
  · exact fun both => ⟨mem_insert_of_mem both.1, both.2⟩

theorem add_down_self : (family.add added parents).down added = {added} := by
  ext other
  rw [mem_down, mem_singleton]
  constructor
  · intro both
    by_contra apart
    exact add_not_reaches fresh apart both.2
  · rintro rfl
    exact ⟨mem_insert_self _ _, .refl⟩

omit fresh in
theorem add_up_self {ancestors : Finset α}
    (isAncestors : ∀ other, other ∈ ancestors ↔ TransGen (family.add added parents).parent added other) :
    (family.add added parents).up added = insert added ancestors := by
  ext other
  rw [mem_up, Finset.mem_insert, isAncestors, Reaches, reflTransGen_iff_eq_or_transGen]
  constructor
  · exact fun both => both.2
  · intro either
    refine ⟨?_, either⟩
    have reaches : (family.add added parents).Reaches added other := reflTransGen_iff_eq_or_transGen.mpr either
    exact reaches.mem (mem_insert_self _ _)

/-- The new element's ancestors are its parents with theirs. -/
theorem add_transGen_iff : TransGen (family.add added parents).parent added other ↔
    ∃ parent ∈ parents, parent ∈ family.carrier ∧ family.Reaches parent other := by
  rw [TransGen.head'_iff]
  constructor
  · intro path
    obtain ⟨parent, step, path⟩ := path
    rcases step with old | ⟨-, listed, member⟩
    · exact absurd (family.inside _ _ old).1 fresh
    · have apart : parent ≠ added := fun same => fresh (same ▸ member)
      exact ⟨parent, listed, member, (add_reaches_of_ne fresh apart).mp path⟩
  · intro path
    obtain ⟨parent, listed, member, path⟩ := path
    have apart : parent ≠ added := fun same => fresh (same ▸ member)
    exact ⟨parent, .inr ⟨rfl, listed, member⟩, (add_reaches_of_ne fresh apart).mpr path⟩

/-- The new element descends from an old one that is its ancestor. -/
theorem add_down_of_mem {ancestors : Finset α}
    (isAncestors : ∀ other, other ∈ ancestors ↔ TransGen (family.add added parents).parent added other)
    (member : value ∈ family.carrier) : (family.add added parents).down value =
      if value ∈ ancestors then insert added (family.down value) else family.down value := by
  have apart : value ≠ added := fun same => fresh (same ▸ member)
  have above : (family.add added parents).Reaches added value ↔ value ∈ ancestors := by
    rw [isAncestors, Reaches, reflTransGen_iff_eq_or_transGen, or_iff_right apart]
  ext other
  by_cases same : other = added
  · rw [same, mem_down, above]
    split
    · rename_i isAncestor
      simp [isAncestor, add]
    · rename_i notAncestor
      simp [notAncestor, fresh]
  · have old : (family.add added parents).Reaches other value ↔ family.Reaches other value :=
      add_reaches_of_ne fresh same
    rw [mem_down, old]
    split <;> simp [add, same]

end Add

section Remove

variable [DecidableEq α]

/-- Some elements leave, with all links to them. -/
def remove (family : Family α) (removed : Finset α) : Family α where
  carrier := family.carrier \ removed
  parent child value := family.parent child value ∧ child ∉ removed ∧ value ∉ removed
  inside := by
    intro child value step
    have both := family.inside _ _ step.1
    exact ⟨mem_sdiff.mpr ⟨both.1, step.2.1⟩, mem_sdiff.mpr ⟨both.2, step.2.2⟩⟩

variable {removed : Finset α}

theorem Acyclic.remove (acyclic : family.Acyclic) : (family.remove removed).Acyclic :=
  fun value cycle => acyclic value (TransGen.mono (fun _ _ step => And.left step) value value cycle)

section Closed

variable (closed : ∀ child value, family.parent child value → value ∈ removed → child ∈ removed)
include closed

theorem remove_reaches (kept : child ∉ removed) :
    (family.remove removed).Reaches child value ↔ family.Reaches child value := by
  apply (reaches_congr (fun other => other ∉ removed) _ _ kept).symm
  · intro child value outside
    constructor
    · exact fun step => ⟨step, outside, fun inside => outside (closed _ _ step inside)⟩
    · exact fun step => step.1
  · exact fun child value outside step inside => outside (closed _ _ step inside)

omit [DecidableEq α] in
theorem not_mem_of_reaches (kept : child ∉ removed) (reaches : family.Reaches child value) : value ∉ removed := by
  induction reaches with
  | refl => exact kept
  | tail _ step ih => exact fun inside => ih (closed _ _ step inside)

theorem remove_up (kept : value ∉ removed) : (family.remove removed).up value = family.up value := by
  ext other
  rw [mem_up, mem_up, remove_reaches closed kept]
  constructor
  · exact fun both => ⟨(mem_sdiff.mp both.1).1, both.2⟩
  · exact fun both => ⟨mem_sdiff.mpr ⟨both.1, not_mem_of_reaches closed kept both.2⟩, both.2⟩

theorem remove_down : (family.remove removed).down value = family.down value \ removed := by
  ext other
  rw [mem_sdiff, mem_down, mem_down]
  constructor
  · intro both
    have kept := (mem_sdiff.mp both.1).2
    exact ⟨⟨(mem_sdiff.mp both.1).1, (remove_reaches closed kept).mp both.2⟩, kept⟩
  · exact fun both => ⟨mem_sdiff.mpr ⟨both.1.1, both.2⟩, (remove_reaches closed both.2).mpr both.1.2⟩

end Closed

section Root

variable (orphan : ∀ value, ¬ family.parent root value)
include orphan

/-- Without a root everything else is reached as before. -/
theorem remove_root_reaches (kept : value ≠ root) :
    (family.remove {root}).Reaches child value ↔ family.Reaches child value := by
  constructor
  · exact ReflTransGen.mono (fun _ _ step => And.left step) child value
  · intro path
    induction path using head_induction_on with
    | refl => exact .refl
    | @head start middle step rest ih =>
      refine .head ⟨step, ?_, ?_⟩ ih
      · intro same
        rw [mem_singleton] at same
        exact orphan _ (same ▸ step)
      · intro same
        rw [mem_singleton] at same
        rcases rest.cases_head with ends | ⟨next, above, -⟩
        · exact kept (ends.symm.trans same)
        · exact orphan _ (same ▸ above)

theorem remove_root_up : (family.remove {root}).up value = (family.up value).erase root := by
  ext other
  rw [mem_up]
  by_cases same : other = root
  · simp [same, remove]
  · rw [remove_root_reaches orphan same]
    simp [same, remove]

theorem remove_root_down (kept : value ≠ root) : (family.remove {root}).down value = family.down value := by
  ext other
  rw [mem_down, mem_down, remove_root_reaches orphan kept]
  constructor
  · exact fun both => ⟨(mem_sdiff.mp both.1).1, both.2⟩
  · intro both
    refine ⟨mem_sdiff.mpr ⟨both.1, ?_⟩, both.2⟩
    intro same
    rw [mem_singleton] at same
    rcases cases_head both.2 with ends | ⟨next, above, -⟩
    · exact kept (ends.symm.trans same)
    · exact orphan _ (same ▸ above)

end Root

end Remove

end Family

end Straks
