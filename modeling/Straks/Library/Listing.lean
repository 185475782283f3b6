import Straks.Library.Ancestry

namespace Straks.Family
open Relation List

variable {α : Type} {family : Family α} {list more : List α} {value other child parent : α}

/-- A parent has fewer ancestors than its child. -/
theorem Acyclic.up_ssubset (acyclic : family.Acyclic) (step : family.parent child parent) :
    family.up parent ⊂ family.up child := by
  have inside := family.inside child parent step
  apply Finset.ssubset_iff_subset_ne.mpr
  constructor
  · intro other above
    rw [mem_up] at above ⊢
    exact ⟨above.1, .head step above.2⟩
  · intro same
    have back : child ∈ family.up parent := same ▸ self_mem_up inside.1
    exact acyclic child (.head' step (mem_up.mp back).2)

/-- A list in which each element comes after its parents. -/
inductive Listing (family : Family α) : List α → Prop
  | nil : Listing family []
  | snoc {list : List α} {value : α} (listing : Listing family list) (member : value ∈ family.carrier)
      (fresh : value ∉ list) (parents : ∀ parent, family.parent value parent → parent ∈ list) :
      Listing family (list ++ [value])

namespace Listing

variable (listing : family.Listing list)
include listing

theorem nodup : list.Nodup := by
  induction listing with
  | nil => exact nodup_nil
  | snoc _ _ fresh _ ih =>
    apply Nodup.append ih (nodup_singleton _)
    simpa using fresh

theorem inside (listed : value ∈ list) : value ∈ family.carrier := by
  induction listing with
  | nil => cases listed
  | snoc _ member _ _ ih =>
    rcases mem_append.mp listed with earlier | last
    · exact ih earlier
    · rw [mem_singleton] at last
      exact last ▸ member

/-- The list holds the parents of its elements. -/
theorem parents (listed : child ∈ list) (step : family.parent child parent) : parent ∈ list := by
  induction listing with
  | nil => cases listed
  | snoc _ _ _ above ih =>
    apply mem_append_left
    rcases mem_append.mp listed with earlier | last
    · exact ih earlier
    · rw [mem_singleton] at last
      exact above parent (last ▸ step)

/-- The list holds the ancestors of its elements. -/
theorem closed (listed : value ∈ list) (reaches : family.Reaches value other) : other ∈ list := by
  induction reaches with
  | refl => exact listed
  | tail _ step ih => exact listing.parents ih step

/-- A parent stands in front of its child. -/
theorem before {front rest : List α} (split : list = front ++ child :: rest) (step : family.parent child parent) :
    parent ∈ front := by
  induction listing generalizing rest with
  | nil => simp at split
  | @snoc earlier last _ _ _ above ih =>
    rcases rest.eq_nil_or_concat with ends | ⟨inner, final, ends⟩
    · rw [ends] at split
      obtain ⟨isFront, isLast⟩ := append_inj' split rfl
      simp only [List.cons.injEq, and_true] at isLast
      rw [← isFront]
      exact above parent (isLast ▸ step)
    · rw [ends, concat_eq_append, ← cons_append, ← append_assoc] at split
      exact ih (append_inj' split rfl).1

/-- New elements follow by a rank that is lower for parents. -/
theorem append {rank : α → Int} (nodup : more.Nodup) (fresh : ∀ value ∈ more, value ∈ family.carrier ∧ value ∉ list)
    (parents : ∀ child ∈ more, ∀ parent, family.parent child parent → parent ∈ list ∨ parent ∈ more)
    (lower : ∀ child parent, family.parent child parent → rank parent < rank child)
    (ranked : more.Pairwise fun first second => rank first ≤ rank second) : family.Listing (list ++ more) := by
  induction more generalizing list with
  | nil =>
    rw [append_nil]
    exact listing
  | cons value rest ih =>
    obtain ⟨apart, nodup⟩ := nodup_cons.mp nodup
    obtain ⟨least, ranked⟩ := pairwise_cons.mp ranked
    have own := fresh value mem_cons_self
    have extended : family.Listing (list ++ [value]) := by
      apply listing.snoc own.1 own.2
      intro parent step
      have below := lower value parent step
      -- A parent among the new elements would stand behind one of a higher rank.
      rcases parents value mem_cons_self parent step with listed | later
      · exact listed
      · rcases mem_cons.mp later with same | later
        · rw [same] at below
          exact absurd below (lt_irrefl _)
        · exact absurd (least parent later) (not_le.mpr below)
    rw [append_cons]
    apply ih extended nodup _ _ ranked
    · intro other later
      have old := fresh other (mem_cons_of_mem _ later)
      refine ⟨old.1, ?_⟩
      rw [mem_append, mem_singleton, not_or]
      exact ⟨old.2, fun same => apart (same ▸ later)⟩
    · intro child later parent step
      rcases parents child (mem_cons_of_mem _ later) parent step with listed | listed
      · exact .inl (mem_append_left _ listed)
      · rcases mem_cons.mp listed with same | listed
        · exact .inl (mem_append_right _ (mem_singleton.mpr same))
        · exact .inr listed

end Listing

end Straks.Family
