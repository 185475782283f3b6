import Mathlib.Algebra.BigOperators.Group.Finset.Basic

namespace Straks

open List

/-- A set kept as a list without duplicates, in the order a program walks through it. -/
structure OrderedSet (α : Type) where
  elements : List α
  nodup : elements.Nodup
  deriving DecidableEq

namespace OrderedSet

variable {α : Type}

instance : Membership α (OrderedSet α) := ⟨fun set value => value ∈ set.elements⟩

variable {value other : α} {set : OrderedSet α} {before : α → α → Bool} {elements : List α}

theorem mem_def : value ∈ set ↔ value ∈ set.elements := Iff.rfl

def empty : OrderedSet α := ⟨[], nodup_nil⟩

def size (set : OrderedSet α) : Nat := set.elements.length

@[simp] theorem not_mem_empty (value : α) : value ∉ (empty : OrderedSet α) := not_mem_nil

theorem forall_mem_empty {test : α → Prop} : ∀ value ∈ (empty : OrderedSet α), test value := fun _ => (nomatch ·)

/-- The elements as a finite set, for sums over them. -/
def toFinset (set : OrderedSet α) : Finset α := ⟨set.elements, set.nodup⟩

@[simp] theorem mem_toFinset : value ∈ set.toFinset ↔ value ∈ set := Iff.rfl

@[simp] theorem card_toFinset (set : OrderedSet α) : set.toFinset.card = set.size := rfl

theorem sum_toFinset {Total : Type} [AddCommMonoid Total] (set : OrderedSet α) (amount : α → Total) :
    ∑ value ∈ set.toFinset, amount value = (set.elements.map amount).sum := rfl

variable [DecidableEq α]

def contains (set : OrderedSet α) (value : α) : Bool := set.elements.contains value

@[simp] theorem contains_iff : set.contains value = true ↔ value ∈ set := by
  simp [contains, mem_def]

theorem contains_eq_false : set.contains value = false ↔ value ∉ set := by
  rw [← contains_iff, Bool.not_eq_true]

/-- A new element goes before the first it does not follow. -/
def insertElement (before : α → α → Bool) (value : α) (elements : List α) : List α :=
  if elements.contains value then elements
  else elements.takeWhile (before · value) ++ value :: elements.dropWhile (before · value)

theorem perm_insertElement (before : α → α → Bool) (absent : value ∉ elements) :
    (insertElement before value elements).Perm (value :: elements) := by
  rw [insertElement, if_neg (by simpa using absent)]
  have split := takeWhile_append_dropWhile (p := (before · value)) (l := elements)
  conv_rhs => rw [← split]
  exact perm_middle

theorem insertElement_of_mem (before : α → α → Bool) (present : value ∈ elements) :
    insertElement before value elements = elements := by
  rw [insertElement, if_pos (by simpa using present)]

theorem nodup_insertElement (before : α → α → Bool) (value : α) (nodup : elements.Nodup) :
    (insertElement before value elements).Nodup := by
  by_cases present : value ∈ elements
  · rwa [insertElement_of_mem before present]
  · exact (perm_insertElement before present).nodup_iff.mpr (nodup_cons.mpr ⟨present, nodup⟩)

def insert (before : α → α → Bool) (value : α) (set : OrderedSet α) : OrderedSet α :=
  ⟨insertElement before value set.elements, nodup_insertElement before value set.nodup⟩

def erase (set : OrderedSet α) (value : α) : OrderedSet α :=
  ⟨set.elements.erase value, set.nodup.erase value⟩

def insertAll (before : α → α → Bool) (values : List α) (set : OrderedSet α) : OrderedSet α :=
  values.foldl (fun grown value => grown.insert before value) set

@[simp] theorem mem_insert : other ∈ set.insert before value ↔ other = value ∨ other ∈ set := by
  change other ∈ insertElement before value set.elements ↔ other = value ∨ other ∈ set.elements
  by_cases present : value ∈ set.elements
  · rw [insertElement_of_mem before present]
    constructor
    · exact .inr
    · intro either
      rcases either with rfl | member
      · exact present
      · exact member
  · rw [(perm_insertElement before present).mem_iff, mem_cons]

@[simp] theorem mem_erase : other ∈ set.erase value ↔ other ≠ value ∧ other ∈ set :=
  set.nodup.mem_erase_iff

@[simp] theorem mem_insertAll {values : List α} :
    other ∈ set.insertAll before values ↔ other ∈ values ∨ other ∈ set := by
  induction values generalizing set with
  | nil => simp [insertAll]
  | cons value rest ih =>
    rw [insertAll, foldl_cons, ← insertAll, ih, mem_insert, mem_cons]
    tauto

theorem size_erase (member : value ∈ set) : (set.erase value).size + 1 = set.size := by
  have positive : 0 < set.elements.length := length_pos_of_mem member
  have shorter : (set.erase value).size = set.elements.length - 1 := length_erase_of_mem member
  rw [shorter, size]
  omega

theorem toFinset_insert : (set.insert before value).toFinset = Insert.insert value set.toFinset := by
  ext other
  rw [mem_toFinset, mem_insert, Finset.mem_insert, mem_toFinset]

theorem size_insert (absent : value ∉ set) : (set.insert before value).size = set.size + 1 :=
  (perm_insertElement before absent).length_eq

end OrderedSet

end Straks
