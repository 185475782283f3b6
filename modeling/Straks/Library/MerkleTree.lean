import Mathlib.Data.Nat.Log
import Mathlib.Tactic.Ring

namespace Straks.MerkleTree

open List Function Nat

variable {α : Type} (pair : α → α → α)

/-- The level above; an odd last node is paired with itself. -/
def levelUp : List α → List α
  | left :: right :: rest => pair left right :: levelUp rest
  | [last] => [pair last last]
  | [] => []

@[simp] theorem levelUp_length (leaves : List α) : (levelUp pair leaves).length = (leaves.length + 1) / 2 := by
  fun_induction levelUp pair leaves with
  | case1 left right rest ih =>
    simp only [length_cons, ih]
    omega
  | case2 last => simp
  | case3 => simp

/-- The top of the tree that is built level by level. -/
def recursiveRoot (leaves : List α) : Option α :=
  match leaves with
  | [] => none
  | [root] => some root
  | left :: right :: rest => recursiveRoot (levelUp pair (left :: right :: rest))
termination_by leaves.length
decreasing_by
  simp
  omega

theorem levelUp_take (count : Nat) (leaves : List α) :
    levelUp pair (leaves.take (2 * count)) = (levelUp pair leaves).take count := by
  induction count generalizing leaves with
  | zero => rfl
  | succ count ih =>
    match leaves with
    | [] => simp [levelUp]
    | [last] => simp [levelUp, mul_add]
    | left :: right :: rest => simp [levelUp, mul_add, ih]

theorem levelUp_drop (count : Nat) (leaves : List α) :
    levelUp pair (leaves.drop (2 * count)) = (levelUp pair leaves).drop count := by
  induction count generalizing leaves with
  | zero => rfl
  | succ count ih =>
    match leaves with
    | [] => simp [levelUp]
    | [last] => simp [levelUp, mul_add]
    | left :: right :: rest => simp [levelUp, mul_add, ih]

/-- The leaves under the node of a level and an index. -/
def segment (level index : Nat) (leaves : List α) : List α := (leaves.drop (index * 2 ^ level)).take (2 ^ level)

variable {index count : Nat} {leaves : List α} {level : Nat}

theorem segment_take (within : (index + 1) * 2 ^ level ≤ count) :
    segment level index (leaves.take count) = segment level index leaves := by
  rw [add_mul, one_mul] at within
  rw [segment, segment, drop_take, take_take, min_eq_left (by omega)]

theorem segment_drop {level start : Nat} :
    segment level index (leaves.drop (start * 2 ^ level)) = segment level (start + index) leaves := by
  rw [segment, segment, drop_drop, add_mul]

/-- The leaves under a node are those under its two children. -/
theorem segment_succ : segment (level + 1) index leaves =
      segment level (2 * index) leaves ++ segment level (2 * index + 1) leaves := by
  have left : index * 2 ^ (level + 1) = 2 * index * 2 ^ level := by ring
  have right : (2 * index + 1) * 2 ^ level = 2 * index * 2 ^ level + 2 ^ level := by ring
  rw [segment, segment, segment, left, right, ← drop_drop, pow_succ, mul_two, take_add]

/-- A node with a right child has a complete left one. -/
theorem segment_children (many : (2 * index + 1) * 2 ^ level < leaves.length) :
    (segment level (2 * index) leaves).length = 2 ^ level ∧ segment level (2 * index + 1) leaves ≠ [] := by
  have positive := Nat.two_pow_pos level
  constructor
  · rw [add_mul, one_mul] at many
    rw [segment, length_take, length_drop]
    omega
  · rw [← length_pos_iff, segment, length_take, length_drop]
    omega

theorem segment_outside (outside : leaves.length ≤ index * 2 ^ level) : segment level index leaves = [] := by
  rw [segment, drop_eq_nil_of_le outside, take_nil]

theorem segment_zero : segment level 0 leaves = leaves.take (2 ^ level) := by
  rw [segment, zero_mul, drop_zero]

variable {level : Nat} {leaves : List α}

/-- Leaves that fit under a node. -/
structure Fits (level : Nat) (leaves : List α) : Prop where
  positive : 0 < leaves.length
  bound : leaves.length ≤ 2 ^ level

theorem Fits.halves (fits : Fits (level + 1) leaves) (many : 2 ^ level < leaves.length) :
    Fits level (leaves.take (2 ^ level)) ∧ Fits level (leaves.drop (2 ^ level)) := by
  have bound := fits.bound
  constructor <;> constructor <;> simp <;> omega

/-- The list has a tree of this height. -/
theorem fits_clog (some : leaves ≠ []) : Fits (clog 2 leaves.length) leaves :=
  ⟨length_pos_iff.mpr some, le_pow_clog one_lt_two _⟩

theorem pair_eq_iff {pair : α → α → α} {hashed : Set (α × α)} (injective : Set.InjOn (uncurry pair) hashed)
    {left right left' right' : α} (first : (left, right) ∈ hashed) (second : (left', right') ∈ hashed) :
    pair left right = pair left' right' ↔ left = left' ∧ right = right' := by
  rw [← Prod.mk_inj]
  exact injective.eq_iff first second

variable [Inhabited α]

/-- The node over at most `2 ^ level` leaves. A left half alone stands in for the right half too. -/
def node : Nat → List α → α
  | 0, leaves => leaves.headD default
  | level + 1, leaves =>
    if leaves.length ≤ 2 ^ level then pair (node level leaves) (node level leaves)
    else pair (node level (leaves.take (2 ^ level))) (node level (leaves.drop (2 ^ level)))

/-- The pairs that are hashed for a node. -/
def pairsUnder : Nat → List α → List (α × α)
  | 0, _ => []
  | level + 1, leaves =>
    if leaves.length ≤ 2 ^ level then (node pair level leaves, node pair level leaves) :: pairsUnder level leaves
    else (node pair level (leaves.take (2 ^ level)), node pair level (leaves.drop (2 ^ level))) ::
      (pairsUnder level (leaves.take (2 ^ level)) ++ pairsUnder level (leaves.drop (2 ^ level)))

/-- The pairs that are hashed for the whole tree. -/
def hashedPairs (leaves : List α) : List (α × α) := pairsUnder pair (clog 2 leaves.length) leaves

@[simp] theorem node_singleton (leaf : α) : node pair 0 [leaf] = leaf := rfl

theorem node_succ_of_le (few : leaves.length ≤ 2 ^ level) :
    node pair (level + 1) leaves = pair (node pair level leaves) (node pair level leaves) := by
  rw [node, if_pos few]

theorem node_succ_of_lt (many : 2 ^ level < leaves.length) : node pair (level + 1) leaves =
      pair (node pair level (leaves.take (2 ^ level))) (node pair level (leaves.drop (2 ^ level))) := by
  rw [node, if_neg (not_le.mpr many)]

theorem node_succ_append {left right : List α} (full : left.length = 2 ^ level) (some : right ≠ []) :
    node pair (level + 1) (left ++ right) = pair (node pair level left) (node pair level right) := by
  have positive := length_pos_iff.mpr some
  have many : 2 ^ level < (left ++ right).length := by
    rw [length_append]
    omega
  rw [node_succ_of_lt pair many, take_left' full, drop_left' full]

/-- The node of a level and an index. -/
def nodeAt (level index : Nat) (leaves : List α) : α := node pair level (segment level index leaves)

/-- Two complete neighbours on a level are equal. -/
def Repeats (leaves : List α) : Prop :=
  ∃ level index, (2 * index + 2) * 2 ^ level ≤ leaves.length ∧
    nodeAt pair level (2 * index) leaves = nodeAt pair level (2 * index + 1) leaves

theorem nodeAt_take (within : (index + 1) * 2 ^ level ≤ count) :
    nodeAt pair level index (leaves.take count) = nodeAt pair level index leaves := by
  rw [nodeAt, segment_take within, nodeAt]

/-- A node is not affected by leaves to its right. -/
theorem nodeAt_append {leaves rest : List α} (within : (index + 1) * 2 ^ level ≤ leaves.length) :
    nodeAt pair level index (leaves ++ rest) = nodeAt pair level index leaves := by
  rw [← nodeAt_take pair within, take_left]

theorem nodeAt_succ_of_lt (many : (2 * index + 1) * 2 ^ level < leaves.length) :
    nodeAt pair (level + 1) index leaves =
      pair (nodeAt pair level (2 * index) leaves) (nodeAt pair level (2 * index + 1) leaves) := by
  obtain ⟨full, some⟩ := segment_children many
  rw [nodeAt, segment_succ, node_succ_append pair full some]
  rfl

theorem nodeAt_succ_of_le (few : leaves.length ≤ (2 * index + 1) * 2 ^ level) : nodeAt pair (level + 1) index leaves =
      pair (nodeAt pair level (2 * index) leaves) (nodeAt pair level (2 * index) leaves) := by
  rw [nodeAt, segment_succ, segment_outside few, append_nil, node_succ_of_le]
  · rfl
  · exact length_take_le _ _

/-- The nodes of the lowest level are the leaves. -/
theorem nodeAt_leaf (index : Nat) (leaves : List α) : nodeAt pair 0 index leaves = leaves.getD index default := by
  simp [nodeAt, segment, node, head?_take]

theorem nodeAt_zero_of_le (few : leaves.length ≤ 2 ^ level) :
    nodeAt pair level 0 leaves = node pair level leaves := by
  rw [nodeAt, segment_zero, take_of_length_le few]

theorem Repeats.of_take (repeats : Repeats pair (leaves.take count)) : Repeats pair leaves := by
  obtain ⟨level, index, within, equal⟩ := repeats
  rw [length_take, le_min_iff] at within
  have right : (2 * index + 1 + 1) * 2 ^ level ≤ count := within.1
  have left : (2 * index + 1) * 2 ^ level ≤ count := le_trans (mul_le_mul_right _ (le_succ _)) right
  rw [nodeAt_take pair left, nodeAt_take pair right] at equal
  exact ⟨level, index, within.2, equal⟩

/-- What repeats in the right half repeats in the whole. -/
theorem Repeats.of_drop {half : Nat} (fits : leaves.length ≤ 2 ^ (half + 1))
    (repeats : Repeats pair (leaves.drop (2 ^ half))) : Repeats pair leaves := by
  obtain ⟨level, index, within, equal⟩ := repeats
  rw [length_drop] at within
  have lower : level < half := by
    by_contra! high
    have positive := Nat.two_pow_pos level
    have wide := Nat.pow_le_pow_right Nat.zero_lt_two high
    have twice : 2 * 2 ^ level ≤ (2 * index + 2) * 2 ^ level := Nat.mul_le_mul_right _ (Nat.le_add_left ..)
    omega
  obtain ⟨gap, rfl⟩ := Nat.exists_eq_add_of_lt lower
  have start : 2 ^ (level + gap + 1) = 2 * 2 ^ gap * 2 ^ level := by
    ring
  rw [start] at within equal
  refine ⟨level, 2 ^ gap + index, ?_, ?_⟩
  · have split : (2 * (2 ^ gap + index) + 2) * 2 ^ level =
        2 * 2 ^ gap * 2 ^ level + (2 * index + 2) * 2 ^ level := by ring
    have positive : 0 < (2 * index + 2) * 2 ^ level := Nat.mul_pos (Nat.succ_pos _) (Nat.two_pow_pos level)
    omega
  · rw [nodeAt, nodeAt, segment_drop, segment_drop] at equal
    rwa [mul_add, add_assoc]

/-- The hash is applied to these pairs only. -/
def HashedIn (hashed : Set (α × α)) (level : Nat) (leaves : List α) : Prop :=
  ∀ hashedPair ∈ pairsUnder pair level leaves, hashedPair ∈ hashed

variable {pair} {hashed : Set (α × α)} {others : List α}

theorem HashedIn.of_le (within : HashedIn pair hashed (level + 1) leaves) (few : leaves.length ≤ 2 ^ level) :
    (node pair level leaves, node pair level leaves) ∈ hashed ∧ HashedIn pair hashed level leaves := by
  rw [HashedIn, pairsUnder, if_pos few, forall_mem_cons] at within
  exact within

theorem HashedIn.of_lt (within : HashedIn pair hashed (level + 1) leaves) (many : 2 ^ level < leaves.length) :
    (node pair level (leaves.take (2 ^ level)), node pair level (leaves.drop (2 ^ level))) ∈ hashed ∧
      HashedIn pair hashed level (leaves.take (2 ^ level)) ∧ HashedIn pair hashed level (leaves.drop (2 ^ level)) := by
  rw [HashedIn, pairsUnder, if_neg (not_le.mpr many), forall_mem_cons, forall_mem_append] at within
  exact within

/-- The pairs under a node: its children and those under them. -/
theorem HashedIn.nodeAt_of_lt (within : HashedIn pair hashed (level + 1) (segment (level + 1) index leaves))
    (many : (2 * index + 1) * 2 ^ level < leaves.length) :
    (nodeAt pair level (2 * index) leaves, nodeAt pair level (2 * index + 1) leaves) ∈ hashed ∧
      HashedIn pair hashed level (segment level (2 * index) leaves) ∧
      HashedIn pair hashed level (segment level (2 * index + 1) leaves) := by
  obtain ⟨full, some⟩ := segment_children many
  have positive := length_pos_iff.mpr some
  have longer : 2 ^ level < (segment (level + 1) index leaves).length := by
    rw [segment_succ, length_append]
    omega
  have parts := within.of_lt longer
  rwa [segment_succ, take_left' full, drop_left' full] at parts

theorem HashedIn.nodeAt_of_le (within : HashedIn pair hashed (level + 1) (segment (level + 1) index leaves))
    (few : leaves.length ≤ (2 * index + 1) * 2 ^ level) :
    (nodeAt pair level (2 * index) leaves, nodeAt pair level (2 * index) leaves) ∈ hashed ∧
      HashedIn pair hashed level (segment level (2 * index) leaves) := by
  rw [segment_succ, segment_outside few, append_nil] at within
  exact within.of_le (length_take_le _ _)

theorem Fits.eq_singleton (fits : Fits 0 leaves) : leaves = [leaves.headD default] := by
  obtain ⟨positive, bound⟩ := fits
  match leaves with
  | [] => simp at positive
  | [leaf] => rfl
  | _ :: _ :: _ => simp at bound

/-- A repeated half shows in the list. -/
theorem repeats_of_halves (full : leaves.length = 2 ^ (level + 1))
    (equal : leaves.take (2 ^ level) = leaves.drop (2 ^ level)) : Repeats pair leaves := by
  have twice : (2 * 0 + 2) * 2 ^ level = 2 ^ (level + 1) := by
    ring
  refine ⟨level, 0, by rw [twice, full], ?_⟩
  rw [mul_zero, nodeAt, nodeAt, segment_zero, segment, zero_add, one_mul, ← equal, take_take, min_self]

/-- A node above the leaves is the hash of a node over its first leaves and another. -/
theorem HashedIn.exists_left (within : HashedIn pair hashed (level + 1) leaves) (fits : Fits (level + 1) leaves) :
    ∃ left right, (node pair level left, right) ∈ hashed ∧
      node pair (level + 1) leaves = pair (node pair level left) right ∧
      HashedIn pair hashed level left ∧ Fits level left ∧ ∀ leaf ∈ left, leaf ∈ leaves := by
  rcases le_or_gt leaves.length (2 ^ level) with few | many
  · obtain ⟨twice, under⟩ := within.of_le few
    exact ⟨leaves, _, twice, node_succ_of_le pair few, under, ⟨fits.positive, few⟩, fun _ member => member⟩
  · obtain ⟨halves, under, -⟩ := within.of_lt many
    exact ⟨_, _, halves, node_succ_of_lt pair many, under, (fits.halves many).1, fun _ => mem_of_mem_take⟩

section Injective

variable (injective : Set.InjOn (uncurry pair) hashed)
include injective

/-- A list standing in for both halves of another makes that one repeat itself. -/
theorem repeats_of_few_eq_many
    (ih : ∀ {leaves others : List α}, HashedIn pair hashed level leaves → HashedIn pair hashed level others →
      Fits level leaves → Fits level others →
      (leaves.length = others.length ∨ ¬ Repeats pair leaves ∧ ¬ Repeats pair others) →
      node pair level leaves = node pair level others → leaves = others)
    (hashedLeft : HashedIn pair hashed (level + 1) leaves) (hashedRight : HashedIn pair hashed (level + 1) others)
    (fitsLeft : Fits (level + 1) leaves) (fitsRight : Fits (level + 1) others) (cleanLeft : ¬ Repeats pair leaves)
    (few : leaves.length ≤ 2 ^ level) (many : 2 ^ level < others.length)
    (equal : node pair (level + 1) leaves = node pair (level + 1) others) : Repeats pair others := by
  obtain ⟨twice, hashedLeft⟩ := hashedLeft.of_le few
  obtain ⟨halves, hashedTake, hashedDrop⟩ := hashedRight.of_lt many
  obtain ⟨fitsTake, fitsDrop⟩ := fitsRight.halves many
  rw [node_succ_of_le pair few, node_succ_of_lt pair many, pair_eq_iff injective twice halves] at equal
  by_contra cleanRight
  have fits : Fits level leaves := ⟨fitsLeft.positive, few⟩
  have take := ih hashedLeft hashedTake fits fitsTake (.inr ⟨cleanLeft, mt (Repeats.of_take pair) cleanRight⟩) equal.1
  have drop := ih hashedLeft hashedDrop fits fitsDrop
    (.inr ⟨cleanLeft, mt (Repeats.of_drop pair fitsRight.bound) cleanRight⟩) equal.2
  have same : others.take (2 ^ level) = others.drop (2 ^ level) := take.symm.trans drop
  have full : others.length = 2 ^ (level + 1) := by
    have lengths := congrArg List.length same
    rw [length_take_of_le many.le, length_drop] at lengths
    omega
  exact cleanRight (repeats_of_halves full same)

/-- Lists of one length, or without a repetition, are determined by their node. -/
theorem node_injective (hashedLeft : HashedIn pair hashed level leaves) (hashedRight : HashedIn pair hashed level others)
    (fitsLeft : Fits level leaves) (fitsRight : Fits level others)
    (clean : leaves.length = others.length ∨ ¬ Repeats pair leaves ∧ ¬ Repeats pair others)
    (equal : node pair level leaves = node pair level others) : leaves = others := by
  induction level generalizing leaves others with
  | zero =>
    rw [fitsLeft.eq_singleton, fitsRight.eq_singleton]
    exact congrArg (fun leaf => [leaf]) equal
  | succ level ih =>
    rcases le_or_gt leaves.length (2 ^ level) with fewLeft | manyLeft <;>
      rcases le_or_gt others.length (2 ^ level) with fewRight | manyRight
    · obtain ⟨twice, hashedLeft⟩ := hashedLeft.of_le fewLeft
      obtain ⟨twice', hashedRight⟩ := hashedRight.of_le fewRight
      rw [node_succ_of_le pair fewLeft, node_succ_of_le pair fewRight, pair_eq_iff injective twice twice'] at equal
      exact ih hashedLeft hashedRight ⟨fitsLeft.positive, fewLeft⟩ ⟨fitsRight.positive, fewRight⟩ clean equal.1
    · obtain ⟨cleanLeft, cleanRight⟩ := clean.resolve_left (by omega)
      exact absurd (repeats_of_few_eq_many injective ih hashedLeft hashedRight fitsLeft fitsRight cleanLeft fewLeft
        manyRight equal) cleanRight
    · obtain ⟨cleanLeft, cleanRight⟩ := clean.resolve_left (by omega)
      exact absurd (repeats_of_few_eq_many injective ih hashedRight hashedLeft fitsRight fitsLeft cleanRight fewRight
        manyLeft equal.symm) cleanLeft
    · obtain ⟨halves, hashedTake, hashedDrop⟩ := hashedLeft.of_lt manyLeft
      obtain ⟨halves', hashedTake', hashedDrop'⟩ := hashedRight.of_lt manyRight
      obtain ⟨fitsTake, fitsDrop⟩ := fitsLeft.halves manyLeft
      obtain ⟨fitsTake', fitsDrop'⟩ := fitsRight.halves manyRight
      rw [node_succ_of_lt pair manyLeft, node_succ_of_lt pair manyRight, pair_eq_iff injective halves halves'] at equal
      have take := ih hashedTake hashedTake' fitsTake fitsTake'
        (clean.imp (by simp +contextual) (.imp (mt (Repeats.of_take pair)) (mt (Repeats.of_take pair)))) equal.1
      have drop := ih hashedDrop hashedDrop' fitsDrop fitsDrop' (clean.imp (by simp +contextual)
        (.imp (mt (Repeats.of_drop pair fitsLeft.bound)) (mt (Repeats.of_drop pair fitsRight.bound)))) equal.2
      rw [← take_append_drop (2 ^ level) leaves, take, drop, take_append_drop]

/-- Nodes of different heights differ when no hash is a leaf. -/
theorem node_ne_of_lt {gap : Nat} (hashedLeft : HashedIn pair hashed level leaves)
    (hashedRight : HashedIn pair hashed (level + gap + 1) others) (fitsLeft : Fits level leaves)
    (fitsRight : Fits (level + gap + 1) others) (separate : ∀ hashedPair ∈ hashed, uncurry pair hashedPair ∉ leaves) :
    node pair level leaves ≠ node pair (level + gap + 1) others := by
  intro equal
  induction level generalizing leaves others with
  | zero =>
    obtain ⟨left, right, member, value, -⟩ := hashedRight.exists_left fitsRight
    rw [value, fitsLeft.eq_singleton] at equal
    apply separate _ member
    rw [fitsLeft.eq_singleton, mem_singleton]
    exact equal.symm
  | succ level ih =>
    rw [show level + 1 + gap + 1 = level + gap + 1 + 1 by omega] at hashedRight fitsRight equal
    obtain ⟨left, right, member, value, hashedLeft, fitsLeft, subset⟩ := hashedLeft.exists_left fitsLeft
    obtain ⟨left', right', member', value', hashedRight, fitsRight, -⟩ := hashedRight.exists_left fitsRight
    rw [value, value', pair_eq_iff injective member member'] at equal
    exact ih hashedLeft hashedRight fitsLeft fitsRight
      (fun hashedPair within leaf => separate hashedPair within (subset _ leaf)) equal.1

end Injective

/-- The node at the top of the tree. -/
def root (pair : α → α → α) (leaves : List α) : α := node pair (clog 2 leaves.length) leaves

/-- Lists without repetition are determined by their root when no hash is a leaf. -/
theorem root_injective (injective : Set.InjOn (uncurry pair) hashed)
    (hashedLeft : ∀ hashedPair ∈ hashedPairs pair leaves, hashedPair ∈ hashed)
    (hashedRight : ∀ hashedPair ∈ hashedPairs pair others, hashedPair ∈ hashed)
    (someLeft : leaves ≠ []) (someRight : others ≠ [])
    (separate : ∀ hashedPair ∈ hashed, uncurry pair hashedPair ∉ leaves ++ others)
    (cleanLeft : ¬ Repeats pair leaves) (cleanRight : ¬ Repeats pair others)
    (equal : root pair leaves = root pair others) : leaves = others := by
  have fitsLeft := fits_clog someLeft
  have fitsRight := fits_clog someRight
  have separateLeft := fun hashedPair within leaf => separate hashedPair within (mem_append_left _ leaf)
  have separateRight := fun hashedPair within leaf => separate hashedPair within (mem_append_right _ leaf)
  rw [root, root] at equal
  rw [hashedPairs] at hashedLeft hashedRight
  generalize Nat.clog 2 leaves.length = heightLeft at *
  generalize Nat.clog 2 others.length = heightRight at *
  rcases lt_trichotomy heightLeft heightRight with lower | same | higher
  · obtain ⟨gap, rfl⟩ := Nat.exists_eq_add_of_lt lower
    exact absurd equal (node_ne_of_lt injective hashedLeft hashedRight fitsLeft fitsRight separateLeft)
  · subst same
    exact node_injective injective hashedLeft hashedRight fitsLeft fitsRight (.inr ⟨cleanLeft, cleanRight⟩) equal
  · obtain ⟨gap, rfl⟩ := Nat.exists_eq_add_of_lt higher
    exact absurd equal.symm (node_ne_of_lt injective hashedRight hashedLeft fitsRight fitsLeft separateRight)

/-- Lists of one length are determined by their root. -/
theorem root_injective_of_length (injective : Set.InjOn (uncurry pair) hashed)
    (hashedLeft : ∀ hashedPair ∈ hashedPairs pair leaves, hashedPair ∈ hashed)
    (hashedRight : ∀ hashedPair ∈ hashedPairs pair others, hashedPair ∈ hashed) (some : leaves ≠ [])
    (length : leaves.length = others.length) (equal : root pair leaves = root pair others) : leaves = others := by
  have fits := fits_clog some
  rw [hashedPairs] at hashedLeft hashedRight
  rw [root, root, ← length] at equal
  rw [← length] at hashedRight
  exact node_injective injective hashedLeft hashedRight fits ⟨length ▸ fits.positive, length ▸ fits.bound⟩ (.inl length)
    equal

/-- The nodes of the level above have one level less. -/
theorem node_levelUp (fits : Fits (level + 1) leaves) :
    node pair (level + 1) leaves = node pair level (levelUp pair leaves) := by
  induction level generalizing leaves with
  | zero =>
    match leaves with
    | [] => exact absurd fits.positive (lt_irrefl 0)
    | [last] => rfl
    | [left, right] => rfl
    | _ :: _ :: _ :: rest =>
      have bound := fits.bound
      simp at bound
  | succ level ih =>
    have twice : 2 ^ (level + 1) = 2 * 2 ^ level := by rw [pow_succ, mul_comm]
    rcases le_or_gt leaves.length (2 ^ (level + 1)) with few | many
    · have fewAbove : (levelUp pair leaves).length ≤ 2 ^ level := by
        rw [levelUp_length]
        omega
      rw [node_succ_of_le pair few, node_succ_of_le pair fewAbove, ih ⟨fits.positive, few⟩]
    · have manyAbove : 2 ^ level < (levelUp pair leaves).length := by
        rw [levelUp_length]
        omega
      obtain ⟨fitsTake, fitsDrop⟩ := fits.halves many
      rw [node_succ_of_lt pair many, node_succ_of_lt pair manyAbove, ih fitsTake, ih fitsDrop, twice, levelUp_take,
        levelUp_drop]

/-- The tree that is built level by level has the same root. -/
theorem recursiveRoot_eq_root (some : leaves ≠ []) : recursiveRoot pair leaves = .some (root pair leaves) := by
  fun_induction recursiveRoot pair leaves with
  | case1 => exact absurd rfl some
  | case2 top => simp [root]
  | case3 left right rest ih =>
    have more : 2 ≤ (left :: right :: rest).length := by simp
    have height : clog 2 (left :: right :: rest).length =
        clog 2 (levelUp pair (left :: right :: rest)).length + 1 := by
      rw [clog_of_two_le (le_refl 2) more, levelUp_length]
      rfl
    rw [ih (by simp [levelUp]), root, root, height, node_levelUp]
    rw [← height]
    exact fits_clog some

end Straks.MerkleTree
