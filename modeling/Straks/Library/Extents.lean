import Mathlib.Data.List.Basic
import Mathlib.Tactic.Linarith

namespace Straks.Extents

open List

/-- A part of a file. -/
structure Extent where
  start : Nat
  size : Nat
  deriving DecidableEq, Repr

def Extent.stop (extent : Extent) : Nat := extent.start + extent.size

/-- Two parts that share no byte. -/
def Apart (first second : Extent) : Prop := first.stop ≤ second.start ∨ second.stop ≤ first.start

/-- The parts of a file lie in its used bytes and are disjoint. -/
structure Allotted (used : Nat) (extents : List Extent) : Prop where
  inside : ∀ extent ∈ extents, extent.stop ≤ used
  apart : extents.Pairwise Apart

theorem Allotted.nil (used : Nat) : Allotted used [] where
  inside := by simp
  apart := Pairwise.nil

/-- A new part starts where the use ends. -/
theorem Allotted.push {used : Nat} {extents : List Extent} (allotted : Allotted used extents) (size : Nat) :
    Allotted (used + size) (extents ++ [⟨used, size⟩]) where
  inside := by
    intro extent member
    rcases mem_append.mp member with old | new
    · exact (allotted.inside extent old).trans (Nat.le_add_right used size)
    · rw [mem_singleton.mp new]
      exact le_rfl
  apart := by
    rw [pairwise_append]
    refine ⟨allotted.apart, pairwise_singleton _ _, ?_⟩
    intro old oldMember new newMember
    rw [mem_singleton.mp newMember]
    exact .inl (allotted.inside old oldMember)

end Straks.Extents
