import Straks.Construction.Miner.EntryOrder
import Straks.Library.Fraction
import Straks.Proof.MempoolFamily

namespace Straks.Miner
open Chain Mempool Fraction CTxMemPoolEntry

theorem hashBefore_strictWeak {Item : Type} (hash : Item → Uint256) :
    IsStrictWeakOrder Item fun first second => hashBefore (hash first) (hash second) = true where
  irrefl item := by simp [hashBefore, List.lt_irrefl]
  trans first second third := by
    simp only [hashBefore, decide_eq_true_eq]
    exact List.lt_trans
  incomp_trans first second third := by
    simp only [hashBefore, decide_eq_true_eq]
    intro apart further
    rw [List.le_antisymm apart.2 apart.1]
    exact further

section Compare

variable {env : PoolEnv}

/-- The descendant score order puts an entry before itself. -/
theorem compareByDescendantScore_self (entry : CTxMemPoolEntry) : compareByDescendantScore env entry entry = true := by
  simp [compareByDescendantScore, mul_comm]

theorem compareByScore_iff (a b : CTxMemPoolEntry) : compareByScore env a b = true ↔
    Precedes getModifiedFee (fun entry => entry.getTxSize env)
      (Function.swap fun a b => hashBefore (env.hashes.getHash a.tx) (env.hashes.getHash b.tx) = true) a b := by
  unfold compareByScore Precedes
  split <;> simp_all

theorem compareByAncestorFee_iff (a b : CTxMemPoolEntry) : compareByAncestorFee env a b = true ↔
    Precedes nModFeesWithAncestors nSizeWithAncestors
      (fun a b => hashBefore (env.hashes.getHash a.tx) (env.hashes.getHash b.tx) = true) a b := by
  unfold compareByAncestorFee Precedes
  rw [mul_comm b.nModFeesWithAncestors]
  split <;> simp_all

theorem compareModifiedEntry_iff (a b : Uint256 × CTxMemPoolModifiedEntry) : compareModifiedEntry a b = true ↔
    Precedes (fun entry => entry.2.nModFeesWithAncestors) (fun entry => entry.2.nSizeWithAncestors)
      (fun a b => hashBefore a.1 b.1 = true) a b := by
  unfold compareModifiedEntry Precedes
  split <;> simp_all

end Compare

/-- All orders but that by descendant score are strict weak on positive sizes. -/
theorem entryOrder_strictWeak_iff (env : PoolEnv) (order : EntryOrder) :
    IsStrictWeakOrder { entry : order.Entry // order.Sized env entry }
        (fun first second => order.compare env first second = true) ↔ order ≠ .descendantScore := by
  cases order with
  | descendantScore =>
    simp only [ne_eq, not_true_eq_false, iff_false]
    intro weak
    let entry := CTxMemPoolEntry.new env ⟨1, [], [], 0⟩ 0 0 0
    have size : 0 < entry.getTxSize env := getTxSize_pos env entry
    exact weak.irrefl ⟨entry, size, Int.natCast_pos.mpr size, Int.natCast_pos.mpr size⟩
      (compareByDescendantScore_self entry)
  | score =>
    simp only [EntryOrder.compare, compareByScore_iff, ne_eq, reduceCtorEq, not_false_eq_true, iff_true]
    have hashes := hashBefore_strictWeak fun entry : CTxMemPoolEntry => env.hashes.getHash entry.tx
    exact precedes_strictWeak (fun entry sized => Int.natCast_pos.mpr sized.1) inferInstance
  | entryTime =>
    simp only [EntryOrder.compare, compareByEntryTime, decide_eq_true_eq, ne_eq, reduceCtorEq, not_false_eq_true, iff_true]
    exact {
      irrefl := fun item => Int.lt_irrefl _
      trans := fun first second third => Int.lt_trans
      incomp_trans := fun first second third => by omega }
  | ancestorFee =>
    simp only [EntryOrder.compare, compareByAncestorFee_iff, ne_eq, reduceCtorEq, not_false_eq_true, iff_true]
    exact precedes_strictWeak (fun entry sized => sized.2.2) (hashBefore_strictWeak _)
  | modifiedAncestorFee =>
    simp only [EntryOrder.compare, compareModifiedEntry_iff, ne_eq, reduceCtorEq, not_false_eq_true, iff_true]
    exact precedes_strictWeak (fun entry sized => sized) (hashBefore_strictWeak Prod.fst)

def plainEnv : PoolEnv := ⟨⟨fun _ => 0, fun _ => 0, fun _ _ => 0⟩, 20⟩

def soleEntry : CTxMemPoolEntry := .new plainEnv ⟨1, [], [], 0⟩ 1000 5 0

/-- An entry precedes itself in the order by descendant score. -/
theorem compareByDescendantScore_reflexive : EntryOrder.Sized plainEnv .descendantScore soleEntry ∧
    EntryOrder.compare plainEnv .descendantScore soleEntry soleEntry = true :=
  ⟨⟨by decide, by decide, by decide⟩, by decide⟩

end Straks.Miner
