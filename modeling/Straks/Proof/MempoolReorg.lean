import Straks.Proof.LockPoints
import Straks.Proof.MempoolTotals

namespace Straks.Mempool
open Success CTxMemPool

section Reorg

variable {env : PoolEnv} {pool : CTxMemPool}

/-- An entry or one of its ancestors fails a test. -/
def Burdened (pool : CTxMemPool) (test : CTxMemPoolEntry → Bool) (hash : Uint256) : Prop :=
  ∃ ancestor entry, pool.family.Reaches hash ancestor ∧ pool.mapTx.lookup ancestor = some entry ∧ test entry = true

variable {test : CTxMemPoolEntry → Bool} {hash : Uint256}

theorem Burdened.of_lookup {entry : CTxMemPoolEntry} (found : pool.mapTx.lookup hash = some entry)
    (failed : test entry = true) : Burdened pool test hash :=
  ⟨hash, entry, .refl, found, failed⟩

theorem Burdened.of_reaches {ancestor : Uint256} (burdened : Burdened pool test ancestor)
    (reaches : pool.family.Reaches hash ancestor) : Burdened pool test hash := by
  obtain ⟨top, entry, further, found, failed⟩ := burdened
  exact ⟨top, entry, reaches.trans further, found, failed⟩

theorem mem_entriesWith :
    hash ∈ (entriesWith pool test).elements ↔ ∃ entry, pool.mapTx.lookup hash = some entry ∧ test entry = true := by
  rw [← OrderedSet.mem_def, entriesWith, OrderedSet.mem_insertAll, or_iff_left (OrderedSet.not_mem_empty hash),
    List.mem_filter, Option.any_eq_true]
  constructor
  · exact fun listed => listed.2
  · rintro ⟨entry, found, failed⟩
    exact ⟨AList.lookup_isSome.mp (by rw [found]; rfl), entry, found, failed⟩

/-- Those without a failing ancestor stay. -/
theorem PoolOk.removeForReorg_mem (ok : PoolOk env pool) (test : CTxMemPoolEntry → Bool) :
    ∃ later, Mempool.removeForReorg env pool test = .ok later ∧
      ∀ hash, hash ∈ later.family.carrier ↔ hash ∈ pool.family.carrier ∧ ¬ Burdened pool test hash := by
  obtain ⟨stage, later, calculated, removed, -, left, isStage⟩ :=
    ok.toLinkedOk.removeDescendants (entriesWith_inside test)
  refine ⟨later, ?_, fun hash => ?_⟩
  · rw [Mempool.removeForReorg, calculated]
    exact removed
  · rw [left.mem_iff, isStage]
    simp only [mem_entriesWith, Burdened]
    grind

/-- After a reorganisation nothing unacceptable stays, the parents of what stays stay, and only what is unacceptable
or descends from it has gone. -/
def ReorgExact (pool later : CTxMemPool) (unacceptable : CTxMemPoolEntry → Bool) : Prop :=
  (∀ hash entry, hash ∈ later.family.carrier → pool.mapTx.lookup hash = some entry → unacceptable entry = false ∧
    ∀ parent, pool.Spends hash parent → parent ∈ later.family.carrier) ∧
  ∀ hash ∈ pool.family.carrier, hash ∉ later.family.carrier → Burdened pool unacceptable hash

/-- Removal by one test is exact for another unless a transaction they disagree on depends on it. -/
theorem reorgExact_iff {later : CTxMemPool} {unacceptable : CTxMemPoolEntry → Bool}
    (stays : ∀ hash, hash ∈ later.family.carrier ↔ hash ∈ pool.family.carrier ∧ ¬ Burdened pool test hash) :
    ReorgExact pool later unacceptable ↔ ∀ hash entry, pool.mapTx.lookup hash = some entry →
      test entry ≠ unacceptable entry → Burdened pool test hash ∧ Burdened pool unacceptable hash := by
  constructor
  · intro isExact hash entry found apart
    have member : hash ∈ pool.family.carrier := mem_family.mpr ⟨entry, found⟩
    cases refused : test entry with
    | true =>
      have burdened := Burdened.of_lookup found refused
      exact ⟨burdened, isExact.2 hash member fun kept => ((stays hash).mp kept).2 burdened⟩
    | false =>
      have isUnacceptable : unacceptable entry = true := by simpa [refused] using apart
      refine ⟨by_contra fun free => ?_, .of_lookup found isUnacceptable⟩
      have kept := isExact.1 hash entry ((stays hash).mpr ⟨member, free⟩) found
      rw [isUnacceptable] at kept
      cases kept.1
  · intro agree
    constructor
    · intro hash entry kept found
      obtain ⟨member, free⟩ := (stays hash).mp kept
      constructor
      · by_contra isUnacceptable
        have passed : test entry = false := by
          by_contra refused
          exact free (.of_lookup found (by simpa using refused))
        exact free (agree hash entry found (by simp [passed, isUnacceptable])).1
      · intro parent spends
        exact (stays parent).mpr ⟨(pool.family.inside hash parent spends).2, fun burdened => free (burdened.of_reaches (.single spends))⟩
    · intro hash member gone
      obtain ⟨ancestor, entry, reaches, found, refused⟩ : Burdened pool test hash :=
        by_contra fun free => gone ((stays hash).mpr ⟨member, free⟩)
      by_cases isUnacceptable : unacceptable entry = true
      · exact ⟨ancestor, entry, reaches, found, isUnacceptable⟩
      · exact (agree ancestor entry found (by simp [refused, isUnacceptable])).2.of_reaches reaches

end Reorg

/-- A transaction with a relative lock of no blocks. -/
def zeroLockedChild : CTransaction := ⟨2, [⟨⟨1, 0⟩, [], 0, []⟩], [⟨1, []⟩], 2⟩

def parentAndChild : List PoolCall :=
  [.addUnchecked (spending 1 [10]) 100 0 4 .empty, .addUnchecked zeroLockedChild 100 0 4 (single 1)]

/-- A node with so many blocks and a coin of transaction 10. -/
def chainView (count : Nat) : ReorgView := ⟨risingChain count, fun _ => some ⟨false, [], 3, 1⟩, 0, 0⟩

/-- The lock points of both on a chain of 12 blocks. -/
def storedFacts : EntryFacts :=
  ⟨fun hash => if hash = 1 then ⟨-1, -1, risingChain 4⟩ else ⟨11, -1, risingChain 1⟩, fun _ => false⟩

theorem parentAndChild_ok : ∃ pool, poolAfter lockTimeEnv parentAndChild = .ok pool ∧ PoolOk lockTimeEnv pool := by
  apply poolAfter_consistent
  apply along_family (by decide +kernel) (by decide +kernel) (by decide +kernel)
  exact fun _ => trivial

/-- The verdicts on all entries. -/
def verdicts (view : ReorgView) (pool : CTxMemPool) (mayUse : LockPoints → Bool) : List Bool :=
  pool.mapTx.keys.map fun hash =>
    (pool.mapTx.lookup hash).any (view.noLongerValid lockTimeEnv 1 pool storedFacts mayUse)

theorem acceptable_of_verdicts {view : ReorgView} {pool : CTxMemPool} {mayUse : LockPoints → Bool}
    (all : (verdicts view pool mayUse).all (· == false) = true) {hash : Uint256} {entry : CTxMemPoolEntry}
    (found : pool.mapTx.lookup hash = some entry) :
    view.noLongerValid lockTimeEnv 1 pool storedFacts mayUse entry = false := by
  have listed : hash ∈ pool.mapTx.keys := AList.lookup_isSome.mp (by rw [found]; rfl)
  simpa [found] using List.all_eq_true.mp all _ (List.mem_map.mpr ⟨hash, listed, rfl⟩)

end Straks.Mempool
