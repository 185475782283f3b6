import Straks.Proof.MempoolAddition

namespace Straks.Mempool
open Relation Success CTxMemPoolEntry CTxMemPool List

/-- The pool holds exactly these transactions with these costs. -/
structure Holds (env : PoolEnv) (pool : CTxMemPool) (items : List (CTransaction × Nat)) : Prop where
  listed : ∀ hash entry, pool.mapTx.lookup hash = some entry → (entry.tx, entry.sigOpCost) ∈ items
  present : ∀ item ∈ items, ∃ entry, pool.mapTx.lookup (env.hashes.getHash item.1) = some entry ∧
    entry.tx = item.1 ∧ entry.sigOpCost = item.2

/-- A transaction joins these, its parents having none there. -/
def JoinsRoots (env : PoolEnv) (items : List (CTransaction × Nat)) (tx : CTransaction) (setAncestors : SetEntries) :
    Prop :=
  env.hashes.getHash tx ∉ spentHashes tx ∧
    (∀ item ∈ items, env.hashes.getHash item.1 ≠ env.hashes.getHash tx ∧
      env.hashes.getHash tx ∉ spentHashes item.1 ∧
      (∀ prevout ∈ spentOutputs tx, prevout ∉ spentOutputs item.1) ∧
      (env.hashes.getHash item.1 ∈ spentHashes tx →
        env.hashes.getHash item.1 ∈ setAncestors.elements ∧
        ∀ other ∈ items, env.hashes.getHash other.1 ∉ spentHashes item.1)) ∧
    (setAncestors.elements.all fun hash => (spentHashes tx).contains hash &&
      items.any fun item => env.hashes.getHash item.1 == hash) = true

instance (env : PoolEnv) (items : List (CTransaction × Nat)) (tx : CTransaction) (setAncestors : SetEntries) :
    Decidable (JoinsRoots env items tx setAncestors) :=
  inferInstanceAs (Decidable (_ ∧ _ ∧ _))

variable {env : PoolEnv} {pool : CTxMemPool} {items : List (CTransaction × Nat)}

theorem Holds.empty (env : PoolEnv) : Holds env .empty [] where
  listed := by
    intro hash entry found
    cases found
  present := forall_mem_nil _

theorem Holds.add (holds : Holds env pool items) {entry : CTxMemPoolEntry} {later : CTxMemPool}
    (added : Added env pool entry later)
    (fresh : ∀ item ∈ items, env.hashes.getHash item.1 ≠ env.hashes.getHash entry.tx) :
    Holds env later ((entry.tx, entry.sigOpCost) :: items) where
  listed := by
    intro hash current found
    rcases added.gains.lookup found with ⟨-, cores⟩ | ⟨-, old, foundOld, cores⟩
    · rw [tx_congr cores, sigOpCost_congr cores]
      exact mem_cons_self
    · rw [← tx_congr cores, ← sigOpCost_congr cores]
      exact mem_cons_of_mem _ (holds.listed hash old foundOld)
  present := by
    intro item listed
    rcases mem_cons.mp listed with rfl | listed
    · obtain ⟨current, found, cores⟩ := added.gains.lookup_added
      exact ⟨current, found, tx_congr cores, sigOpCost_congr cores⟩
    · obtain ⟨old, foundOld, isTx, isCost⟩ := holds.present item listed
      obtain ⟨current, found, cores⟩ := added.gains.lookup_old (fresh item listed) foundOld
      exact ⟨current, found, (tx_congr cores).trans isTx, (sigOpCost_congr cores).trans isCost⟩

theorem Holds.mem_iff (holds : Holds env pool items) (books : BooksOk env pool) {hash : Uint256} :
    hash ∈ pool.family.carrier ↔ ∃ item ∈ items, env.hashes.getHash item.1 = hash := by
  rw [mem_family]
  constructor
  · intro present
    obtain ⟨entry, found⟩ := present
    exact ⟨_, holds.listed hash entry found, books.keyed hash entry found⟩
  · intro present
    obtain ⟨item, listed, rfl⟩ := present
    obtain ⟨entry, found, -⟩ := holds.present item listed
    exact ⟨entry, found⟩

/-- Such a transaction joins the pool with its parents as ancestors. -/
theorem Holds.joins (holds : Holds env pool items) (books : BooksOk env pool) {tx : CTransaction}
    {setAncestors : SetEntries} (joinsRoots : JoinsRoots env items tx setAncestors) :
    Joins env pool tx setAncestors := by
  obtain ⟨notOwnChild, others, ancestors⟩ := joinsRoots
  refine ⟨?_, ?_, notOwnChild, ?_, ?_⟩
  · cases found : pool.mapTx.lookup (env.hashes.getHash tx) with
    | none => rfl
    | some entry => exact absurd (books.keyed _ entry found) (others _ (holds.listed _ entry found)).1
  · exact fun hash entry found => (others _ (holds.listed hash entry found)).2.1
  · intro prevout listed
    cases spent : pool.mapNextTx.lookup prevout with
    | none => rfl
    | some spender =>
      obtain ⟨hash, entry, found, rfl, spends⟩ := (books.next prevout spender).mp spent
      exact absurd spends ((others _ (holds.listed hash entry found)).2.2.1 prevout listed)
  · intro hash
    constructor
    · intro listed
      have both := all_eq_true.mp ancestors hash listed
      rw [Bool.and_eq_true, contains_iff_mem, any_eq_true] at both
      obtain ⟨input, item, isItem, isHash⟩ := both
      exact ⟨hash, input, (holds.mem_iff books).mpr ⟨item, isItem, eq_of_beq isHash⟩, .refl⟩
    · intro path
      obtain ⟨parent, input, member, reaches⟩ := path
      obtain ⟨item, isItem, rfl⟩ := (holds.mem_iff books).mp member
      obtain ⟨inSet, root⟩ := (others item isItem).2.2.2 input
      -- a parent without parents reaches only itself
      rcases reaches.cases_head with same | ⟨next, step, -⟩
      · rw [← same]
        exact inSet
      · obtain ⟨nextMember, entry, found, spent⟩ := step
        obtain ⟨own, foundOwn, isTx, -⟩ := holds.present item isItem
        rw [found] at foundOwn
        cases foundOwn
        obtain ⟨other, isOther, rfl⟩ := (holds.mem_iff books).mp (mem_family.mpr (mem_iff_lookup.mp nextMember))
        rw [isTx] at spent
        exact absurd spent (root other isOther)

/-- Transactions are told apart by their lock times. -/
def lockTimeEnv : PoolEnv where
  hashes := ⟨fun tx => BitVec.ofNat 256 tx.nLockTime.toNat, fun tx => BitVec.ofNat 256 tx.nLockTime.toNat,
    fun left _ => left⟩
  nBytesPerSigOp := 20

def spending (nLockTime : UInt32) (spent : List Uint256) : CTransaction where
  nVersion := 1
  vin := spent.map fun hash => ⟨⟨hash, 0⟩, [], 0xffffffff, []⟩
  vout := [⟨1, []⟩]
  nLockTime := nLockTime

end Straks.Mempool
