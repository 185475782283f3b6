import Straks.Library.Listing
import Straks.Proof.MempoolInsertion
import Straks.Proof.PackageUpdate

namespace Straks.Miner

open Chain Mempool Loop Success Relation CTxMemPool CTxMemPoolEntry List

section Order

variable {env : PoolEnv} {pool : CTxMemPool}

/-- The package order puts the first no later than the second. -/
theorem notAfter_iff {a b : Uint256} : compareByAncestorCount pool b a = false ↔
    ancestorCount pool a < ancestorCount pool b ∨ ancestorCount pool a = ancestorCount pool b ∧
      littleEndian 32 a.toNat ≤ littleEndian 32 b.toNat := by
  rw [compareByAncestorCount]
  by_cases same : ancestorCount pool b = ancestorCount pool a
  · simp [same, hashBefore]
  · simp only [ne_eq, same, not_false_eq_true, if_true, decide_eq_false_iff_not]
    omega

theorem sortForBlock_perm (package : SetEntries) : (sortForBlock pool package).Perm package.elements :=
  perm_insertionSort _ _

@[simp] theorem mem_sortForBlock {package : SetEntries} {hash : Uint256} :
    hash ∈ sortForBlock pool package ↔ hash ∈ package :=
  (sortForBlock_perm package).mem_iff

theorem sortForBlock_ranked (package : SetEntries) : (sortForBlock pool package).Pairwise fun first second =>
    ancestorCount pool first ≤ ancestorCount pool second := by
  have total : Std.Total fun a b => compareByAncestorCount pool b a = false := by
    constructor
    intro a b
    rw [notAfter_iff, notAfter_iff]
    rcases lt_trichotomy (ancestorCount pool a) (ancestorCount pool b) with lower | same | higher
    · exact .inl (.inl lower)
    · rcases List.le_total (littleEndian 32 a.toNat) (littleEndian 32 b.toNat) with first | second
      · exact .inl (.inr ⟨same, first⟩)
      · exact .inr (.inr ⟨same.symm, second⟩)
    · exact .inr (.inl higher)
  have transitive : IsTrans Uint256 fun a b => compareByAncestorCount pool b a = false := by
    constructor
    intro a b c
    rw [notAfter_iff, notAfter_iff, notAfter_iff]
    intro first second
    rcases first with lower | ⟨same, bytes⟩
    · left
      omega
    · rcases second with lower | ⟨same', bytes'⟩
      · left
        omega
      · exact .inr ⟨same.trans same', List.le_trans bytes bytes'⟩
  have sorted := pairwise_insertionSort (fun a b => compareByAncestorCount pool b a = false) package.elements
  apply sorted.imp
  intro a b inOrder
  rcases notAfter_iff.mp inOrder with lower | ⟨same, -⟩
  · exact lower.le
  · exact same.le

/-- A parent has a lower ancestor count than its child. -/
theorem ancestorCount_lt (consistent : LinkedOk env pool) {child parent : Uint256} (spends : pool.Spends child parent) :
    ancestorCount pool parent < ancestorCount pool child := by
  have count {hash : Uint256} (member : hash ∈ pool.family.carrier) :
      ancestorCount pool hash = (pool.family.up hash).card := by
    obtain ⟨entry, found⟩ := mem_family.mp member
    have totals : entry.nCountWithAncestors = (ancestorsTotal env pool hash).1.1 :=
      congrArg (fun totals : Totals × Int => totals.1.1) (consistent.totals hash entry found).1
    rw [ancestorCount, found, Option.map_some, Option.getD_some, totals, ancestorsTotal, Prod.fst_sum, Prod.fst_sum,
      Finset.sum_congr rfl fun other above => weight_count (Family.up_subset above), Finset.sum_const, nsmul_one]
  have inside := pool.family.inside child parent spends
  rw [count inside.1, count inside.2]
  exact Int.ofNat_lt.mpr (Finset.card_lt_card (consistent.acyclic.up_ssubset spends))

end Order

/-- Different transactions of the pool are no more than it has. -/
theorem length_le_pool {pool : CTxMemPool} {list : List Uint256} (nodup : list.Nodup) (inside : ∀ hash ∈ list, hash ∈ pool.family.carrier) :
    list.length ≤ pool.mapTx.keys.length := by
  apply Subperm.length_le
  apply nodup.subperm
  intro hash listed
  exact List.mem_toFinset.mp (inside hash listed)

variable (pool : CTxMemPool)

/-- The block so far lists pool transactions after their parents. -/
structure Selected (assembler : BlockAssembler) : Prop where
  listing : pool.family.Listing assembler.vtx
  members : ∀ hash, hash ∈ assembler.inBlock ↔ hash ∈ assembler.vtx

theorem selected_resetBlock : Selected pool .resetBlock where
  listing := .nil
  members hash := iff_of_false (OrderedSet.not_mem_empty hash) not_mem_nil

namespace Selected

variable {pool : CTxMemPool} {assembler : BlockAssembler} (selected : Selected pool assembler) {hash other : Uint256}
include selected

theorem inside (member : hash ∈ assembler.inBlock) : hash ∈ pool.family.carrier :=
  selected.listing.inside ((selected.members hash).mp member)

theorem closed (member : hash ∈ assembler.inBlock) (reaches : pool.family.Reaches hash other) :
    other ∈ assembler.inBlock :=
  (selected.members other).mpr (selected.listing.closed ((selected.members hash).mp member) reaches)

theorem size_eq : assembler.inBlock.size = assembler.vtx.length := by
  apply Perm.length_eq
  apply (perm_ext_iff_of_nodup assembler.inBlock.nodup selected.listing.nodup).mpr
  exact selected.members

theorem size_le : assembler.inBlock.size ≤ pool.mapTx.keys.length :=
  length_le_pool assembler.inBlock.nodup fun _ member => selected.inside member

end Selected

/-- The weight of the transaction of a hash. -/
def txWeight (hash : Uint256) : Nat :=
  ((pool.mapTx.lookup hash).map fun entry => getTransactionWeight entry.tx).getD 0

/-- The signature operations of the transaction of a hash. -/
def txSigOpCost (hash : Uint256) : Nat :=
  ((pool.mapTx.lookup hash).map CTxMemPoolEntry.sigOpCost).getD 0

/-- Some transactions are added to the end of a block. -/
structure Extended (list : List Uint256) (before after : BlockAssembler) : Prop where
  vtx : after.vtx = before.vtx ++ list
  members : ∀ hash, hash ∈ after.inBlock ↔ hash ∈ before.inBlock ∨ hash ∈ list
  weight : after.nBlockWeight = before.nBlockWeight + (list.map (txWeight pool)).sum
  sigOps : after.nBlockSigOpsCost = before.nBlockSigOpsCost + (list.map (txSigOpCost pool)).sum

namespace Extended

variable {pool : CTxMemPool} {list more : List Uint256} {before middle after : BlockAssembler}

theorem nil (assembler : BlockAssembler) : Extended pool [] assembler assembler where
  vtx := (append_nil _).symm
  members := by simp
  weight := rfl
  sigOps := rfl

theorem trans (first : Extended pool list before middle) (second : Extended pool more middle after) :
    Extended pool (list ++ more) before after where
  vtx := by rw [second.vtx, first.vtx, append_assoc]
  members hash := by rw [second.members, first.members, mem_append, or_assoc]
  weight := by rw [second.weight, first.weight, map_append, sum_append, add_assoc]
  sigOps := by rw [second.sigOps, first.sigOps, map_append, sum_append, add_assoc]

theorem add (flag : Bool) (assembler : BlockAssembler) {iter : Uint256} {entry : CTxMemPoolEntry}
    (found : pool.mapTx.lookup iter = some entry) :
    Extended pool [iter] assembler (assembler.add flag iter entry) where
  vtx := rfl
  members hash := by
    rw [BlockAssembler.add, OrderedSet.mem_insert, mem_singleton, or_comm]
  weight := by simp [BlockAssembler.add, txWeight, found]
  sigOps := by simp [BlockAssembler.add, txSigOpCost, found]

theorem selected_same (same : Extended pool [] before after) (start : Selected pool before) : Selected pool after where
  listing := by
    rw [same.vtx, append_nil]
    exact start.listing
  members hash := by
    rw [same.members, or_iff_left not_mem_nil, same.vtx, append_nil]
    exact start.members hash

/-- A transaction with its parents in keeps the block well formed. -/
theorem selected_snoc {iter : Uint256} (extended : Extended pool [iter] before after) (start : Selected pool before)
    (member : iter ∈ pool.family.carrier) (fresh : iter ∉ before.inBlock)
    (parents : ∀ parent, pool.Spends iter parent → parent ∈ before.inBlock) : Selected pool after where
  listing := by
    rw [extended.vtx]
    apply start.listing.snoc member
    · rw [← start.members]
      exact fresh
    · intro parent spends
      rw [← start.members]
      exact parents parent spends
  members hash := by rw [extended.members, start.members, extended.vtx, mem_append]

/-- New transactions in ancestor count order keep the block well formed. -/
theorem selected {env : PoolEnv} (consistent : LinkedOk env pool) {package : SetEntries}
    (extended : Extended pool (sortForBlock pool package) before after) (start : Selected pool before)
    (fresh : ∀ hash ∈ package, hash ∈ pool.family.carrier ∧ hash ∉ before.inBlock)
    (parents : ∀ child ∈ package, ∀ parent, pool.Spends child parent → parent ∈ before.inBlock ∨ parent ∈ package) :
    Selected pool after where
  listing := by
    rw [extended.vtx]
    apply start.listing.append ((sortForBlock_perm package).nodup_iff.mpr package.nodup) _ _
      (fun _ _ => ancestorCount_lt consistent) (sortForBlock_ranked package)
    · intro hash listed
      rw [← start.members]
      exact fresh hash (mem_sortForBlock.mp listed)
    · intro child listed parent spends
      rw [← start.members, mem_sortForBlock]
      exact parents child (mem_sortForBlock.mp listed) parent spends
  members hash := by rw [extended.members, start.members, extended.vtx, mem_append]

end Extended

end Straks.Miner
