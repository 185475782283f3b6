import Straks.Construction.Mempool.PoolCalls
import Straks.Proof.MempoolContents
import Straks.Proof.MempoolPriority
import Straks.Proof.MempoolTrim

namespace Straks.Mempool
open Relation Success Run CTxMemPoolEntry CTxMemPool Finset Prod PoolCall PoolOk

/-- A number of each entry, zero without an entry. -/
def valueOf (pool : CTxMemPool) (value : CTxMemPoolEntry → Int) (hash : Uint256) : Int :=
  ((pool.mapTx.lookup hash).map value).getD 0

variable (env : PoolEnv)

def sizeOf (entry : CTxMemPoolEntry) : Int := entry.getTxSize env

def sigOpsOf (entry : CTxMemPoolEntry) : Int := entry.sigOpCost

/-- The totals of an entry are sums with its ancestors, and with its descendants. -/
structure TotalsExact (pool : CTxMemPool) (hash : Uint256) (entry : CTxMemPoolEntry) : Prop where
  countWithAncestors : entry.nCountWithAncestors = (pool.family.up hash).card
  sizeWithAncestors : entry.nSizeWithAncestors = ∑ other ∈ pool.family.up hash, valueOf pool (sizeOf env) other
  modFeesWithAncestors :
    entry.nModFeesWithAncestors = ∑ other ∈ pool.family.up hash, valueOf pool getModifiedFee other
  sigOpCostWithAncestors : entry.nSigOpCostWithAncestors = ∑ other ∈ pool.family.up hash, valueOf pool sigOpsOf other
  countWithDescendants : entry.nCountWithDescendants = (pool.family.down hash).card
  sizeWithDescendants : entry.nSizeWithDescendants = ∑ other ∈ pool.family.down hash, valueOf pool (sizeOf env) other
  modFeesWithDescendants :
    entry.nModFeesWithDescendants = ∑ other ∈ pool.family.down hash, valueOf pool getModifiedFee other

/-- All the pool derives is what the spends give. -/
structure PoolExact (pool : CTxMemPool) : Prop where
  totals : ∀ hash entry, pool.mapTx.lookup hash = some entry → TotalsExact env pool hash entry
  linked : ∀ hash, hash ∈ pool.mapLinks ↔ hash ∈ pool.mapTx
  parents : ∀ hash links, pool.mapLinks.lookup hash = some links →
    ∀ parent, parent ∈ links.parents ↔ pool.Spends hash parent
  children : ∀ hash links, pool.mapLinks.lookup hash = some links →
    ∀ child, child ∈ links.children ↔ pool.Spends child hash
  next : ∀ prevout tx, pool.mapNextTx.lookup prevout = some tx ↔
    ∃ hash entry, pool.mapTx.lookup hash = some entry ∧ entry.tx = tx ∧ prevout ∈ spentOutputs tx
  totalTxSize : pool.totalTxSize = ∑ hash ∈ pool.family.carrier, valueOf pool (sizeOf env) hash

section Components

variable {env : PoolEnv} {pool : CTxMemPool} (hash : Uint256)

theorem weight_components : pool.weight env hash =
    ((valueOf pool (fun _ => 1) hash, valueOf pool (sizeOf env) hash, valueOf pool getModifiedFee hash),
      valueOf pool sigOpsOf hash) := by
  rw [CTxMemPool.weight, valueOf, valueOf, valueOf, valueOf]
  cases pool.mapTx.lookup hash with
  | none => rfl
  | some entry => rfl

theorem sum_valueOf_one {set : Finset Uint256} (inside : set ⊆ pool.family.carrier) :
    ∑ hash ∈ set, valueOf pool (fun _ => 1) hash = set.card := by
  rw [card_eq_sum_ones, Nat.cast_sum]
  apply sum_congr rfl
  intro hash listed
  obtain ⟨entry, found⟩ := mem_family.mp (inside listed)
  rw [valueOf, found]
  rfl

theorem valueOf_sigOps_nonneg (pool : CTxMemPool) (hash : Uint256) : 0 ≤ valueOf pool sigOpsOf hash := by
  rw [valueOf]
  cases pool.mapTx.lookup hash with
  | none => exact le_rfl
  | some entry => exact Int.natCast_nonneg _

theorem Holds.valueOf_sigOps {items : List (CTransaction × Nat)} (holds : Holds env pool items)
    {item : CTransaction × Nat} (listed : item ∈ items) :
    valueOf pool sigOpsOf (env.hashes.getHash item.1) = item.2 := by
  obtain ⟨entry, found, -, cost⟩ := holds.present item listed
  rw [valueOf, found]
  exact congrArg Nat.cast cost

theorem ancestorsTotal_components : ancestorsTotal env pool hash =
    ((((pool.family.up hash).card : Int), ∑ other ∈ pool.family.up hash, valueOf pool (sizeOf env) other,
      ∑ other ∈ pool.family.up hash, valueOf pool getModifiedFee other),
      ∑ other ∈ pool.family.up hash, valueOf pool sigOpsOf other) := by
  rw [ancestorsTotal, ← sum_valueOf_one Family.up_subset]
  simp only [weight_components]
  ext <;> simp [fst_sum, snd_sum]

theorem descendantsTotal_components : descendantsTotal env pool hash =
    (((pool.family.down hash).card : Int), ∑ other ∈ pool.family.down hash, valueOf pool (sizeOf env) other,
      ∑ other ∈ pool.family.down hash, valueOf pool getModifiedFee other) := by
  rw [descendantsTotal, ← sum_valueOf_one Family.down_subset]
  simp only [weight_components]
  ext <;> simp [fst_sum, snd_sum]

theorem PoolOk.exact (ok : PoolOk env pool) : PoolExact env pool where
  totals := by
    intro hash entry found
    have both := ok.totals hash entry found
    rw [ancestorsTotal_components, descendantsTotal_components] at both
    obtain ⟨up, down⟩ := both
    simp only [ancestorTotals, descendantTotals, Prod.mk.injEq] at up down
    exact ⟨up.1.1, up.1.2.1, up.1.2.2, up.2, down.1, down.2.1, down.2.2⟩
  linked := ok.links.keys
  parents := ok.links.parents
  children := ok.links.children
  next := ok.next
  totalTxSize := by
    rw [ok.total]
    apply sum_congr rfl
    intro hash _
    rw [weight_components]

theorem PoolOk.empty (env : PoolEnv) : PoolOk env .empty := by
  have noEntry {hash : Uint256} {entry : CTxMemPoolEntry} : CTxMemPool.empty.mapTx.lookup hash ≠ some entry := by
    exact (Option.some_ne_none entry).symm
  have noMember {hash : Uint256} : hash ∉ CTxMemPool.empty.family.carrier := by
    rw [mem_family]
    exact fun present => noEntry present.choose_spec
  have noLinks {hash : Uint256} {links : TxLinks} : CTxMemPool.empty.mapLinks.lookup hash ≠ some links := by
    exact (Option.some_ne_none links).symm
  refine ⟨⟨⟨?_, ?_, ⟨?_, ?_⟩, ?_⟩, ?_, ⟨?_, ?_, ?_⟩, ?_, ?_⟩, ?_⟩
  · exact fun hash entry found => absurd found noEntry
  · intro prevout tx
    constructor
    · exact fun impossible => absurd impossible (Option.some_ne_none tx).symm
    · exact fun spender => absurd spender.choose_spec.choose_spec.1 noEntry
  · exact fun hash entry found => absurd found noEntry
  · intro index slot found
    cases found
  · rfl
  · intro hash cycle
    obtain ⟨next, step, -⟩ := TransGen.head'_iff.mp cycle
    exact noMember (CTxMemPool.empty.family.inside _ _ step).1
  · intro hash
    rw [mem_iff_lookup, mem_iff_lookup]
    exact ⟨fun linked => absurd linked.choose_spec noLinks, fun present => absurd present.choose_spec noEntry⟩
  · exact fun hash links found => absurd found noLinks
  · exact fun hash links found => absurd found noLinks
  · exact fun hash entry found => absurd found noEntry
  · exact fun hash member => absurd member noMember
  · exact fun hash entry found => absurd found noEntry

end Components

/-- A new transaction comes with its ancestors and without child or conflict, and a block is one of the pool's chain.
The other calls leave the state of the pool to others. -/
def WellCalled (pool : CTxMemPool) : PoolCall → Prop
  | .addUnchecked tx _ _ _ setAncestors => Joins env pool tx setAncestors
  | .removeForBlock vtx => ParentsFirst env pool vtx
  | .removeRecursive _ | .removeForReorg _ | .removeConflicts _ | .expire _ | .trimToSize _ _ _
  | .prioritiseTransaction _ _ => True
  | .removeStaged _ _ | .clearPrioritisation _ | .updateTransactionsFromBlock _ | .clear => False

/-- The signature operations of a new transaction and its ancestors fit an `int`. -/
def SigOpsFit (pool : CTxMemPool) : PoolCall → Prop
  | .addUnchecked _ _ _ sigOpCost setAncestors =>
    sigOpCost + ∑ hash ∈ setAncestors.toFinset, valueOf pool sigOpsOf hash < 2 ^ 31
  | _ => True

section Run

variable {env : PoolEnv}

variable {pool : CTxMemPool} {tx : CTransaction} {sigOpCost : Nat} {setAncestors : SetEntries}

theorem addable_of_fit (joins : Joins env pool tx setAncestors)
    (fits : sigOpCost + ∑ hash ∈ setAncestors.toFinset, valueOf pool sigOpsOf hash < 2 ^ 31) :
    Addable env pool tx sigOpCost setAncestors := by
  refine ⟨joins, ?_⟩
  rw [snd_sum, sum_congr rfl fun hash _ => congrArg snd (weight_components hash)]
  exact fits

/-- A well made call succeeds and keeps the pool consistent. -/
theorem PoolOk.apply (ok : PoolOk env pool) {call : PoolCall} (wellCalled : WellCalled env pool call)
    (sigOpsFit : SigOpsFit pool call) : ∃ later, call.apply env pool = .ok later ∧ PoolOk env later := by
  cases call with
  | addUnchecked tx nFee nTime sigOpCost setAncestors =>
    obtain ⟨later, added, okLater, -⟩ := ok.addUnchecked (addable_of_fit wellCalled sigOpsFit)
    exact ⟨later, added, okLater⟩
  | removeRecursive origTx =>
    obtain ⟨later, removed, okLater, -⟩ := ok.removeRecursive origTx
    exact ⟨later, removed, okLater⟩
  | removeForReorg noLongerValid =>
    obtain ⟨later, removed, okLater, -⟩ := ok.removeForReorg noLongerValid
    exact ⟨later, removed, okLater⟩
  | removeConflicts tx =>
    obtain ⟨later, removed, okLater, -⟩ := ok.removeConflicts tx
    exact ⟨later, removed, okLater⟩
  | removeForBlock vtx =>
    obtain ⟨later, removed, okLater, -⟩ := ok.removeForBlock wellCalled
    exact ⟨later, removed, okLater⟩
  | removeStaged stage updateDescendants => exact wellCalled.elim
  | expire time =>
    obtain ⟨later, count, expired, okLater, -⟩ := ok.expire time
    exact ⟨later, congrArg (fst <$> ·) expired, okLater⟩
  | trimToSize usage score sizelimit =>
    obtain ⟨later, remaining, trimmed, okLater, -⟩ := ok.trimToSize usage score sizelimit
    exact ⟨later, congrArg (fst <$> ·) trimmed, okLater⟩
  | prioritiseTransaction hash nFeeDelta =>
    obtain ⟨later, prioritised, okLater, -⟩ := ok.prioritiseTransaction hash nFeeDelta
    exact ⟨later, prioritised, okLater⟩
  | clearPrioritisation hash => exact wellCalled.elim
  | updateTransactionsFromBlock vHashesToUpdate => exact wellCalled.elim
  | clear => exact wellCalled.elim

/-- Sequences of such calls leave a consistent pool. -/
theorem poolAfter_consistent {calls : List PoolCall}
    (along : Along (apply env) (fun pool call => WellCalled env pool call ∧ SigOpsFit pool call) .empty calls) :
    ∃ pool, poolAfter env calls = .ok pool ∧ PoolOk env pool :=
  runUntil_total (fun _ _ ok condition => ok.apply condition.1 condition.2) (empty env) along

/-- A run goes on after an addition. -/
theorem along_addUnchecked {items : List (CTransaction × Nat)} {meets : CTxMemPool → PoolCall → Prop} {nFee : CAmount}
    {nTime : Int} {rest : List PoolCall} (ok : PoolOk env pool) (holds : Holds env pool items)
    (joinsRoots : JoinsRoots env items tx setAncestors)
    (fits : sigOpCost + ∑ hash ∈ setAncestors.toFinset, valueOf pool sigOpsOf hash < 2 ^ 31)
    (condition : meets pool (.addUnchecked tx nFee nTime sigOpCost setAncestors))
    (next : ∀ later, PoolOk env later → Holds env later ((tx, sigOpCost) :: items) → Along (apply env) meets later rest)
    : Along (apply env) meets pool (.addUnchecked tx nFee nTime sigOpCost setAncestors :: rest) := by
  refine ⟨condition, fun later applied => ?_⟩
  obtain ⟨other, addedOther, okLater, added⟩ :=
    @PoolOk.addUnchecked env pool tx nFee nTime sigOpCost setAncestors ok
      (addable_of_fit (holds.joins ok.toBooksOk joinsRoots) fits)
  have same : later = other := Except.ok.inj (applied.symm.trans addedOther)
  rw [same]
  exact next other okLater (holds.add added fun item listed => (joinsRoots.2.1 item listed).1)

end Run

/-- A run that starts with a parent and its child. -/
theorem along_family {parent child : CTransaction} {parentFee childFee : CAmount} {rest : List PoolCall}
    (parentJoins : JoinsRoots lockTimeEnv [] parent .empty)
    (childJoins : JoinsRoots lockTimeEnv [(parent, 4)] child (single 1)) (hash : lockTimeEnv.hashes.getHash parent = 1)
    (next : ∀ later, Along (apply lockTimeEnv)
      (fun pool call => WellCalled lockTimeEnv pool call ∧ SigOpsFit pool call) later rest) :
    Along (apply lockTimeEnv) (fun pool call => WellCalled lockTimeEnv pool call ∧ SigOpsFit pool call) .empty
      (.addUnchecked parent parentFee 0 4 .empty :: .addUnchecked child childFee 0 4 (single 1) :: rest) := by
  have parentFits : ((4 : Nat) : Int) + ∑ hash ∈ (OrderedSet.empty : SetEntries).toFinset,
      valueOf .empty sigOpsOf hash < 2 ^ 31 := by
    rw [OrderedSet.sum_toFinset]
    norm_num [OrderedSet.empty]
  apply along_addUnchecked (empty _) (Holds.empty _) parentJoins parentFits
  · exact ⟨(Holds.empty _).joins (empty _).toBooksOk parentJoins, parentFits⟩
  intro later ok holds
  have childFits : ((4 : Nat) : Int) + ∑ hash ∈ (single 1).toFinset, valueOf later sigOpsOf hash < 2 ^ 31 := by
    have cost : valueOf later sigOpsOf (lockTimeEnv.hashes.getHash parent) = 4 := holds.valueOf_sigOps List.mem_cons_self
    rw [hash] at cost
    rw [single_toFinset, sum_singleton, cost]
    norm_num
  apply along_addUnchecked ok holds childJoins childFits
  · exact ⟨holds.joins ok.toBooksOk childJoins, childFits⟩
  · exact fun added _ _ => next added

/-- Two parents with costs above an `int`, and a cheap child. -/
def costlyParents : List PoolCall :=
  [.addUnchecked (spending 1 [10]) 0 0 (2 ^ 31 - 1) .empty, .addUnchecked (spending 2 [11]) 0 0 (2 ^ 31 - 1) .empty,
    .addUnchecked (spending 3 [1, 2]) 0 0 2 ((single 1).insert hashBefore 2)]

end Straks.Mempool
