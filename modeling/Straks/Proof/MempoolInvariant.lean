import Straks.Proof.MempoolWalks
import Straks.Proof.MempoolSlots

namespace Straks.Mempool
open Relation Success CTxMemPoolEntry

namespace CTxMemPool

/-- The links of each entry of the pool, and of nothing else. -/
structure LinksAre (pool : CTxMemPool) (parents children : Uint256 → Uint256 → Prop) : Prop where
  keys : ∀ hash, hash ∈ pool.mapLinks ↔ hash ∈ pool.mapTx
  parents : ∀ hash links, pool.mapLinks.lookup hash = some links → ∀ other, other ∈ links.parents ↔ parents hash other
  children : ∀ hash links, pool.mapLinks.lookup hash = some links →
    ∀ other, other ∈ links.children ↔ children hash other

namespace LinksAre

variable {pool : CTxMemPool} {parents children : Uint256 → Uint256 → Prop} (links : pool.LinksAre parents children)
include links

variable {hash : Uint256} {entry : CTxMemPoolEntry}

section

variable (found : pool.mapTx.lookup hash = some entry)
include found

theorem lookup : ∃ own, pool.mapLinks.lookup hash = some own :=
  mem_iff_lookup.mp ((links.keys hash).mpr (mem_iff_lookup.mpr ⟨entry, found⟩))

theorem getMemPoolParents :
    ∃ set, pool.getMemPoolParents hash = .ok set ∧ ∀ other, other ∈ set ↔ parents hash other := by
  obtain ⟨own, linked⟩ := links.lookup found
  refine ⟨own.parents, ?_, links.parents hash own linked⟩
  rw [CTxMemPool.getMemPoolParents, getLinks, linked]
  rfl

theorem getMemPoolChildren :
    ∃ set, pool.getMemPoolChildren hash = .ok set ∧ ∀ other, other ∈ set ↔ children hash other := by
  obtain ⟨own, linked⟩ := links.lookup found
  refine ⟨own.children, ?_, links.children hash own linked⟩
  rw [CTxMemPool.getMemPoolChildren, getLinks, linked]
  rfl

end

/-- Only entries of the pool have parents recorded. -/
theorem linked (it : Uint256) (set : SetEntries) (answered : pool.getMemPoolParents it = .ok set) :
    ∃ entry, pool.mapTx.lookup it = some entry := by
  apply mem_iff_lookup.mp
  apply (links.keys it).mp
  apply mem_iff_lookup.mpr
  cases found : pool.mapLinks.lookup it with
  | none =>
    rw [CTxMemPool.getMemPoolParents, getLinks, found] at answered
    cases answered
  | some own => exact ⟨own, rfl⟩

theorem congr {otherParents otherChildren : Uint256 → Uint256 → Prop}
    (sameParents : ∀ hash other, parents hash other ↔ otherParents hash other)
    (sameChildren : ∀ hash other, children hash other ↔ otherChildren hash other) :
    pool.LinksAre otherParents otherChildren where
  keys := links.keys
  parents hash own linked other := (links.parents hash own linked other).trans (sameParents hash other)
  children hash own linked other := (links.children hash own linked other).trans (sameChildren hash other)

/-- The links stay when only totals change. -/
theorem sameCores {mapTx : AList fun _ : Uint256 => CTxMemPoolEntry} (same : SameCores pool { pool with mapTx }) :
    LinksAre { pool with mapTx } parents children where
  keys hash := (links.keys hash).trans same.mem_iff
  parents := links.parents
  children := links.children

end LinksAre

variable {pool : CTxMemPool}

theorem LinksAre.parentsOk {children : Uint256 → Uint256 → Prop} (links : pool.LinksAre pool.Spends children) :
    pool.ParentsOk := by
  intro hash member
  obtain ⟨entry, found⟩ := mem_family.mp member
  exact links.getMemPoolParents found

theorem LinksAre.childrenOk {parents : Uint256 → Uint256 → Prop}
    (links : pool.LinksAre parents fun hash child => pool.Spends child hash) : pool.ChildrenOk := by
  intro hash member
  obtain ⟨entry, found⟩ := mem_family.mp member
  exact links.getMemPoolChildren found

/-- A loop that changes the links of each entry once. -/
theorem modifyAllLinks (modifier : TxLinks → TxLinks) {list : List Uint256} (nodup : list.Nodup)
    (present : ∀ it ∈ list, it ∈ pool.mapLinks) :
    ∃ mapLinks, list.foldl (fun pool it => pool.modifyLinks it modifier) pool = { pool with mapLinks } ∧
      ∀ hash, mapLinks.lookup hash =
        if hash ∈ list then (pool.mapLinks.lookup hash).map modifier else pool.mapLinks.lookup hash := by
  induction list generalizing pool with
  | nil => exact ⟨pool.mapLinks, rfl, fun hash => by simp⟩
  | cons it rest ih =>
    obtain ⟨fresh, nodup⟩ := List.nodup_cons.mp nodup
    obtain ⟨own, found⟩ := mem_iff_lookup.mp (present it List.mem_cons_self)
    obtain ⟨mapLinks, folded, isLinks⟩ := @ih (pool.modifyLinks it modifier) nodup (by
      intro other member
      rw [modifyLinks, AList.mem_insert]
      exact .inr (present other (List.mem_cons_of_mem _ member)))
    refine ⟨mapLinks, folded, fun hash => ?_⟩
    rw [isLinks]
    simp only [modifyLinks, found, Option.getD_some, lookup_insert_eq]
    by_cases same : hash = it
    · subst same
      simp [fresh, found]
    · simp [same]

/-- The links after such a loop. -/
theorem LinksAre.modifyAll {parents children parents' children' : Uint256 → Uint256 → Prop}
    (links : pool.LinksAre parents children) (modifier : TxLinks → TxLinks) {list : List Uint256} (nodup : list.Nodup)
    (present : ∀ it ∈ list, it ∈ pool.mapTx)
    (newParents : ∀ hash own, (∀ other, other ∈ own.parents ↔ parents hash other) →
      ∀ other, other ∈ (if hash ∈ list then modifier own else own).parents ↔ parents' hash other)
    (newChildren : ∀ hash own, (∀ other, other ∈ own.children ↔ children hash other) →
      ∀ other, other ∈ (if hash ∈ list then modifier own else own).children ↔ children' hash other) :
    ∃ mapLinks, list.foldl (fun pool it => pool.modifyLinks it modifier) pool = { pool with mapLinks } ∧
      LinksAre { pool with mapLinks } parents' children' := by
  obtain ⟨mapLinks, folded, isLinks⟩ :=
    modifyAllLinks modifier nodup (fun it member => (links.keys it).mpr (present it member))
  have before {hash : Uint256} {own : TxLinks} (linked : mapLinks.lookup hash = some own) :
      ∃ old, pool.mapLinks.lookup hash = some old ∧ own = if hash ∈ list then modifier old else old := by
    rw [isLinks] at linked
    split at linked
    · obtain ⟨old, found, isOwn⟩ := Option.map_eq_some_iff.mp linked
      rename_i listed
      exact ⟨old, found, (isOwn.symm.trans (if_pos listed).symm)⟩
    · rename_i absent
      exact ⟨own, linked, (if_neg absent).symm⟩
  refine ⟨mapLinks, folded, ?_, ?_, ?_⟩
  · intro hash
    rw [mem_iff_lookup, isLinks, ← links.keys hash, mem_iff_lookup]
    split <;> simp
  · intro hash own linked
    obtain ⟨old, found, rfl⟩ := before linked
    exact newParents hash old (links.parents hash old found)
  · intro hash own linked
    obtain ⟨old, found, rfl⟩ := before linked
    exact newChildren hash old (links.children hash old found)

section Loops

variable {pool : CTxMemPool} {parents children : Uint256 → Uint256 → Prop} (links : pool.LinksAre parents children)
  (it : Uint256) {list : List Uint256} (nodup : list.Nodup) (present : ∀ other ∈ list, other ∈ pool.mapTx)
include links nodup present

/-- Each parent in the list gets the child. -/
theorem LinksAre.insertChild :
    ∃ mapLinks, list.foldl (fun pool piter => pool.updateChild piter it true) pool = { pool with mapLinks } ∧
      LinksAre { pool with mapLinks } parents fun hash child => children hash child ∨ child = it ∧ hash ∈ list := by
  apply links.modifyAll _ nodup present
  · intro hash own isParents other
    split
    · exact isParents other
    · exact isParents other
  · intro hash own isChildren other
    by_cases listed : hash ∈ list
    · simp [listed, updateSet, isChildren, or_comm]
    · simp [listed, isChildren]

/-- Each parent in the list loses the child. -/
theorem LinksAre.eraseChild :
    ∃ mapLinks, list.foldl (fun pool piter => pool.updateChild piter it false) pool = { pool with mapLinks } ∧
      LinksAre { pool with mapLinks } parents
        fun hash child => children hash child ∧ ¬ (child = it ∧ hash ∈ list) := by
  apply links.modifyAll _ nodup present
  · intro hash own isParents other
    split
    · exact isParents other
    · exact isParents other
  · intro hash own isChildren other
    by_cases listed : hash ∈ list
    · simp [listed, updateSet, isChildren, and_comm]
    · simp [listed, isChildren]

/-- Each child in the list loses the parent. -/
theorem LinksAre.eraseParent :
    ∃ mapLinks, list.foldl (fun pool updateIt => pool.updateParent updateIt it false) pool = { pool with mapLinks } ∧
      LinksAre { pool with mapLinks } (fun hash parent => parents hash parent ∧ ¬ (parent = it ∧ hash ∈ list))
        children := by
  apply links.modifyAll _ nodup present
  · intro hash own isParents other
    by_cases listed : hash ∈ list
    · simp [listed, updateSet, isParents, and_comm]
    · simp [listed, isParents]
  · intro hash own isChildren other
    split
    · exact isChildren other
    · exact isChildren other

end Loops

end CTxMemPool

open Relation Success CTxMemPoolEntry CTxMemPool Prod Finset

/-- The set of one entry. -/
def single (hash : Uint256) : SetEntries := OrderedSet.empty.insert hashBefore hash

@[simp] theorem mem_single {hash other : Uint256} : other ∈ single hash ↔ other = hash := by
  rw [single, OrderedSet.mem_insert, or_iff_left (OrderedSet.not_mem_empty other)]

theorem single_toFinset (hash : Uint256) : (single hash).toFinset = {hash} := by
  ext other
  rw [OrderedSet.mem_toFinset, mem_single, mem_singleton]

/-- The outputs a transaction spends. -/
def spentOutputs (tx : CTransaction) : List COutPoint := tx.vin.map CTxIn.prevout

variable (env : PoolEnv) (pool : CTxMemPool)

/-- What the pool keeps about each transaction on its own. -/
structure BooksOk : Prop where
  keyed : ∀ hash entry, pool.mapTx.lookup hash = some entry → env.hashes.getHash entry.tx = hash
  /-- An output is recorded as spent by exactly the pool's spenders. -/
  next : ∀ prevout tx, pool.mapNextTx.lookup prevout = some tx ↔
    ∃ hash entry, pool.mapTx.lookup hash = some entry ∧ entry.tx = tx ∧ prevout ∈ spentOutputs tx
  slots : SlotsOk env pool
  total : pool.totalTxSize = ∑ hash ∈ pool.family.carrier, (pool.weight env hash).1.2.1

/-- The totals over an entry and its ancestors. -/
noncomputable def ancestorsTotal (hash : Uint256) : Totals × Int :=
  ∑ other ∈ pool.family.up hash, pool.weight env other

/-- The totals over an entry and its descendants. -/
noncomputable def descendantsTotal (hash : Uint256) : Totals :=
  ∑ other ∈ pool.family.down hash, (pool.weight env other).1

/-- A pool with the links and totals of the spend relation. -/
structure LinkedOk : Prop extends BooksOk env pool where
  acyclic : pool.family.Acyclic
  links : pool.LinksAre pool.Spends fun hash child => pool.Spends child hash
  totals : pool.TotalsAre (ancestorsTotal env pool) (descendantsTotal env pool)
  bounded : ∀ hash ∈ pool.family.carrier, (ancestorsTotal env pool hash).2 < 2 ^ 31

/-- Moreover each entry has the fee delta that was set for it. -/
structure PoolOk : Prop extends LinkedOk env pool where
  deltas : ∀ hash entry, pool.mapTx.lookup hash = some entry → entry.feeDelta = (pool.mapDeltas.lookup hash).getD 0

section Weights

variable {env : PoolEnv} {pool : CTxMemPool}

variable {hash : Uint256}

theorem weight_count (member : hash ∈ pool.family.carrier) : (pool.weight env hash).1.1 = 1 := by
  obtain ⟨entry, found⟩ := mem_family.mp member
  rw [weight_of_lookup found]
  rfl

theorem weight_size (member : hash ∈ pool.family.carrier) : 0 < (pool.weight env hash).1.2.1 := by
  obtain ⟨entry, found⟩ := mem_family.mp member
  rw [weight_of_lookup found]
  exact Int.natCast_pos.mpr (entry.getTxSize_pos env)

theorem weight_sigOps (hash : Uint256) : 0 ≤ (pool.weight env hash).2 := by
  rw [CTxMemPool.weight]
  cases pool.mapTx.lookup hash with
  | none => exact le_rfl
  | some entry => exact Int.natCast_nonneg _

theorem weight_size_nonneg (hash : Uint256) : 0 ≤ (pool.weight env hash).1.2.1 := by
  rw [CTxMemPool.weight]
  cases pool.mapTx.lookup hash with
  | none => exact le_rfl
  | some entry => exact Int.natCast_nonneg _

/-- Totals over some transactions of the pool are positive. -/
theorem sum_weight_pos {set : Finset Uint256} (inside : set ⊆ pool.family.carrier) (member : hash ∈ set) :
    0 < (∑ other ∈ set, (pool.weight env other).1).1 ∧ 0 < (∑ other ∈ set, (pool.weight env other).1).2.1 := by
  constructor
  · rw [fst_sum]
    apply sum_pos _ ⟨hash, member⟩
    intro other listed
    rw [weight_count (inside listed)]
    exact Int.one_pos
  · rw [snd_sum, fst_sum]
    exact sum_pos (fun other listed => weight_size (inside listed)) ⟨hash, member⟩

theorem sum_sigOps_nonneg (set : Finset Uint256) : 0 ≤ (∑ other ∈ set, pool.weight env other).2 := by
  rw [snd_sum]
  exact sum_nonneg fun other _ => weight_sigOps other

theorem sum_sigOps_mono {smaller larger : Finset Uint256} (sub : smaller ⊆ larger) :
    (∑ other ∈ smaller, pool.weight env other).2 ≤ (∑ other ∈ larger, pool.weight env other).2 := by
  rw [snd_sum, snd_sum]
  exact sum_le_sum_of_subset_of_nonneg sub fun other _ _ => weight_sigOps other

theorem sum_size_nonneg (set : Finset Uint256) : 0 ≤ (∑ other ∈ set, pool.weight env other).1.2.1 := by
  rw [fst_sum, snd_sum, fst_sum]
  exact sum_nonneg fun other _ => weight_size_nonneg other

theorem sum_size_mono {smaller larger : Finset Uint256} (sub : smaller ⊆ larger) :
    (∑ other ∈ smaller, pool.weight env other).1.2.1 ≤ (∑ other ∈ larger, pool.weight env other).1.2.1 := by
  rw [fst_sum, snd_sum, fst_sum, fst_sum, snd_sum, fst_sum]
  exact sum_le_sum_of_subset_of_nonneg sub fun other _ _ => weight_size_nonneg other

theorem ancestorsTotal_pos (member : hash ∈ pool.family.carrier) :
    0 < (ancestorsTotal env pool hash).1.1 ∧ 0 < (ancestorsTotal env pool hash).1.2.1 := by
  rw [ancestorsTotal, fst_sum]
  exact sum_weight_pos Family.up_subset (Family.self_mem_up member)

theorem descendantsTotal_pos (member : hash ∈ pool.family.carrier) :
    0 < (descendantsTotal env pool hash).1 ∧ 0 < (descendantsTotal env pool hash).2.1 :=
  sum_weight_pos Family.down_subset (Family.self_mem_down member)

end Weights

theorem TotalsAre.congr {pool : CTxMemPool} {ancestors ancestors' : Uint256 → Totals × Int}
    {descendants descendants' : Uint256 → Totals} (totals : pool.TotalsAre ancestors descendants)
    (same : ∀ hash ∈ pool.family.carrier, ancestors hash = ancestors' hash ∧ descendants hash = descendants' hash) :
    pool.TotalsAre ancestors' descendants' := by
  intro hash entry found
  have both := same hash (mem_family.mpr ⟨entry, found⟩)
  rw [← both.1, ← both.2]
  exact totals hash entry found

/-- The books are about transactions and their sizes. -/
theorem BooksOk.congr {env : PoolEnv} {pool other : CTxMemPool} (books : BooksOk env pool) (same : SameTx pool other)
    (sizes : ∀ hash, (other.weight env hash).1.2.1 = (pool.weight env hash).1.2.1)
    (mapNextTx : other.mapNextTx = pool.mapNextTx) (totalTxSize : other.totalTxSize = pool.totalTxSize)
    (vTxHashes : other.vTxHashes = pool.vTxHashes) (vTxHashesIdx : other.vTxHashesIdx = pool.vTxHashesIdx) :
    BooksOk env other where
  keyed := by
    intro hash entry found
    obtain ⟨before, foundBefore, sameTx⟩ := same.symm.lookup found
    rw [← sameTx]
    exact books.keyed hash before foundBefore
  next := by
    intro prevout tx
    rw [mapNextTx, books.next]
    constructor
    · intro spender
      obtain ⟨hash, entry, found, isTx, spent⟩ := spender
      obtain ⟨after, foundAfter, sameTx⟩ := same.lookup found
      exact ⟨hash, after, foundAfter, sameTx.trans isTx, spent⟩
    · intro spender
      obtain ⟨hash, entry, found, isTx, spent⟩ := spender
      obtain ⟨before, foundBefore, sameTx⟩ := same.symm.lookup found
      exact ⟨hash, before, foundBefore, sameTx.trans isTx, spent⟩
  slots := books.slots.congr same vTxHashes vTxHashesIdx
  total := by
    rw [totalTxSize, books.total, same.family]
    exact sum_congr rfl fun hash _ => (sizes hash).symm

end Straks.Mempool
