import Straks.Proof.MempoolUnlink

namespace Straks.Mempool
open Relation Success CTxMemPoolEntry CTxMemPool List OrderedSet Family Finset

section Books

variable {env : PoolEnv} {pool : CTxMemPool}

theorem lookup_foldl_erase {tx : CTransaction} (next : AList fun _ : COutPoint => CTransaction) (prevout : COutPoint) :
    (tx.vin.foldl (fun next txin => next.erase txin.prevout) next).lookup prevout =
      if prevout ∈ spentOutputs tx then none else next.lookup prevout := by
  rw [spentOutputs]
  induction tx.vin generalizing next with
  | nil => simp
  | cons txin rest ih =>
    rw [foldl_cons, ih, lookup_erase_eq]
    by_cases same : prevout = txin.prevout
    · simp [same]
    · simp [same]

/-- The books are kept when an entry leaves. -/
theorem BooksOk.removeUnchecked (books : BooksOk env pool) {it : Uint256} {removed : CTxMemPoolEntry}
    (found : pool.mapTx.lookup it = some removed) :
    ∃ later, Mempool.removeUnchecked env pool it = .ok later ∧ BooksOk env later ∧
      later.mapTx = pool.mapTx.erase it ∧ later.mapLinks = pool.mapLinks.erase it ∧
      later.mapDeltas = pool.mapDeltas := by
  have slots : SlotsOk env { pool with
      mapNextTx := removed.tx.vin.foldl (fun next txin => next.erase txin.prevout) pool.mapNextTx } :=
    ⟨books.slots.slot, books.slots.entry⟩
  obtain ⟨vTxHashes, vTxHashesIdx, moved, slots⟩ := slots.removeSlot found
  have carrier : ({ pool with mapTx := pool.mapTx.erase it } : CTxMemPool).family.carrier =
      pool.family.carrier.erase it := by
    ext hash
    rw [mem_family, lookup_erase_eq]
    split <;> simp_all
  refine ⟨{ pool with
      mapNextTx := removed.tx.vin.foldl (fun next txin => next.erase txin.prevout) pool.mapNextTx
      vTxHashes, vTxHashesIdx
      totalTxSize := pool.totalTxSize - removed.getTxSize env
      mapLinks := pool.mapLinks.erase it
      mapTx := pool.mapTx.erase it }, ?_, ?_, rfl, rfl, rfl⟩
  · rw [Mempool.removeUnchecked, dereference_ok found]
    simp only [bind, Except.bind, moved]
  · constructor
    · intro hash entry foundEntry
      rw [lookup_erase_eq] at foundEntry
      split_ifs at foundEntry
      exact books.keyed hash entry foundEntry
    · intro prevout tx
      rw [lookup_foldl_erase]
      by_cases spent : prevout ∈ spentOutputs removed.tx
      · rw [if_pos spent]
        have spender := (books.next prevout removed.tx).mpr ⟨it, removed, found, rfl, spent⟩
        constructor
        · intro impossible
          cases impossible
        · intro other
          obtain ⟨hash, entry, foundEntry, rfl, spends⟩ := other
          rw [lookup_erase_eq] at foundEntry
          split_ifs at foundEntry with apart
          have second := (books.next prevout entry.tx).mpr ⟨hash, entry, foundEntry, rfl, spends⟩
          have sameTx : removed.tx = entry.tx := Option.some.inj (spender.symm.trans second)
          have sameHash := books.keyed hash entry foundEntry
          rw [← sameTx, books.keyed it removed found] at sameHash
          exact absurd sameHash.symm apart
      · rw [if_neg spent, books.next prevout tx]
        constructor
        · intro other
          obtain ⟨hash, entry, foundEntry, rfl, spends⟩ := other
          refine ⟨hash, entry, ?_, rfl, spends⟩
          rw [lookup_erase_eq, if_neg, foundEntry]
          intro same
          rw [same, found] at foundEntry
          cases foundEntry
          exact spent spends
        · intro other
          obtain ⟨hash, entry, foundEntry, sameTx, spends⟩ := other
          rw [lookup_erase_eq] at foundEntry
          split_ifs at foundEntry
          exact ⟨hash, entry, foundEntry, sameTx, spends⟩
    · exact ⟨slots.slot, slots.entry⟩
    · have weights : ∀ hash ∈ pool.family.carrier.erase it,
          (({ pool with mapTx := pool.mapTx.erase it } : CTxMemPool).weight env hash).1.2.1 =
            (pool.weight env hash).1.2.1 := by
        intro hash member
        rw [weight, weight, lookup_erase_eq, if_neg (mem_erase.mp member).1]
      have size : (pool.weight env it).1.2.1 = removed.getTxSize env := by
        rw [weight_of_lookup found]
        rfl
      change pool.totalTxSize - removed.getTxSize env =
        ∑ hash ∈ ({ pool with mapTx := pool.mapTx.erase it } : CTxMemPool).family.carrier,
          (({ pool with mapTx := pool.mapTx.erase it } : CTxMemPool).weight env hash).1.2.1
      rw [carrier, sum_congr rfl weights, sum_erase_eq_sub (mem_family.mpr ⟨removed, found⟩),
        books.total, size]

/-- The entries of a set leave one after the other. -/
theorem BooksOk.removeAll (books : BooksOk env pool) {list : List Uint256} (nodup : list.Nodup)
    (present : ∀ it ∈ list, it ∈ pool.family.carrier) :
    ∃ later, list.foldlM (Mempool.removeUnchecked env) pool = .ok later ∧ BooksOk env later ∧
      (∀ hash, later.mapTx.lookup hash = if hash ∈ list then none else pool.mapTx.lookup hash) ∧
      (∀ hash, later.mapLinks.lookup hash = if hash ∈ list then none else pool.mapLinks.lookup hash) ∧
      later.mapDeltas = pool.mapDeltas := by
  induction list generalizing pool with
  | nil => exact ⟨pool, rfl, books, by simp, by simp, rfl⟩
  | cons it rest ih =>
    obtain ⟨unlisted, nodup⟩ := nodup_cons.mp nodup
    obtain ⟨removed, found⟩ := mem_family.mp (present it mem_cons_self)
    obtain ⟨middle, erased, books, isMapTx, isMapLinks, isMapDeltas⟩ := books.removeUnchecked found
    have presentMiddle : ∀ other ∈ rest, other ∈ middle.family.carrier := by
      intro other listed
      have apart : other ≠ it := fun same => unlisted (same ▸ listed)
      rw [mem_family, isMapTx, lookup_erase_eq, if_neg apart]
      exact mem_family.mp (present other (mem_cons_of_mem _ listed))
    obtain ⟨later, folded, books, lookups, links, deltas⟩ := ih books nodup presentMiddle
    refine ⟨later, ?_, books, fun hash => ?_, fun hash => ?_, deltas.trans isMapDeltas⟩
    · rw [foldlM_cons, erased]
      exact folded
    · rw [lookups, isMapTx, lookup_erase_eq]
      by_cases same : hash = it <;> simp [same]
    · rw [links, isMapLinks, lookup_erase_eq]
      by_cases same : hash = it <;> simp [same]

end Books

/-- The pool after a set of entries has left. -/
structure Left (env : PoolEnv) (pool : CTxMemPool) (stage : SetEntries) (ancestors : Uint256 → Totals × Int)
    (later : CTxMemPool) : Prop where
  books : BooksOk env later
  gone : ∀ hash ∈ stage, later.mapTx.lookup hash = none
  cores : ∀ hash, hash ∉ stage → (later.mapTx.lookup hash).map core = (pool.mapTx.lookup hash).map core
  deltas : later.mapDeltas = pool.mapDeltas
  links : later.LinksAre (fun hash parent => pool.Spends hash parent ∧ parent ∉ stage)
    fun hash child => pool.Spends child hash ∧ child ∉ stage
  totals : later.TotalsAre ancestors fun hash =>
    ∑ other ∈ pool.family.down hash \ stage.toFinset, (pool.weight env other).1

section Leave

variable {env : PoolEnv} {pool start later : CTxMemPool} {stage : SetEntries} {ancestors : Uint256 → Totals × Int}

/-- The loops that take entries out, after the ancestor totals are updated. -/
theorem Unlinking.left (books : BooksOk env pool) (acyclic : pool.family.Acyclic)
    (inside : ∀ hash ∈ stage, hash ∈ pool.family.carrier) (unlinking : Unlinking env pool ancestors ∅ start) :
    ∃ unlinked severed later, stage.elements.foldlM (updateAncestorsForRemoval env) start = .ok unlinked ∧
      stage.elements.foldlM updateChildrenForRemoval unlinked = .ok severed ∧
      stage.elements.foldlM (removeUnchecked env) severed = .ok later ∧ Left env pool stage ancestors later := by
  obtain ⟨unlinked, unlinks, unlinkedAll⟩ := unlinking.all acyclic books.keyed stage.nodup inside
    (fun _ _ => Finset.notMem_empty _)
  have isStage : ∀ hash, hash ∈ (∅ ∪ stage.elements.toFinset : Finset Uint256) ↔ hash ∈ stage := by
    intro hash
    rw [Finset.empty_union, List.mem_toFinset]
    rfl
  have severing : Severing pool (∅ ∪ stage.elements.toFinset) ∅ unlinked := by
    refine ⟨?_, unlinkedAll.cores⟩
    apply unlinkedAll.links.congr
    · exact fun hash parent => ⟨fun spends => ⟨spends, fun listed => absurd listed (Finset.notMem_empty _)⟩, And.left⟩
    · exact fun _ _ => Iff.rfl
  obtain ⟨mapLinks, severs, severed⟩ := severing.all inside
  have rest : SameRest pool { unlinked with mapLinks } :=
    ⟨unlinkedAll.rest.1, unlinkedAll.rest.2, unlinkedAll.rest.3, unlinkedAll.rest.4, unlinkedAll.rest.5⟩
  have booksSevered : BooksOk env { unlinked with mapLinks } := by
    apply books.congr severed.cores.sameTx _ rest.mapNextTx rest.totalTxSize rest.vTxHashes rest.vTxHashesIdx
    intro hash
    rw [severed.cores.weight]
  have present : ∀ it ∈ stage.elements, it ∈ ({ unlinked with mapLinks } : CTxMemPool).family.carrier := by
    intro it listed
    rw [severed.cores.family]
    exact inside it listed
  obtain ⟨later, removes, booksLater, lookups, links, deltas⟩ := booksSevered.removeAll stage.nodup present
  have kept {hash : Uint256} {entry : CTxMemPoolEntry} (found : later.mapTx.lookup hash = some entry) :
      hash ∉ stage ∧ unlinked.mapTx.lookup hash = some entry := by
    rw [lookups] at found
    split_ifs at found with absent
    exact ⟨absent, found⟩
  refine ⟨unlinked, { unlinked with mapLinks }, later, unlinks, severs, removes, booksLater, ?_, ?_, ?_, ?_, ?_⟩
  · intro hash listed
    rw [lookups]
    exact if_pos listed
  · intro hash absent
    rw [lookups, unlinkedAll.cores hash]
    exact congrArg _ (if_neg absent)
  · rw [deltas, rest.mapDeltas]
  · constructor
    · intro hash
      have keys := severed.links.keys hash
      rw [mem_iff_lookup, mem_iff_lookup] at keys ⊢
      rw [links, lookups]
      split
      · simp
      · exact keys
    · intro hash own linked parent
      rw [links] at linked
      split_ifs at linked with absent
      rw [severed.links.parents hash own linked parent]
      simp only [Finset.empty_union, List.mem_toFinset]
      constructor
      · exact fun both => ⟨both.1, fun listed => absent (both.2 listed)⟩
      · exact fun both => ⟨both.1, fun listed => absurd listed both.2⟩
    · intro hash own linked child
      rw [links] at linked
      split_ifs at linked
      rw [severed.links.children hash own linked child, isStage]
  · intro hash entry found
    obtain ⟨absent, foundUnlinked⟩ := kept found
    have totals := unlinkedAll.totals hash entry foundUnlinked
    have same : (∅ ∪ stage.elements.toFinset : Finset Uint256).erase hash = stage.toFinset := by
      ext other
      rw [Finset.mem_erase, isStage]
      constructor
      · exact fun both => both.2
      · exact fun listed => ⟨fun same => absent (same ▸ listed), listed⟩
    dsimp only at totals
    rw [same] at totals
    exact totals

variable {hash : Uint256} {entry : CTxMemPoolEntry}

section

variable (left : Left env pool stage ancestors later)
include left

theorem Left.lookup (found : later.mapTx.lookup hash = some entry) :
    hash ∉ stage ∧ ∃ before, pool.mapTx.lookup hash = some before ∧ before.core = entry.core := by
  by_cases listed : hash ∈ stage
  · rw [left.gone hash listed] at found
    cases found
  · have cores := left.cores hash listed
    rw [found] at cores
    exact ⟨listed, Option.map_eq_some_iff.mp cores.symm⟩

theorem Left.lookup_kept (absent : hash ∉ stage) (found : pool.mapTx.lookup hash = some entry) :
    ∃ after, later.mapTx.lookup hash = some after ∧ after.core = entry.core := by
  have cores := left.cores hash absent
  rw [found] at cores
  exact Option.map_eq_some_iff.mp cores

theorem Left.mem_iff : hash ∈ later.family.carrier ↔ hash ∈ pool.family.carrier ∧ hash ∉ stage := by
  rw [mem_family, mem_family]
  constructor
  · intro present
    obtain ⟨entry, found⟩ := present
    obtain ⟨absent, before, foundBefore, -⟩ := left.lookup found
    exact ⟨⟨before, foundBefore⟩, absent⟩
  · intro both
    obtain ⟨⟨entry, found⟩, absent⟩ := both
    obtain ⟨after, foundAfter, -⟩ := left.lookup_kept absent found
    exact ⟨after, foundAfter⟩

theorem Left.family : later.family = pool.family.remove stage.toFinset := by
  have present {hash : Uint256} : hash ∈ later.mapTx ↔ hash ∈ pool.mapTx ∧ hash ∉ stage := by
    have members : hash ∈ later.family.carrier ↔ hash ∈ pool.family.carrier ∧ hash ∉ stage := left.mem_iff
    rwa [mem_family, mem_family, ← mem_iff_lookup, ← mem_iff_lookup] at members
  ext child parent
  · rw [left.mem_iff, Family.remove, mem_sdiff, mem_toFinset]
  · change later.Spends child parent ↔ pool.Spends child parent ∧ child ∉ stage.toFinset ∧ parent ∉ stage.toFinset
    constructor
    · intro spends
      obtain ⟨member, entry, found, input⟩ := spends
      obtain ⟨absent, before, foundBefore, same⟩ := left.lookup found
      have sameTx : before.tx = entry.tx := tx_congr same
      refine ⟨⟨(present.mp member).1, before, foundBefore, ?_⟩, absent, (present.mp member).2⟩
      exact (congrArg spentHashes sameTx) ▸ input
    · intro both
      obtain ⟨⟨member, entry, found, input⟩, absent, absentParent⟩ := both
      obtain ⟨after, foundAfter, same⟩ := left.lookup_kept absent found
      have sameTx : after.tx = entry.tx := tx_congr same
      refine ⟨present.mpr ⟨member, absentParent⟩, after, foundAfter, ?_⟩
      exact (congrArg spentHashes sameTx) ▸ input

theorem Left.weight (absent : hash ∉ stage) : later.weight env hash = pool.weight env hash := by
  have cores := congrArg (Option.map (own env)) (left.cores hash absent)
  rw [Option.map_map, Option.map_map] at cores
  have through : own env ∘ core = own env := rfl
  rw [through] at cores
  rw [CTxMemPool.weight, CTxMemPool.weight, cores]

/-- The pool stays consistent if the ancestor totals of what stays are right. -/
theorem Left.linkedOk (ok : LinkedOk env pool)
    (totalsUp : ∀ hash ∈ later.family.carrier, ancestors hash = ancestorsTotal env later hash)
    (totalsDown : ∀ hash ∈ later.family.carrier, later.family.down hash = pool.family.down hash \ stage.toFinset)
    (smaller : ∀ hash ∈ later.family.carrier, later.family.up hash ⊆ pool.family.up hash) : LinkedOk env later where
  toBooksOk := left.books
  acyclic := by
    rw [left.family]
    exact ok.acyclic.remove
  links := by
    have parents : later.Spends = fun child parent => pool.Spends child parent ∧ child ∉ stage ∧ parent ∉ stage :=
      congrArg Family.parent left.family
    refine ⟨left.links.keys, ?_, ?_⟩
    · intro hash own linked parent
      have present := (left.links.keys hash).mp (mem_iff_lookup.mpr ⟨own, linked⟩)
      obtain ⟨entry, found⟩ := mem_iff_lookup.mp present
      have absent := (left.lookup found).1
      rw [left.links.parents hash own linked parent, parents]
      simp [absent]
    · intro hash own linked child
      have present := (left.links.keys hash).mp (mem_iff_lookup.mpr ⟨own, linked⟩)
      obtain ⟨entry, found⟩ := mem_iff_lookup.mp present
      have absent := (left.lookup found).1
      rw [left.links.children hash own linked child, parents]
      simp [absent]
  totals := by
    apply TotalsAre.congr left.totals
    intro hash member
    refine ⟨totalsUp hash member, ?_⟩
    rw [descendantsTotal, totalsDown hash member]
    apply sum_congr rfl
    intro other listed
    rw [left.weight (mem_sdiff.mp listed).2]
  bounded := by
    intro hash member
    have kept := left.mem_iff.mp member
    have same : ancestorsTotal env later hash = ∑ other ∈ later.family.up hash, pool.weight env other := by
      apply sum_congr rfl
      intro other listed
      exact left.weight (left.mem_iff.mp (up_subset listed)).2
    rw [same]
    exact lt_of_le_of_lt (sum_sigOps_mono (smaller hash member)) (ok.bounded hash kept.1)

theorem Left.poolOk (linked : LinkedOk env later)
    (deltas : ∀ hash entry, hash ∉ stage → pool.mapTx.lookup hash = some entry → entry.feeDelta = (pool.mapDeltas.lookup hash).getD 0) :
    PoolOk env later where
  toLinkedOk := linked
  deltas := by
    intro hash entry found
    obtain ⟨absent, before, foundBefore, same⟩ := left.lookup found
    rw [left.deltas, ← deltas hash before absent foundBefore, feeDelta_congr same]

end

/-- A descendant closed set leaves a consistent pool. -/
theorem LinkedOk.removeStaged (ok : LinkedOk env pool) (inside : ∀ hash ∈ stage, hash ∈ pool.family.carrier)
    (closed : ∀ child parent, pool.Spends child parent → parent ∈ stage → child ∈ stage) :
    ∃ later, Mempool.removeStaged env pool stage false = .ok later ∧ LinkedOk env later ∧
      Left env pool stage (ancestorsTotal env pool) later := by
  have unlinking : Unlinking env pool (ancestorsTotal env pool) ∅ pool := by
    refine ⟨⟨rfl, rfl, rfl, rfl, rfl⟩, SameCores.refl pool, ?_, ?_⟩
    · apply ok.links.congr
      · exact fun _ _ => Iff.rfl
      · exact fun hash child => ⟨fun spends => ⟨spends, notMem_empty _⟩, And.left⟩
    · apply TotalsAre.congr ok.totals
      intro hash _
      exact ⟨rfl, rfl⟩
  obtain ⟨unlinked, severed, later, unlinks, severs, removes, left⟩ :=
    Unlinking.left ok.toBooksOk ok.acyclic inside unlinking
  refine ⟨later, ?_, ?_, left⟩
  · rw [Mempool.removeStaged, updateForRemoveFromMempool]
    simp only [Bool.false_eq_true, if_false, bind, Except.bind, unlinks, severs, removes]
  · have closed' : ∀ child parent, pool.family.parent child parent → parent ∈ stage.toFinset →
        child ∈ stage.toFinset := closed
    have up {hash : Uint256} (member : hash ∈ later.family.carrier) : later.family.up hash = pool.family.up hash := by
      rw [left.family, remove_up closed' (left.mem_iff.mp member).2]
    apply left.linkedOk ok
    · intro hash member
      rw [ancestorsTotal, ancestorsTotal, up member]
      apply sum_congr rfl
      intro other listed
      have reaches := (mem_up.mp listed).2
      exact (left.weight (not_mem_of_reaches closed' (left.mem_iff.mp member).2 reaches)).symm
    · intro hash _
      rw [left.family, remove_down closed']
    · exact fun hash member => (up member).subset

/-- The ancestor totals without an entry that leaves. -/
noncomputable def ancestorsWithout (env : PoolEnv) (pool : CTxMemPool) (root hash : Uint256) : Totals × Int :=
  if hash = root then ancestorsTotal env pool hash else ∑ other ∈ (pool.family.up hash).erase root, pool.weight env other

/-- The descendants of an entry no longer count it. -/
theorem LinkedOk.updateDescendantsForRemoval (ok : LinkedOk env pool) {root : Uint256}
    (found : pool.mapTx.lookup root = some entry) :
    ∃ start, Mempool.updateDescendantsForRemoval env pool root = .ok start ∧
      Unlinking env pool (ancestorsWithout env pool root) ∅ start := by
  have member : root ∈ pool.family.carrier := mem_family.mpr ⟨entry, found⟩
  obtain ⟨setDescendants, calculated, below⟩ := calculateDescendants_erase ok.links.childrenOk member
  have present : ∀ it ∈ (setDescendants.erase root).elements, ∃ entry, pool.mapTx.lookup it = some entry :=
    fun it listed => mem_family.mp (((below it).mp listed).2.child_mem member)
  have sigOps : (entry.sigOpCost : Int) < 2 ^ 31 := by
    have single : (pool.weight env root).2 ≤ (ancestorsTotal env pool root).2 := by
      have mono := @sum_sigOps_mono env pool _ _ (Finset.singleton_subset_iff.mpr (self_mem_up member))
      rwa [Finset.sum_singleton] at mono
    rw [weight_of_lookup found] at single
    exact lt_of_le_of_lt single (ok.bounded root member)
  have narrow : toInt32 (-(entry.sigOpCost : Int)) = -(entry.sigOpCost : Int) :=
    toInt32_of_bounds (by omega) (by omega)
  have without : ∀ it ∈ (setDescendants.erase root).elements, ancestorsTotal env pool it + -(entry.own env) =
      ∑ other ∈ (pool.family.up it).erase root, pool.weight env other := by
    intro it listed
    have reaches := ((below it).mp listed).2
    rw [Finset.sum_erase_eq_sub (mem_up.mpr ⟨member, reaches⟩), weight_of_lookup found]
    rfl
  have positive : ∀ it ∈ (setDescendants.erase root).elements,
      0 < (∑ other ∈ (pool.family.up it).erase root, pool.weight env other).1.1 ∧
      0 < (∑ other ∈ (pool.family.up it).erase root, pool.weight env other).1.2.1 := by
    intro it listed
    have inside : it ∈ (pool.family.up it).erase root :=
      Finset.mem_erase.mpr ⟨((below it).mp listed).1, self_mem_up (mem_family.mpr (present it listed))⟩
    rw [Prod.fst_sum]
    exact sum_weight_pos ((Finset.erase_subset _ _).trans up_subset) inside
  have sigOpsBound : ∀ it ∈ (setDescendants.erase root).elements,
      (∑ other ∈ (pool.family.up it).erase root, pool.weight env other).2 < 2 ^ 31 := by
    intro it listed
    exact lt_of_le_of_lt (sum_sigOps_mono (Finset.erase_subset _ _))
      (ok.bounded it (mem_family.mpr (present it listed)))
  obtain ⟨mapTx, modified, cores, totals⟩ := @modifyAncestors_ok pool _ _ ok.totals _
    (setDescendants.erase root).nodup present (-(entry.own env))
    (fun it listed => by rw [without it listed]; exact (positive it listed).1)
    (fun it listed => by rw [without it listed]; exact (positive it listed).2)
    (show (-2 ^ 31 : Int) ≤ -(entry.sigOpCost : Int) by omega) (show -(entry.sigOpCost : Int) < 2 ^ 31 by omega)
    (fun it listed => by rw [without it listed]; exact sum_sigOps_nonneg _)
    (fun it listed => by rw [without it listed]; exact sigOpsBound it listed)
  refine ⟨{ pool with mapTx }, ?_, ⟨rfl, rfl, rfl, rfl, rfl⟩, cores, ?_, ?_⟩
  · rw [Mempool.updateDescendantsForRemoval, calculated]
    simp only [bind, Except.bind, dereference_ok found, narrow]
    exact modified
  · apply (ok.links.sameCores cores).congr
    · exact fun _ _ => Iff.rfl
    · exact fun hash child => ⟨fun spends => ⟨spends, Finset.notMem_empty _⟩, And.left⟩
  · apply TotalsAre.congr totals
    intro hash _
    rw [shifted, ancestorsWithout]
    refine ⟨?_, rfl⟩
    split
    · rename_i listed
      rw [if_neg ((below hash).mp listed).1]
      exact without hash listed
    · rename_i absent
      split
      · rfl
      · rename_i apart
        have unrelated : root ∉ pool.family.up hash := fun listed =>
          absent ((below hash).mpr ⟨apart, (mem_up.mp listed).2⟩)
        rw [Finset.erase_eq_of_notMem unrelated]
        rfl

/-- An entry without parents leaves its descendants in a consistent pool. -/
theorem LinkedOk.removeRoot (ok : LinkedOk env pool) {root : Uint256} (member : root ∈ pool.family.carrier)
    (orphan : ∀ parent, ¬ pool.Spends root parent) :
    ∃ later, Mempool.removeStaged env pool (single root) true = .ok later ∧ LinkedOk env later ∧
      Left env pool (single root) (ancestorsWithout env pool root) later := by
  obtain ⟨entry, found⟩ := mem_family.mp member
  obtain ⟨start, updated, unlinking⟩ := ok.updateDescendantsForRemoval found
  have inside : ∀ hash ∈ single root, hash ∈ pool.family.carrier := by
    intro hash listed
    rw [mem_single.mp listed]
    exact member
  obtain ⟨unlinked, severed, later, unlinks, severs, removes, left⟩ :=
    Unlinking.left ok.toBooksOk ok.acyclic inside unlinking
  refine ⟨later, ?_, ?_, left⟩
  · have first : (single root).elements.foldlM (Mempool.updateDescendantsForRemoval env) pool = .ok start := by
      change [root].foldlM (Mempool.updateDescendantsForRemoval env) pool = .ok start
      rw [foldlM_cons, updated]
      rfl
    rw [Mempool.removeStaged, updateForRemoveFromMempool]
    simp only [if_true, bind, Except.bind, first, unlinks, severs, removes]
  · have families : later.family = pool.family.remove {root} := by
      rw [left.family, single_toFinset]
    have kept {hash : Uint256} (member : hash ∈ later.family.carrier) : hash ≠ root := fun same =>
      (left.mem_iff.mp member).2 (mem_single.mpr same)
    have up {hash : Uint256} : later.family.up hash = (pool.family.up hash).erase root := by
      rw [families, remove_root_up orphan]
    apply left.linkedOk ok
    · intro hash member
      rw [ancestorsWithout, if_neg (kept member), ancestorsTotal, up]
      apply Finset.sum_congr rfl
      intro other listed
      refine (left.weight fun gone => ?_).symm
      exact (Finset.mem_erase.mp listed).1 (mem_single.mp gone)
    · intro hash member
      have down : (pool.family.remove {root}).down hash = pool.family.down hash :=
        remove_root_down orphan (kept member)
      have absent : root ∉ pool.family.down hash := by
        rw [← down, mem_down]
        exact fun both => (Finset.mem_sdiff.mp both.1).2 (Finset.mem_singleton_self root)
      rw [families, down, single_toFinset, Finset.sdiff_singleton_eq_erase, Finset.erase_eq_of_notMem absent]
    · intro hash member
      rw [up]
      exact Finset.erase_subset _ _

end Leave

end Straks.Mempool
