import Straks.Proof.MempoolInvariant

namespace Straks.Mempool
open Relation Success CTxMemPoolEntry CTxMemPool List Finset

/-- Nothing but entries and links has changed. -/
structure SameRest (before pool : CTxMemPool) : Prop where
  mapNextTx : pool.mapNextTx = before.mapNextTx
  mapDeltas : pool.mapDeltas = before.mapDeltas
  totalTxSize : pool.totalTxSize = before.totalTxSize
  vTxHashes : pool.vTxHashes = before.vTxHashes
  vTxHashesIdx : pool.vTxHashesIdx = before.vTxHashesIdx

/-- The ancestors of processed entries no longer count them. -/
structure Unlinking (env : PoolEnv) (before : CTxMemPool) (ancestors : Uint256 → Totals × Int)
    (processed : Finset Uint256) (pool : CTxMemPool) : Prop where
  rest : SameRest before pool
  cores : SameCores before pool
  links : pool.LinksAre before.Spends fun hash child => before.Spends child hash ∧ child ∉ processed
  totals : pool.TotalsAre ancestors fun hash =>
    ∑ other ∈ before.family.down hash \ processed.erase hash, (before.weight env other).1

section Unlink

variable {env : PoolEnv} {before pool : CTxMemPool} {ancestors : Uint256 → Totals × Int} {processed : Finset Uint256}

theorem Unlinking.spends (unlinking : Unlinking env before ancestors processed pool) : pool.Spends = before.Spends :=
  congrArg Family.parent unlinking.cores.family

/-- A processed entry leaves the totals of its ancestors. -/
theorem remaining_of_ancestor {removeIt hash : Uint256} (member : removeIt ∈ before.family.carrier)
    (fresh : removeIt ∉ processed) (above : before.family.Reaches removeIt hash) (apart : hash ≠ removeIt) :
    ∑ other ∈ before.family.down hash \ (insert removeIt processed).erase hash, (before.weight env other).1 =
      ∑ other ∈ before.family.down hash \ processed.erase hash, (before.weight env other).1 -
        (before.weight env removeIt).1 := by
  have split : before.family.down hash \ (insert removeIt processed).erase hash =
      (before.family.down hash \ processed.erase hash).erase removeIt := by
    ext other
    by_cases same : other = removeIt
    · simp [same, Ne.symm apart]
    · simp [same]
  rw [split, sum_erase_eq_sub]
  rw [mem_sdiff, Family.mem_down, mem_erase]
  exact ⟨⟨member, above⟩, fun processed => fresh processed.2⟩

/-- The totals of the other entries stay. -/
theorem remaining_of_other {removeIt hash : Uint256} (fresh : removeIt ∉ processed)
    (unrelated : before.family.Reaches removeIt hash → hash = removeIt) :
    before.family.down hash \ (insert removeIt processed).erase hash =
      before.family.down hash \ processed.erase hash := by
  ext other
  simp only [mem_sdiff, mem_erase, mem_insert, Family.mem_down]
  by_cases same : other = removeIt
  · subst same
    constructor
    · exact fun both => ⟨both.1, fun listed => fresh listed.2⟩
    · exact fun both => ⟨both.1, fun listed => listed.1 (unrelated both.1.2).symm⟩
  · simp [same]

/-- One more entry leaves its ancestors' totals and its parents' children. -/
theorem Unlinking.step (unlinking : Unlinking env before ancestors processed pool) (acyclic : before.family.Acyclic)
    {removeIt : Uint256} {entry : CTxMemPoolEntry} (found : before.mapTx.lookup removeIt = some entry)
    (keyed : env.hashes.getHash entry.tx = removeIt) (fresh : removeIt ∉ processed) :
    ∃ later, updateAncestorsForRemoval env pool removeIt = .ok later ∧
      Unlinking env before ancestors (insert removeIt processed) later := by
  obtain ⟨current, foundCurrent, cores⟩ := unlinking.cores.lookup found
  have sameTx : current.tx = entry.tx := tx_congr cores
  have keyedCurrent : env.hashes.getHash current.tx = removeIt := (congrArg env.hashes.getHash sameTx).trans keyed
  have member : removeIt ∈ before.family.carrier := mem_family.mpr ⟨entry, found⟩
  have spends := unlinking.spends
  have linksPool := unlinking.links
  rw [← spends] at linksPool
  obtain ⟨setAncestors, calculated, isAncestors⟩ :=
    @ancestorsInPool_ok env pool linksPool.parentsOk linksPool.linked _ _ foundCurrent keyedCurrent
  have above : ∀ hash, hash ∈ setAncestors ↔ before.family.Reaches removeIt hash ∧ hash ≠ removeIt := by
    intro hash
    rw [isAncestors, spends]
    exact acyclic.transGen_iff
  obtain ⟨parents, answered, isParents⟩ := unlinking.links.getMemPoolParents foundCurrent
  have parentsIn : ∀ piter ∈ parents.elements, piter ∈ pool.mapTx := by
    intro piter listed
    exact unlinking.cores.mem_iff.mp ((isParents piter).mp listed).1
  obtain ⟨mapLinks, unlinked, links⟩ := unlinking.links.eraseChild removeIt parents.nodup parentsIn
  -- The entry leaves the totals over descendants of all its ancestors.
  have change : ((-1, -1 * (current.getTxSize env : Int), -1 * current.getModifiedFee) : Totals) =
      -(before.weight env removeIt).1 := by
    rw [weight_of_lookup found, ← own_congr cores, own]
    simp
  have present : ∀ it ∈ setAncestors.elements, ∃ entry, pool.mapTx.lookup it = some entry := by
    intro it listed
    have inside := ((above it).mp listed).1.mem member
    obtain ⟨old, foundOld⟩ := mem_family.mp inside
    obtain ⟨other, foundOther, -⟩ := unlinking.cores.lookup foundOld
    exact ⟨other, foundOther⟩
  have shrinks : ∀ it ∈ setAncestors.elements,
      ∑ other ∈ before.family.down it \ processed.erase it, (before.weight env other).1 +
          (-1, -1 * (current.getTxSize env : Int), -1 * current.getModifiedFee) =
        ∑ other ∈ before.family.down it \ (insert removeIt processed).erase it, (before.weight env other).1 := by
    intro it listed
    have related := (above it).mp listed
    rw [remaining_of_ancestor member fresh related.1 related.2, change, sub_eq_add_neg]
  have positive : ∀ it ∈ setAncestors.elements,
      0 < (∑ other ∈ before.family.down it \ (insert removeIt processed).erase it, (before.weight env other).1).1 ∧
      0 < (∑ other ∈ before.family.down it \ (insert removeIt processed).erase it, (before.weight env other).1).2.1 := by
    intro it listed
    have inside := ((above it).mp listed).1.mem member
    have counted : it ∈ before.family.down it \ (insert removeIt processed).erase it := by
      simp [inside, Family.Reaches, ReflTransGen.refl]
    exact sum_weight_pos (sdiff_subset.trans Family.down_subset) counted
  have totalsPool : TotalsAre { pool with mapLinks } ancestors fun hash =>
      ∑ other ∈ before.family.down hash \ processed.erase hash, (before.weight env other).1 := unlinking.totals
  obtain ⟨mapTx, modified, coresLater, totals⟩ := @modifyDescendants_ok { pool with mapLinks } _ _ totalsPool _
    setAncestors.nodup present (-1, -1 * (current.getTxSize env : Int), -1 * current.getModifiedFee)
    (fun it listed => by rw [shrinks it listed]; exact (positive it listed).1)
    (fun it listed => by rw [shrinks it listed]; exact (positive it listed).2)
  refine ⟨{ pool with mapLinks, mapTx }, ?_, ?_, ?_, ?_, ?_⟩
  · rw [updateAncestorsForRemoval, calculated]
    simp only [bind, Except.bind, updateAncestorsOf, answered, unlinked]
    rw [@dereference_ok { pool with mapLinks } _ _ foundCurrent]
    exact modified
  · exact ⟨unlinking.rest.1, unlinking.rest.2, unlinking.rest.3, unlinking.rest.4, unlinking.rest.5⟩
  · exact unlinking.cores.trans coresLater
  · apply (links.sameCores coresLater).congr
    · exact fun _ _ => Iff.rfl
    · intro hash child
      rw [mem_insert, not_or]
      constructor
      · intro kept
        refine ⟨kept.1.1, fun same => kept.2 ⟨same, ?_⟩, kept.1.2⟩
        exact (isParents hash).mpr (same ▸ kept.1.1)
      · exact fun kept => ⟨⟨kept.1, kept.2.2⟩, fun gone => kept.2.1 gone.1⟩
  · apply TotalsAre.congr totals
    intro hash _
    refine ⟨rfl, ?_⟩
    rw [shifted]
    split
    · rename_i listed
      exact shrinks hash listed
    · rename_i absent
      rw [remaining_of_other fresh]
      intro related
      by_contra apart
      exact absent ((above hash).mpr ⟨related, apart⟩)

/-- All entries of a list are unlinked in turn. -/
theorem Unlinking.all (unlinking : Unlinking env before ancestors processed pool) (acyclic : before.family.Acyclic)
    (keyed : ∀ hash entry, before.mapTx.lookup hash = some entry → env.hashes.getHash entry.tx = hash)
    {list : List Uint256} (nodup : list.Nodup) (present : ∀ it ∈ list, it ∈ before.family.carrier)
    (fresh : ∀ it ∈ list, it ∉ processed) : ∃ later, list.foldlM (updateAncestorsForRemoval env) pool = .ok later ∧
      Unlinking env before ancestors (processed ∪ list.toFinset) later := by
  induction list generalizing pool processed with
  | nil => exact ⟨pool, rfl, by simpa using unlinking⟩
  | cons removeIt rest ih =>
    obtain ⟨unlisted, nodup⟩ := nodup_cons.mp nodup
    obtain ⟨entry, found⟩ := mem_family.mp (present removeIt mem_cons_self)
    obtain ⟨middle, updated, unlinked⟩ :=
      unlinking.step acyclic found (keyed removeIt entry found) (fresh removeIt mem_cons_self)
    obtain ⟨later, folded, result⟩ := ih unlinked nodup
      (fun it listed => present it (mem_cons_of_mem _ listed)) (by
        intro it listed
        rw [mem_insert, not_or]
        exact ⟨fun same => unlisted (same ▸ listed), fresh it (mem_cons_of_mem _ listed)⟩)
    refine ⟨later, ?_, ?_⟩
    · rw [foldlM_cons, updated]
      exact folded
    · rw [toFinset_cons, union_insert, ← insert_union]
      exact result

end Unlink

/-- The entries that stay lose the processed ones as parents. -/
structure Severing (before : CTxMemPool) (removed processed : Finset Uint256) (pool : CTxMemPool) : Prop where
  links : pool.LinksAre (fun hash parent => before.Spends hash parent ∧ (parent ∈ processed → hash ∈ removed))
    fun hash child => before.Spends child hash ∧ child ∉ removed
  cores : SameCores before pool

section Sever

variable {before pool : CTxMemPool} {removed processed : Finset Uint256}

theorem Severing.step (severing : Severing before removed processed pool) {removeIt : Uint256}
    (present : removeIt ∈ before.family.carrier) :
    ∃ mapLinks, updateChildrenForRemoval pool removeIt = .ok { pool with mapLinks } ∧
      Severing before removed (insert removeIt processed) { pool with mapLinks } := by
  obtain ⟨entry, found⟩ := mem_family.mp present
  obtain ⟨current, foundCurrent, -⟩ := severing.cores.lookup found
  obtain ⟨children, answered, isChildren⟩ := severing.links.getMemPoolChildren foundCurrent
  have childrenIn : ∀ child ∈ children.elements, child ∈ pool.mapTx := by
    intro child listed
    have inside := (before.family.inside _ _ ((isChildren child).mp listed).1).1
    exact severing.cores.mem_iff.mp (mem_iff_lookup.mpr (mem_family.mp inside))
  obtain ⟨mapLinks, severed, links⟩ := severing.links.eraseParent removeIt children.nodup childrenIn
  refine ⟨mapLinks, ?_, ?_, severing.cores⟩
  · rw [updateChildrenForRemoval, answered]
    exact congrArg Except.ok severed
  · apply links.congr
    · intro hash parent
      rw [mem_insert]
      constructor
      · intro kept
        refine ⟨kept.1.1, fun listed => ?_⟩
        rcases listed with rfl | listed
        · by_contra outside
          exact kept.2 ⟨rfl, (isChildren hash).mpr ⟨kept.1.1, outside⟩⟩
        · exact kept.1.2 listed
      · intro kept
        refine ⟨⟨kept.1, fun listed => kept.2 (.inr listed)⟩, fun gone => ?_⟩
        exact ((isChildren hash).mp gone.2).2 (kept.2 (.inl gone.1))
    · exact fun _ _ => Iff.rfl

theorem Severing.all (severing : Severing before removed processed pool) {list : List Uint256}
    (present : ∀ it ∈ list, it ∈ before.family.carrier) :
    ∃ mapLinks, list.foldlM updateChildrenForRemoval pool = .ok { pool with mapLinks } ∧
      Severing before removed (processed ∪ list.toFinset) { pool with mapLinks } := by
  induction list generalizing pool processed with
  | nil => exact ⟨pool.mapLinks, rfl, by simpa using severing⟩
  | cons removeIt rest ih =>
    obtain ⟨middle, updated, severed⟩ := severing.step (present removeIt mem_cons_self)
    obtain ⟨mapLinks, folded, result⟩ := ih severed (fun it listed => present it (mem_cons_of_mem _ listed))
    refine ⟨mapLinks, ?_, ?_⟩
    · rw [foldlM_cons, updated]
      exact folded
    · rw [toFinset_cons, union_insert, ← insert_union]
      exact result

end Sever

end Straks.Mempool
