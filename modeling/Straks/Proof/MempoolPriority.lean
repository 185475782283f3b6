import Straks.Proof.MempoolInvariant

namespace Straks.Mempool
open Relation Success CTxMemPoolEntry CTxMemPool List OrderedSet Prod

/-- A change of modified fees only. -/
def feeShift (nFeeDelta : CAmount) : Totals × Int := ((0, 0, nFeeDelta), 0)

/-- The modified fee of one transaction has changed. -/
structure Repriced (env : PoolEnv) (pool : CTxMemPool) (hash : Uint256) (nFeeDelta : CAmount)
    (later : CTxMemPool) : Prop where
  sameTx : SameTx pool later
  weight : ∀ other, later.weight env other = pool.weight env other + if other = hash then feeShift nFeeDelta else 0

namespace Repriced

variable {env : PoolEnv} {pool later : CTxMemPool} {hash : Uint256} {nFeeDelta : CAmount}
  (repriced : Repriced env pool hash nFeeDelta later)
include repriced

theorem sameCores {other : CTxMemPool} (same : SameCores later other) : Repriced env pool hash nFeeDelta other where
  sameTx := repriced.sameTx.trans same.sameTx
  weight := by
    rw [same.weight]
    exact repriced.weight

theorem spends : later.Spends = pool.Spends := congrArg Family.parent repriced.sameTx.family

theorem present {it : Uint256} (inside : it ∈ pool.family.carrier) : ∃ entry, later.mapTx.lookup it = some entry := by
  rw [← repriced.sameTx.family] at inside
  exact mem_family.mp inside

open Classical in
theorem sum_weight (set : Finset Uint256) : ∑ other ∈ set, later.weight env other =
    ∑ other ∈ set, pool.weight env other + if hash ∈ set then feeShift nFeeDelta else 0 := by
  rw [Finset.sum_congr rfl fun other _ => repriced.weight other, Finset.sum_add_distrib, Finset.sum_ite_eq']

theorem ancestorsTotal (other : Uint256) : Mempool.ancestorsTotal env later other =
    Mempool.ancestorsTotal env pool other + if hash ∈ pool.family.up other then feeShift nFeeDelta else 0 := by
  rw [Mempool.ancestorsTotal, repriced.sameTx.family, repriced.sum_weight]
  rfl

theorem descendantsTotal (other : Uint256) : Mempool.descendantsTotal env later other =
    Mempool.descendantsTotal env pool other + if hash ∈ pool.family.down other then (feeShift nFeeDelta).1 else 0 := by
  have sums := congrArg Prod.fst (repriced.sum_weight (pool.family.down other))
  rw [fst_add, fst_sum, fst_sum, apply_ite Prod.fst] at sums
  rw [Mempool.descendantsTotal, repriced.sameTx.family, sums]
  rfl

/-- The pool stays consistent if the totals followed. -/
theorem linkedOk (ok : LinkedOk env pool) (links : later.LinksAre pool.Spends fun hash child => pool.Spends child hash)
    (totals : later.TotalsAre (fun other => Mempool.ancestorsTotal env pool other +
        if hash ∈ pool.family.up other then feeShift nFeeDelta else 0)
      (fun other => Mempool.descendantsTotal env pool other +
        if hash ∈ pool.family.down other then (feeShift nFeeDelta).1 else 0))
    (mapNextTx : later.mapNextTx = pool.mapNextTx) (totalTxSize : later.totalTxSize = pool.totalTxSize)
    (vTxHashes : later.vTxHashes = pool.vTxHashes) (vTxHashesIdx : later.vTxHashesIdx = pool.vTxHashesIdx) :
    LinkedOk env later where
  toBooksOk := by
    apply ok.toBooksOk.congr repriced.sameTx _ mapNextTx totalTxSize vTxHashes vTxHashesIdx
    intro other
    rw [repriced.weight]
    split
    · exact add_zero _
    · rw [add_zero]
  acyclic := by
    rw [repriced.sameTx.family]
    exact ok.acyclic
  links := by
    rw [repriced.spends]
    exact links
  totals := by
    apply TotalsAre.congr totals
    intro other _
    exact ⟨(repriced.ancestorsTotal other).symm, (repriced.descendantsTotal other).symm⟩
  bounded := by
    intro other member
    rw [repriced.sameTx.family] at member
    have same : (Mempool.ancestorsTotal env later other).2 = (Mempool.ancestorsTotal env pool other).2 := by
      rw [repriced.ancestorsTotal]
      split
      · exact add_zero _
      · rw [add_zero]
    rw [same]
    exact ok.bounded other member

end Repriced

section Prioritise

variable {env : PoolEnv} {pool : CTxMemPool} {hash : Uint256} {nFeeDelta : CAmount} {entry : CTxMemPoolEntry}

/-- The entry itself gets the new fee delta. -/
theorem repriced_updateFeeDelta (found : pool.mapTx.lookup hash = some entry)
    {mapDeltas : AList fun _ : Uint256 => CAmount} :
    Repriced env pool hash nFeeDelta { pool with
      mapDeltas, mapTx := pool.mapTx.insert hash (entry.updateFeeDelta (entry.feeDelta + nFeeDelta)) } where
  sameTx := by
    intro other
    rw [lookup_insert_eq]
    split
    · rename_i same
      rw [same, found]
      rfl
    · rfl
  weight := by
    intro other
    by_cases same : other = hash
    · have current : ({ pool with
          mapDeltas, mapTx := pool.mapTx.insert hash (entry.updateFeeDelta (entry.feeDelta + nFeeDelta)) } :
          CTxMemPool).mapTx.lookup hash = some (entry.updateFeeDelta (entry.feeDelta + nFeeDelta)) :=
        AList.lookup_insert _
      rw [same, weight_of_lookup current, weight_of_lookup found, if_pos rfl]
      change ((1, _, entry.nFee + (entry.feeDelta + nFeeDelta)), _) = ((1 + 0, _ + 0, entry.nFee + entry.feeDelta + nFeeDelta), _ + 0)
      rw [add_assoc]
      rfl
    · rw [CTxMemPool.weight, lookup_insert_eq, if_neg same, if_neg same, add_zero, CTxMemPool.weight]

/-- Totals that differ from positive ones in fees are positive. -/
theorem shifted_feeShift (totals : Uint256 → Totals × Int) (list : List Uint256) (hash : Uint256) :
    (shifted totals list (feeShift nFeeDelta) hash).1.1 = (totals hash).1.1 ∧
      (shifted totals list (feeShift nFeeDelta) hash).1.2.1 = (totals hash).1.2.1 ∧
      (shifted totals list (feeShift nFeeDelta) hash).2 = (totals hash).2 := by
  rw [shifted]
  split
  · simp [feeShift]
  · exact ⟨rfl, rfl, rfl⟩

theorem shifted_feeShift_fst (totals : Uint256 → Totals) (list : List Uint256) (hash : Uint256) :
    (shifted totals list (feeShift nFeeDelta).1 hash).1 = (totals hash).1 ∧
      (shifted totals list (feeShift nFeeDelta).1 hash).2.1 = (totals hash).2.1 := by
  rw [shifted]
  split
  · simp [feeShift]
  · exact ⟨rfl, rfl⟩

/-- An entry gets a change and then its relatives do. -/
theorem shifted_relatives {Total : Type} [AddMonoid Total] {totals : Uint256 → Total} {add : Total} {relatives : List Uint256}
    {related : Prop} [Decidable related] {other : Uint256} (unlisted : hash ∉ relatives)
    (iff : related ↔ other = hash ∨ other ∈ relatives) :
    shifted (shifted totals [hash] add) relatives add other = totals other + if related then add else 0 := by
  rw [shifted, shifted, mem_singleton]
  by_cases same : other = hash
  · rw [if_neg (same ▸ unlisted), if_pos same, if_pos (iff.mpr (.inl same))]
  · by_cases listed : other ∈ relatives <;> simp [same, listed, iff]

/-- The totals of the entry after its own update. -/
theorem LinkedOk.totals_updateFeeDelta (ok : LinkedOk env pool) (found : pool.mapTx.lookup hash = some entry)
    {mapDeltas : AList fun _ : Uint256 => CAmount} :
    TotalsAre { pool with
        mapDeltas, mapTx := pool.mapTx.insert hash (entry.updateFeeDelta (entry.feeDelta + nFeeDelta)) }
      (shifted (ancestorsTotal env pool) [hash] (feeShift nFeeDelta))
      (shifted (descendantsTotal env pool) [hash] (feeShift nFeeDelta).1) := by
  intro other current foundCurrent
  rw [lookup_insert_eq] at foundCurrent
  rw [shifted, shifted]
  split at foundCurrent
  · rename_i same
    cases foundCurrent
    have before := ok.totals hash entry found
    rw [same, ← before.1, ← before.2]
    have change : entry.feeDelta + nFeeDelta - entry.feeDelta = nFeeDelta := add_sub_cancel_left _ _
    simp [ancestorTotals, descendantTotals, updateFeeDelta, feeShift, change]
  · rename_i apart
    have unlisted : other ∉ [hash] := fun listed => apart (mem_singleton.mp listed)
    rw [if_neg unlisted, if_neg unlisted]
    exact ok.totals other current foundCurrent

section Relatives

variable {current : CTxMemPool} (ok : LinkedOk env pool) (repriced : Repriced env pool hash nFeeDelta current)
  (links : current.LinksAre pool.Spends fun hash child => pool.Spends child hash)
  (found : pool.mapTx.lookup hash = some entry)
include ok repriced links found

/-- The ancestors' descendant totals get the change. -/
theorem repriceAncestors {ancestors : Uint256 → Totals × Int}
    (totals : current.TotalsAre ancestors (shifted (descendantsTotal env pool) [hash] (feeShift nFeeDelta).1)) :
    ∃ setAncestors mapTx, ancestorsInPool env current hash = .ok setAncestors ∧
      setAncestors.elements.foldlM (fun pool ancestorIt =>
        pool.modify ancestorIt (updateDescendantState 0 nFeeDelta 0)) current = .ok { current with mapTx } ∧
      SameCores current { current with mapTx } ∧
      TotalsAre { current with mapTx } ancestors fun other =>
        descendantsTotal env pool other + if hash ∈ pool.family.down other then (feeShift nFeeDelta).1 else 0 := by
  have member : hash ∈ pool.family.carrier := mem_family.mpr ⟨entry, found⟩
  obtain ⟨own, foundOwn, sameTx⟩ := repriced.sameTx.lookup found
  have keyed : env.hashes.getHash own.tx = hash := by
    rw [sameTx]
    exact ok.keyed hash entry found
  rw [← repriced.spends] at links
  obtain ⟨setAncestors, calculated, isAncestors⟩ :=
    @ancestorsInPool_ok env current links.parentsOk links.linked hash own foundOwn keyed
  have above : ∀ other, other ∈ setAncestors.elements ↔ pool.family.Reaches hash other ∧ other ≠ hash := by
    intro other
    rw [← mem_def, isAncestors, repriced.spends]
    exact ok.acyclic.transGen_iff
  have inside : ∀ other ∈ setAncestors.elements, other ∈ pool.family.carrier :=
    fun other listed => ((above other).mp listed).1.mem member
  obtain ⟨mapTx, modified, cores, totals⟩ := @modifyDescendants_ok current _ _ totals _ setAncestors.nodup
    (fun it listed => repriced.present (inside it listed)) (feeShift nFeeDelta).1
    (fun it listed => by
      rw [fst_add, (shifted_feeShift_fst _ _ _).1]
      exact add_pos_of_pos_of_nonneg (descendantsTotal_pos (inside it listed)).1 le_rfl)
    (fun it listed => by
      rw [snd_add, fst_add, (shifted_feeShift_fst _ _ _).2]
      exact add_pos_of_pos_of_nonneg (descendantsTotal_pos (inside it listed)).2 le_rfl)
  refine ⟨setAncestors, mapTx, calculated, modified, cores, ?_⟩
  apply TotalsAre.congr totals
  intro other _
  refine ⟨rfl, shifted_relatives (fun listed => ((above hash).mp listed).2 rfl) ?_⟩
  rw [above, Family.mem_down, and_iff_right member]
  by_cases same : other = hash
  · simp [same, Family.Reaches, ReflTransGen.refl]
  · simp [same]

/-- The descendants' ancestor totals get the change. -/
theorem repriceDescendants {descendants : Uint256 → Totals}
    (totals : current.TotalsAre (shifted (ancestorsTotal env pool) [hash] (feeShift nFeeDelta)) descendants) :
    ∃ setDescendants mapTx, current.calculateDescendants hash .empty = .ok setDescendants ∧
      (setDescendants.erase hash).elements.foldlM (fun pool descendantIt =>
        pool.modify descendantIt (updateAncestorState 0 nFeeDelta 0 0)) current = .ok { current with mapTx } ∧
      SameCores current { current with mapTx } ∧
      TotalsAre { current with mapTx } (fun other =>
        ancestorsTotal env pool other + if hash ∈ pool.family.up other then feeShift nFeeDelta else 0) descendants := by
  have member : hash ∈ pool.family.carrier := mem_family.mpr ⟨entry, found⟩
  have memberCurrent : hash ∈ current.family.carrier := by
    rw [repriced.sameTx.family]
    exact member
  rw [← repriced.spends] at links
  obtain ⟨setDescendants, calculated, below⟩ := calculateDescendants_erase links.childrenOk memberCurrent
  rw [repriced.sameTx.family] at below
  have inside : ∀ other ∈ (setDescendants.erase hash).elements, other ∈ pool.family.carrier :=
    fun other listed => ((below other).mp listed).2.child_mem member
  obtain ⟨mapTx, modified, cores, totals⟩ := @modifyAncestors_ok current _ _ totals _
    (setDescendants.erase hash).nodup (fun it listed => repriced.present (inside it listed)) (feeShift nFeeDelta)
    (fun it listed => by
      rw [fst_add, fst_add, (shifted_feeShift _ _ _).1]
      exact add_pos_of_pos_of_nonneg (ancestorsTotal_pos (inside it listed)).1 le_rfl)
    (fun it listed => by
      rw [fst_add, snd_add, fst_add, (shifted_feeShift _ _ _).2.1]
      exact add_pos_of_pos_of_nonneg (ancestorsTotal_pos (inside it listed)).2 le_rfl)
    (by rw [feeShift]; norm_num) (by rw [feeShift]; norm_num)
    (fun it listed => by
      rw [snd_add, (shifted_feeShift _ _ _).2.2]
      exact add_nonneg (sum_sigOps_nonneg _) le_rfl)
    (fun it listed => by
      rw [snd_add, (shifted_feeShift _ _ _).2.2, feeShift, add_zero]
      exact ok.bounded it (inside it listed))
  refine ⟨setDescendants, mapTx, calculated, modified, cores, ?_⟩
  apply TotalsAre.congr totals
  intro other _
  refine ⟨shifted_relatives (fun listed => ((below hash).mp listed).1 rfl) ?_, rfl⟩
  rw [below, Family.mem_up, and_iff_right member]
  by_cases same : other = hash
  · simp [same, Family.Reaches, ReflTransGen.refl]
  · simp [same]

end Relatives

/-- The change of a fee delta reaches the totals of all relatives. -/
theorem PoolOk.prioritise_entry (ok : PoolOk env pool) (found : pool.mapTx.lookup hash = some entry) :
    ∃ later, Mempool.prioritiseTransaction env pool hash nFeeDelta = .ok later ∧ PoolOk env later ∧
      later.mapDeltas = pool.mapDeltas.insert hash (entry.feeDelta + nFeeDelta) ∧ SameTx pool later := by
  have isDelta : (pool.mapDeltas.lookup hash).getD 0 = entry.feeDelta := (ok.deltas hash entry found).symm
  have repriced := @repriced_updateFeeDelta env pool hash nFeeDelta entry found
    (pool.mapDeltas.insert hash (entry.feeDelta + nFeeDelta))
  have links : CTxMemPool.LinksAre { pool with
      mapDeltas := pool.mapDeltas.insert hash (entry.feeDelta + nFeeDelta)
      mapTx := pool.mapTx.insert hash (entry.updateFeeDelta (entry.feeDelta + nFeeDelta)) }
      pool.Spends fun hash child => pool.Spends child hash :=
    ⟨fun other => (ok.links.keys other).trans repriced.sameTx.mem_iff, ok.links.parents, ok.links.children⟩
  obtain ⟨setAncestors, mapTx, calculated, updatedAncestors, cores, totals⟩ :=
    repriceAncestors ok.toLinkedOk repriced links found (ok.toLinkedOk.totals_updateFeeDelta found)
  have repriced' := repriced.sameCores cores
  obtain ⟨setDescendants, mapTx', calculated', updatedDescendants, cores', totals⟩ :=
    repriceDescendants ok.toLinkedOk repriced' (links.sameCores cores) found totals
  have repriced'' := repriced'.sameCores cores'
  refine ⟨_, ?_, ⟨repriced''.linkedOk ok.toLinkedOk ((links.sameCores cores).sameCores cores') totals rfl rfl rfl rfl, ?_⟩,
    rfl, repriced''.sameTx⟩
  · have present : ({ pool with mapDeltas := pool.mapDeltas.insert hash (entry.feeDelta + nFeeDelta) } :
        CTxMemPool).exists hash = true := exists_iff.mpr ⟨entry, found⟩
    rw [Mempool.prioritiseTransaction, isDelta]
    simp only [present, if_true]
    rw [@modify_ok { pool with mapDeltas := pool.mapDeltas.insert hash (entry.feeDelta + nFeeDelta) }
      (fun entry' => .ok (entry'.updateFeeDelta (entry.feeDelta + nFeeDelta))) hash entry _ found rfl]
    simp only [bind, Except.bind, calculated, updatedAncestors, calculated']
    exact updatedDescendants
  · intro other current foundCurrent
    obtain ⟨before, foundBefore, same⟩ := (cores.trans cores').symm.lookup foundCurrent
    rw [← feeDelta_congr same]
    change before.feeDelta = ((pool.mapDeltas.insert hash (entry.feeDelta + nFeeDelta)).lookup other).getD 0
    rw [lookup_insert_eq] at foundBefore ⊢
    split at foundBefore
    · rename_i isHash
      cases foundBefore
      rw [if_pos isHash]
      rfl
    · rename_i apart
      rw [if_neg apart]
      exact ok.deltas other before foundBefore

/-- The change of a fee delta reaches the totals of all relatives. -/
theorem PoolOk.prioritiseTransaction (ok : PoolOk env pool) (hash : Uint256) (nFeeDelta : CAmount) :
    ∃ later, Mempool.prioritiseTransaction env pool hash nFeeDelta = .ok later ∧ PoolOk env later ∧
      later.mapDeltas = pool.mapDeltas.insert hash ((pool.mapDeltas.lookup hash).getD 0 + nFeeDelta) ∧
      SameTx pool later := by
  by_cases known : pool.exists hash = true
  · obtain ⟨entry, found⟩ := exists_iff.mp known
    have isDelta : (pool.mapDeltas.lookup hash).getD 0 = entry.feeDelta := (ok.deltas hash entry found).symm
    rw [isDelta]
    exact ok.prioritise_entry found
  · refine ⟨{ pool with mapDeltas := pool.mapDeltas.insert hash ((pool.mapDeltas.lookup hash).getD 0 + nFeeDelta) },
      ?_, ?_, rfl, .refl pool⟩
    · rw [Mempool.prioritiseTransaction]
      have absent : ({ pool with mapDeltas := pool.mapDeltas.insert hash ((pool.mapDeltas.lookup hash).getD 0 + nFeeDelta) } :
        CTxMemPool).exists hash = false := eq_false_of_ne_true known
      simp only [absent, Bool.false_eq_true, if_false]
    · refine ⟨⟨⟨ok.keyed, ok.next, ⟨ok.slots.slot, ok.slots.entry⟩, ok.total⟩, ok.acyclic,
        ⟨ok.links.keys, ok.links.parents, ok.links.children⟩, ok.totals, ok.bounded⟩, ?_⟩
      intro other entry found
      have apart : other ≠ hash := fun same => known (exists_iff.mpr ⟨entry, same ▸ found⟩)
      rw [AList.lookup_insert_ne apart]
      exact ok.deltas other entry found

end Prioritise

end Straks.Mempool
