import Straks.Proof.MempoolInvariant

namespace Straks.Mempool
open Relation Success CTxMemPoolEntry CTxMemPool List Option

theorem updateFeeDelta_zero {entry : CTxMemPoolEntry} (zero : entry.feeDelta = 0) : entry.updateFeeDelta 0 = entry := by
  cases entry
  simp_all [updateFeeDelta]

/-- A new entry counts itself, with its fee delta. -/
theorem new_totals (env : PoolEnv) (tx : CTransaction) (nFee : CAmount) (nTime : Int) (sigOpCost : Nat)
    (delta : CAmount) : ((new env tx nFee nTime sigOpCost).updateFeeDelta delta).ancestorTotals =
        ((new env tx nFee nTime sigOpCost).updateFeeDelta delta).own env ∧
      ((new env tx nFee nTime sigOpCost).updateFeeDelta delta).descendantTotals =
        (((new env tx nFee nTime sigOpCost).updateFeeDelta delta).own env).1 := by
  have fees : nFee + (delta - 0) = nFee + delta := by rw [sub_zero]
  constructor
  · change ((1, _, nFee + (delta - 0)), _) = ((1, _, nFee + delta), _)
    rw [fees]
    rfl
  · change (1, _, nFee + (delta - 0)) = (1, _, nFee + delta)
    rw [fees]
    rfl

theorem applyFeeDelta_ok {pool : CTxMemPool} {hash : Uint256} {entry : CTxMemPoolEntry}
    (found : pool.mapTx.lookup hash = some entry) (zero : entry.feeDelta = 0) :
    ∃ mapTx, applyFeeDelta pool hash hash = .ok { pool with mapTx } ∧
      ∀ other, mapTx.lookup other =
        if other = hash then some (entry.updateFeeDelta ((pool.mapDeltas.lookup hash).getD 0))
        else pool.mapTx.lookup other := by
  have unchanged : ∀ other, pool.mapTx.lookup other =
      if other = hash then some (entry.updateFeeDelta 0) else pool.mapTx.lookup other := by
    intro other
    split
    · rename_i same
      rw [same, found, updateFeeDelta_zero zero]
    · rfl
  rw [applyFeeDelta]
  cases deltas : pool.mapDeltas.lookup hash with
  | none => exact ⟨pool.mapTx, rfl, unchanged⟩
  | some delta =>
    dsimp only
    split
    · exact ⟨pool.mapTx.insert hash (entry.updateFeeDelta delta), modify_ok found rfl,
        fun other => lookup_insert_eq _ _ _ _⟩
    · rename_i none
      rw [not_not] at none
      rw [none]
      exact ⟨pool.mapTx, rfl, unchanged⟩

variable {next : AList fun _ : COutPoint => CTransaction}

theorem lookup_insertNext {tx : CTransaction} {prevout : COutPoint}
    (free : ∀ spender, next.lookup prevout = some spender → spender = tx) (other : COutPoint) :
    (insertNext next prevout tx).lookup other = if other = prevout then some tx else next.lookup other := by
  rw [insertNext]
  cases spent : next.lookup prevout with
  | none => exact lookup_insert_eq _ _ _ _
  | some spender =>
    rw [isSome_some, if_pos rfl]
    split
    · rename_i same
      rw [same, spent, free spender spent]
    · rfl

/-- A transaction without conflicts is recorded as a spender. -/
theorem lookup_foldl_insertNext {tx : CTransaction} {vin : List CTxIn}
    (free : ∀ prevout ∈ vin.map CTxIn.prevout, ∀ spender, next.lookup prevout = some spender → spender = tx)
    (prevout : COutPoint) : (vin.foldl (fun next txin => insertNext next txin.prevout tx) next).lookup prevout =
      if prevout ∈ vin.map CTxIn.prevout then some tx else next.lookup prevout := by
  induction vin generalizing next with
  | nil => simp
  | cons txin rest ih =>
    have first := lookup_insertNext (free txin.prevout (by simp))
    rw [foldl_cons, ih, first]
    · by_cases same : prevout = txin.prevout <;> simp [same]
    · intro other listed spender
      rw [first]
      split
      · exact fun isTx => (Option.some.inj isTx).symm
      · exact free other (mem_cons_of_mem _ listed) spender

/-- The parents in the pool are recorded for a new entry. -/
theorem foldl_updateParent {pool : CTxMemPool} {newit : Uint256} {links : TxLinks}
    (found : pool.mapLinks.lookup newit = some links) (list : List Uint256) :
    ∃ mapLinks recorded, list.foldl (fun pool phash =>
        if pool.exists phash then pool.updateParent newit phash true else pool) pool = { pool with mapLinks } ∧
      (∀ hash, mapLinks.lookup hash = if hash = newit then some recorded else pool.mapLinks.lookup hash) ∧
      recorded.children = links.children ∧
      ∀ parent, parent ∈ recorded.parents ↔ parent ∈ links.parents ∨ parent ∈ list ∧ pool.exists parent = true := by
  induction list generalizing pool links with
  | nil =>
    refine ⟨pool.mapLinks, links, rfl, fun hash => ?_, rfl, by simp⟩
    split
    · rename_i same
      rw [same, found]
    · rfl
  | cons phash rest ih =>
    rw [foldl_cons]
    by_cases known : pool.exists phash = true
    · rw [if_pos known]
      have updated : (pool.updateParent newit phash true).mapLinks.lookup newit =
          some { links with parents := links.parents.insert hashBefore phash } := by
        simp [updateParent, modifyLinks, found, updateSet]
      obtain ⟨mapLinks, recorded, folded, lookups, children, parents⟩ := ih updated
      refine ⟨mapLinks, recorded, folded, fun hash => ?_, children, fun parent => ?_⟩
      · rw [lookups]
        split
        · rfl
        · rename_i apart
          simp [updateParent, modifyLinks, apart]
      · rw [parents, OrderedSet.mem_insert, mem_cons]
        change (parent = phash ∨ parent ∈ links.parents) ∨ parent ∈ rest ∧ pool.exists parent = true ↔ _
        constructor
        · intro either
          rcases either with (rfl | before) | later
          · exact .inr ⟨.inl rfl, known⟩
          · exact .inl before
          · exact .inr ⟨.inr later.1, later.2⟩
        · intro either
          rcases either with before | ⟨rfl | later, present⟩
          · exact .inl (.inr before)
          · exact .inl (.inl rfl)
          · exact .inr ⟨later, present⟩
    · rw [if_neg known]
      obtain ⟨mapLinks, recorded, folded, lookups, children, parents⟩ := ih found
      refine ⟨mapLinks, recorded, folded, lookups, children, fun parent => ?_⟩
      rw [parents, mem_cons]
      constructor
      · intro either
        rcases either with before | later
        · exact .inl before
        · exact .inr ⟨.inr later.1, later.2⟩
      · intro either
        rcases either with before | ⟨rfl | later, present⟩
        · exact .inl before
        · exact absurd present known
        · exact .inr ⟨later, present⟩

/-- The pool with one more entry, apart from totals. -/
def Gains (pool : CTxMemPool) (added : Uint256) (entry : CTxMemPoolEntry) (later : CTxMemPool) : Prop :=
  ∀ hash, (later.mapTx.lookup hash).map core = if hash = added then some entry.core else (pool.mapTx.lookup hash).map core

namespace Gains

variable {pool later : CTxMemPool} {added : Uint256} {entry : CTxMemPoolEntry} (gains : Gains pool added entry later)
include gains

theorem sameCores {other : CTxMemPool} (same : SameCores later other) : Gains pool added entry other :=
  fun hash => (same hash).symm.trans (gains hash)

theorem lookup_added : ∃ current, later.mapTx.lookup added = some current ∧ current.core = entry.core := by
  have cores := gains added
  rw [if_pos rfl] at cores
  exact map_eq_some_iff.mp cores

variable {hash : Uint256}

theorem lookup_old {old : CTxMemPoolEntry} (apart : hash ≠ added) (found : pool.mapTx.lookup hash = some old) :
    ∃ current, later.mapTx.lookup hash = some current ∧ current.core = old.core := by
  have cores := gains hash
  rw [if_neg apart, found] at cores
  exact map_eq_some_iff.mp cores

theorem lookup {current : CTxMemPoolEntry} (found : later.mapTx.lookup hash = some current) :
    hash = added ∧ entry.core = current.core ∨
      hash ≠ added ∧ ∃ old, pool.mapTx.lookup hash = some old ∧ old.core = current.core := by
  have cores := gains hash
  rw [found] at cores
  by_cases same : hash = added
  · rw [if_pos same] at cores
    exact .inl ⟨same, (Option.some.inj cores).symm⟩
  · rw [if_neg same] at cores
    exact .inr ⟨same, map_eq_some_iff.mp cores.symm⟩

theorem mem_iff : hash ∈ later.family.carrier ↔ hash = added ∨ hash ∈ pool.family.carrier := by
  rw [mem_family, mem_family]
  constructor
  · intro present
    obtain ⟨current, found⟩ := present
    rcases gains.lookup found with ⟨same, -⟩ | ⟨-, old, foundOld, -⟩
    · exact .inl same
    · exact .inr ⟨old, foundOld⟩
  · intro either
    by_cases same : hash = added
    · obtain ⟨current, found, -⟩ := gains.lookup_added
      exact ⟨current, same ▸ found⟩
    · obtain ⟨old, foundOld⟩ := either.resolve_left same
      obtain ⟨current, found, -⟩ := gains.lookup_old same foundOld
      exact ⟨current, found⟩

theorem weight (env : PoolEnv) (hash : Uint256) :
    later.weight env hash = if hash = added then entry.own env else pool.weight env hash := by
  have through : own env ∘ core = own env := rfl
  have cores := congrArg (Option.map (own env)) (gains hash)
  rw [Option.map_map, through] at cores
  rw [CTxMemPool.weight, cores]
  split
  · rfl
  · rw [Option.map_map, through, CTxMemPool.weight]

/-- The new entry is a child of what it spends from and has none itself. -/
theorem family (notOwnChild : added ∉ spentHashes entry.tx)
    (noChild : ∀ hash old, pool.mapTx.lookup hash = some old → added ∉ spentHashes old.tx)
    (fresh : pool.mapTx.lookup added = none) :
    later.family = pool.family.add added (spentHashes entry.tx).toFinset := by
  have present {hash : Uint256} : hash ∈ later.mapTx ↔ hash = added ∨ hash ∈ pool.mapTx := by
    have members : hash ∈ later.family.carrier ↔ hash = added ∨ hash ∈ pool.family.carrier := gains.mem_iff
    rwa [mem_family, mem_family, ← mem_iff_lookup, ← mem_iff_lookup] at members
  ext child parent
  · rw [gains.mem_iff, Family.add, Finset.mem_insert]
  · change later.Spends child parent ↔
      pool.Spends child parent ∨ child = added ∧ parent ∈ (spentHashes entry.tx).toFinset ∧ parent ∈ pool.family.carrier
    rw [List.mem_toFinset, mem_family, ← mem_iff_lookup]
    constructor
    · intro spends
      obtain ⟨member, current, found, input⟩ := spends
      rcases gains.lookup found with ⟨same, cores⟩ | ⟨-, old, foundOld, cores⟩
      · have sameTx : entry.tx = current.tx := tx_congr cores
        have input : parent ∈ spentHashes entry.tx := (congrArg spentHashes sameTx) ▸ input
        have apart : parent ≠ added := fun same => notOwnChild (same ▸ input)
        exact .inr ⟨same, input, (present.mp member).resolve_left apart⟩
      · have sameTx : old.tx = current.tx := tx_congr cores
        have input : parent ∈ spentHashes old.tx := (congrArg spentHashes sameTx) ▸ input
        have apart : parent ≠ added := fun same => noChild child old foundOld (same ▸ input)
        exact .inl ⟨(present.mp member).resolve_left apart, old, foundOld, input⟩
    · intro either
      rcases either with ⟨member, old, foundOld, input⟩ | ⟨same, input, member⟩
      · have apart : child ≠ added := by
          intro same
          rw [same, fresh] at foundOld
          cases foundOld
        obtain ⟨current, found, cores⟩ := gains.lookup_old apart foundOld
        have sameTx : current.tx = old.tx := tx_congr cores
        exact ⟨present.mpr (.inr member), current, found, (congrArg spentHashes sameTx) ▸ input⟩
      · obtain ⟨current, found, cores⟩ := gains.lookup_added
        have sameTx : current.tx = entry.tx := tx_congr cores
        exact ⟨present.mpr (.inr member), current, same ▸ found, (congrArg spentHashes sameTx) ▸ input⟩

end Gains

/-- The entries of a set are read one after the other. -/
theorem mapM_dereference {env : PoolEnv} {pool : CTxMemPool} {list : List Uint256}
    (present : ∀ it ∈ list, ∃ entry, pool.mapTx.lookup it = some entry) :
    ∃ entries, list.mapM pool.dereference = .ok entries ∧ entries.map (own env) = list.map (pool.weight env) := by
  induction list with
  | nil => exact ⟨[], rfl, rfl⟩
  | cons it rest ih =>
    obtain ⟨entry, found⟩ := present it mem_cons_self
    obtain ⟨entries, mapped, weights⟩ := ih fun other listed => present other (mem_cons_of_mem _ listed)
    refine ⟨entry :: entries, ?_, ?_⟩
    · rw [mapM_cons, dereference_ok found, mapped]
      rfl
    · rw [map_cons, map_cons, weights, weight_of_lookup found]

/-- The totals of some entries, component by component. -/
theorem sum_own (env : PoolEnv) (entries : List CTxMemPoolEntry) : (entries.map (own env)).sum =
      (((entries.length : Int), (entries.map fun entry => (entry.getTxSize env : Int)).sum,
        (entries.map getModifiedFee).sum), (entries.map fun entry => (entry.sigOpCost : Int)).sum) := by
  induction entries with
  | nil => rfl
  | cons entry rest ih =>
    simp only [map_cons, sum_cons, ih, own, length_cons]
    ext <;> simp [add_comm]

section Update

variable {env : PoolEnv} {pool : CTxMemPool} {added : Uint256} {entry : CTxMemPoolEntry} {setAncestors : SetEntries}
  {ancestors : Uint256 → Totals × Int} {descendants : Uint256 → Totals}

/-- The new entry joins its parents' children and its ancestors' totals. -/
theorem updateAncestorsOf_add {children : Uint256 → Uint256 → Prop} (links : pool.LinksAre pool.Spends children)
    (totals : pool.TotalsAre ancestors descendants) (found : pool.mapTx.lookup added = some entry)
    (present : ∀ it ∈ setAncestors, ∃ entry, pool.mapTx.lookup it = some entry)
    (positive : ∀ it ∈ setAncestors, 0 < (descendants it).1 ∧ 0 < (descendants it).2.1) :
    ∃ mapLinks mapTx, updateAncestorsOf env pool true added setAncestors = .ok { pool with mapLinks, mapTx } ∧
      SameCores pool { pool with mapLinks, mapTx } ∧
      CTxMemPool.LinksAre { pool with mapLinks, mapTx } pool.Spends
        (fun hash child => children hash child ∨ child = added ∧ pool.Spends added hash) ∧
      TotalsAre { pool with mapLinks, mapTx } ancestors (shifted descendants setAncestors.elements (entry.own env).1) := by
  obtain ⟨parents, answered, isParents⟩ := links.getMemPoolParents found
  have parentsIn : ∀ piter ∈ parents.elements, piter ∈ pool.mapTx :=
    fun piter listed => ((isParents piter).mp listed).1
  obtain ⟨mapLinks, linked, links⟩ := links.insertChild added parents.nodup parentsIn
  have totalsPool : TotalsAre { pool with mapLinks } ancestors descendants := totals
  have change : ((1, 1 * (entry.getTxSize env : Int), 1 * entry.getModifiedFee) : Totals) = (entry.own env).1 := by
    rw [own, one_mul, one_mul]
  obtain ⟨mapTx, modified, cores, totals⟩ := @modifyDescendants_ok { pool with mapLinks } _ _ totalsPool _
    setAncestors.nodup present (1, 1 * (entry.getTxSize env : Int), 1 * entry.getModifiedFee)
    (fun it listed => add_pos (positive it listed).1 Int.one_pos)
    (fun it listed => add_pos (positive it listed).2 (by
      rw [one_mul]
      exact Int.natCast_pos.mpr (entry.getTxSize_pos env)))
  refine ⟨mapLinks, mapTx, ?_, cores, ?_, ?_⟩
  · simp only [updateAncestorsOf, answered, bind, Except.bind, linked]
    rw [@dereference_ok { pool with mapLinks } _ _ found]
    exact modified
  · apply (links.sameCores cores).congr
    · exact fun _ _ => Iff.rfl
    · intro hash child
      rw [← OrderedSet.mem_def, isParents]
  · rw [← change]
    exact totals

/-- The new entry gets the totals of its ancestors. -/
theorem updateEntryForAncestors_ok (totals : pool.TotalsAre ancestors descendants)
    (found : pool.mapTx.lookup added = some entry)
    (present : ∀ it ∈ setAncestors, ∃ entry, pool.mapTx.lookup it = some entry)
    (positive : 0 < (ancestors added).1.1 ∧ 0 < (ancestors added).1.2.1 ∧ 0 ≤ (ancestors added).2)
    (bounded : (ancestors added).2 + (∑ it ∈ setAncestors.toFinset, pool.weight env it).2 < 2 ^ 31) :
    ∃ mapTx, updateEntryForAncestors env pool added setAncestors = .ok { pool with mapTx } ∧
      SameCores pool { pool with mapTx } ∧
      TotalsAre { pool with mapTx }
        (shifted ancestors [added] (∑ it ∈ setAncestors.toFinset, pool.weight env it)) descendants := by
  obtain ⟨entries, mapped, weights⟩ := @mapM_dereference env pool _ present
  have sum : ∑ it ∈ setAncestors.toFinset, pool.weight env it = (entries.map (own env)).sum := by
    rw [weights, OrderedSet.sum_toFinset]
  have size : (entries.length : Int) = setAncestors.size := by
    have lengths := congrArg List.length weights
    rw [length_map, length_map] at lengths
    exact congrArg Nat.cast lengths
  have inside : ∀ it ∈ setAncestors.toFinset, it ∈ pool.family.carrier := by
    intro it listed
    exact mem_family.mpr (present it (OrderedSet.mem_toFinset.mp listed))
  have counts : 0 ≤ (∑ it ∈ setAncestors.toFinset, pool.weight env it).1.1 := by
    rw [Prod.fst_sum, Prod.fst_sum]
    apply Finset.sum_nonneg
    intro it listed
    rw [weight_count (inside it listed)]
    exact Int.one_nonneg
  have sizes : 0 ≤ (∑ it ∈ setAncestors.toFinset, pool.weight env it).1.2.1 := by
    rw [Prod.fst_sum, Prod.snd_sum, Prod.fst_sum]
    exact Finset.sum_nonneg fun it listed => (weight_size (inside it listed)).le
  have sigOps := @sum_sigOps_nonneg env pool setAncestors.toFinset
  obtain ⟨mapTx, modified, cores, totals⟩ := @modifyAncestors_ok pool _ _ totals [added] (nodup_singleton _)
    (fun it listed => ⟨entry, mem_singleton.mp listed ▸ found⟩)
    (∑ it ∈ setAncestors.toFinset, pool.weight env it)
    (fun it listed => mem_singleton.mp listed ▸ add_pos_of_pos_of_nonneg positive.1 counts)
    (fun it listed => mem_singleton.mp listed ▸ add_pos_of_pos_of_nonneg positive.2.1 sizes)
    (by omega) (by omega)
    (fun it listed => mem_singleton.mp listed ▸ add_nonneg positive.2.2 sigOps)
    (fun it listed => mem_singleton.mp listed ▸ bounded)
  refine ⟨mapTx, ?_, cores, totals⟩
  rw [sum, sum_own, size] at modified
  obtain ⟨last, modified, isLast⟩ := bind_eq_ok.mp modified
  cases isLast
  simp only [updateEntryForAncestors, mapped, bind, Except.bind]
  exact modified

end Update

end Straks.Mempool
