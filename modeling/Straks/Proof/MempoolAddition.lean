import Straks.Proof.MempoolInsertion

namespace Straks.Mempool
open Relation Success CTxMemPoolEntry CTxMemPool Finset Function OrderedSet Family

/-- A new transaction has no child or conflict and is given exactly its ancestors. -/
structure Joins (env : PoolEnv) (pool : CTxMemPool) (tx : CTransaction) (setAncestors : SetEntries) : Prop where
  fresh : pool.mapTx.lookup (env.hashes.getHash tx) = none
  noChild : ∀ hash entry, pool.mapTx.lookup hash = some entry → env.hashes.getHash tx ∉ spentHashes entry.tx
  notOwnChild : env.hashes.getHash tx ∉ spentHashes tx
  noConflict : ∀ prevout ∈ spentOutputs tx, pool.mapNextTx.lookup prevout = none
  ancestors : ∀ hash, hash ∈ setAncestors ↔
    ∃ parent ∈ spentHashes tx, parent ∈ pool.family.carrier ∧ pool.family.Reaches parent hash

/-- Moreover the signature operations with ancestors fit an `int`. -/
structure Addable (env : PoolEnv) (pool : CTxMemPool) (tx : CTransaction) (sigOpCost : Nat)
    (setAncestors : SetEntries) : Prop extends Joins env pool tx setAncestors where
  sigOps : sigOpCost + (∑ hash ∈ setAncestors.toFinset, pool.weight env hash).2 < 2 ^ 31

section Add

variable {env : PoolEnv} {pool : CTxMemPool} {tx : CTransaction} {nFee : CAmount} {nTime : Int} {sigOpCost : Nat}
  {setAncestors : SetEntries}

/-- The entry the pool gets, with the fee delta of its hash. -/
def addedEntry (env : PoolEnv) (pool : CTxMemPool) (tx : CTransaction) (nFee : CAmount) (nTime : Int)
    (sigOpCost : Nat) : CTxMemPoolEntry :=
  (new env tx nFee nTime sigOpCost).updateFeeDelta ((pool.mapDeltas.lookup (env.hashes.getHash tx)).getD 0)

/-- The pool with the new entry, before its relatives are updated. -/
structure Inserted (env : PoolEnv) (pool : CTxMemPool) (tx : CTransaction) (entry : CTxMemPoolEntry)
    (middle : CTxMemPool) : Prop where
  lookup : ∀ hash, middle.mapTx.lookup hash =
    if hash = env.hashes.getHash tx then some entry else pool.mapTx.lookup hash
  next : ∀ prevout, middle.mapNextTx.lookup prevout =
    if prevout ∈ spentOutputs tx then some tx else pool.mapNextTx.lookup prevout
  links : middle.LinksAre middle.Spends fun hash child => pool.Spends child hash

variable {middle : CTxMemPool} {entry : CTxMemPoolEntry}

theorem Inserted.gains (inserted : Inserted env pool tx entry middle) :
    Gains pool (env.hashes.getHash tx) entry middle := by
  intro hash
  rw [inserted.lookup]
  split
  · rfl
  · rfl

/-- The links recorded for the new entry are its parents. -/
theorem Addable.inserted_links (addable : Addable env pool tx sigOpCost setAncestors)
    (links : pool.LinksAre pool.Spends fun hash child => pool.Spends child hash) {recorded : TxLinks}
    (sameTx : entry.tx = tx)
    (isLookup : ∀ hash, middle.mapTx.lookup hash = if hash = env.hashes.getHash tx then some entry else pool.mapTx.lookup hash)
    (isLinks : ∀ hash, middle.mapLinks.lookup hash = if hash = env.hashes.getHash tx then some recorded else pool.mapLinks.lookup hash)
    (noChildren : ∀ child, child ∉ recorded.children)
    (isParents : ∀ parent, parent ∈ recorded.parents ↔ parent ∈ spentHashes tx ∧ parent ∈ pool.family.carrier) :
    middle.LinksAre middle.Spends fun hash child => pool.Spends child hash := by
  have gains : Gains pool (env.hashes.getHash tx) entry middle := by
    intro hash
    rw [isLookup]
    split
    · rfl
    · rfl
  have family := gains.family (sameTx ▸ addable.notOwnChild) addable.noChild addable.fresh
  have spends (child parent : Uint256) : middle.Spends child parent ↔ pool.Spends child parent ∨
      child = env.hashes.getHash tx ∧ parent ∈ (spentHashes entry.tx).toFinset ∧ parent ∈ pool.family.carrier :=
    iff_of_eq (congrFun (congrFun (congrArg Family.parent family) child) parent)
  have noSpends {child : Uint256} : ¬ pool.Spends child (env.hashes.getHash tx) := by
    intro spent
    have member := mem_iff_lookup.mp spent.1
    rw [addable.fresh] at member
    simp at member
  have unspent {parent : Uint256} : ¬ pool.Spends (env.hashes.getHash tx) parent := by
    intro spent
    obtain ⟨-, old, found, -⟩ := spent
    rw [addable.fresh] at found
    cases found
  refine ⟨?_, ?_, ?_⟩
  · intro hash
    have keys := links.keys hash
    rw [mem_iff_lookup, mem_iff_lookup] at keys ⊢
    rw [isLinks, isLookup]
    split
    · simp
    · exact keys
  · intro hash own linked parent
    rw [spends, sameTx]
    rw [isLinks] at linked
    split at linked
    · rename_i same
      cases linked
      rw [isParents, same, or_iff_right unspent]
      simp
    · rename_i apart
      rw [links.parents hash own linked parent]
      simp [apart]
  · intro hash own linked child
    rw [isLinks] at linked
    split at linked
    · rename_i same
      cases linked
      rw [same]
      exact iff_of_false (noChildren child) noSpends
    · exact links.children hash own linked child

/-- The first part puts the entry and its parents into the pool. -/
theorem addUnchecked_inserted (links : pool.LinksAre pool.Spends fun hash child => pool.Spends child hash)
    (addable : Addable env pool tx sigOpCost setAncestors) : ∃ mapTx mapLinks mapNextTx,
      addUnchecked env pool (env.hashes.getHash tx) (new env tx nFee nTime sigOpCost) setAncestors = (do
        let later ← updateAncestorsOf env { pool with mapTx, mapLinks, mapNextTx } true (env.hashes.getHash tx) setAncestors
        let later ← updateEntryForAncestors env later (env.hashes.getHash tx) setAncestors
        .ok { later with
          totalTxSize := later.totalTxSize + (new env tx nFee nTime sigOpCost).getTxSize env
          vTxHashes := later.vTxHashes ++ [(env.hashes.getWitnessHash tx, env.hashes.getHash tx)]
          vTxHashesIdx := update later.vTxHashesIdx (env.hashes.getHash tx) later.vTxHashes.length }) ∧
      Inserted env pool tx (addedEntry env pool tx nFee nTime sigOpCost) { pool with mapTx, mapLinks, mapNextTx } := by
  have unlinked : pool.mapLinks.lookup (env.hashes.getHash tx) = none := by
    rw [← Option.not_isSome_iff_eq_none, AList.lookup_isSome, links.keys, mem_iff_lookup, addable.fresh]
    simp
  have absent : pool.exists (env.hashes.getHash tx) = false := by
    rw [CTxMemPool.exists, addable.fresh]
    rfl
  obtain ⟨mapTx, applied, lookups⟩ := @applyFeeDelta_ok
    { pool with
      mapTx := pool.mapTx.insert (env.hashes.getHash tx) (new env tx nFee nTime sigOpCost)
      mapLinks := pool.mapLinks.insert (env.hashes.getHash tx) TxLinks.empty }
    (env.hashes.getHash tx) (new env tx nFee nTime sigOpCost) (AList.lookup_insert _) rfl
  have isLookup : ∀ hash, mapTx.lookup hash = if hash = env.hashes.getHash tx
      then some (addedEntry env pool tx nFee nTime sigOpCost) else pool.mapTx.lookup hash := by
    intro hash
    rw [lookups, lookup_insert_eq]
    split
    · rfl
    · rfl
  have found : mapTx.lookup (env.hashes.getHash tx) = some (addedEntry env pool tx nFee nTime sigOpCost) := by
    rw [isLookup, if_pos rfl]
  obtain ⟨mapLinks, recorded, folded, isLinks, noChildren, isParents⟩ := @foldl_updateParent
    { pool with
      mapTx
      mapLinks := pool.mapLinks.insert (env.hashes.getHash tx) TxLinks.empty
      mapNextTx := tx.vin.foldl (fun next txin => insertNext next txin.prevout tx) pool.mapNextTx }
    (env.hashes.getHash tx) TxLinks.empty (AList.lookup_insert _)
    (OrderedSet.empty.insertAll hashBefore (tx.vin.map fun txin => txin.prevout.hash)).elements
  refine ⟨mapTx, mapLinks, tx.vin.foldl (fun next txin => insertNext next txin.prevout tx) pool.mapNextTx, ?_, ?_⟩
  · have start : (new env tx nFee nTime sigOpCost).tx = tx := rfl
    have same : (addedEntry env pool tx nFee nTime sigOpCost).tx = tx := rfl
    rw [addUnchecked, start]
    simp only [absent, unlinked, Option.isSome_none, Bool.false_eq_true, if_false, applied, bind, Except.bind]
    rw [@dereference_ok { pool with mapTx, mapLinks := _ } _ _ found]
    simp only [same, folded]
  · refine ⟨isLookup, ?_, ?_⟩
    · apply lookup_foldl_insertNext
      intro prevout listed spender spent
      rw [addable.noConflict prevout listed] at spent
      cases spent
    · apply addable.inserted_links links rfl isLookup
      · intro hash
        rw [isLinks, lookup_insert_eq]
        split
        · rfl
        · rfl
      · rw [noChildren]
        exact OrderedSet.not_mem_empty
      · intro parent
        rw [isParents, ← OrderedSet.mem_def, OrderedSet.mem_insertAll, or_iff_left (OrderedSet.not_mem_empty parent),
          exists_iff, mem_family, isLookup]
        have noParents : parent ∉ TxLinks.empty.parents := OrderedSet.not_mem_empty parent
        rw [or_iff_right noParents]
        apply and_congr_right
        intro input
        have apart : parent ≠ env.hashes.getHash tx := fun same => addable.notOwnChild (same ▸ input)
        rw [if_neg apart]

/-- What an addition does to the pool. -/
structure Added (env : PoolEnv) (pool : CTxMemPool) (entry : CTxMemPoolEntry) (later : CTxMemPool) : Prop where
  gains : Gains pool (env.hashes.getHash entry.tx) entry later
  deltas : later.mapDeltas = pool.mapDeltas

/-- The books are kept when an entry is added. -/
theorem BooksOk.add (books : BooksOk env pool) {later : CTxMemPool}
    (gains : Gains pool (env.hashes.getHash entry.tx) entry later)
    (fresh : pool.mapTx.lookup (env.hashes.getHash entry.tx) = none)
    (noConflict : ∀ prevout ∈ spentOutputs entry.tx, pool.mapNextTx.lookup prevout = none)
    (next : ∀ prevout, later.mapNextTx.lookup prevout =
      if prevout ∈ spentOutputs entry.tx then some entry.tx else pool.mapNextTx.lookup prevout)
    (total : later.totalTxSize = pool.totalTxSize + entry.getTxSize env) (hashes : later.vTxHashes =
      pool.vTxHashes ++ [(env.hashes.getWitnessHash entry.tx, env.hashes.getHash entry.tx)])
    (indexes : later.vTxHashesIdx = update pool.vTxHashesIdx (env.hashes.getHash entry.tx) pool.vTxHashes.length) :
    BooksOk env later where
  keyed := by
    intro hash current found
    rcases gains.lookup found with ⟨same, cores⟩ | ⟨-, old, foundOld, cores⟩
    · have sameTx : entry.tx = current.tx := tx_congr cores
      rw [same]
      exact (congrArg env.hashes.getHash sameTx).symm
    · have sameTx : old.tx = current.tx := tx_congr cores
      rw [← books.keyed hash old foundOld]
      exact (congrArg env.hashes.getHash sameTx).symm
  next := by
    intro prevout tx
    rw [next]
    constructor
    · intro spent
      split at spent
      · rename_i listed
        obtain ⟨current, found, cores⟩ := gains.lookup_added
        have sameTx : current.tx = entry.tx := tx_congr cores
        cases spent
        exact ⟨env.hashes.getHash entry.tx, current, found, sameTx, listed⟩
      · obtain ⟨hash, old, foundOld, isTx, listed⟩ := (books.next prevout tx).mp spent
        have apart : hash ≠ env.hashes.getHash entry.tx := by
          intro same
          rw [same, fresh] at foundOld
          cases foundOld
        obtain ⟨current, found, cores⟩ := gains.lookup_old apart foundOld
        have sameTx : current.tx = old.tx := tx_congr cores
        exact ⟨hash, current, found, sameTx.trans isTx, listed⟩
    · intro spender
      obtain ⟨hash, current, found, isTx, listed⟩ := spender
      rcases gains.lookup found with ⟨-, cores⟩ | ⟨-, old, foundOld, cores⟩
      · have sameTx : entry.tx = current.tx := tx_congr cores
        have sameTx : entry.tx = tx := sameTx.trans isTx
        rw [sameTx, if_pos listed]
      · have sameTx : old.tx = current.tx := tx_congr cores
        have spent := (books.next prevout tx).mpr ⟨hash, old, foundOld, sameTx.trans isTx, listed⟩
        rw [if_neg, spent]
        intro conflict
        rw [noConflict prevout conflict] at spent
        cases spent
  slots := by
    apply books.slots.add fresh _ hashes indexes
    intro hash
    have cores := congrArg (Option.map CTxMemPoolEntry.tx) (gains hash)
    have through : CTxMemPoolEntry.tx ∘ core = CTxMemPoolEntry.tx := rfl
    rw [Option.map_map, through] at cores
    rw [cores]
    split
    · rfl
    · rw [Option.map_map, through]
  total := by
    have carrier : later.family.carrier = insert (env.hashes.getHash entry.tx) pool.family.carrier := by
      ext hash
      rw [gains.mem_iff, Finset.mem_insert]
    have absent : env.hashes.getHash entry.tx ∉ pool.family.carrier := by
      rw [mem_family, fresh]
      simp
    have own : (later.weight env (env.hashes.getHash entry.tx)).1.2.1 = entry.getTxSize env := by
      rw [gains.weight, if_pos rfl]
      rfl
    rw [carrier, sum_insert absent, own, total, books.total, add_comm]
    congr 1
    apply sum_congr rfl
    intro hash member
    have apart : hash ≠ env.hashes.getHash entry.tx := fun same => absent (same ▸ member)
    rw [gains.weight, if_neg apart]

section Totals

variable {entry : CTxMemPoolEntry} {later : CTxMemPool}

section

variable (addable : Addable env pool tx sigOpCost setAncestors)
include addable

theorem Addable.notMem : env.hashes.getHash tx ∉ pool.family.carrier := by
  rw [mem_family, addable.fresh]
  simp

theorem Addable.ancestors_mem {hash : Uint256} (listed : hash ∈ setAncestors) : hash ∈ pool.family.carrier := by
  obtain ⟨parent, -, member, path⟩ := (addable.ancestors hash).mp listed
  exact path.mem member

theorem Addable.family (sameTx : entry.tx = tx) (gains : Gains pool (env.hashes.getHash tx) entry later) :
    later.family = pool.family.add (env.hashes.getHash tx) (spentHashes tx).toFinset := by
  rw [← sameTx]
  rw [← sameTx] at addable gains
  exact gains.family addable.notOwnChild addable.noChild addable.fresh

theorem Addable.isAncestors (hash : Uint256) : hash ∈ setAncestors.toFinset ↔
      TransGen (pool.family.add (env.hashes.getHash tx) (spentHashes tx).toFinset).parent (env.hashes.getHash tx) hash := by
  rw [mem_toFinset, addable.ancestors, add_transGen_iff addable.notMem]
  simp only [List.mem_toFinset]

theorem Addable.sum_weight (gains : Gains pool (env.hashes.getHash tx) entry later) {set : Finset Uint256}
    (inside : set ⊆ pool.family.carrier) :
    ∑ hash ∈ set, later.weight env hash = ∑ hash ∈ set, pool.weight env hash := by
  apply sum_congr rfl
  intro hash listed
  have apart : hash ≠ env.hashes.getHash tx := fun same => addable.notMem (same ▸ inside listed)
  rw [gains.weight, if_neg apart]

end

variable (addable : Addable env pool tx sigOpCost setAncestors) (sameTx : entry.tx = tx)
  (gains : Gains pool (env.hashes.getHash tx) entry later)
include addable sameTx gains

/-- The new entry counts itself and its ancestors. -/
theorem Addable.ancestorsTotal_added : ancestorsTotal env later (env.hashes.getHash tx) =
    entry.own env + ∑ hash ∈ setAncestors.toFinset, pool.weight env hash := by
  have inside : setAncestors.toFinset ⊆ pool.family.carrier :=
    fun hash listed => addable.ancestors_mem (mem_toFinset.mp listed)
  have up := add_up_self addable.isAncestors
  rw [ancestorsTotal, addable.family sameTx gains, up,
    sum_insert fun listed => addable.notMem (inside listed), gains.weight, if_pos rfl,
    addable.sum_weight gains inside]

theorem Addable.descendantsTotal_added : descendantsTotal env later (env.hashes.getHash tx) = (entry.own env).1 := by
  rw [descendantsTotal, addable.family sameTx gains, add_down_self addable.notMem, sum_singleton,
    gains.weight, if_pos rfl]

theorem Addable.ancestorsTotal_old {hash : Uint256} (member : hash ∈ pool.family.carrier) :
    ancestorsTotal env later hash = ancestorsTotal env pool hash := by
  rw [ancestorsTotal, addable.family sameTx gains, add_up_of_mem addable.notMem member,
    addable.sum_weight gains up_subset, ancestorsTotal]

/-- The ancestors of the new entry count it. -/
theorem Addable.descendantsTotal_old {hash : Uint256} (member : hash ∈ pool.family.carrier) :
    descendantsTotal env later hash =
      shifted (descendantsTotal env pool) setAncestors.elements (entry.own env).1 hash := by
  have down := add_down_of_mem addable.notMem addable.isAncestors member
  have weights : ∑ other ∈ pool.family.down hash, (later.weight env other).1 = descendantsTotal env pool hash := by
    have same := congrArg Prod.fst (addable.sum_weight gains (@Family.down_subset _ pool.family hash))
    rwa [Prod.fst_sum, Prod.fst_sum] at same
  rw [descendantsTotal, addable.family sameTx gains, down, shifted]
  split
  · rename_i listed
    have isElement : hash ∈ setAncestors.elements := mem_toFinset.mp listed
    have absent : env.hashes.getHash tx ∉ pool.family.down hash := fun below => addable.notMem (down_subset below)
    rw [if_pos isElement, sum_insert absent, weights, gains.weight, if_pos rfl, add_comm]
  · rename_i absent
    have noElement : hash ∉ setAncestors.elements := fun listed => absent (mem_toFinset.mpr listed)
    rw [if_neg noElement, weights]

end Totals

/-- The totals while the new entry counts only itself. -/
theorem PoolOk.inserted_totals (ok : PoolOk env pool)
    (inserted : Inserted env pool tx (addedEntry env pool tx nFee nTime sigOpCost) middle) : middle.TotalsAre
      (update (ancestorsTotal env pool) (env.hashes.getHash tx)
        ((addedEntry env pool tx nFee nTime sigOpCost).own env))
      (update (descendantsTotal env pool) (env.hashes.getHash tx)
        ((addedEntry env pool tx nFee nTime sigOpCost).own env).1) := by
  intro hash current found
  rw [inserted.lookup] at found
  by_cases same : hash = env.hashes.getHash tx
  · rw [if_pos same] at found
    cases found
    rw [same, update_self, update_self]
    exact new_totals env tx nFee nTime sigOpCost _
  · rw [if_neg same] at found
    rw [update_of_ne same, update_of_ne same]
    exact ok.totals hash current found

/-- The pool stays consistent after the updates for the entry. -/
theorem Addable.poolOk (ok : PoolOk env pool) (addable : Addable env pool tx sigOpCost setAncestors)
    {later : CTxMemPool} (sameTx : entry.tx = tx)
    (isDelta : entry.feeDelta = (pool.mapDeltas.lookup (env.hashes.getHash tx)).getD 0)
    (isSigOps : entry.sigOpCost = sigOpCost) (books : BooksOk env later)
    (gains : Gains pool (env.hashes.getHash tx) entry later) (deltas : later.mapDeltas = pool.mapDeltas)
    (links : later.LinksAre later.Spends fun hash child =>
      pool.Spends child hash ∨ child = env.hashes.getHash tx ∧ later.Spends (env.hashes.getHash tx) hash)
    (totals : later.TotalsAre (shifted (update (ancestorsTotal env pool) (env.hashes.getHash tx) (entry.own env))
        [env.hashes.getHash tx] (∑ hash ∈ setAncestors.toFinset, pool.weight env hash))
      (shifted (update (descendantsTotal env pool) (env.hashes.getHash tx) (entry.own env).1)
        setAncestors.elements (entry.own env).1)) : PoolOk env later where
  toBooksOk := books
  acyclic := by
    rw [addable.family sameTx gains]
    exact ok.acyclic.add addable.notMem
  links := by
    apply links.congr
    · exact fun _ _ => Iff.rfl
    · intro hash child
      have spends (child parent : Uint256) : later.Spends child parent ↔ pool.Spends child parent ∨
          child = env.hashes.getHash tx ∧ parent ∈ (spentHashes tx).toFinset ∧ parent ∈ pool.family.carrier :=
        iff_of_eq (congrFun (congrFun (congrArg Family.parent (addable.family sameTx gains)) child) parent)
      constructor
      · intro either
        rcases either with old | ⟨same, new⟩
        · exact (spends child hash).mpr (.inl old)
        · rw [same]
          exact new
      · intro spent
        by_cases same : child = env.hashes.getHash tx
        · rw [same] at spent
          exact .inr ⟨same, spent⟩
        · exact .inl (((spends child hash).mp spent).resolve_right fun new => same new.1)
  deltas := by
    intro hash current found
    rw [deltas]
    rcases gains.lookup found with ⟨same, cores⟩ | ⟨-, old, foundOld, cores⟩
    · have sameDelta : entry.feeDelta = current.feeDelta := feeDelta_congr cores
      rw [same, ← isDelta]
      exact sameDelta.symm
    · have sameDelta : old.feeDelta = current.feeDelta := feeDelta_congr cores
      rw [← ok.deltas hash old foundOld]
      exact sameDelta.symm
  totals := by
    apply TotalsAre.congr totals
    intro hash member
    by_cases same : hash = env.hashes.getHash tx
    · have unlisted : env.hashes.getHash tx ∉ setAncestors.elements :=
        fun listed => addable.notMem (addable.ancestors_mem listed)
      rw [same, addable.ancestorsTotal_added sameTx gains, addable.descendantsTotal_added sameTx gains, shifted, shifted,
        if_pos (List.mem_singleton_self _), if_neg unlisted, update_self, update_self]
      exact ⟨rfl, rfl⟩
    · have old := (gains.mem_iff.mp member).resolve_left same
      have unlisted : hash ∉ [env.hashes.getHash tx] := fun listed => same (List.mem_singleton.mp listed)
      rw [addable.ancestorsTotal_old sameTx gains old, addable.descendantsTotal_old sameTx gains old, shifted, shifted,
        if_neg unlisted, update_of_ne same, update_of_ne same]
      exact ⟨rfl, rfl⟩
  bounded := by
    intro hash member
    by_cases same : hash = env.hashes.getHash tx
    · rw [same, addable.ancestorsTotal_added sameTx gains]
      change (entry.sigOpCost : Int) + (∑ hash ∈ setAncestors.toFinset, pool.weight env hash).2 < 2 ^ 31
      rw [isSigOps]
      exact addable.sigOps
    · have old := (gains.mem_iff.mp member).resolve_left same
      rw [addable.ancestorsTotal_old sameTx gains old]
      exact ok.bounded hash old

/-- A new transaction joins a consistent pool. -/
theorem PoolOk.addUnchecked (ok : PoolOk env pool) (addable : Addable env pool tx sigOpCost setAncestors) :
    ∃ later, Mempool.addUnchecked env pool (env.hashes.getHash tx) (new env tx nFee nTime sigOpCost) setAncestors =
        .ok later ∧ PoolOk env later ∧ Added env pool (addedEntry env pool tx nFee nTime sigOpCost) later := by
  obtain ⟨mapTx, mapLinks, mapNextTx, isAdd, inserted⟩ := @addUnchecked_inserted env pool tx nFee nTime sigOpCost
    setAncestors ok.links addable
  have gains := inserted.gains
  have sameTx : (addedEntry env pool tx nFee nTime sigOpCost).tx = tx := rfl
  have found := inserted.lookup (env.hashes.getHash tx)
  rw [if_pos rfl] at found
  have old {hash : Uint256} (listed : hash ∈ setAncestors) : hash ≠ env.hashes.getHash tx :=
    fun same => addable.notMem (same ▸ addable.ancestors_mem listed)
  have present : ∀ it ∈ setAncestors, ∃ entry, mapTx.lookup it = some entry := by
    intro it listed
    exact mem_family.mp (gains.mem_iff.mpr (.inr (addable.ancestors_mem listed)))
  have positive : ∀ it ∈ setAncestors, 0 < (descendantsTotal env pool it).1 ∧ 0 < (descendantsTotal env pool it).2.1 :=
    fun it listed => descendantsTotal_pos (addable.ancestors_mem listed)
  obtain ⟨mapLinks', mapTx', updatedAncestors, cores, links, totals⟩ := @updateAncestorsOf_add env _ _ _ setAncestors
    _ _ _ inserted.links (ok.inserted_totals inserted) found present (by
      intro it listed
      rw [update_of_ne (old listed)]
      exact positive it listed)
  have gains := gains.sameCores cores
  have inside : setAncestors.toFinset ⊆ pool.family.carrier :=
    fun hash listed => addable.ancestors_mem (mem_toFinset.mp listed)
  obtain ⟨current, foundCurrent, -⟩ := gains.lookup_added
  obtain ⟨mapTx'', updatedEntry, coresLater, totals⟩ := updateEntryForAncestors_ok totals foundCurrent
    (fun it listed => mem_family.mp (gains.mem_iff.mpr (.inr (addable.ancestors_mem listed))))
    (by
      rw [update_self]
      exact ⟨Int.one_pos, Int.natCast_pos.mpr (getTxSize_pos env _), Int.natCast_nonneg _⟩)
    (by
      rw [update_self, addable.sum_weight gains inside]
      exact addable.sigOps)
  rw [addable.sum_weight gains inside] at totals
  have gains := gains.sameCores coresLater
  have added : Added env pool (addedEntry env pool tx nFee nTime sigOpCost)
      { pool with
        mapTx := mapTx'', mapLinks := mapLinks', mapNextTx := mapNextTx
        totalTxSize := pool.totalTxSize + (new env tx nFee nTime sigOpCost).getTxSize env
        vTxHashes := pool.vTxHashes ++ [(env.hashes.getWitnessHash tx, env.hashes.getHash tx)]
        vTxHashesIdx := update pool.vTxHashesIdx (env.hashes.getHash tx) pool.vTxHashes.length } :=
    ⟨gains, rfl⟩
  refine ⟨_, ?_, ?_, added⟩
  · rw [isAdd, updatedAncestors]
    simp only [bind, Except.bind, updatedEntry]
  · have family := addable.family sameTx gains
    have sameSpends := congrArg Family.parent (family.trans (addable.family sameTx inserted.gains).symm)
    apply addable.poolOk ok sameTx rfl rfl _ added.gains rfl
    · constructor
      · exact fun hash => (links.keys hash).trans coresLater.mem_iff
      · intro hash own linked parent
        rw [links.parents hash own linked parent]
        exact iff_of_eq (congrFun (congrFun sameSpends hash) parent).symm
      · intro hash own linked child
        rw [links.children hash own linked child]
        apply or_congr_right
        apply and_congr_right
        intro _
        exact iff_of_eq (congrFun (congrFun sameSpends _) hash).symm
    · exact totals
    · exact ok.toBooksOk.add added.gains addable.fresh addable.noConflict inserted.next rfl rfl rfl

end Add

end Straks.Mempool
