import Straks.Construction.Mempool.TxMempool
import Straks.Library.Ancestry
import Straks.Library.Success

namespace Straks.Mempool
open Relation Success List Option AList

section Lookup

variable {Key Value : Type} [DecidableEq Key]

theorem lookup_insert_eq (table : AList fun _ : Key => Value) (key other : Key) (value : Value) :
    (table.insert key value).lookup other = if other = key then some value else table.lookup other := by
  split
  · rename_i same
    rw [same, lookup_insert]
  · rename_i apart
    rw [lookup_insert_ne apart]

theorem lookup_erase_eq (table : AList fun _ : Key => Value) (key other : Key) :
    (table.erase key).lookup other = if other = key then none else table.lookup other := by
  split
  · rename_i same
    rw [same, lookup_erase]
  · rename_i apart
    rw [lookup_erase_ne apart]

theorem lookup_empty (key : Key) : (∅ : AList fun _ : Key => Value).lookup key = none := AList.lookup_empty key

theorem mem_iff_lookup {table : AList fun _ : Key => Value} {key : Key} :
    key ∈ table ↔ ∃ value, table.lookup key = some value := by
  rw [← lookup_isSome, isSome_iff_exists]

end Lookup

namespace CTxMemPoolEntry

variable (entry : CTxMemPoolEntry)

/-- The entry without its totals. -/
def core : CTxMemPoolEntry :=
  { entry with
    nCountWithDescendants := 0, nSizeWithDescendants := 0, nModFeesWithDescendants := 0
    nCountWithAncestors := 0, nSizeWithAncestors := 0, nModFeesWithAncestors := 0, nSigOpCostWithAncestors := 0 }

/-- A number of transactions, their size and modified fees. -/
abbrev Totals := Int × Int × Int

def descendantTotals : Totals :=
  (entry.nCountWithDescendants, entry.nSizeWithDescendants, entry.nModFeesWithDescendants)

/-- Ancestor totals go with their signature operations. -/
def ancestorTotals : Totals × Int :=
  ((entry.nCountWithAncestors, entry.nSizeWithAncestors, entry.nModFeesWithAncestors), entry.nSigOpCostWithAncestors)

variable (env : PoolEnv)

/-- What the transaction itself contributes to totals. -/
def own (entry : CTxMemPoolEntry) : Totals × Int :=
  ((1, entry.getTxSize env, entry.getModifiedFee), entry.sigOpCost)

theorem own_core (entry : CTxMemPoolEntry) : entry.core.own env = entry.own env := rfl

variable {first second : CTxMemPoolEntry}

section

variable (same : first.core = second.core)
include same

theorem own_congr {env : PoolEnv} : first.own env = second.own env := by
  rw [← own_core, same, own_core]

theorem tx_congr : first.tx = second.tx := by
  have cores : first.core.tx = second.core.tx := congrArg CTxMemPoolEntry.tx same
  exact cores

theorem feeDelta_congr : first.feeDelta = second.feeDelta := by
  have cores : first.core.feeDelta = second.core.feeDelta := congrArg CTxMemPoolEntry.feeDelta same
  exact cores

theorem sigOpCost_congr : first.sigOpCost = second.sigOpCost := by
  have cores : first.core.sigOpCost = second.core.sigOpCost := congrArg CTxMemPoolEntry.sigOpCost same
  exact cores

end

theorem getTxSize_pos (entry : CTxMemPoolEntry) : 0 < entry.getTxSize env := by
  have weight : 4 ≤ getTransactionWeight entry.tx := by
    rw [getTransactionWeight, Chain.baseSize, Chain.witnessScaleFactor]
    omega
  rw [getTxSize, getVirtualTransactionSize, Chain.witnessScaleFactor]
  omega

theorem toInt32_of_bounds {value : Int} (low : -2 ^ 31 ≤ value) (high : value < 2 ^ 31) : toInt32 value = value := by
  rw [toInt32, Int.bmod_def]
  omega

theorem updateDescendantState_ok {entry : CTxMemPoolEntry} {modify : Totals}
    (count : 0 < (entry.descendantTotals + modify).1) (size : 0 < (entry.descendantTotals + modify).2.1) :
    ∃ updated, entry.updateDescendantState modify.2.1 modify.2.2 modify.1 = .ok updated ∧ updated.core = entry.core ∧
      updated.ancestorTotals = entry.ancestorTotals ∧ updated.descendantTotals = entry.descendantTotals + modify := by
  have noSize : ¬ entry.nSizeWithDescendants + modify.2.1 ≤ 0 := not_le.mpr size
  have noCount : ¬ entry.nCountWithDescendants + modify.1 ≤ 0 := not_le.mpr count
  rw [updateDescendantState, if_neg noSize, if_neg noCount]
  exact ⟨_, rfl, rfl, rfl, rfl⟩

theorem updateAncestorState_ok {entry : CTxMemPoolEntry} {modify : Totals × Int}
    (count : 0 < (entry.ancestorTotals + modify).1.1) (size : 0 < (entry.ancestorTotals + modify).1.2.1)
    (low : -2 ^ 31 ≤ modify.2) (high : modify.2 < 2 ^ 31) (sigOps : 0 ≤ (entry.ancestorTotals + modify).2)
    (bounded : (entry.ancestorTotals + modify).2 < 2 ^ 31) :
    ∃ updated, entry.updateAncestorState modify.1.2.1 modify.1.2.2 modify.1.1 modify.2 = .ok updated ∧
      updated.core = entry.core ∧ updated.ancestorTotals = entry.ancestorTotals + modify ∧
      updated.descendantTotals = entry.descendantTotals := by
  have noSize : ¬ entry.nSizeWithAncestors + modify.1.2.1 ≤ 0 := not_le.mpr size
  have noCount : ¬ entry.nCountWithAncestors + modify.1.1 ≤ 0 := not_le.mpr count
  have narrow := toInt32_of_bounds low high
  have noSigOps : ¬ toInt32 (entry.nSigOpCostWithAncestors + modify.2) < 0 := by
    change ¬ toInt32 (entry.ancestorTotals + modify).2 < 0
    rw [toInt32_of_bounds (le_trans (by norm_num) sigOps) bounded]
    exact not_lt.mpr sigOps
  rw [updateAncestorState, if_neg noSize, if_neg noCount, narrow, if_neg noSigOps]
  exact ⟨_, rfl, rfl, rfl, rfl⟩

end CTxMemPoolEntry

open CTxMemPoolEntry

namespace CTxMemPool

variable {pool : CTxMemPool}

theorem exists_iff {hash : Uint256} : pool.exists hash = true ↔ ∃ entry, pool.mapTx.lookup hash = some entry := by
  rw [CTxMemPool.exists, isSome_iff_exists]

theorem dereference_ok {it : Uint256} {entry : CTxMemPoolEntry} (found : pool.mapTx.lookup it = some entry) :
    pool.dereference it = .ok entry := by
  rw [dereference, found]

variable {modifier : CTxMemPoolEntry → Except MempoolError CTxMemPoolEntry}

theorem modify_ok {it : Uint256} {entry modified : CTxMemPoolEntry} (found : pool.mapTx.lookup it = some entry)
    (changes : modifier entry = .ok modified) :
    pool.modify it modifier = .ok { pool with mapTx := pool.mapTx.insert it modified } := by
  rw [modify, dereference_ok found]
  simp only [bind, Except.bind, changes]

/-- The transactions a transaction spends from. -/
def spentHashes (tx : CTransaction) : List Uint256 := tx.vin.map fun txin => txin.prevout.hash

/-- The child spends from the parent, both in the pool. -/
def Spends (pool : CTxMemPool) (child parent : Uint256) : Prop :=
  parent ∈ pool.mapTx ∧ ∃ entry, pool.mapTx.lookup child = some entry ∧ parent ∈ spentHashes entry.tx

/-- The transactions of the pool with their spend relation. -/
def family (pool : CTxMemPool) : Family Uint256 where
  carrier := pool.mapTx.keys.toFinset
  parent := pool.Spends
  inside := by
    intro child parent spends
    obtain ⟨member, entry, found, -⟩ := spends
    simp only [List.mem_toFinset, ← AList.mem_keys]
    exact ⟨mem_iff_lookup.mpr ⟨entry, found⟩, member⟩

@[simp] theorem mem_family {hash : Uint256} :
    hash ∈ pool.family.carrier ↔ ∃ entry, pool.mapTx.lookup hash = some entry := by
  rw [← mem_iff_lookup, family, List.mem_toFinset, AList.mem_keys]

/-- What the transaction of a hash contributes to totals. -/
def weight (env : PoolEnv) (pool : CTxMemPool) (hash : Uint256) : Totals × Int :=
  ((pool.mapTx.lookup hash).map (own env)).getD 0

theorem weight_of_lookup {env : PoolEnv} {hash : Uint256} {entry : CTxMemPoolEntry}
    (found : pool.mapTx.lookup hash = some entry) : pool.weight env hash = entry.own env := by
  rw [weight, found]
  rfl

/-- Two pools hold the same transactions. -/
def SameTx (first second : CTxMemPool) : Prop :=
  ∀ hash, (first.mapTx.lookup hash).map CTxMemPoolEntry.tx = (second.mapTx.lookup hash).map CTxMemPoolEntry.tx

namespace SameTx

variable {first second third : CTxMemPool}

theorem refl (pool : CTxMemPool) : SameTx pool pool := fun _ => rfl

theorem symm (same : SameTx first second) : SameTx second first := fun hash => (same hash).symm

theorem trans (left : SameTx first second) (right : SameTx second third) : SameTx first third :=
  fun hash => (left hash).trans (right hash)

variable (same : SameTx first second)
include same

theorem lookup {hash : Uint256} {entry : CTxMemPoolEntry} (found : first.mapTx.lookup hash = some entry) :
    ∃ other, second.mapTx.lookup hash = some other ∧ other.tx = entry.tx := by
  have transactions := same hash
  rw [found, map_some, eq_comm, map_eq_some_iff] at transactions
  exact transactions

theorem mem_iff {hash : Uint256} : hash ∈ first.mapTx ↔ hash ∈ second.mapTx := by
  rw [mem_iff_lookup, mem_iff_lookup]
  constructor
  · intro present
    obtain ⟨entry, found⟩ := present
    obtain ⟨other, found', -⟩ := same.lookup found
    exact ⟨other, found'⟩
  · intro present
    obtain ⟨entry, found⟩ := present
    obtain ⟨other, found', -⟩ := same.symm.lookup found
    exact ⟨other, found'⟩

theorem spends {child parent : Uint256} (spends : first.Spends child parent) : second.Spends child parent := by
  obtain ⟨member, entry, found, input⟩ := spends
  obtain ⟨other, found', sameTx⟩ := same.lookup found
  refine ⟨same.mem_iff.mp member, other, found', ?_⟩
  rw [sameTx]
  exact input

theorem family : second.family = first.family := by
  ext child parent
  · rw [mem_family, mem_family, ← mem_iff_lookup, ← mem_iff_lookup, same.mem_iff]
  · exact ⟨fun spends => same.symm.spends spends, fun spends => same.spends spends⟩

end SameTx

/-- Two pools hold the same entries apart from totals. -/
def SameCores (first second : CTxMemPool) : Prop :=
  ∀ hash, (first.mapTx.lookup hash).map core = (second.mapTx.lookup hash).map core

namespace SameCores

variable {first second third : CTxMemPool}

theorem refl (pool : CTxMemPool) : SameCores pool pool := fun _ => rfl

theorem symm (same : SameCores first second) : SameCores second first := fun hash => (same hash).symm

theorem trans (left : SameCores first second) (right : SameCores second third) : SameCores first third :=
  fun hash => (left hash).trans (right hash)

variable (same : SameCores first second)
include same

theorem sameTx : SameTx first second := by
  intro hash
  have cores := congrArg (Option.map CTxMemPoolEntry.tx) (same hash)
  rw [Option.map_map, Option.map_map] at cores
  exact cores

theorem lookup {hash : Uint256} {entry : CTxMemPoolEntry} (found : first.mapTx.lookup hash = some entry) :
    ∃ other, second.mapTx.lookup hash = some other ∧ other.core = entry.core := by
  have cores := same hash
  rw [found, map_some, eq_comm, map_eq_some_iff] at cores
  exact cores

theorem mem_iff {hash : Uint256} : hash ∈ first.mapTx ↔ hash ∈ second.mapTx :=
  same.sameTx.mem_iff

theorem family : second.family = first.family := same.sameTx.family

theorem weight (env : PoolEnv) : second.weight env = first.weight env := by
  funext hash
  have cores := congrArg (Option.map (own env)) (same hash)
  simp only [Option.map_map] at cores
  have through : own env ∘ core = own env := rfl
  rw [through] at cores
  rw [CTxMemPool.weight, CTxMemPool.weight, cores]

end SameCores

/-- The totals of every entry. -/
def TotalsAre (pool : CTxMemPool) (ancestors : Uint256 → Totals × Int) (descendants : Uint256 → Totals) : Prop :=
  ∀ hash entry, pool.mapTx.lookup hash = some entry →
    entry.ancestorTotals = ancestors hash ∧ entry.descendantTotals = descendants hash

/-- An entry changes by these totals and in nothing else. -/
structure Shifts (addAncestors : Totals × Int) (addDescendants : Totals) (entry updated : CTxMemPoolEntry) : Prop where
  core : updated.core = entry.core
  ancestors : updated.ancestorTotals = entry.ancestorTotals + addAncestors
  descendants : updated.descendantTotals = entry.descendantTotals + addDescendants

/-- A loop that modifies each entry of a list once. -/
theorem modifyAll_ok {addAncestors : Totals × Int} {addDescendants : Totals} {list : List Uint256}
    (nodup : list.Nodup)
    (each : ∀ it ∈ list, ∃ entry updated, pool.mapTx.lookup it = some entry ∧ modifier entry = .ok updated ∧
      Shifts addAncestors addDescendants entry updated) :
    ∃ mapTx, list.foldlM (fun pool it => pool.modify it modifier) pool = .ok { pool with mapTx } ∧
      (∀ hash ∉ list, mapTx.lookup hash = pool.mapTx.lookup hash) ∧
      ∀ hash ∈ list, ∃ entry updated, pool.mapTx.lookup hash = some entry ∧ mapTx.lookup hash = some updated ∧
        Shifts addAncestors addDescendants entry updated := by
  induction list generalizing pool with
  | nil => exact ⟨pool.mapTx, rfl, fun _ _ => rfl, forall_mem_nil _⟩
  | cons it rest ih =>
    obtain ⟨fresh, nodup⟩ := nodup_cons.mp nodup
    obtain ⟨entry, updated, found, changes, shifts⟩ := each it mem_cons_self
    have unchanged : ∀ hash ≠ it, (pool.mapTx.insert it updated).lookup hash = pool.mapTx.lookup hash :=
      fun hash apart => lookup_insert_ne apart
    obtain ⟨mapTx, folded, outside, inside⟩ :=
      @ih { pool with mapTx := pool.mapTx.insert it updated } nodup (by
        intro other member
        obtain ⟨entry, updated', found, changes⟩ := each other (mem_cons_of_mem _ member)
        exact ⟨entry, updated', (unchanged other fun same => fresh (same ▸ member)).trans found, changes⟩)
    refine ⟨mapTx, ?_, ?_, ?_⟩
    · rw [foldlM_cons, modify_ok found changes]
      exact folded
    · intro hash absent
      rw [mem_cons, not_or] at absent
      rw [outside hash absent.2, unchanged hash absent.1]
    · intro hash member
      rcases mem_cons.mp member with rfl | later
      · refine ⟨entry, updated, found, ?_, shifts⟩
        rw [outside hash fresh]
        exact lookup_insert _
      · obtain ⟨entry', updated', found', result⟩ := inside hash later
        exact ⟨entry', updated', (unchanged hash fun same => fresh (same ▸ later)) ▸ found', result⟩

/-- The totals after some entries have changed. -/
noncomputable def shifted {Total : Type} [Add Total] (totals : Uint256 → Total) (list : List Uint256) (add : Total)
    (hash : Uint256) : Total :=
  @ite Total (hash ∈ list) (Classical.propDecidable _) (totals hash + add) (totals hash)

theorem shifted_zero {Total : Type} [AddMonoid Total] (totals : Uint256 → Total) (list : List Uint256) :
    shifted totals list 0 = totals := by
  funext hash
  rw [shifted, add_zero, ite_self]

section Loops

variable {pool : CTxMemPool} {ancestors : Uint256 → Totals × Int} {descendants : Uint256 → Totals}
  (totals : pool.TotalsAre ancestors descendants) {list : List Uint256} (nodup : list.Nodup)
  (present : ∀ it ∈ list, ∃ entry, pool.mapTx.lookup it = some entry)
include totals nodup present

theorem modifyTotals_ok {modifier : CTxMemPoolEntry → Except MempoolError CTxMemPoolEntry}
    {addAncestors : Totals × Int} {addDescendants : Totals}
    (each : ∀ it ∈ list, ∀ entry : CTxMemPoolEntry, entry.ancestorTotals = ancestors it →
      entry.descendantTotals = descendants it →
      ∃ updated, modifier entry = .ok updated ∧ Shifts addAncestors addDescendants entry updated) :
    ∃ mapTx, list.foldlM (fun pool it => pool.modify it modifier) pool = .ok { pool with mapTx } ∧
      SameCores pool { pool with mapTx } ∧
      TotalsAre { pool with mapTx } (shifted ancestors list addAncestors) (shifted descendants list addDescendants) := by
  have steps : ∀ it ∈ list, ∃ entry updated, pool.mapTx.lookup it = some entry ∧ modifier entry = .ok updated ∧
      Shifts addAncestors addDescendants entry updated := by
    intro it member
    obtain ⟨entry, found⟩ := present it member
    have current := totals it entry found
    obtain ⟨updated, changes, shifts⟩ := each it member entry current.1 current.2
    exact ⟨entry, updated, found, changes, shifts⟩
  obtain ⟨mapTx, folded, outside, inside⟩ := modifyAll_ok nodup steps
  refine ⟨mapTx, folded, ?_, ?_⟩
  · intro hash
    by_cases member : hash ∈ list
    · obtain ⟨entry, updated, found, found', shifts⟩ := inside hash member
      rw [found, found', map_some, map_some, shifts.core]
    · rw [outside hash member]
  · intro hash entry found
    rw [shifted, shifted]
    by_cases member : hash ∈ list
    · obtain ⟨old, updated, foundOld, foundNew, shifts⟩ := inside hash member
      have same : entry = updated := Option.some.inj (found.symm.trans foundNew)
      have before := totals hash old foundOld
      rw [if_pos member, if_pos member, same, shifts.ancestors, shifts.descendants, before.1, before.2]
      exact ⟨rfl, rfl⟩
    · rw [if_neg member, if_neg member]
      exact totals hash entry ((outside hash member).symm.trans found)

/-- A loop that changes the descendant totals of entries. -/
theorem modifyDescendants_ok {modify : Totals} (count : ∀ it ∈ list, 0 < (descendants it + modify).1)
    (size : ∀ it ∈ list, 0 < (descendants it + modify).2.1) :
    ∃ mapTx, list.foldlM (fun pool it => pool.modify it (updateDescendantState modify.2.1 modify.2.2 modify.1)) pool =
        .ok { pool with mapTx } ∧ SameCores pool { pool with mapTx } ∧
      TotalsAre { pool with mapTx } ancestors (shifted descendants list modify) := by
  have each : ∀ it ∈ list, ∀ entry : CTxMemPoolEntry, entry.ancestorTotals = ancestors it →
      entry.descendantTotals = descendants it →
      ∃ updated, entry.updateDescendantState modify.2.1 modify.2.2 modify.1 = .ok updated ∧
        Shifts 0 modify entry updated := by
    intro it member entry _ isDescendants
    obtain ⟨updated, changes, core, sameAncestors, added⟩ := @updateDescendantState_ok entry modify
      (isDescendants ▸ count it member) (isDescendants ▸ size it member)
    exact ⟨updated, changes, core, sameAncestors.trans (add_zero _).symm, added⟩
  obtain ⟨mapTx, folded, cores, after⟩ := modifyTotals_ok totals nodup present each
  rw [shifted_zero] at after
  exact ⟨mapTx, folded, cores, after⟩

/-- A loop that changes the ancestor totals of entries. -/
theorem modifyAncestors_ok {modify : Totals × Int} (count : ∀ it ∈ list, 0 < (ancestors it + modify).1.1)
    (size : ∀ it ∈ list, 0 < (ancestors it + modify).1.2.1) (low : -2 ^ 31 ≤ modify.2)
    (high : modify.2 < 2 ^ 31) (sigOps : ∀ it ∈ list, 0 ≤ (ancestors it + modify).2)
    (bounded : ∀ it ∈ list, (ancestors it + modify).2 < 2 ^ 31) : ∃ mapTx, list.foldlM (fun pool it =>
          pool.modify it (updateAncestorState modify.1.2.1 modify.1.2.2 modify.1.1 modify.2)) pool =
        .ok { pool with mapTx } ∧ SameCores pool { pool with mapTx } ∧
      TotalsAre { pool with mapTx } (shifted ancestors list modify) descendants := by
  have each : ∀ it ∈ list, ∀ entry : CTxMemPoolEntry, entry.ancestorTotals = ancestors it →
      entry.descendantTotals = descendants it →
      ∃ updated, entry.updateAncestorState modify.1.2.1 modify.1.2.2 modify.1.1 modify.2 = .ok updated ∧
        Shifts modify 0 entry updated := by
    intro it member entry isAncestors _
    obtain ⟨updated, changes, core, added, sameDescendants⟩ := @updateAncestorState_ok entry modify
      (isAncestors ▸ count it member) (isAncestors ▸ size it member) low high (isAncestors ▸ sigOps it member)
      (isAncestors ▸ bounded it member)
    exact ⟨updated, changes, core, added, sameDescendants.trans (add_zero _).symm⟩
  obtain ⟨mapTx, folded, cores, after⟩ := modifyTotals_ok totals nodup present each
  rw [shifted_zero] at after
  exact ⟨mapTx, folded, cores, after⟩

end Loops

end CTxMemPool

end Straks.Mempool
