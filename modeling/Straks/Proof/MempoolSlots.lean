import Straks.Proof.MempoolFamily

namespace Straks.Mempool
open Success CTxMemPoolEntry CTxMemPool List Function

/-- Entries and slots correspond by index. -/
structure SlotsOk (env : PoolEnv) (pool : CTxMemPool) : Prop where
  slot : ∀ hash entry, pool.mapTx.lookup hash = some entry →
    pool.vTxHashes[pool.vTxHashesIdx hash]? = some (env.hashes.getWitnessHash entry.tx, hash)
  entry : ∀ index slot, pool.vTxHashes[index]? = some slot →
    ∃ entry, pool.mapTx.lookup slot.2 = some entry ∧ pool.vTxHashesIdx slot.2 = index

namespace SlotsOk

variable {env : PoolEnv} {pool : CTxMemPool}

section

variable (slots : SlotsOk env pool)
include slots

/-- There is one slot for each entry. -/
theorem length : pool.vTxHashes.length = pool.family.carrier.card := by
  have nodup : (pool.vTxHashes.map Prod.snd).Nodup := by
    rw [nodup_iff_getElem?_ne_getElem?]
    intro first second before inside same
    rw [length_map] at inside
    obtain ⟨slotFirst, foundFirst⟩ : ∃ slot, pool.vTxHashes[first]? = some slot :=
      ⟨_, getElem?_eq_getElem (before.trans inside)⟩
    obtain ⟨slotSecond, foundSecond⟩ : ∃ slot, pool.vTxHashes[second]? = some slot := ⟨_, getElem?_eq_getElem inside⟩
    rw [getElem?_map, getElem?_map, foundFirst, foundSecond] at same
    have references : slotFirst.2 = slotSecond.2 := Option.some.inj same
    obtain ⟨-, -, indexFirst⟩ := slots.entry first slotFirst foundFirst
    obtain ⟨-, -, indexSecond⟩ := slots.entry second slotSecond foundSecond
    rw [references] at indexFirst
    omega
  have members : (pool.vTxHashes.map Prod.snd).toFinset = pool.family.carrier := by
    ext hash
    rw [List.mem_toFinset, mem_map, mem_family]
    constructor
    · intro listed
      obtain ⟨slot, member, rfl⟩ := listed
      obtain ⟨index, found⟩ := mem_iff_getElem?.mp member
      obtain ⟨entry, lookup, -⟩ := slots.entry index slot found
      exact ⟨entry, lookup⟩
    · intro present
      obtain ⟨entry, found⟩ := present
      exact ⟨_, mem_of_getElem? (slots.slot hash entry found), rfl⟩
  rw [← members, toFinset_card_of_nodup nodup, length_map]

theorem congr {other : CTxMemPool} (same : SameTx pool other) (hashes : other.vTxHashes = pool.vTxHashes)
    (indexes : other.vTxHashesIdx = pool.vTxHashesIdx) : SlotsOk env other where
  slot := by
    intro hash entry found
    obtain ⟨before, foundBefore, sameTx⟩ := same.symm.lookup found
    rw [hashes, indexes, slots.slot hash before foundBefore, sameTx]
  entry := by
    intro index slot found
    rw [hashes] at found
    obtain ⟨before, foundBefore, isIndex⟩ := slots.entry index slot found
    obtain ⟨after, foundAfter, -⟩ := same.lookup foundBefore
    exact ⟨after, foundAfter, by rw [indexes, isIndex]⟩

/-- An entry that is added gets the next slot. -/
theorem add {hash : Uint256} {added : CTxMemPoolEntry} {other : CTxMemPool} (fresh : pool.mapTx.lookup hash = none)
    (entries : ∀ key, (other.mapTx.lookup key).map CTxMemPoolEntry.tx =
      if key = hash then some added.tx else (pool.mapTx.lookup key).map CTxMemPoolEntry.tx)
    (hashes : other.vTxHashes = pool.vTxHashes ++ [(env.hashes.getWitnessHash added.tx, hash)])
    (indexes : other.vTxHashesIdx = Function.update pool.vTxHashesIdx hash pool.vTxHashes.length) :
    SlotsOk env other where
  slot := by
    intro key entry found
    have content := entries key
    rw [found, Option.map_some] at content
    by_cases same : key = hash
    · rw [if_pos same] at content
      rw [hashes, indexes, same, Option.some.inj content]
      simp
    · rw [if_neg same, eq_comm, Option.map_eq_some_iff] at content
      obtain ⟨before, foundBefore, sameTx⟩ := content
      have slot := slots.slot key before foundBefore
      have inside : pool.vTxHashesIdx key < pool.vTxHashes.length := by
        by_contra outside
        rw [getElem?_eq_none (not_lt.mp outside)] at slot
        cases slot
      rw [hashes, indexes, update_of_ne same, getElem?_append_left inside, slot, sameTx]
  entry := by
    intro index slot found
    rw [hashes] at found
    rw [indexes]
    by_cases inside : index < pool.vTxHashes.length
    · rw [getElem?_append_left inside] at found
      obtain ⟨before, foundBefore, isIndex⟩ := slots.entry index slot found
      have apart : slot.2 ≠ hash := by
        intro same
        rw [same, fresh] at foundBefore
        cases foundBefore
      have content := entries slot.2
      rw [if_neg apart, foundBefore, Option.map_some, Option.map_eq_some_iff] at content
      obtain ⟨after, foundAfter, -⟩ := content
      exact ⟨after, foundAfter, by rw [update_of_ne apart, isIndex]⟩
    · rw [getElem?_append_right (not_lt.mp inside)] at found
      have last : index - pool.vTxHashes.length = 0 := by
        by_contra beyond
        rw [getElem?_eq_none (by simp; omega)] at found
        cases found
      rw [last] at found
      cases found
      have content := entries hash
      rw [if_pos rfl, Option.map_eq_some_iff] at content
      obtain ⟨after, foundAfter, -⟩ := content
      exact ⟨after, foundAfter, by rw [update_self]; omega⟩

theorem index_lt {hash : Uint256} {entry : CTxMemPoolEntry} (found : pool.mapTx.lookup hash = some entry) :
    pool.vTxHashesIdx hash < pool.vTxHashes.length := by
  have slot := slots.slot hash entry found
  by_contra outside
  rw [getElem?_eq_none (not_lt.mp outside)] at slot
  cases slot

end

theorem getElem?_moved {Slot : Type} {list : List Slot} {target : Nat} {back : Slot} (inside : target < list.length)
    (index : Nat) : ((list.set target back).dropLast)[index]? =
      if index < list.length - 1 then if index = target then some back else list[index]? else none := by
  rw [getElem?_dropLast, length_set]
  split
  · by_cases same : target = index
    · rw [if_pos same.symm, getElem?_set, if_pos same, if_pos inside]
    · rw [if_neg (Ne.symm same), getElem?_set_ne same]
  · rfl

section Remove

variable {it : Uint256} {removed : CTxMemPoolEntry} {back : Uint256 × Uint256} (slots : SlotsOk env pool)
  (found : pool.mapTx.lookup it = some removed)
  (isBack : pool.vTxHashes[pool.vTxHashes.length - 1]? = some back)
include slots found isBack

/-- The last slot takes the place of a removed one. -/
theorem moved : SlotsOk env { pool with
    vTxHashes := (pool.vTxHashes.set (pool.vTxHashesIdx it) back).dropLast
    vTxHashesIdx := Function.update pool.vTxHashesIdx back.2 (pool.vTxHashesIdx it)
    mapTx := pool.mapTx.erase it } := by
  have inside := slots.index_lt found
  have ownSlot := slots.slot it removed found
  obtain ⟨last, foundLast, indexLast⟩ := slots.entry _ back isBack
  have slotLast := slots.slot back.2 last foundLast
  constructor
  · intro hash entry foundEntry
    rw [lookup_erase_eq] at foundEntry
    split_ifs at foundEntry with apart
    have slotEntry := slots.slot hash entry foundEntry
    have insideEntry := slots.index_lt foundEntry
    have elsewhere : pool.vTxHashesIdx hash ≠ pool.vTxHashesIdx it := by
      intro same
      rw [same, ownSlot] at slotEntry
      exact apart (Prod.mk.inj (Option.some.inj slotEntry)).2.symm
    dsimp only
    rw [getElem?_moved inside]
    by_cases isLast : hash = back.2
    · subst isLast
      have sameEntry : entry = last := Option.some.inj (foundEntry.symm.trans foundLast)
      rw [indexLast, isBack] at slotLast
      rw [update_self, if_pos (by omega), if_pos rfl, slotLast, sameEntry]
    · have notLast : pool.vTxHashesIdx hash ≠ pool.vTxHashes.length - 1 := by
        intro same
        rw [same, isBack] at slotEntry
        exact isLast (congrArg Prod.snd (Option.some.inj slotEntry)).symm
      rw [update_of_ne isLast, if_pos (by omega), if_neg elsewhere, slotEntry]
  · intro index slot foundSlot
    rw [getElem?_moved inside] at foundSlot
    split at foundSlot
    · rename_i below
      split at foundSlot
      · rename_i target
        cases foundSlot
        refine ⟨last, ?_, ?_⟩
        · rw [lookup_erase_eq, if_neg, foundLast]
          intro same
          rw [same] at indexLast
          omega
        · dsimp only
          rw [update_self, target]
      · rename_i target
        obtain ⟨entry, foundEntry, isIndex⟩ := slots.entry index slot foundSlot
        refine ⟨entry, ?_, ?_⟩
        · rw [lookup_erase_eq, if_neg, foundEntry]
          intro same
          rw [same] at isIndex
          exact target isIndex.symm
        · dsimp only
          rw [update_of_ne, isIndex]
          intro same
          rw [same] at isIndex
          omega
    · cases foundSlot

end Remove

/-- The slot of an entry that leaves is given up. -/
theorem removeSlot {it : Uint256} {removed : CTxMemPoolEntry} (slots : SlotsOk env pool)
    (found : pool.mapTx.lookup it = some removed) :
    ∃ vTxHashes vTxHashesIdx, Mempool.removeSlot pool it = .ok { pool with vTxHashes, vTxHashesIdx } ∧
      SlotsOk env { pool with vTxHashes, vTxHashesIdx, mapTx := pool.mapTx.erase it } := by
  have inside := slots.index_lt found
  have ownSlot := slots.slot it removed found
  by_cases several : 1 < pool.vTxHashes.length
  · obtain ⟨back, isBack⟩ : ∃ back, pool.vTxHashes[pool.vTxHashes.length - 1]? = some back :=
      ⟨_, getElem?_eq_getElem (by omega)⟩
    obtain ⟨last, foundLast, -⟩ := slots.entry _ back isBack
    have valid : ¬ ((decide (pool.vTxHashes.length ≤ pool.vTxHashesIdx it) || !pool.exists back.2) = true) := by
      simp [inside, CTxMemPool.exists_iff.mpr ⟨last, foundLast⟩]
    refine ⟨(pool.vTxHashes.set (pool.vTxHashesIdx it) back).dropLast,
      Function.update pool.vTxHashesIdx back.2 (pool.vTxHashesIdx it), ?_, slots.moved found isBack⟩
    rw [Mempool.removeSlot, if_pos several, getLast?_eq_getElem?, isBack]
    exact if_neg valid
  · refine ⟨[], pool.vTxHashesIdx, ?_, ?_, ?_⟩
    · rw [Mempool.removeSlot, if_neg several]
    · intro hash entry foundEntry
      rw [lookup_erase_eq] at foundEntry
      split_ifs at foundEntry with apart
      have slotEntry := slots.slot hash entry foundEntry
      have insideEntry := slots.index_lt foundEntry
      have same : pool.vTxHashesIdx hash = pool.vTxHashesIdx it := by omega
      rw [same, ownSlot] at slotEntry
      exact absurd (Prod.mk.inj (Option.some.inj slotEntry)).2.symm apart
    · intro index slot foundSlot
      cases foundSlot

end SlotsOk

end Straks.Mempool
