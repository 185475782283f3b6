import Straks.Proof.ElectionCollateral
import Straks.Proof.RankScan

namespace Straks.Election

open Ranking List CMasternode

/-- With distinct outpoints an input has its position's rank, counted from one. -/
theorem rankOf_getElem {order : List CTxIn} (distinct : (order.map (·.prevout)).Nodup) {position : Nat} {vin : CTxIn}
    (listed : order[position]? = some vin) (rank : Int) : rankOf vin rank order = rank + position + 1 := by
  induction order generalizing rank position with
  | nil => simp at listed
  | cons first rest ih =>
    rw [map_cons, nodup_cons] at distinct
    cases position with
    | zero =>
      obtain rfl : first = vin := by simpa using listed
      simp [rankOf, sameTxIn]
    | succ position =>
      have other : sameTxIn first vin = false := by
        have apart : first.prevout ≠ vin.prevout := fun same =>
          distinct.1 (same ▸ mem_map_of_mem (mem_of_getElem? listed))
        simp [sameTxIn, apart]
      rw [rankOf, other, if_neg Bool.false_ne_true, ih distinct.2 listed]
      omega

theorem inputAtRank_eq (nRank rank : Int) (order : List CTxIn) :
    inputAtRank nRank rank order = if rank < nRank then order[(nRank - rank - 1).toNat]? else none := by
  induction order generalizing rank with
  | nil => simp [inputAtRank]
  | cons first rest ih =>
    rw [inputAtRank, ih]
    split_ifs with here <;> try omega
    · rw [show (nRank - rank - 1).toNat = 0 by omega, getElem?_cons_zero]
    · rw [show (nRank - rank - 1).toNat = (nRank - (rank + 1) - 1).toNat + 1 by omega, getElem?_cons_succ]
    · rfl

/-- `Find` returns the entry with the input, wherever outpoints are distinct. -/
theorem find_vin {man : MasternodeMan} (distinct : (man.vMasternodes.map (·.vin.prevout)).Nodup) {vin : CTxIn}
    (listed : vin ∈ man.vMasternodes.map CMasternode.vin) : (man.find vin).map CMasternode.vin = some vin := by
  obtain ⟨mn, member, rfl⟩ := mem_map.mp listed
  have some : (man.find mn.vin).isSome := find?_isSome.mpr ⟨mn, member, by simp [CMasternode.isAt]⟩
  obtain ⟨found, result⟩ := Option.isSome_iff_exists.mp some
  have same := inj_on_of_nodup_map distinct (mem_of_find?_eq_some result) member
    (by simpa [CMasternode.isAt] using find?_some result)
  rw [result, same, Option.map_some]

variable (ranker : Ranker)

theorem visited_vin (protocol : Int) (fOnlyActive : Bool) (entries : List CMasternode) :
    (ranker.visited protocol fOnlyActive entries).map vin = entries.map vin := by
  rw [Ranker.visited, map_map]
  refine map_congr_left fun mn _ => ?_
  simp only [Function.comp_apply, Ranker.visit]
  split_ifs <;> rfl

/-- The masternode at a rank has the input at that place of the order. -/
theorem getMasternodeByRank_vin (sorter : Sorter Nat CTxIn) {man : MasternodeMan} (nRank asked protocol : Int)
    (fOnlyActive : Bool) (cache : BlockHashes) (distinct : (man.vMasternodes.map (·.vin.prevout)).Nodup) :
    (getMasternodeByRank ranker sorter man nRank asked protocol fOnlyActive cache).1.1.map CMasternode.vin =
      inputAtRank nRank 0 (sorter.order (ranker.word (getBlockHash ranker.chainActive asked cache).1)
        ((ranker.eligible protocol fOnlyActive man.vMasternodes).map CMasternode.vin)) := by
  have scanned := scan_eq ranker asked protocol fOnlyActive man.vMasternodes
    (rfl : (getBlockHash ranker.chainActive asked cache).1 = _)
  simp only [getMasternodeByRank, bind, StateT.bind]
  rcases result : ranker.scan asked protocol fOnlyActive man.vMasternodes cache with ⟨⟨entries, scores⟩, later⟩
  rw [result] at scanned
  obtain ⟨rfl, rfl⟩ := Prod.mk.inj scanned
  change Option.map _ (Option.bind (inputAtRank nRank 0 (sorter.order _ _)) _) = _
  cases chosen : inputAtRank nRank 0 (sorter.order _ _) with
  | none => rfl
  | some vin =>
    have vins := visited_vin ranker protocol fOnlyActive man.vMasternodes
    apply find_vin
    · have outpoints := congrArg (map CTxIn.prevout) vins
      rw [map_map, map_map] at outpoints
      exact outpoints ▸ distinct
    · rw [inputAtRank_eq, Option.ite_none_right_eq_some] at chosen
      obtain ⟨mn, member, rfl⟩ := mem_map.mp ((sorter.order_perm _ _).mem_iff.mp (mem_of_getElem? chosen.2))
      exact vins ▸ mem_map_of_mem (mem_filter.mp member).1

/-- With distinct outpoints and a known block the eligible masternodes have the ranks from one to their number, each
once, and `getMasternodeByRank` finds at each rank the masternode that has it. -/
theorem getMasternodeRank_inverse (sorter : Sorter Nat CTxIn) (man : MasternodeMan) (nBlockHeight minProtocol : Int)
    (fOnlyActive : Bool) (cache : BlockHashes) (distinct : (man.vMasternodes.map (·.vin.prevout)).Nodup)
    (known : (getBlockHash ranker.chainActive nBlockHeight cache).1.isSome) :
    let eligible := (ranker.eligible minProtocol fOnlyActive man.vMasternodes).map vin
    let rank vin := (getMasternodeRank ranker sorter man vin nBlockHeight minProtocol fOnlyActive cache).1.1
    let byRank nRank :=
      (getMasternodeByRank ranker sorter man nRank nBlockHeight minProtocol fOnlyActive cache).1.1.map vin
    (eligible.map rank).Perm ((range eligible.length).map fun position : Nat => (position : Int) + 1) ∧
      ∀ nRank vin, byRank nRank = some vin ↔ vin ∈ eligible ∧ rank vin = nRank := by
  simp only [getMasternodeRank_eq, Ranker.rankGiven, if_pos known, getMasternodeByRank_vin _ _ _ _ _ _ _ distinct]
  generalize vins : (ranker.eligible minProtocol fOnlyActive man.vMasternodes).map vin = eligible
  have sorted := sorter.order_perm (ranker.word (getBlockHash ranker.chainActive nBlockHeight cache).1) eligible
  generalize sorter.order (ranker.word (getBlockHash ranker.chainActive nBlockHeight cache).1) eligible = order at sorted ⊢
  have whole : (order.map (·.prevout)).Nodup := by
    rw [(sorted.map _).nodup_iff, ← vins, map_map]
    exact distinct.sublist (filter_sublist.map _)
  constructor
  · refine (sorted.symm.map _).trans (.of_eq (ext_getElem (by simp [sorted.length_eq]) fun position _ _ => ?_))
    rw [getElem_map, getElem_map, getElem_range, rankOf_getElem whole (getElem?_eq_getElem _), zero_add]
  · intro nRank vin
    rw [inputAtRank_eq, Option.ite_none_right_eq_some, ← sorted.mem_iff]
    constructor
    · rintro ⟨positive, chosen⟩
      exact ⟨mem_of_getElem? chosen, (rankOf_getElem whole chosen 0).trans (by omega)⟩
    · rintro ⟨listed, rfl⟩
      obtain ⟨position, chosen⟩ := getElem?_of_mem listed
      rw [rankOf_getElem whole chosen]
      refine ⟨by omega, Eq.trans ?_ chosen⟩
      congr 1
      omega

/-- A merge sort puts the highest scores first. -/
def mergeSorter : Sorter Nat CTxIn where
  sort table := table.mergeSort (decide <| ·.1 ≥ ·.1)
  perm table := mergeSort_perm table _
  descending table := by
    simpa using @pairwise_mergeSort _ (decide <| ·.1 ≥ ·.1) (by grind) (by grind) table

def twoMasternodes : MasternodeMan := ⟨[0, 1].map fun n => (announcement n 1000 900 []).masternode, ∅, ∅⟩

theorem getMasternodeRank_inverse_two :
    (twoMasternodes.vMasternodes.map fun mn => (getMasternodeRank ⟨regtestEnv, ⟨id, BitVec.xor⟩, [3, 2, 1], .of 0 []⟩
      mergeSorter twoMasternodes mn.vin 2 0 false ∅).1.1).Perm [1, 2] :=
  (getMasternodeRank_inverse _ mergeSorter twoMasternodes 2 0 false ∅ (by decide) rfl).1

end Straks.Election
