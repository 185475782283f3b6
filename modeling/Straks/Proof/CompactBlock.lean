import Straks.Proof.BodyCommitment
import Straks.Proof.PartialBlock
import Mathlib.Algebra.Order.BigOperators.Group.List

namespace Straks.Net

open Chain Success List PartiallyDownloadedBlock

/-- What a compact block gives for a position of its block. -/
inductive Slot where
  | prefilled (tx : CTransaction)
  | announced (shortid : UInt64)

/-- The transaction there before the pools are searched. -/
def Slot.available : Slot → Option CTransaction
  | .prefilled tx => some tx
  | .announced _ => none

/-- The index of a prefilled transaction counts the short ids since its predecessor. -/
def layout : List PrefilledTransaction → List UInt64 → List Slot
  | [], shortids => shortids.map .announced
  | next :: rest, shortids =>
    (shortids.take next.index.toNat).map .announced ++
      .prefilled next.tx :: layout rest (shortids.drop next.index.toNat)

def CBlockHeaderAndShortTxIDs.slots (cmpctblock : CBlockHeaderAndShortTxIDs) : List Slot :=
  layout cmpctblock.prefilledtxn cmpctblock.shorttxids

theorem available_announced (shortids : List UInt64) :
    (shortids.map Slot.announced).map Slot.available = replicate shortids.length none := by
  rw [eq_replicate_iff]
  simp [Slot.available]

/-- The prefilled transactions have 16-bit positions with enough short ids before them. -/
def PrefilledFits : Nat → Nat → List PrefilledTransaction → Prop
  | _, _, [] => True
  | position, remaining, next :: rest =>
    next.tx.isNull = false ∧ position + next.index.toNat ≤ 65535 ∧ next.index.toNat ≤ remaining ∧
      PrefilledFits (position + next.index.toNat + 1) (remaining - next.index.toNat) rest

/-- A write behind the settled positions leaves free ones. -/
theorem set_behind {done : List (Option CTransaction)} {free before : Nat} (inside : before < free)
    (tx : CTransaction) : (done ++ replicate free none).set (done.length + before) (some tx) =
      (done ++ (replicate before none ++ [some tx])) ++ replicate (free - before - 1) none := by
  obtain ⟨behind, rfl⟩ : ∃ behind, free = before + (behind + 1) := ⟨free - before - 1, by omega⟩
  simp [replicate_add, replicate_succ]

/-- The loop succeeds exactly when the prefilled transactions fit, and places them. -/
theorem placePrefilled_eq {shortCount i remaining : Nat} {prefilledtxn : List PrefilledTransaction}
    {done : List (Option CTransaction)} {shortids : List UInt64} (length : shortids.length = remaining)
    (before : shortCount + i = done.length + remaining) : (PrefilledFits done.length remaining prefilledtxn →
      placePrefilled shortCount i (done.length - 1 : Int) prefilledtxn
          (done ++ replicate (remaining + prefilledtxn.length) none) =
        .ok (true, done ++ (layout prefilledtxn shortids).map Slot.available)) ∧
    (¬ PrefilledFits done.length remaining prefilledtxn →
      ∃ txnAvailable, placePrefilled shortCount i (done.length - 1 : Int) prefilledtxn
          (done ++ replicate (remaining + prefilledtxn.length) none) = .ok (false, txnAvailable)) := by
  induction prefilledtxn generalizing i remaining done shortids with
  | nil =>
    constructor
    · intro _
      subst length
      rw [layout, available_announced]
      rfl
    · intro unfit
      exact absurd trivial unfit
  | cons next rest ih =>
    have position : (done.length - 1 : Int) + next.index.toNat + 1 = (done.length + next.index.toNat : Nat) := by
      omega
    rw [placePrefilled, position]
    by_cases null : next.tx.isNull = true
    · rw [if_pos null]
      exact ⟨fun fits => absurd fits.1 (by simp [null]), fun _ => ⟨_, rfl⟩⟩
    rw [if_neg null]
    by_cases large : ((done.length + next.index.toNat : Nat) : Int) > 65535
    · rw [if_pos large]
      exact ⟨fun fits => absurd fits.2.1 (by omega), fun _ => ⟨_, rfl⟩⟩
    rw [if_neg large]
    by_cases far : ((done.length + next.index.toNat : Nat) : Int) > shortCount + i
    · rw [if_pos far]
      exact ⟨fun fits => absurd fits.2.2.1 (by omega), fun _ => ⟨_, rfl⟩⟩
    rw [if_neg far]
    have enough : next.index.toNat ≤ remaining := by omega
    have inside : next.index.toNat < remaining + (next :: rest).length := by
      rw [length_cons]
      omega
    have written : writeAt (done ++ replicate (remaining + (next :: rest).length) none)
        ((done.length + next.index.toNat : Nat) : Int).toNat (some next.tx) =
          .ok ((done ++ (replicate next.index.toNat none ++ [some next.tx])) ++
            replicate (remaining - next.index.toNat + rest.length) none) := by
      rw [writeAt, Int.toNat_natCast, if_pos (by rw [length_append, length_replicate]; omega),
        set_behind inside, length_cons]
      congr 4
      omega
    have extended : (done ++ (replicate next.index.toNat none ++ [some next.tx])).length =
        done.length + next.index.toNat + 1 := by
      simp [Nat.add_assoc]
    have step := @ih (i + 1) (remaining - next.index.toNat)
      (done ++ (replicate next.index.toNat none ++ [some next.tx])) (shortids.drop next.index.toNat)
      (by rw [length_drop, length]) (by rw [extended]; omega)
    rw [extended, show ((done.length + next.index.toNat + 1 : Nat) : Int) - 1 =
      (done.length + next.index.toNat : Nat) by omega] at step
    rw [written]
    have slots : done ++ (layout (next :: rest) shortids).map Slot.available =
        (done ++ (replicate next.index.toNat none ++ [some next.tx])) ++
          (layout rest (shortids.drop next.index.toNat)).map Slot.available := by
      have free : ((shortids.take next.index.toNat).map Slot.announced).map Slot.available =
          replicate next.index.toNat none := by
        rw [available_announced, length_take, length, Nat.min_eq_left enough]
      rw [layout, map_append, free]
      simp [Slot.available]
    rw [slots]
    constructor
    · intro fits
      exact step.1 fits.2.2.2
    · intro unfit
      exact step.2 fun fits => unfit ⟨by simpa using null, by omega, enough, fits⟩

namespace CBlockHeaderAndShortTxIDs

/-- `InitData` passes its tests up to the short id loop. -/
structure Placeable (cmpctblock : CBlockHeaderAndShortTxIDs) : Prop where
  header : cmpctblock.header.isNull = false
  nonempty : cmpctblock.blockTxCount ≠ 0
  count : cmpctblock.blockTxCount ≤ maxBlockVtx
  prefilled : PrefilledFits 0 cmpctblock.shorttxids.length cmpctblock.prefilledtxn

/-- The partial block with the prefilled transactions. -/
def placed (cmpctblock : CBlockHeaderAndShortTxIDs) : PartiallyDownloadedBlock :=
  ⟨cmpctblock.header, cmpctblock.slots.map Slot.available, cmpctblock.prefilledtxn.length, 0, 0⟩

variable {sources : TxSources} {cmpctblock : CBlockHeaderAndShortTxIDs}

theorem initData_placeable (placeable : cmpctblock.Placeable) :
    new.initData sources cmpctblock = cmpctblock.placed.matchShortIds sources cmpctblock := by
  have nonempty := placeable.nonempty
  rw [blockTxCount] at nonempty
  have some : ¬ (cmpctblock.header.isNull ∨
      (cmpctblock.shorttxids.isEmpty ∧ cmpctblock.prefilledtxn.isEmpty : Prop)) := by
    rw [placeable.header]
    grind
  have loop := (@placePrefilled_eq cmpctblock.shorttxids.length 0 _ cmpctblock.prefilledtxn [] _ rfl
    (by simp)).1 placeable.prefilled
  rw [initData, if_neg some, if_neg (not_lt.mpr placeable.count)]
  change (placePrefilled cmpctblock.shorttxids.length 0 (-1) cmpctblock.prefilledtxn _ >>= _) = _
  rw [show placePrefilled cmpctblock.shorttxids.length 0 (-1) cmpctblock.prefilledtxn
    (replicate cmpctblock.blockTxCount none) = _ from loop]
  rfl

/-- A message that fails one of these tests is invalid. -/
theorem initData_unplaceable (sources : TxSources) (not : ¬ cmpctblock.Placeable) :
    ∃ partialBlock, new.initData sources cmpctblock = .ok (.invalid, partialBlock) := by
  rw [initData]
  by_cases empty : cmpctblock.header.isNull ∨
      (cmpctblock.shorttxids.isEmpty ∧ cmpctblock.prefilledtxn.isEmpty : Prop)
  · exact ⟨_, if_pos empty⟩
  rw [if_neg empty]
  by_cases large : cmpctblock.blockTxCount > maxBlockVtx
  · exact ⟨_, if_pos large⟩
  rw [if_neg large]
  have unfit : ¬ PrefilledFits 0 cmpctblock.shorttxids.length cmpctblock.prefilledtxn := by
    intro fits
    apply not
    refine ⟨by simpa using fun null => empty (.inl null), ?_, not_lt.mp large, fits⟩
    intro zero
    rw [blockTxCount] at zero
    simp_all
  obtain ⟨txnAvailable, loop⟩ := (@placePrefilled_eq cmpctblock.shorttxids.length 0 _ cmpctblock.prefilledtxn []
    _ rfl (by simp)).2 unfit
  change ∃ partialBlock, (placePrefilled cmpctblock.shorttxids.length 0 (-1) cmpctblock.prefilledtxn _ >>= _) = _
  rw [show placePrefilled cmpctblock.shorttxids.length 0 (-1) cmpctblock.prefilledtxn
    (replicate cmpctblock.blockTxCount none) = _ from loop]
  exact ⟨_, rfl⟩

/-- Every 16-bit position is prefilled, and a short id is left. -/
structure FillsEveryPosition (cmpctblock : CBlockHeaderAndShortTxIDs) : Prop where
  header : cmpctblock.header.isNull = false
  count : cmpctblock.blockTxCount ≤ maxBlockVtx
  full : cmpctblock.prefilledtxn.length = 65536
  indexes : ∀ prefilled ∈ cmpctblock.prefilledtxn, prefilled.index = 0 ∧ prefilled.tx.isNull = false
  shorttxids : cmpctblock.shorttxids ≠ []

variable {prefilledtxn : List PrefilledTransaction}

theorem prefilledFits_zero {position remaining : Nat}
    (indexes : ∀ prefilled ∈ prefilledtxn, prefilled.index = 0 ∧ prefilled.tx.isNull = false)
    (inside : position + prefilledtxn.length ≤ 65536) : PrefilledFits position remaining prefilledtxn := by
  induction prefilledtxn generalizing position with
  | nil => trivial
  | cons next rest ih =>
    rw [forall_mem_cons] at indexes
    rw [length_cons] at inside
    rw [PrefilledFits, indexes.1.1, UInt16.toNat_zero]
    exact ⟨indexes.1.2, by omega, Nat.zero_le _, ih indexes.2 (by omega)⟩

/-- Prefilled transactions that fit are not null and leave at most 16 bits of gaps. -/
theorem prefilledFits_total {position remaining : Nat} (fits : PrefilledFits position remaining prefilledtxn)
    (start : position ≤ 65536) :
    position + prefilledtxn.length + (prefilledtxn.map fun prefilled => prefilled.index.toNat).sum ≤ 65536 ∧
      ∀ prefilled ∈ prefilledtxn, prefilled.tx.isNull = false := by
  induction prefilledtxn generalizing position remaining with
  | nil => exact ⟨start, by simp⟩
  | cons next rest ih =>
    obtain ⟨total, valid⟩ := ih fits.2.2.2 (by have := fits.2.1; omega)
    rw [forall_mem_cons, length_cons, map_cons, sum_cons]
    exact ⟨by omega, fits.1, valid⟩

theorem fillsEveryPosition_iff : cmpctblock.FillsEveryPosition ↔
      cmpctblock.Placeable ∧ cmpctblock.prefilledtxn.length = 65536 ∧ cmpctblock.shorttxids ≠ [] := by
  constructor
  · intro fills
    have nonempty : cmpctblock.blockTxCount ≠ 0 := by
      rw [blockTxCount, fills.full]
      omega
    have fits : PrefilledFits 0 cmpctblock.shorttxids.length cmpctblock.prefilledtxn :=
      prefilledFits_zero fills.indexes (by rw [fills.full])
    exact ⟨⟨fills.header, nonempty, fills.count, fits⟩, fills.full, fills.shorttxids⟩
  · rintro ⟨placeable, full, shorttxids⟩
    obtain ⟨total, valid⟩ := prefilledFits_total placeable.prefilled (Nat.zero_le _)
    refine ⟨placeable.header, placeable.count, full, fun prefilled member => ⟨?_, valid prefilled member⟩, shorttxids⟩
    have least := le_sum_of_mem
      (mem_map_of_mem (f := fun prefilled : PrefilledTransaction => prefilled.index.toNat) member)
    rw [← UInt16.toNat_inj, UInt16.toNat_zero]
    omega

theorem layout_zero {shortids : List UInt64} (indexes : ∀ prefilled ∈ prefilledtxn, prefilled.index = 0) :
    layout prefilledtxn shortids =
      prefilledtxn.map (fun prefilled => .prefilled prefilled.tx) ++ shortids.map .announced := by
  induction prefilledtxn with
  | nil => rfl
  | cons next rest ih =>
    simp_all [layout]

/-- The offset runs through its values and meets a prefilled transaction at each. -/
theorem initData_diverges (fills : cmpctblock.FillsEveryPosition) :
    new.initData sources cmpctblock = .error .diverges := by
  have taken : ∀ position < 65536, ∃ tx, (cmpctblock.slots.map Slot.available)[0 + position]? = some (some tx) := by
    intro position below
    have within : position < cmpctblock.prefilledtxn.length := by
      rw [fills.full]
      exact below
    refine ⟨cmpctblock.prefilledtxn[position].tx, ?_⟩
    rw [slots, layout_zero fun prefilled member => (fills.indexes prefilled member).1, map_append,
      getElem?_append_left (by simpa using within)]
    simp [within, Slot.available]
  rw [initData_placeable (fillsEveryPosition_iff.mp fills).1, matchShortIds]
  cases shortids : cmpctblock.shorttxids with
  | nil => exact absurd shortids fills.shorttxids
  | cons shortid rest =>
    rw [assignPositions, placed, skipAvailable_diverges taken]
    rfl

/-- `InitData` returns for every message that leaves a 16-bit position free. -/
theorem initData_returns_iff (sources : TxSources) (cmpctblock : CBlockHeaderAndShortTxIDs) :
    (∃ result, new.initData sources cmpctblock = .ok result) ↔ ¬ cmpctblock.FillsEveryPosition := by
  constructor
  · grind [initData_diverges]
  · intro not
    by_cases placeable : cmpctblock.Placeable
    · have ended := @PartiallyDownloadedBlock.initData_ends sources cmpctblock
      cases returned : new.initData sources cmpctblock with
      | ok result => exact ⟨result, rfl⟩
      | error error =>
        rw [returned] at ended
        obtain ⟨_, full, shorttxids⟩ := ended
        exact absurd (fillsEveryPosition_iff.mpr ⟨placeable, full, shorttxids⟩) not
    · obtain ⟨partialBlock, returned⟩ := initData_unplaceable sources placeable
      exact ⟨_, returned⟩

/-- A message of 65536 prefilled transactions and a short id. -/
def crowded : CBlockHeaderAndShortTxIDs where
  header := ⟨0, 0, 0, 0, 1, 0⟩
  nonce := 0
  shorttxids := [5]
  prefilledtxn := replicate 65536 ⟨0, ⟨1, [⟨⟨7, 0⟩, [], 0, []⟩], [], 0⟩⟩

def noPools : TxSources where
  shortTxIDSelector := fun _ _ => (0, 0)
  sipHashUint256 := fun _ _ txhash => UInt64.ofNat txhash.toNat
  getWitnessHash := fun tx => BitVec.ofNat 256 tx.nLockTime.toNat
  bucketSize := fun _ _ => 1
  vTxHashes := []
  extraTxn := []

theorem crowded_length : crowded.prefilledtxn.length = 65536 := by
  rw [crowded, length_replicate]

theorem crowded_fills : crowded.FillsEveryPosition where
  header := rfl
  count := by
    rw [blockTxCount, crowded_length, crowded, length_singleton, maxBlockVtx]
    omega
  full := crowded_length
  indexes := by
    intro prefilled member
    rw [eq_of_mem_replicate member]
    exact ⟨rfl, rfl⟩
  shorttxids := cons_ne_nil _ _

theorem initData_crowded : new.initData noPools crowded = .error .diverges :=
  initData_diverges crowded_fills

end CBlockHeaderAndShortTxIDs

end Straks.Net
