import Straks.Construction.Net.PartialBlock
import Straks.Proof.StreamFormat

namespace Straks.Net

open Serialize Success Wire List UInt16

theorem readIndex_encodes : Encodes readIndex (fun index => writeCompactSize index.toNat) fun _ => True where
  reads index _ := by
    have small : index.toNat ≤ 0xffff := Nat.le_of_lt_succ index.toNat_lt
    rw [← append_nil (writeCompactSize index.toNat)]
    apply (readCompactSize_encodes.reads index.toNat (small.trans (by decide))).bind
    rw [if_neg (not_lt.mpr small), UInt16.ofNat_toNat]
    exact Reads.pure index
  consumes := by
    apply readCompactSize_encodes.consumes.bind
    rintro _ index ⟨rfl, _⟩
    apply Consumes.branch
    · exact fun _ => Consumes.throw _ _
    · intro small
      apply Consumes.pure
      rw [append_nil, UInt16.toNat_ofNat', Nat.mod_eq_of_lt (by omega)]
      exact ⟨rfl, trivial⟩

/-- The bytes of a request with these differences. -/
def coded (blockhash : Uint256) (offsets : List UInt16) : List UInt8 :=
  littleEndian 32 blockhash.toNat ++ writeVector (fun index : UInt16 => writeCompactSize index.toNat) offsets

variable {indexes offsets : List UInt16}

/-- The differences are read before they are added up. -/
theorem unserializeRequest_coded (sized : offsets.length ≤ maxSize) (blockhash : Uint256) (rest : List UInt8) :
    unserializeRequest.run (coded blockhash offsets ++ rest) =
      (addOffsets 0 offsets).map fun indexes => (⟨blockhash, indexes⟩, rest) := by
  have hash := (readData_encodes 32).reads blockhash.toNat (by simpa using blockhash.isLt)
  have vector := (readVector_encodes readIndex_encodes).reads offsets ⟨sized, fun _ _ => trivial⟩
  rw [coded, append_assoc, unserializeRequest, hash.run_bind, vector.run_bind]
  cases addOffsets 0 offsets with
  | error error => rfl
  | ok indexes =>
    simp
    rfl

theorem unserializeRequest_consumes : Consumes unserializeRequest fun bytes request =>
      ∃ offsets, bytes = coded request.blockhash offsets ∧ offsets.length ≤ maxSize ∧
        addOffsets 0 offsets = .ok request.indexes := by
  apply (readData_encodes 32).consumes.bind
  rintro _ hash ⟨rfl, fits⟩
  apply (readVector_encodes readIndex_encodes).consumes.bind
  rintro _ offsets ⟨rfl, sized, _⟩
  apply Consumes.last
  apply Consumes.lift
  intro indexes added
  have value : (BitVec.ofNat 256 hash).toNat = hash := by
    exact Nat.mod_eq_of_lt fits
  refine ⟨offsets, ?_, sized, added⟩
  rw [coded, value, append_nil]

theorem addOffsets_cons {offset index : UInt16} {rest : List UInt16}
    (added : addOffsets offset (index :: rest) = .ok indexes) : index.toNat + offset.toNat ≤ 0xffff ∧
      ∃ further, indexes = (index + offset) :: further ∧ addOffsets (index + offset + 1) rest = .ok further := by
  rw [addOffsets] at added
  by_cases large : 0xffff < index.toNat + offset.toNat
  · rw [if_pos large] at added
    cases added
  · rw [if_neg large] at added
    obtain ⟨further, rest, result⟩ := bind_eq_ok.mp added
    cases result
    exact ⟨by omega, further, rfl, rest⟩

/-- The indexes ascend exactly when none before the last is the 16-bit maximum. -/
theorem addOffsets_ascending_iff {offset : UInt16} (added : addOffsets offset offsets = .ok indexes)
    (nonempty : offsets ≠ []) : indexes.IsChain (· < ·) ↔
      offset.toNat + (offsets.dropLast.map fun index => index.toNat + 1).sum < 65536 := by
  induction offsets generalizing offset indexes with
  | nil => exact absurd rfl nonempty
  | cons index rest ih =>
    obtain ⟨small, further, rfl, addedRest⟩ := addOffsets_cons added
    have value : (index + offset).toNat = index.toNat + offset.toNat := by
      rw [UInt16.toNat_add]
      exact Nat.mod_eq_of_lt (by omega)
    cases rest with
    | nil =>
      cases addedRest
      have := offset.toNat_lt
      simpa
    | cons next others =>
      obtain ⟨nextSmall, last, rfl, _⟩ := addOffsets_cons addedRest
      rw [isChain_cons_cons, ih addedRest (cons_ne_nil _ _), dropLast_cons_cons,
        map_cons, sum_cons, UInt16.lt_iff_toNat_lt, UInt16.toNat_add _ (index + offset + 1),
        UInt16.toNat_add (index + offset) 1, value, show (1 : UInt16).toNat = 1 from rfl]
      -- the offset is zero again after the largest index, and the next index is not larger
      by_cases largest : index.toNat + offset.toNat = 65535
      · omega
      · rw [UInt16.toNat_add (index + offset) 1, show (1 : UInt16).toNat = 1 from rfl] at nextSmall
        omega

theorem differences_length (next : Nat) (indexes : List UInt16) :
    (differences next indexes).length = indexes.length := by
  induction indexes generalizing next with
  | nil => rfl
  | cons index rest ih => rw [differences, length_cons, length_cons, ih]

/-- The differences of ascending indexes are read back. -/
theorem differences_addOffsets {next : Nat} (ascending : indexes.Pairwise (· < ·))
    (behind : ∀ index ∈ indexes, next ≤ index.toNat) :
    ∃ offsets : List UInt16, differences next indexes = offsets.map UInt16.toNat ∧
      addOffsets (UInt16.ofNat next) offsets = .ok indexes := by
  induction indexes generalizing next with
  | nil => exact ⟨[], rfl, rfl⟩
  | cons index rest ih =>
    rw [pairwise_cons] at ascending
    have larger : ∀ other ∈ rest, index.toNat + 1 ≤ other.toNat := by
      intro other member
      exact UInt16.lt_iff_toNat_lt.mp (ascending.1 other member)
    obtain ⟨offsets, written, read⟩ := ih ascending.2 larger
    have start := behind index mem_cons_self
    have bound := index.toNat_lt
    have offset : (UInt16.ofNat next).toNat = next := by
      exact Nat.mod_eq_of_lt (by omega)
    have difference : (UInt16.ofNat (index.toNat - next)).toNat = index.toNat - next := by
      exact Nat.mod_eq_of_lt (by omega)
    have restored : UInt16.ofNat (index.toNat - next) + UInt16.ofNat next = index := by
      rw [← UInt16.ofNat_add, Nat.sub_add_cancel start, UInt16.ofNat_toNat]
    refine ⟨UInt16.ofNat (index.toNat - next) :: offsets, ?_, ?_⟩
    · rw [differences]
      congr 1
      omega
    · have continued : addOffsets (index + 1) offsets = .ok rest := by
        rwa [UInt16.ofNat_add, UInt16.ofNat_toNat] at read
      rw [addOffsets, if_neg (by rw [offset]; omega), restored]
      exact bind_eq_ok.mpr ⟨rest, continued, rfl⟩

theorem ascending_sized (ascending : indexes.Pairwise (· < ·)) : indexes.length ≤ maxSize := by
  have distinct : (indexes.map toNat).Nodup := by
    rw [nodup_iff_pairwise_ne, pairwise_map]
    exact ascending.imp fun less => (lt_iff_toNat_lt.mp less).ne
  have inside : indexes.map toNat ⊆ List.range 65536 := by
    intro index member
    obtain ⟨word, _, rfl⟩ := mem_map.mp member
    exact mem_range.mpr word.toNat_lt
  have bound := (subperm_of_subset distinct inside).length_le
  rw [length_map, length_range] at bound
  exact bound.trans (by decide)

variable {request : BlockTransactionsRequest}

theorem serializeRequest_eq_coded (written : differences 0 request.indexes = offsets.map toNat)
    (length : offsets.length = request.indexes.length) :
    serializeRequest request = coded request.blockhash offsets := by
  rw [serializeRequest, coded, writeVector, written, length, flatMap_map]

/-- Before the last difference of the stream the offset stays within 16 bits: the differences before it, each with one
added, make less than 65536. -/
def OffsetFits (stream : List UInt8) : Prop :=
  ∀ blockhash offsets rest, stream = coded blockhash offsets ++ rest → offsets.length ≤ maxSize →
    (offsets.dropLast.map fun index => index.toNat + 1).sum < 65536

theorem addOffsets_pairwise_iff (added : addOffsets 0 offsets = .ok indexes) :
    indexes.Pairwise (· < ·) ↔ (offsets.dropLast.map fun index => index.toNat + 1).sum < 65536 := by
  cases offsets with
  | nil =>
    cases added
    simp
  | cons index rest =>
    rw [← isChain_iff_pairwise, addOffsets_ascending_iff added (cons_ne_nil _ _), UInt16.toNat_zero, Nat.zero_add]

theorem unserializeRequest_reads (ascending : request.indexes.Pairwise (· < ·)) :
    Reads unserializeRequest (serializeRequest request) request := by
  intro rest
  obtain ⟨offsets, written, read⟩ := differences_addOffsets ascending fun _ _ => Nat.zero_le _
  have length : offsets.length = request.indexes.length := by
    have lengths := congrArg List.length written
    rwa [length_map, differences_length, eq_comm] at lengths
  rw [serializeRequest_eq_coded written length,
    unserializeRequest_coded (length.trans_le (ascending_sized ascending))]
  change (addOffsets 0 offsets).map _ = _
  rw [show addOffsets 0 offsets = .ok request.indexes from read]
  rfl

/-- A request that is read has ascending indexes exactly when its offset never wraps, and every request with ascending
indexes reads back as it was written. -/
theorem unserializeRequest_ascending_iff (stream : List UInt8) (request : BlockTransactionsRequest) :
    (∀ rest, unserializeRequest.run stream = .ok (request, rest) →
      (request.indexes.Pairwise (· < ·) ↔ OffsetFits stream)) ∧
    (request.indexes.Pairwise (· < ·) → Reads unserializeRequest (serializeRequest request) request) := by
  constructor
  · intro rest success
    obtain ⟨bytes, rfl, offsets, rfl, sized, added⟩ := unserializeRequest_consumes _ _ _ success
    rw [addOffsets_pairwise_iff added]
    constructor
    · intro below blockhash others further same sizedOthers
      rw [same, unserializeRequest_coded sizedOthers] at success
      cases addedOthers : addOffsets 0 others with
      | error error =>
        rw [addedOthers] at success
        cases success
      | ok indexes =>
        rw [addedOthers] at success
        cases success
        rwa [← addOffsets_pairwise_iff added, addOffsets_pairwise_iff addedOthers] at below
    · intro fits
      exact fits _ offsets rest rfl sized
  · exact unserializeRequest_reads

theorem unserializeRequest_ascending_iff_two :
    unserializeRequest.run (serializeRequest ⟨7, [1, 65535]⟩) = .ok (⟨7, [1, 65535]⟩, []) ∧
      OffsetFits (serializeRequest ⟨7, [1, 65535]⟩) := by
  have ascending : [1, 65535].Pairwise fun one two : UInt16 => one < two := by decide
  have read : unserializeRequest.run (serializeRequest ⟨7, [1, 65535]⟩) = .ok (⟨7, [1, 65535]⟩, []) := by
    exact (unserializeRequest_ascending_iff [] ⟨7, [1, 65535]⟩).2 ascending []
  exact ⟨read, ((unserializeRequest_ascending_iff _ _).1 _ read).mp ascending⟩

/-- After the index 65535 the offset is zero again. -/
theorem unserializeRequest_descending :
    unserializeRequest.run (coded 7 [65535, 0] ++ []) = .ok (⟨7, [65535, 0]⟩, []) ∧
      ¬ [65535, 0].Pairwise fun one two : UInt16 => one < two := by
  constructor
  · rfl
  · decide

end Straks.Net
