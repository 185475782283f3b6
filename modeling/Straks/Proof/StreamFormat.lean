import Straks.Construction.Serialize.Stream
import Straks.Proof.HeightPrefix

namespace Straks.Serialize

open Script Wire List

theorem littleEndian_readLE (bytes : List UInt8) : littleEndian bytes.length (readLE bytes) = bytes := by
  apply readLE_injective
  · rw [littleEndian_length]
  · rw [readLE_littleEndian, Nat.mod_eq_of_lt (readLE_lt bytes)]

/-- A number of a fixed width has one written form. -/
theorem readData_encodes (width : Nat) : Encodes (readData width) (littleEndian width) fun n => n < 256 ^ width where
  reads n fits := by
    have taken := (takeBytes_encodes StreamError.endOfData width).reads (littleEndian width n)
      (littleEndian_length width n)
    have value : readLE (littleEndian width n) = n := by rw [readLE_littleEndian, Nat.mod_eq_of_lt fits]
    have read : Reads (readData width) (littleEndian width n) (readLE (littleEndian width n)) := Reads.last taken
    rwa [value] at read
  consumes := by
    apply Consumes.last
    apply (takeBytes_encodes StreamError.endOfData width).consumes.mono
    rintro bytes _ ⟨rfl, length⟩
    constructor
    · rw [← length]
      exact (littleEndian_readLE bytes).symm
    · rw [← length]
      exact readLE_lt bytes

theorem readSizeFrom_reads {least width n : Nat} (canonical : least ≤ n) (fits : n < 256 ^ width) :
    Reads (readSizeFrom least width) (littleEndian width n) n := by
  rw [← append_nil (littleEndian width n)]
  apply ((readData_encodes width).reads n fits).bind
  rw [if_neg (not_lt.mpr canonical)]
  exact Reads.pure n

theorem readSizeFrom_consumes (least width : Nat) :
    Consumes (readSizeFrom least width) fun bytes n => bytes = littleEndian width n ∧ least ≤ n ∧ n < 256 ^ width := by
  apply (readData_encodes width).consumes.bind
  rintro _ n ⟨rfl, fits⟩
  apply Consumes.branch
  · exact fun _ => Consumes.throw _ _
  · intro canonical
    apply Consumes.pure
    exact ⟨append_nil _, not_lt.mp canonical, fits⟩

/-- The bytes of a size after the announcing byte. -/
theorem readSizeAfter_consumes {chSize : Nat} (byte : chSize < 256) :
    Consumes (readSizeAfter chSize) fun bytes n => littleEndian 1 chSize ++ bytes = writeCompactSize n := by
  apply Consumes.branch
  · intro small
    apply Consumes.pure
    rw [writeCompactSize, if_pos small, append_nil]
  · intro large
    apply Consumes.branch
    · rintro rfl
      apply (readSizeFrom_consumes 253 2).mono
      rintro _ n ⟨rfl, canonical, fits⟩
      rw [writeCompactSize, if_neg (by omega), if_pos (by omega)]
      rfl
    · intro notTwo
      apply Consumes.branch
      · rintro rfl
        apply (readSizeFrom_consumes 0x10000 4).mono
        rintro _ n ⟨rfl, canonical, fits⟩
        rw [writeCompactSize, if_neg (by omega), if_neg (by omega), if_pos (by omega)]
        rfl
      · intro notFour
        apply (readSizeFrom_consumes 0x100000000 8).mono
        rintro _ n ⟨rfl, canonical, fits⟩
        rw [writeCompactSize, if_neg (by omega), if_neg (by omega), if_neg (by omega),
          show chSize = 255 by omega]
        rfl

/-- The announced size is read from the bytes after it. -/
theorem readSizeAfter_reads {n : Nat} (fits : n < 2 ^ 64) :
    ∃ chSize bytes, chSize < 256 ∧ writeCompactSize n = littleEndian 1 chSize ++ bytes ∧
      Reads (readSizeAfter chSize) bytes n := by
  rw [writeCompactSize]
  split_ifs with one two four
  · refine ⟨n, [], by omega, (append_nil _).symm, ?_⟩
    rw [readSizeAfter, if_pos one]
    exact Reads.pure n
  · exact ⟨253, littleEndian 2 n, by omega, rfl, readSizeFrom_reads (by omega) (by omega)⟩
  · exact ⟨254, littleEndian 4 n, by omega, rfl, readSizeFrom_reads (by omega) (by omega)⟩
  · exact ⟨255, littleEndian 8 n, by omega, rfl, readSizeFrom_reads (by omega) (by omega)⟩

/-- Every size up to the limit has one encoding. -/
theorem readCompactSize_encodes : Encodes readCompactSize writeCompactSize fun n => n ≤ maxSize where
  reads n fits := by
    obtain ⟨chSize, bytes, byte, written, read⟩ := readSizeAfter_reads (n := n) (by
      rw [maxSize] at fits
      omega)
    rw [written, ← append_nil bytes]
    apply ((readData_encodes 1).reads chSize byte).bind
    apply read.bind
    rw [if_neg (not_lt.mpr fits)]
    exact Reads.pure n
  consumes := by
    apply (readData_encodes 1).consumes.bind
    rintro _ chSize ⟨rfl, byte⟩
    apply (readSizeAfter_consumes byte).bind
    intro bytes n written
    apply Consumes.branch
    · exact fun _ => Consumes.throw _ _
    · intro fits
      apply Consumes.pure
      rw [append_nil]
      exact ⟨written, not_lt.mp fits⟩

theorem readBlob_encodes : Encodes readBlob writeBlob fun v => v.length ≤ maxSize where
  reads v fits := by
    apply (readCompactSize_encodes.reads v.length fits).bind
    exact (takeBytes_encodes _ _).reads v rfl
  consumes := by
    apply readCompactSize_encodes.consumes.bind
    rintro _ nSize ⟨rfl, fits⟩
    apply (takeBytes_encodes _ _).consumes.mono
    rintro _ v ⟨rfl, rfl⟩
    exact ⟨rfl, fits⟩

section Vector

variable {Item : Type} {read : Reader StreamError Item} {write : Item → List UInt8}

theorem readVector_reads {v : List Item} (fits : v.length ≤ maxSize)
    (each : ∀ item ∈ v, Reads read (write item) item) : Reads (readVector read) (writeVector write v) v :=
  (readCompactSize_encodes.reads v.length fits).bind (readItems_reads each)

theorem readVector_consumes {fits : Item → Prop}
    (each : Consumes read fun bytes item => bytes = write item ∧ fits item) :
    Consumes (readVector read) fun bytes v =>
      bytes = writeVector write v ∧ v.length ≤ maxSize ∧ ∀ item ∈ v, fits item := by
  apply readCompactSize_encodes.consumes.bind
  rintro _ nSize ⟨rfl, sized⟩
  apply (readItems_consumes each nSize).mono
  rintro _ v ⟨rfl, rfl, fit⟩
  exact ⟨rfl, sized, fit⟩

theorem readVector_encodes {fits : Item → Prop} (each : Encodes read write fits) :
    Encodes (readVector read) (writeVector write) fun v => v.length ≤ maxSize ∧ ∀ item ∈ v, fits item where
  reads _ fit := readVector_reads fit.1 fun item member => each.reads item (fit.2 item member)
  consumes := readVector_consumes each.consumes

end Vector

end Straks.Serialize
