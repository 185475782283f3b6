import Mathlib.Data.Nat.Digits.Lemmas
import Straks.Construction.Script.Script

namespace Straks.Script
open List UInt8 Nat

variable (bytes : List UInt8)

theorem readLE_eq : readLE bytes = ofDigits 256 (bytes.map toNat) := by
  induction bytes with
  | nil => rfl
  | cons byte rest ih => rw [readLE, map_cons, ofDigits_cons, ih]

theorem digit_lt : ∀ digit ∈ bytes.map toNat, digit < 256 :=
  forall_mem_map.mpr fun byte _ => byte.toNat_lt

theorem readLE_lt : readLE bytes < 256 ^ bytes.length := by
  rw [readLE_eq, ← length_map toNat]
  exact ofDigits_lt_base_pow_length (by decide) (digit_lt bytes)

/-- Words of one length are determined by their value. -/
theorem readLE_injective {first second : List UInt8} (length : first.length = second.length)
    (equal : readLE first = readLE second) : first = second := by
  rw [readLE_eq, readLE_eq] at equal
  exact map_injective_iff.mpr (fun _ _ => UInt8.toNat_inj.mp) <|
    ofDigits_inj_of_len_eq (by decide) (by simpa using length) (digit_lt first) (digit_lt second) equal

theorem readLE_append (first second : List UInt8) :
    readLE (first ++ second) = readLE first + 256 ^ first.length * readLE second := by
  rw [readLE_eq, readLE_eq, readLE_eq, map_append, ofDigits_append, length_map]

theorem readLE_littleEndian (width value : Nat) : readLE (littleEndian width value) = value % 256 ^ width := by
  induction width generalizing value with
  | zero => rw [littleEndian, readLE, pow_zero, mod_one]
  | succ width ih =>
    have byte : (ofNat (value % 256)).toNat = value % 256 := by simp
    rw [littleEndian, readLE, ih, byte, pow_succ, mul_comm _ 256, mod_mul]

variable {fuel value : Nat}

/-- The bytes of a magnitude are its digits. -/
theorem map_magnitudeBytes (fits : value < 256 ^ fuel) :
    (magnitudeBytes fuel value).map toNat = Nat.digits 256 value := by
  induction fuel generalizing value with
  | zero => simp [magnitudeBytes, Nat.lt_one_iff.mp fits]
  | succ fuel ih =>
    rw [magnitudeBytes]
    split_ifs with zero
    · simp [zero]
    · rw [map_cons, ih (Nat.div_lt_of_lt_mul (by rwa [pow_succ, mul_comm] at fits)),
        Nat.digits_def' (by decide) (Nat.pos_of_ne_zero zero)]
      simp

theorem readLE_magnitudeBytes (fits : value < 256 ^ fuel) : readLE (magnitudeBytes fuel value) = value := by
  rw [readLE_eq, map_magnitudeBytes fits, ofDigits_digits]

/-- The sign goes into the last byte or behind it. -/
theorem signBytes_append (neg : Bool) (init : List UInt8) (top : UInt8) :
    signBytes neg (init ++ [top]) = init ++ signBytes neg [top] := by
  induction init with
  | nil => rfl
  | cons byte rest ih =>
    rw [cons_append, cons_append, ← ih]
    cases rest <;> rfl

/-- The byte that only holds the sign counts nothing. -/
theorem readLE_signBytes : readLE (signBytes false bytes) = readLE bytes := by
  obtain rfl | ⟨init, top, rfl⟩ := eq_nil_or_concat' bytes
  · rfl
  · rw [signBytes_append, readLE_append, readLE_append, signBytes]
    split_ifs <;> simp_all [readLE]

theorem length_magnitudeBytes (fuel value : Nat) : (magnitudeBytes fuel value).length ≤ fuel := by
  induction fuel generalizing value with
  | zero => exact le_refl 0
  | succ fuel ih =>
    rw [magnitudeBytes]
    split
    · exact zero_le _
    · exact succ_le_succ (ih _)

theorem length_signBytes (neg : Bool) (bytes : List UInt8) : (signBytes neg bytes).length ≤ bytes.length + 1 := by
  obtain rfl | ⟨init, top, rfl⟩ := eq_nil_or_concat' bytes
  · exact zero_le _
  · rw [signBytes_append, signBytes]
    split_ifs <;> simp

/-- A non-negative number reads back from its serialization. -/
theorem readLE_scriptNumSerialize (value : Nat) (fits : value < 2 ^ 64) :
    readLE (scriptNumSerialize value) = value := by
  have positive : decide ((value : Int) < 0) = false := by simp
  rw [scriptNumSerialize, positive, readLE_signBytes, Int.natAbs_natCast, readLE_magnitudeBytes (by omega)]

theorem length_scriptNumSerialize (value : Int) : (scriptNumSerialize value).length ≤ 9 := by
  have magnitude := length_magnitudeBytes 8 value.natAbs
  have signed := length_signBytes (value < 0) (magnitudeBytes 8 value.natAbs)
  rw [scriptNumSerialize]
  omega

variable {neg : Bool} {init : List UInt8} {top : UInt8}

theorem forall_byte {holds : UInt8 → Prop} (all : ∀ n : Fin 256, holds (UInt8.ofNat n)) (byte : UInt8) : holds byte := by
  simpa using all ⟨byte.toNat, byte.toNat_lt⟩

/-- Signed bytes are decoded to the magnitude with that sign. -/
theorem setVch_signBytes : setVch (signBytes neg (init ++ [top])) =
    if neg then -(readLE (init ++ [top]) : Int) else readLE (init ++ [top]) := by
  have marked := @forall_byte (fun byte => byte &&& 0x80 = 0 →
    (byte ||| 0x80) &&& 0x80 ≠ 0 ∧ (byte ||| 0x80).toNat = byte.toNat + 128) (by decide +kernel) top
  rw [signBytes_append, signBytes]
  by_cases high : top &&& 0x80 = 0
  · cases neg with
    | false => simp [setVch, high]
    | true =>
      simp [setVch, high, marked high, readLE_append, readLE]
      ring
  · cases neg with
    | false => simp [setVch, high, readLE_append, readLE]
    | true =>
      simp [setVch, high, readLE_append, readLE]
      ring

theorem isMinimalNum_append : isMinimalNum (init ++ [top]) = true ↔
    top &&& 0x7f ≠ 0 ∨ ∃ rest below, init = rest ++ [below] ∧ below &&& 0x80 ≠ 0 := by
  rw [isMinimalNum, reverse_append]
  obtain rfl | ⟨rest, below, rfl⟩ := eq_nil_or_concat' init <;> simp

/-- A signed magnitude without leading zeros is minimal. -/
theorem isMinimalNum_signBytes (nonzero : top ≠ 0) : isMinimalNum (signBytes neg (init ++ [top])) = true := by
  have low := @forall_byte (fun byte => byte ≠ 0 → byte &&& 0x80 = 0 →
    byte &&& 0x7f ≠ 0 ∧ (byte ||| 0x80) &&& 0x7f ≠ 0) (by decide +kernel) top nonzero
  rw [signBytes_append, signBytes]
  by_cases high : top &&& 0x80 = 0
  · cases neg <;> simp [high, isMinimalNum_append, low high]
  · rw [if_pos high, append_cons]
    exact isMinimalNum_append.mpr (.inr ⟨init, top, rfl, high⟩)

/-- Minimal bytes are a signed magnitude without leading zeros. -/
theorem exists_signBytes (minimal : isMinimalNum (init ++ [top]) = true) :
    ∃ neg magnitude last, last ≠ 0 ∧ init ++ [top] = signBytes neg (magnitude ++ [last]) := by
  have cleared := @forall_byte (fun byte => (byte &&& 0x7f ≠ 0 → ∃ neg, signBytes neg [byte &&& 0x7f] = [byte]) ∧
    (byte &&& 0x7f = 0 → ∃ neg : Bool, byte = if neg then 0x80 else 0)) (by decide +kernel) top
  simp only [signBytes_append]
  by_cases low : top &&& 0x7f = 0
  · obtain ⟨rest, below, rfl, high⟩ := (isMinimalNum_append.mp minimal).resolve_left (not_not.mpr low)
    obtain ⟨neg, isSign⟩ := cleared.2 low
    refine ⟨neg, rest, below, fun zero => high (by rw [zero]; rfl), ?_⟩
    simp [signBytes, high, isSign]
  · obtain ⟨neg, signed⟩ := cleared.1 low
    exact ⟨neg, init, _, low, by rw [signed]⟩

theorem readLE_pos (nonzero : top ≠ 0) : 0 < readLE (init ++ [top]) := by
  have byte : 0 < top.toNat := pos_of_ne_zero fun zero => nonzero (UInt8.toNat_inj.mp zero)
  rw [readLE_append, readLE, readLE]
  positivity

theorem exists_magnitudeBytes (nonzero : value ≠ 0) (fits : value < 256 ^ fuel) :
    ∃ init top, magnitudeBytes fuel value = init ++ [top] ∧ top ≠ 0 := by
  have digits := map_magnitudeBytes fits
  have last := getLast_digit_ne_zero 256 nonzero
  obtain none | ⟨init, top, bytes⟩ := eq_nil_or_concat' (magnitudeBytes fuel value)
  · rw [none] at digits
    exact absurd (digits_eq_nil_iff_eq_zero.mp digits.symm) nonzero
  · refine ⟨init, top, bytes, ?_⟩
    rintro rfl
    simp [← digits, bytes] at last

theorem magnitudeBytes_readLE {fuel : Nat} (nonzero : top ≠ 0) (fits : init.length < fuel) :
    magnitudeBytes fuel (readLE (init ++ [top])) = init ++ [top] := by
  have bound := (readLE_lt (init ++ [top])).trans_le
    (Nat.pow_le_pow_right (by decide) (by simpa using fits : _ ≤ fuel))
  refine map_injective_iff.mpr (fun _ _ => UInt8.toNat_inj.mp) ?_
  rw [map_magnitudeBytes bound, readLE_eq, Nat.digits_ofDigits 256 (by decide) _ (digit_lt _)]
  simpa [← UInt8.toNat_inj] using nonzero

/-- The serialisation of a number of 63 bits is minimal and decoded to it, and minimal bytes, at most eight, are the
serialisation of what they are decoded to. -/
theorem scriptNum_serialize : (∀ value : Int, value.natAbs < 2 ^ 63 →
      setVch (scriptNumSerialize value) = value ∧ isMinimalNum (scriptNumSerialize value) = true) ∧
    ∀ vch : List UInt8, vch.length ≤ 8 → isMinimalNum vch = true → scriptNumSerialize (setVch vch) = vch := by
  constructor
  · intro value fits
    by_cases zero : value = 0
    · rw [zero]
      exact ⟨rfl, rfl⟩
    · have small : value.natAbs < 256 ^ 8 := by omega
      obtain ⟨init, top, bytes, nonzero⟩ := exists_magnitudeBytes (Int.natAbs_ne_zero.mpr zero) small
      have read := readLE_magnitudeBytes small
      rw [bytes] at read
      rw [scriptNumSerialize, bytes]
      refine ⟨?_, isMinimalNum_signBytes nonzero⟩
      rw [setVch_signBytes, read]
      split_ifs with neg <;> simp at neg <;> omega
  · intro vch short minimal
    obtain rfl | ⟨rest, final, rfl⟩ := eq_nil_or_concat' vch
    · rfl
    · obtain ⟨neg, init, top, nonzero, form⟩ := exists_signBytes minimal
      have positive := @readLE_pos init top nonzero
      have fewer : init.length < 8 := by
        rw [form, signBytes_append, signBytes] at short
        split_ifs at short <;> simp at short <;> omega
      have magnitude : (setVch (signBytes neg (init ++ [top]))).natAbs = readLE (init ++ [top]) := by
        rw [setVch_signBytes]
        split_ifs <;> simp
      have sign : decide (setVch (signBytes neg (init ++ [top])) < 0) = neg := by
        rw [setVch_signBytes]
        cases neg <;> simp
        omega
      rw [form, scriptNumSerialize, magnitude, sign, magnitudeBytes_readLE nonzero fewer]

theorem scriptNum_serialize_sign : scriptNumSerialize (setVch [0xff, 0x80]) = [0xff, 0x80] :=
  scriptNum_serialize.2 _ (by decide) (by decide)

/-- The push of a number above sixteen starts with a length. -/
theorem pushInt64_large {value : Nat} (large : 16 < value) : pushInt64 [] value =
      ofNat (scriptNumSerialize value).length :: scriptNumSerialize value := by
  have short := length_scriptNumSerialize value
  rw [pushInt64, if_neg (by omega), if_neg (by omega), pushData, if_pos (by omega)]
  rfl

theorem pushInt64_small {value : Nat} (positive : 0 < value) (small : value ≤ 16) :
    pushInt64 [] value = [ofNat (value + 80)] := by
  rw [pushInt64, if_pos (by omega)]
  rfl

/-- The first byte of a pushed number tells small numbers from lengths. -/
theorem pushInt64_head (value : Nat) (positive : 0 < value) : ∃ first rest, pushInt64 [] value = first :: rest ∧
      ((value ≤ 16 ∧ first.toNat = value + 80 ∧ rest = []) ∨
        (16 < value ∧ first.toNat = rest.length ∧ rest.length ≤ 9 ∧ rest = scriptNumSerialize value)) := by
  by_cases small : value ≤ 16
  · refine ⟨_, _, pushInt64_small positive small, .inl ⟨small, ?_, rfl⟩⟩
    rw [toNat_ofNat']
    omega
  · have large : 16 < value := by omega
    have short := length_scriptNumSerialize value
    refine ⟨_, _, pushInt64_large large, .inr ⟨large, ?_, short, rfl⟩⟩
    rw [toNat_ofNat']
    omega

/-- No script starts with the pushes of two positive numbers. -/
theorem pushInt64_prefix_unique {left right : Nat} {script : CScript} (leftPositive : 0 < left)
    (rightPositive : 0 < right) (leftFits : left < 2 ^ 64) (rightFits : right < 2 ^ 64)
    (startsLeft : pushInt64 [] left <+: script) (startsRight : pushInt64 [] right <+: script) : left = right := by
  obtain ⟨leftFirst, leftRest, leftPush, leftForm⟩ := pushInt64_head left leftPositive
  obtain ⟨rightFirst, rightRest, rightPush, rightForm⟩ := pushInt64_head right rightPositive
  rw [leftPush] at startsLeft
  rw [rightPush] at startsRight
  obtain ⟨leftTail, leftScript⟩ := startsLeft
  obtain ⟨rightTail, rightScript⟩ := startsRight
  rw [← rightScript] at leftScript
  obtain ⟨sameFirst, sameRest⟩ := List.cons.inj leftScript
  have sameByte : leftFirst.toNat = rightFirst.toNat := by rw [sameFirst]
  rcases leftForm with ⟨_, leftByte, _⟩ | ⟨_, leftByte, leftShort, leftBytes⟩
  · rcases rightForm with ⟨_, rightByte, _⟩ | ⟨_, rightByte, rightShort, _⟩
    · omega
    · omega
  · rcases rightForm with ⟨_, rightByte, _⟩ | ⟨_, rightByte, _, rightBytes⟩
    · omega
    · have sameLength : leftRest.length = rightRest.length := by omega
      have sameBytes : leftRest = rightRest := (List.append_inj sameRest sameLength).1
      rw [← readLE_scriptNumSerialize left leftFits, ← readLE_scriptNumSerialize right rightFits, ← leftBytes,
        ← rightBytes, sameBytes]

end Straks.Script
