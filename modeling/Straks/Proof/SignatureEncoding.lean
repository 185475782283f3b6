import Straks.Construction.Script.SigEncoding

namespace Straks.Script
open List

theorem ite_some {test : Prop} [Decidable test] {more : Option Bool} {value : Bool} (passed : ¬ test → more = some value) :
    (if test then pure false else more) = some (if test then false else value) := by
  split_ifs with fails
  · rfl
  · exact passed fails

/-- Behind the tests before it every read is inside. -/
theorem readSignatureEncoding_eq (sig : List UInt8) :
    readSignatureEncoding sig = some (isValidSignatureEncoding sig) := by
  have read {i : Nat} {more : UInt8 → Option Bool} {value : Bool} (inside : i < sig.length)
      (rest : more (sig.getD i 0) = some value) : (sig[i]? >>= more) = some value := by
    simpa [inside] using rest
  refine ite_some fun low => ite_some fun _ => ?_
  refine read (by omega) (ite_some fun _ => read (by omega) (ite_some fun _ => ?_))
  refine read (by omega) (ite_some fun inside => read (by omega) (ite_some fun sum => ?_))
  refine read (by omega) (ite_some fun _ => ite_some fun _ => read (by omega) (ite_some fun _ => ?_))
  refine read (by omega) (read (by omega) (ite_some fun _ => read (by omega) (ite_some fun _ => ?_)))
  refine ite_some fun _ => read (by omega) (ite_some fun _ => read (by omega) (read (by omega) (ite_some fun _ => rfl)))

/-- A non-negative number in as few bytes as possible, the highest first. -/
def MinimalInteger : List UInt8 → Prop
  | [] => False
  | [first] => first &&& 0x80 = 0
  | first :: second :: _ => first &&& 0x80 = 0 ∧ (first = 0 → second &&& 0x80 ≠ 0)

/-- The two tests of one number in the signature. -/
theorem minimalInteger_iff {sig number rest : List UInt8} {before : List UInt8} (whole : sig = before ++ (number ++ rest)) :
    MinimalInteger number ↔ number.length ≠ 0 ∧ sig.getD before.length 0 &&& 0x80 = 0 ∧
      ¬ (1 < number.length ∧ sig.getD before.length 0 = 0 ∧ sig.getD (before.length + 1) 0 &&& 0x80 = 0) := by
  subst whole
  match number with
  | [] => simp [MinimalInteger]
  | [first] => simp [MinimalInteger]
  | first :: second :: others => simp [MinimalInteger]

/-- On a string with the layout of a signature the tests say what they should. -/
theorem isValidSignatureEncoding_layout {tag size tagR lenR tagS lenS hashtype : UInt8} {r s sig : List UInt8}
    (whole : sig = [tag, size, tagR, lenR] ++ (r ++ ([tagS, lenS] ++ (s ++ [hashtype]))))
    (lengthR : r.length = lenR.toNat) (lengthS : s.length = lenS.toNat) :
    isValidSignatureEncoding sig = true ↔ (9 ≤ sig.length ∧ sig.length ≤ 73) ∧ tag = 0x30 ∧
      size.toNat = sig.length - 3 ∧ tagR = 0x02 ∧ tagS = 0x02 ∧ MinimalInteger r ∧ MinimalInteger s := by
  have total : sig.length = r.length + s.length + 7 := by simp [whole]; omega
  have integerR := minimalInteger_iff whole
  have integerS := @minimalInteger_iff sig s [hashtype] ([tag, size, tagR, lenR] ++ (r ++ [tagS, lenS])) (by simp [whole])
  have atS : sig.getD (5 + lenR.toNat) 0 = lenS := by simp [whole, ← lengthR, Nat.add_comm 5]
  have atTag : sig.getD (lenR.toNat + 4) 0 = tagS := by simp [whole, ← lengthR]
  have start : sig.getD 0 0 = tag ∧ sig.getD 1 0 = size ∧ sig.getD 2 0 = tagR ∧ sig.getD 3 0 = lenR := by simp [whole]
  obtain ⟨at0, at1, at2, at3⟩ := start
  simp only [length_append, length_cons, length_nil, lengthR, lengthS] at integerS integerR total
  rw [integerR, integerS, isValidSignatureEncoding]
  simp only [at0, at1, at2, at3, atS, atTag, Bool.if_false_left, Bool.and_true, Bool.and_eq_true, Bool.not_eq_true',
    decide_eq_false_iff_not, not_lt, not_le, ne_eq, not_not]
  rw [show 0 + 1 + 1 + 1 + 1 + (lenR.toNat + (0 + 1 + 1)) = lenR.toNat + 6 by omega]
  constructor
  · rintro ⟨low, high, isTag, isSize, -, -, isTagR, someR, signR, minimalR, isTagS, numberS⟩
    exact ⟨⟨low, high⟩, isTag, isSize, isTagR, isTagS, ⟨someR, signR, minimalR⟩, numberS⟩
  · rintro ⟨⟨low, high⟩, isTag, isSize, isTagR, isTagS, ⟨someR, signR, minimalR⟩, numberS⟩
    exact ⟨low, high, isTag, isSize, by omega, total.symm, isTagR, someR, signR, minimalR, isTagS, numberS⟩

/-- The accepted strings are those of the strict format, and no read is outside the string. -/
theorem isValidSignatureEncoding_iff (sig : List UInt8) :
    (isValidSignatureEncoding sig = true ↔ (9 ≤ sig.length ∧ sig.length ≤ 73) ∧ ∃ r s hashtype,
      sig = [0x30, UInt8.ofNat (sig.length - 3), 0x02, UInt8.ofNat r.length] ++
        (r ++ ([0x02, UInt8.ofNat s.length] ++ (s ++ [hashtype]))) ∧ MinimalInteger r ∧ MinimalInteger s) ∧
    readSignatureEncoding sig = some (isValidSignatureEncoding sig) := by
  refine ⟨⟨fun valid => ?_, ?_⟩, readSignatureEncoding_eq sig⟩
  · have tests := valid
    simp only [isValidSignatureEncoding, Bool.if_false_left, Bool.and_eq_true, Bool.not_eq_true',
      decide_eq_false_iff_not, not_lt, not_le, ne_eq, not_not] at tests
    obtain ⟨low, -, -, -, long, sum, -⟩ := tests
    match sig with
    | tag :: size :: tagR :: lenR :: tail =>
      obtain ⟨r, rest, rfl, lengthR⟩ : ∃ r rest, tail = r ++ rest ∧ r.length = lenR.toNat :=
        ⟨tail.take lenR.toNat, tail.drop lenR.toNat, (take_append_drop _ _).symm, by simp at long ⊢; omega⟩
      match rest with
      | tagS :: lenS :: more =>
        obtain rfl | ⟨s, hashtype, rfl⟩ := eq_nil_or_concat' more
        · simp [lengthR] at sum
          omega
        · have lengthS : s.length = lenS.toNat := by
            simp [← lengthR, Nat.add_comm 5] at sum
            omega
          obtain ⟨bounds, rfl, isSize, rfl, rfl, minimal⟩ :=
            (isValidSignatureEncoding_layout rfl lengthR lengthS).mp valid
          simp only [cons_append, nil_append] at isSize
          refine ⟨bounds, r, s, hashtype, ?_, minimal⟩
          rw [lengthR, lengthS, ← isSize]
          simp
      | [] => simp at long; omega
      | [_] => simp at long; omega
    | [] => simp at low
    | [_] => simp at low
    | [_, _] => simp at low
    | [_, _, _] => simp at low
  · rintro ⟨⟨low, high⟩, r, s, hashtype, whole, minimal⟩
    have total := congrArg length whole
    simp only [length_append, length_cons, length_nil] at total
    have byte {n : Nat} (small : n < 256) : (UInt8.ofNat n).toNat = n := by simp; omega
    exact (isValidSignatureEncoding_layout whole (byte (by omega)).symm (byte (by omega)).symm).mpr
      ⟨⟨low, high⟩, rfl, byte (by omega), rfl, rfl, minimal⟩

end Straks.Script
