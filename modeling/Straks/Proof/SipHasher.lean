import Straks.Construction.Hash
import Mathlib.Algebra.Ring.Nat

namespace Straks.Hash
open List Nat CSipHasher

/-- Eight bytes between words are the word of those bytes. -/
theorem write_eight (v : SipState) (words : Nat) {data : List UInt8} (enough : 8 ≤ data.length) :
    (⟨v, 0, 8 * words⟩ : CSipHasher).write data =
      (⟨absorb v (getUint64 data 0), 0, 8 * (words + 1)⟩ : CSipHasher).write (data.drop 8) := by
  match data, enough with
  | b0 :: b1 :: b2 :: b3 :: b4 :: b5 :: b6 :: b7 :: rest, _ =>
    simp [write, writeByte, getUint64, mul_add, add_assoc]

/-- Whole words leave no byte pending. -/
theorem write_words {words : Nat} {data : List UInt8} (whole : data.length = 8 * words) (v : SipState) (before : Nat) :
    ∃ next, (⟨v, 0, 8 * before⟩ : CSipHasher).write data = ⟨next, 0, 8 * (before + words)⟩ := by
  induction words generalizing v before data with
  | zero => exact ⟨v, by rw [eq_nil_of_length_eq_zero whole]; rfl⟩
  | succ words ih =>
    rw [write_eight v before (by omega), ← Nat.add_assoc, Nat.add_right_comm]
    exact ih (by rw [length_drop]; omega) _ _

theorem or_shiftLeft {low high k : Nat} (below : low < 2 ^ k) (fits : high * 2 ^ k < 18446744073709551616) :
    low ||| high <<< k % 18446744073709551616 = high * 2 ^ k + low := by
  rw [Nat.mod_eq_of_lt (by rwa [Nat.shiftLeft_eq]), Nat.or_comm, ← Nat.shiftLeft_add_eq_or_of_lt below,
    Nat.shiftLeft_eq]

theorem getUint64_littleEndian (data : UInt64) : getUint64 (littleEndian 8 data.toNat) 0 = data := by
  have bound := data.toNat_lt
  apply UInt64.toNat_inj.mp
  simp [getUint64, littleEndian]
  simp (disch := omega) only [or_shiftLeft]
  omega

variable (k0 k1 : UInt64)

/-- The hash of written bytes only depends on their concatenation, a word between words is its eight bytes, and the
specialised hash is the hash of the 32 bytes. -/
theorem cSipHasher_concatenation : (∀ chunks : List (List UInt8),
      chunks.foldl write (cSipHasher k0 k1) = (cSipHasher k0 k1).write chunks.flatten) ∧
    (∀ (data : List UInt8) (word : UInt64), data.length % 8 = 0 → ((cSipHasher k0 k1).write data).writeWord word =
      some ((cSipHasher k0 k1).write (data ++ littleEndian 8 word.toNat))) ∧
    ∀ val : Uint256, sipHashUint256 k0 k1 val = ((cSipHasher k0 k1).write (littleEndian 32 val.toNat)).finalize := by
  refine ⟨fun chunks => foldl_flatten.symm, fun data word between => ?_, fun val => ?_⟩
  · obtain ⟨words, whole⟩ := dvd_of_mod_eq_zero between
    obtain ⟨v, written⟩ := write_words whole (keyed k0 k1) 0
    have appended : (cSipHasher k0 k1).write (data ++ littleEndian 8 word.toNat) =
        ((cSipHasher k0 k1).write data).write (littleEndian 8 word.toNat) := foldl_append
    have eight := littleEndian_length 8 word.toNat
    rw [appended, show (cSipHasher k0 k1).write data = _ from written, write_eight _ _ (le_of_eq eight.symm),
      getUint64_littleEndian, writeWord, if_pos (mul_mod_right 8 _),
      drop_eq_nil_of_le (le_of_eq eight)]
    rfl
  · have length := littleEndian_length 32 val.toNat
    rw [sipHashUint256, show cSipHasher k0 k1 = ⟨keyed k0 k1, 0, 8 * 0⟩ from rfl]
    generalize littleEndian 32 val.toNat = bytes at length ⊢
    have none : bytes.drop 32 = [] := drop_eq_nil_of_le (le_of_eq length)
    rw [write_eight _ _ (by omega), write_eight _ _ (by simp [length]), write_eight _ _ (by simp [length]),
      write_eight _ _ (by simp [length])]
    simp [getUint64, write, finalize, none]
    rfl

theorem cSipHasher_concatenation_word : ((cSipHasher 1 2).write []).writeWord 3 =
    some ((cSipHasher 1 2).write [3, 0, 0, 0, 0, 0, 0, 0]) :=
  (cSipHasher_concatenation 1 2).2.1 [] 3 rfl

end Straks.Hash
