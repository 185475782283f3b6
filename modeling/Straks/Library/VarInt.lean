import Mathlib.Tactic.NormNum

namespace Straks.VarInt
open Nat

/-- The groups of seven bits, the lowest last. Every byte but the last has its high bit set, and one is taken off
before each further group so that encodings are unique. -/
def writeGroups : Nat → Nat → Bool → List UInt8 → List UInt8
  | 0, _, _, written => written
  | fuel + 1, n, more, written =>
    let byte := UInt8.ofNat (n % 128 + if more then 128 else 0)
    if n ≤ 0x7f then byte :: written else writeGroups fuel (n / 128 - 1) true (byte :: written)

/-- The number is written in front of what follows; ten groups do for 64 bits. -/
def writeVarInt (n : Nat) (rest : List UInt8) : List UInt8 := writeGroups 10 n false rest

/-- A number of that many bits, read from a stream. -/
def readVarInt (width : Nat) : Nat → List UInt8 → Option (Nat × List UInt8)
  | _, [] => none
  | n, chData :: rest =>
    let n := (n * 128 + chData.toNat % 128) % 2 ^ width
    if 128 ≤ chData.toNat then readVarInt width ((n + 1) % 2 ^ width) rest else some (n, rest)

/-- The number of bytes a number is written in. -/
def getSizeOfVarInt (n : Nat) : Nat :=
  if n ≤ 0x7f then 1 else getSizeOfVarInt (n / 128 - 1) + 1

/-- What a string that ends with its only unmarked byte stands for, without any bound. -/
def value (n : Nat) : List UInt8 → Option Nat
  | [] => none
  | chData :: rest =>
    let n := n * 128 + chData.toNat % 128
    if 128 ≤ chData.toNat then value (n + 1) rest else if rest = [] then some n else none

theorem toNat_group (n : Nat) (more : Bool) :
    (UInt8.ofNat (n % 128 + if more then 128 else 0)).toNat = n % 128 + if more then 128 else 0 := by
  cases more <;> simp <;> omega

/-- One byte adds its group; a marked one continues. -/
theorem readVarInt_group (width start n : Nat) (more : Bool) (rest : List UInt8) (fits : n < 2 ^ width)
    (nextFits : more = true → n + 1 < 2 ^ width) (joined : start * 128 + n % 128 = n) :
    readVarInt width start (UInt8.ofNat (n % 128 + if more then 128 else 0) :: rest) =
      if more then readVarInt width (n + 1) rest else some (n, rest) := by
  have low : (n % 128 + if more then 128 else 0) % 128 = n % 128 := by cases more <;> simp
  have value : (start * 128 + (n % 128 + if more then 128 else 0) % 128) % 2 ^ width = n := by
    rw [low, joined, mod_eq_of_lt fits]
  have marked : 128 ≤ (n % 128 + if more then 128 else 0) ↔ more = true := by
    cases more <;> simp
    omega
  rw [readVarInt, toNat_group]
  simp only [value, marked]
  cases more with
  | false => rfl
  | true => rw [if_pos rfl, if_pos rfl, mod_eq_of_lt (nextFits rfl)]

theorem readVarInt_writeGroups (width fuel n : Nat) (more : Bool) (written : List UInt8)
    (enough : n < 128 ^ (fuel + 1)) (fits : n < 2 ^ width) (nextFits : more = true → n + 1 < 2 ^ width) :
    readVarInt width 0 (writeGroups (fuel + 1) n more written) =
      if more then readVarInt width (n + 1) written else some (n, written) := by
  induction fuel generalizing n more written with
  | zero =>
    have small : n ≤ 0x7f := by
      omega
    rw [writeGroups, if_pos small]
    exact readVarInt_group width 0 n more written fits nextFits (by omega)
  | succ fuel ih =>
    rw [writeGroups]
    split
    · exact readVarInt_group width 0 n more written fits nextFits (by omega)
    · rename_i large
      rw [ih (n / 128 - 1) true _ (by omega) (by omega) (fun _ => by omega), if_pos rfl,
        show n / 128 - 1 + 1 = n / 128 by omega]
      exact readVarInt_group width (n / 128) n more written fits nextFits (by omega)

/-- A written number is read back, the rest left in the stream. -/
theorem readVarInt_writeVarInt (width n : Nat) (rest : List UInt8) (enough : n < 2 ^ 64) (fits : n < 2 ^ width) :
    readVarInt width 0 (writeVarInt n rest) = some (n, rest) := by
  have groups : n < 128 ^ (9 + 1) := by
    omega
  exact readVarInt_writeGroups width 9 n false rest groups fits (fun impossible => nomatch impossible)

theorem writeGroups_append (fuel n : Nat) (more : Bool) (written rest : List UInt8) :
    writeGroups fuel n more (written ++ rest) = writeGroups fuel n more written ++ rest := by
  induction fuel generalizing n more written with
  | zero => rfl
  | succ fuel ih =>
    rw [writeGroups, writeGroups]
    split
    · rfl
    · exact ih _ true (_ :: written)

theorem writeGroups_length (fuel n : Nat) (more : Bool) (written : List UInt8) (enough : n < 128 ^ (fuel + 1)) :
    (writeGroups (fuel + 1) n more written).length = getSizeOfVarInt n + written.length ∧
      getSizeOfVarInt n ≤ fuel + 1 := by
  induction fuel generalizing n more written with
  | zero =>
    have small : n ≤ 0x7f := by omega
    simp [writeGroups, getSizeOfVarInt, small, add_comm]
  | succ fuel ih =>
    rw [writeGroups, getSizeOfVarInt]
    split
    · simp [add_comm]
    · obtain ⟨length, size⟩ := ih (n / 128 - 1) true (_ :: written) (by omega)
      rw [length, List.length_cons]
      omega

/-- The last group of a number is its byte, and what stands before it comes next. -/
theorem writeGroups_group (fuel start : Nat) (more : Bool) (byte : UInt8) (written : List UInt8)
    (marked : 128 ≤ byte.toNat ↔ more = true) : writeGroups (fuel + 1) (start * 128 + byte.toNat % 128) more written =
      if start = 0 then byte :: written else writeGroups fuel (start - 1) true (byte :: written) := by
  have bound := byte.toNat_lt
  have low : (start * 128 + byte.toNat % 128) % 128 = byte.toNat % 128 := by omega
  have whole : byte.toNat % 128 + (if more then 128 else 0) = byte.toNat := by
    cases more <;> simp at marked ⊢ <;> omega
  rw [writeGroups, low, whole, UInt8.ofNat_toNat]
  by_cases first : start = 0
  · rw [if_pos (by omega), if_pos first]
  · rw [if_neg (by omega), if_neg first, show (start * 128 + byte.toNat % 128) / 128 = start by omega]

/-- Writing the value of a string gives the string, after the groups it continued. -/
theorem writeGroups_value {start n : Nat} {bytes : List UInt8} (fuel : Nat) (read : value start bytes = some n) :
    writeGroups (fuel + bytes.length) n false [] =
      if start = 0 then bytes else writeGroups fuel (start - 1) true bytes := by
  induction bytes generalizing start fuel with
  | nil => cases read
  | cons byte rest ih =>
    rw [value] at read
    split_ifs at read with marked last
    · have written := ih (fuel + 1) read
      rw [if_neg (Nat.succ_ne_zero _), Nat.add_sub_cancel, writeGroups_group _ _ _ _ _ (by simp [marked])] at written
      rw [List.length_cons, ← written, Nat.add_right_comm, Nat.add_assoc]
    · cases read
      subst last
      exact writeGroups_group fuel start false byte [] (by simp [marked])

theorem writeGroups_fuel (fuel extra n : Nat) (more : Bool) (written : List UInt8) (enough : n < 128 ^ (fuel + 1)) :
    writeGroups (fuel + 1 + extra) n more written = writeGroups (fuel + 1) n more written := by
  induction fuel generalizing n more written with
  | zero =>
    have small : n ≤ 0x7f := by omega
    rw [add_right_comm]
    simp [writeGroups, small]
  | succ fuel ih =>
    rw [add_right_comm, writeGroups, writeGroups]
    split
    · rfl
    · exact ih _ true _ (by omega)

/-- A string with a value of 64 bits is what is written for it. -/
theorem writeVarInt_value {n : Nat} {bytes : List UInt8} (read : value 0 bytes = some n) (fits : n < 2 ^ 64) :
    writeVarInt n [] = bytes := by
  have written := writeGroups_value 10 read
  rwa [if_pos rfl, writeGroups_fuel 9 _ _ _ _ (by omega)] at written

end Straks.VarInt
