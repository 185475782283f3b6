import Straks.Proof.HeightPrefix

namespace Straks.Script
open List

/-- The bytes between an instruction and its data, which hold a length. -/
def prefixWidth (opcode : UInt8) : Nat :=
  if opcode < 0x4c ∨ opPushData4 < opcode then 0 else lengthWidth opcode

/-- The size of the data of an instruction with that length prefix. -/
def dataSize (opcode : UInt8) (sized : List UInt8) : Nat :=
  if opcode < 0x4c then opcode.toNat else if opPushData4 < opcode then 0 else readLE sized

/-- Data is taken exactly when it is all there. -/
theorem takePush_eq_some {nSize : Nat} {pc next : CScript} {data : List UInt8} :
    takePush nSize pc = some (data, next) ↔ pc = data ++ next ∧ data.length = nSize := by
  rw [takePush]
  constructor
  · intro taken
    split_ifs at taken with short
    obtain ⟨rfl, rfl⟩ := Prod.mk.inj (Option.some.inj taken)
    exact ⟨(take_append_drop _ _).symm, length_take_of_le (not_lt.mp short)⟩
  · rintro ⟨rfl, rfl⟩
    simp

/-- An instruction is read exactly when the script starts with all of it. -/
theorem getOp_eq_some {script next : CScript} {opcode : UInt8} {data : List UInt8} :
    getOp script = some (opcode, data, next) ↔ ∃ sized, script = opcode :: (sized ++ data ++ next) ∧
      sized.length = prefixWidth opcode ∧ data.length = dataSize opcode sized := by
  cases script with
  | nil => simp [getOp]
  | cons first pc =>
    by_cases same : first = opcode
    swap
    · simp only [getOp, cons.injEq, same, false_and, exists_false, iff_false]
      split_ifs <;> simp [Option.map_eq_some_iff, same]
    subst same
    simp only [getOp, prefixWidth, dataSize, cons.injEq, true_and]
    by_cases push : first ≤ opPushData4
    · have inside : ¬ opPushData4 < first := UInt8.not_lt.mpr push
      by_cases direct : first < 0x4c
      · simp [push, inside, direct, readPush, Option.map_eq_some_iff, takePush_eq_some]
      · simp only [push, inside, direct, readPush, or_self, if_true, if_false, Option.map_eq_some_iff]
        constructor
        · rintro ⟨⟨_, _⟩, taken, same⟩
          cases same
          split_ifs at taken with short
          obtain ⟨rest, size⟩ := takePush_eq_some.mp taken
          refine ⟨pc.take (lengthWidth first), ?_, length_take_of_le (not_lt.mp short), size⟩
          rw [append_assoc, ← rest, take_append_drop]
        · rintro ⟨sized, rfl, width, size⟩
          refine ⟨(data, next), ?_, rfl⟩
          rw [if_neg (by simp [width]), append_assoc, take_left' width, drop_left' width]
          exact takePush_eq_some.mpr ⟨rfl, size⟩
    · have outside : opPushData4 < first := UInt8.not_le.mp push
      have indirect : ¬ first < 0x4c := fun low => push (UInt8.le_of_lt (UInt8.lt_trans low (by decide)))
      simp [push, outside, indirect]
      grind
/-- What can be appended to a script. -/
inductive ScriptItem where
  | op (opcode : UInt8)
  | data (b : List UInt8)

/-- Opcodes that push nothing, and data whose length has four bytes. -/
def ScriptItem.Valid : ScriptItem → Prop
  | .op opcode => opPushData4 < opcode
  | .data b => b.length < 2 ^ 32

def appendItem (script : CScript) : ScriptItem → CScript
  | .op opcode => script ++ [opcode]
  | .data b => pushData script b

/-- Reading instructions yields the items and ends at the end. -/
def Parses : CScript → List ScriptItem → Prop
  | script, [] => script = []
  | script, item :: items => ∃ opcode data next, getOp script = some (opcode, data, next) ∧
      item = (if opcode ≤ opPushData4 then .data data else .op opcode) ∧ Parses next items

theorem appendItem_append (script : CScript) (item : ScriptItem) :
    appendItem script item = script ++ appendItem [] item := by
  cases item with
  | op opcode => rfl
  | data b =>
    simp only [appendItem, pushData]
    split_ifs <;> simp

/-- An item is read back, and the rest of the script is left. -/
theorem getOp_appendItem {item : ScriptItem} (valid : item.Valid) (next : CScript) :
    ∃ opcode data, getOp (appendItem [] item ++ next) = some (opcode, data, next) ∧
      item = if opcode ≤ opPushData4 then .data data else .op opcode := by
  cases item with
  | op opcode =>
    have outside : ¬ opcode ≤ opPushData4 := UInt8.not_le.mpr valid
    exact ⟨opcode, [], by simp [appendItem, getOp, outside], by simp [outside]⟩
  | data b =>
    have bound : b.length < 2 ^ 32 := valid
    simp only [appendItem, pushData]
    split_ifs with direct short medium
    · have value : (UInt8.ofNat b.length).toNat = b.length := by simp; omega
      have below : UInt8.ofNat b.length < 0x4c := by simpa [UInt8.lt_iff_toNat_lt, value] using direct
      have push : UInt8.ofNat b.length ≤ opPushData4 := UInt8.le_of_lt (UInt8.lt_trans below (by decide))
      refine ⟨UInt8.ofNat b.length, b, getOp_eq_some.mpr ⟨[], rfl, ?_, ?_⟩, by simp [push]⟩
      · simp [prefixWidth, below]
      · simp only [dataSize, below, if_true, value]
    · refine ⟨0x4c, b, getOp_eq_some.mpr ⟨[UInt8.ofNat b.length], rfl, rfl, ?_⟩, rfl⟩
      simp [dataSize, readLE, opPushData4]
      omega
    · refine ⟨0x4d, b, getOp_eq_some.mpr ⟨littleEndian 2 b.length, by simp, rfl, ?_⟩, rfl⟩
      exact (Nat.mod_eq_of_lt (by omega)).symm.trans (readLE_littleEndian 2 b.length).symm
    · refine ⟨0x4e, b, getOp_eq_some.mpr ⟨littleEndian 4 b.length, by simp, rfl, ?_⟩, rfl⟩
      exact (Nat.mod_eq_of_lt (by omega)).symm.trans (readLE_littleEndian 4 b.length).symm

/-- The scan of a script that deletes a pattern at the positions it reaches: the matches are skipped and counted, other
instructions copied, and what cannot be read is kept. -/
inductive Deletes (b : CScript) : CScript → CScript → Nat → Prop where
  | hit {rest result : CScript} {nFound : Nat} (deletes : Deletes b rest result nFound) :
      Deletes b (b ++ rest) result (nFound + 1)
  | copy {instruction next result : CScript} {nFound : Nat} {opcode : UInt8} {data : List UInt8}
      (miss : ¬ b <+: instruction ++ next) (read : getOp (instruction ++ next) = some (opcode, data, next))
      (deletes : Deletes b next result nFound) : Deletes b (instruction ++ next) (instruction ++ result) nFound
  | stop {rest : CScript} (miss : ¬ b <+: rest) (unreadable : getOp rest = none) : Deletes b rest rest 0

variable {b : CScript}

theorem Deletes.length {script result : CScript} {nFound : Nat} (deletes : Deletes b script result nFound) :
    result.length + nFound * b.length = script.length := by
  induction deletes with
  | hit _ ih => rw [length_append, ← ih, add_mul]; omega
  | copy _ _ _ ih => rw [length_append, length_append, ← ih]; omega
  | stop _ _ => simp

theorem Deletes.eq_of_zero {script result : CScript} {nFound : Nat} (deletes : Deletes b script result nFound)
    (zero : nFound = 0) : result = script := by
  induction deletes with
  | hit _ _ => cases zero
  | copy _ _ _ ih => rw [ih zero]
  | stop _ _ => rfl

theorem skipMatches_deletes (some : b ≠ []) {fuel : Nat} {pc : CScript} (enough : pc.length ≤ fuel) :
    ¬ b <+: (skipMatches b fuel pc).1 ∧ (skipMatches b fuel pc).1.length ≤ pc.length ∧
      ∀ {result nFound}, Deletes b (skipMatches b fuel pc).1 result nFound →
        Deletes b pc result (nFound + (skipMatches b fuel pc).2) := by
  induction fuel generalizing pc with
  | zero =>
    have empty : pc = [] := eq_nil_of_length_eq_zero (by omega)
    simp [skipMatches, empty, some]
  | succ fuel ih =>
    rw [skipMatches]
    split
    · rename_i hit
      obtain ⟨rest, rfl⟩ := isPrefixOf_iff_prefix.mp hit
      have positive := length_pos_iff.mpr some
      rw [length_append] at enough ⊢
      simp only [drop_left]
      obtain ⟨miss, shorter, deletes⟩ := @ih rest (by omega)
      exact ⟨miss, by omega, fun left => .hit (deletes left)⟩
    · rename_i miss
      exact ⟨fun hit => miss <| isPrefixOf_iff_prefix.mpr hit, le_rfl, id⟩

/-- With enough fuel the loop appends what the scan leaves. -/
theorem findAndDeleteLoop_deletes (some : b ≠ []) {fuel : Nat} {pc : CScript} (enough : pc.length < fuel)
    (result : CScript) (nFound : Nat) : ∃ left found, Deletes b pc left found ∧
      findAndDeleteLoop b fuel pc result nFound = (result ++ left, nFound + found) := by
  induction fuel generalizing pc result nFound with
  | zero => omega
  | succ fuel ih =>
    obtain ⟨miss, shorter, deletes⟩ := skipMatches_deletes some (le_refl pc.length)
    rw [findAndDeleteLoop]
    generalize skipMatches b pc.length pc = skipped at miss shorter deletes
    split
    · rename_i unreadable
      refine ⟨skipped.1, skipped.2, ?_, rfl⟩
      simpa using deletes (.stop miss unreadable)
    · rename_i opcode data next read
      obtain ⟨sized, split, -⟩ := getOp_eq_some.mp read
      rw [← cons_append] at split
      have instruction : skipped.1.take (skipped.1.length - next.length) = opcode :: (sized ++ data) := by
        rw [split, length_append, Nat.add_sub_cancel, take_left]
      obtain ⟨left, found, rest, loop⟩ := @ih next (by simp [split] at shorter; omega)
        (result ++ skipped.1.take (skipped.1.length - next.length)) (nFound + skipped.2)
      refine ⟨opcode :: (sized ++ data) ++ left, found + skipped.2, deletes ?_, ?_⟩
      · rw [split] at miss read ⊢
        exact .copy miss read rest
      · rw [loop, instruction, append_assoc, Nat.add_assoc, Nat.add_comm found]

/-- Deleting a pattern follows the scan. The result is shorter by the matches. -/
theorem findAndDelete_deletes (script b : CScript) (some : b ≠ []) :
    Deletes b script (findAndDelete script b).1 (findAndDelete script b).2 ∧
      (findAndDelete script b).1.length + (findAndDelete script b).2 * b.length = script.length := by
  obtain ⟨left, found, deletes, loop⟩ := findAndDeleteLoop_deletes some (Nat.lt_succ_self script.length) [] 0
  have whole : findAndDelete script b = (left, found) := by
    rw [findAndDelete, if_neg (by simpa using some), loop, nil_append, zero_add]
    dsimp only
    split_ifs with none
    · rw [none, deletes.eq_of_zero none]
    · rfl
  rw [whole]
  exact ⟨deletes, deletes.length⟩

theorem findAndDelete_deletes_twice : Deletes [0x51] [0x51, 0x52, 0x51] [0x52] 2 :=
  (findAndDelete_deletes [0x51, 0x52, 0x51] [0x51] (by decide)).1

end Straks.Script
