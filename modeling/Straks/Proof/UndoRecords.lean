import Straks.Construction.Chain.DisconnectBlock
import Straks.Proof.SpentOutputs

namespace Straks.Coins

open List CTxOut CCoins

/-- The entries of `UpdateCoins` have a height above genesis, spent outputs nulled. -/
structure CCoins.Stored (coins : CCoins) : Prop where
  positive : 0 < coins.nHeight
  fits : coins.nHeight < 2147483648
  nulled : ∀ txout ∈ coins.vout, txout.isNull = true → txout = CTxOut.null

variable {coins : CCoins} {nPos : Nat} {txout : CTxOut}

/-- Cleaning up only shortens the output vector. -/
theorem CCoins.Stored.cleanup (stored : coins.Stored) : coins.cleanup.Stored where
  positive := stored.positive
  fits := stored.fits
  nulled := fun txout member => stored.nulled txout (( rdropWhile_prefix _ _).mem member)

theorem CCoins.Stored.spend (stored : coins.Stored) (nPos : Nat) : (coins.spend nPos).2.Stored := by
  rw [CCoins.spend]
  split
  · have nulled : CCoins.Stored { coins with vout := coins.vout.set nPos CTxOut.null } := by
      refine ⟨stored.positive, stored.fits, ?_⟩
      intro txout member null
      rcases mem_or_eq_of_mem_set member with old | new
      · exact stored.nulled txout old null
      · exact new
    exact nulled.cleanup
  · exact stored

/-- Every entry of the set was made by `UpdateCoins`. -/
def UtxoSet.Stored (view : UtxoSet) : Prop := ∀ txid coins, view.getCoins txid = some coins → coins.Stored

theorem UtxoSet.Stored.empty : UtxoSet.empty.Stored := fun _ _ found => nomatch found

theorem UtxoSet.Stored.store {view : UtxoSet} (stored : view.Stored) (new : coins.Stored) (txid : Uint256) :
    (view.store txid coins).Stored := by
  intro other entry found
  by_cases same : other = txid
  · rw [same, UtxoSet.getCoins_store_self, CCoins.unspent] at found
    split_ifs at found
    cases found
    exact new.cleanup
  · rw [UtxoSet.getCoins_store_of_ne view coins same] at found
    exact stored other entry found

/-- In a clean entry the last output is unspent. -/
theorem CCoins.Clean.last (clean : coins.Clean) (found : coins.vout[nPos]? = some txout)
    (last : nPos + 1 = coins.vout.length) : txout.isNull = false := by
  have kept : coins.vout.rdropWhile isNull = coins.vout := congrArg vout clean
  have nonempty : coins.vout ≠ [] := by
    intro empty
    rw [empty] at last
    cases last
  have notNull := rdropWhile_eq_self_iff.mp kept nonempty
  have same : coins.vout.getLast nonempty = txout := by
    rw [getLast_eq_getElem]
    have index : coins.vout.length - 1 = nPos := by omega
    have here := List.getElem?_eq_some_iff.mp found
    obtain ⟨within, value⟩ := here
    rw [← value]
    congr 1
  rw [same] at notNull
  simpa using notNull

/-- Putting a spent output back undoes the spend. -/
theorem CCoins.restoreOutput_spend (clean : coins.Clean) (stored : coins.Stored)
    (found : coins.output nPos = some txout) :
    Chain.restoreOutput (coins.spend nPos).2.vout nPos txout = coins.vout := by
  obtain ⟨here, unspent⟩ := output_eq_some.mp found
  obtain ⟨within, value⟩ := List.getElem?_eq_some_iff.mp here
  have available : coins.isAvailable nPos = true := by rw [isAvailable_eq, found]; rfl
  have spent : (coins.spend nPos).2.vout = (coins.vout.set nPos CTxOut.null).rdropWhile isNull := by
    rw [spend, if_pos available]
    rfl
  -- setting the null output back
  have undone : (coins.vout.set nPos CTxOut.null).set nPos txout = coins.vout := by
    rw [set_set, ← value, set_getElem_self]
  suffices padded : (coins.spend nPos).2.vout ++
      List.replicate (nPos + 1 - (coins.spend nPos).2.vout.length) CTxOut.null = coins.vout.set nPos CTxOut.null by
    rw [Chain.restoreOutput, padded, undone]
  rw [spent]
  by_cases last : nPos + 1 = coins.vout.length
  · -- the dropped outputs are exactly the padding
    have dropped := rdropWhile_append_rtakeWhile (p := isNull) (l := coins.vout.set nPos CTxOut.null)
    have nulls : (coins.vout.set nPos CTxOut.null).rtakeWhile isNull =
        List.replicate ((coins.vout.set nPos CTxOut.null).rtakeWhile isNull).length CTxOut.null := by
      rw [eq_replicate_iff]
      refine ⟨rfl, ?_⟩
      intro other member
      have null : other.isNull = true := mem_rtakeWhile_imp member
      have inside : other ∈ coins.vout.set nPos CTxOut.null := by
        rw [← dropped]
        exact mem_append_right _ member
      rcases mem_or_eq_of_mem_set inside with old | new
      · exact stored.nulled other old null
      · exact new
    have lengths := congrArg List.length dropped
    rw [length_append, length_set] at lengths
    have count : nPos + 1 - ((coins.vout.set nPos CTxOut.null).rdropWhile isNull).length =
        ((coins.vout.set nPos CTxOut.null).rtakeWhile isNull).length := by omega
    rw [count, ← nulls, dropped]
  · -- the last output is another one, so nothing was dropped
    have kept : (coins.vout.set nPos CTxOut.null).rdropWhile isNull = coins.vout.set nPos CTxOut.null := by
      rw [rdropWhile_eq_self_iff]
      intro nonempty
      have lastIndex : coins.vout.length - 1 < coins.vout.length := by omega
      have lastUnspent := clean.last (getElem?_eq_getElem lastIndex) (by omega)
      rw [getLast_eq_getElem]
      simp only [length_set]
      rw [getElem_set_ne (by omega), lastUnspent]
      exact Bool.false_ne_true
    rw [kept, length_set, show nPos + 1 - coins.vout.length = 0 by omega, replicate_zero, append_nil]

end Straks.Coins

namespace Straks.Chain
open Coins VarInt

/-- Numbers of at most 64 bits are read back and have the told size. None is the beginning of another, and a terminated
string whose value fits is what is written for it. -/
theorem varInt_code (width : Nat) (narrow : width ≤ 64) :
    (∀ n < 2 ^ width, (∀ rest, readVarInt width 0 (writeVarInt n [] ++ rest) = some (n, rest)) ∧
      (writeVarInt n []).length = getSizeOfVarInt n ∧ getSizeOfVarInt n ≤ 10 ∧
      ∀ m < 2 ^ width, writeVarInt m [] <+: writeVarInt n [] → m = n) ∧
    ∀ bytes n, value 0 bytes = some n → n < 2 ^ width →
      writeVarInt n [] = bytes ∧ readVarInt width 0 bytes = some (n, []) := by
  have most {n : Nat} (fits : n < 2 ^ width) : n < 2 ^ 64 := fits.trans_le (Nat.pow_le_pow_right (by decide) narrow)
  have reads {n : Nat} (fits : n < 2 ^ width) (rest : List UInt8) :
      readVarInt width 0 (writeVarInt n [] ++ rest) = some (n, rest) := by
    rw [writeVarInt, ← writeGroups_append]
    exact readVarInt_writeVarInt width n rest (most fits) fits
  refine ⟨fun n fits => ⟨reads fits, ?_⟩, fun bytes n read fits => ?_⟩
  · obtain ⟨length, size⟩ := writeGroups_length 9 n false [] ((most fits).trans (by decide))
    refine ⟨length, size, ?_⟩
    rintro m small ⟨rest, whole⟩
    have left := reads small rest
    have right := reads fits []
    rw [whole] at left
    rw [List.append_nil, left] at right
    exact congrArg Prod.fst (Option.some.inj right)
  · have written := writeVarInt_value read (most fits)
    have back := reads fits []
    rw [List.append_nil, written] at back
    exact ⟨written, back⟩

theorem varInt_code_byte : readVarInt 8 0 [0x80, 0x7f, 1] = some (255, [1]) ∧ writeVarInt 255 [] = [0x80, 0x7f] :=
  ⟨((varInt_code 8 (by decide)).1 255 (by decide)).1 [1],
    ((varInt_code 8 (by decide)).2 [0x80, 0x7f] 255 rfl (by decide)).1⟩

/-- A negative version keeps its low seven bits in the undo file. -/
def keptVersion (nVersion : Int32) : Int32 :=
  if nVersion < 0 then Int32.ofInt (nVersion.toInt % 128) else nVersion

theorem keptVersion_of_nonnegative {nVersion : Int32} (nonnegative : ¬ nVersion < 0) :
    keptVersion nVersion = nVersion := if_neg nonnegative

theorem readVarInt_writeVarIntSigned (nVersion : Int32) :
    (readVarInt 32 0 (writeVarIntSigned nVersion.toInt [])).map (fun read => Int32.ofInt read.1) =
      some (keptVersion nVersion) := by
  have upper := nVersion.toInt_lt
  have negative : nVersion < 0 ↔ nVersion.toInt < 0 := Int32.lt_iff_toInt_lt
  rw [writeVarIntSigned]
  split
  · rename_i short
    have byte : (UInt8.ofNat (nVersion.toInt % 128).toNat).toNat = (nVersion.toInt % 128).toNat := by
      rw [UInt8.toNat_ofNat']
      omega
    have small : (0 * 128 + (nVersion.toInt % 128).toNat % 128) % 2 ^ 32 = (nVersion.toInt % 128).toNat := by
      omega
    have value : (((nVersion.toInt % 128).toNat : Nat) : Int) = nVersion.toInt % 128 := by omega
    rw [readVarInt, byte]
    simp only [small]
    rw [if_neg (by omega), Option.map_some, value, keptVersion]
    split
    · rfl
    · rename_i nonnegative
      rw [negative] at nonnegative
      rw [Int.emod_eq_of_lt (by omega) (by omega), Int32.ofInt_toInt]
  · rename_i long
    have nonnegative : ¬ nVersion < 0 := by
      rw [negative]
      omega
    rw [readVarInt_writeVarInt 32 _ [] (by omega) (by omega), Option.map_some, keptVersion_of_nonnegative nonnegative,
      Int.toNat_of_nonneg (by omega), Int32.ofInt_toInt]

/-- The record the undo file gives back. -/
def CTxInUndo.kept (undo : CTxInUndo) : CTxInUndo :=
  if undo.nHeight > 0 then { undo with nVersion := keptVersion undo.nVersion } else undo

/-- The record of a spend is read back with the file's version. -/
theorem reread_undoRecord (txout : CTxOut) {left : CCoins} (positive : 0 < left.nHeight)
    (fits : left.nHeight < 2147483648) : (undoRecord txout left).reread = some (undoRecord txout left).kept := by
  rw [undoRecord]
  split
  · have height : (left.nHeight % 4294967296).toNat = left.nHeight.toNat := by
      rw [Int.emod_eq_of_lt (by omega) (by omega)]
    have above : 0 < left.nHeight.toNat := by omega
    have bit : (if left.fCoinBase then 1 else 0) < 2 := by cases left.fCoinBase <;> simp
    have code : (left.nHeight.toNat * 2 + if left.fCoinBase then 1 else 0) % 4294967296 =
        left.nHeight.toNat * 2 + if left.fCoinBase then 1 else 0 := Nat.mod_eq_of_lt (by omega)
    have half : (left.nHeight.toNat * 2 + if left.fCoinBase then 1 else 0) / 2 = left.nHeight.toNat := by omega
    have parity : ((left.nHeight.toNat * 2 + if left.fCoinBase then 1 else 0) % 2 == 1) = left.fCoinBase := by
      cases left.fCoinBase <;> simp
    obtain ⟨read, success, version⟩ := Option.map_eq_some_iff.mp (readVarInt_writeVarIntSigned left.nVersion)
    rw [CTxInUndo.reread, CTxInUndo.serialize, CTxInUndo.unserialize, CTxInUndo.kept]
    simp only [height, if_pos above, code]
    rw [readVarInt_writeVarInt 32 _ _ (by omega) (by omega)]
    simp only [Option.bind_eq_bind, Option.bind_some, half, if_pos above, parity, success, version]
    rfl
  · have zero : readVarInt 32 0 (writeVarInt 0 []) = some (0, []) :=
      readVarInt_writeVarInt 32 0 [] (by decide) (by decide)
    rw [CTxInUndo.reread, CTxInUndo.serialize, CTxInUndo.unserialize, CTxInUndo.kept]
    simp [zero]

theorem kept_undoRecord (txout : CTxOut) (left : CCoins) : (undoRecord txout left).kept.txout = txout := by
  rw [undoRecord]
  split
  · rw [CTxInUndo.kept]
    split <;> rfl
  · rfl

end Straks.Chain
