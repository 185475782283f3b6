import Straks.Construction.Chain.Pow
import Mathlib.Algebra.Divisibility.Basic
import Mathlib.Algebra.Ring.Nat
import Mathlib.Data.List.Chain
import Mathlib.Data.List.Infix

namespace Straks.Chain

open List BitVec Nat

/-- The bits decode to a positive target that does not overflow. -/
structure Decodes (nBits : UInt32) : Prop where
  positive : (setCompact nBits).value ≠ 0
  notNegative : (setCompact nBits).fNegative = false
  notOverflow : (setCompact nBits).fOverflow = false

/-- A target is short or ends with a zero byte, so its successor does not wrap. -/
theorem setCompact_succ_lt (nBits : UInt32) : (setCompact nBits).value.toNat + 1 < 2 ^ 256 := by
  simp only [setCompact]
  split_ifs with short
  · have small : nBits.toNat % 2 ^ 23 / 256 ^ (3 - nBits.toNat / 2 ^ 24) < 2 ^ 23 :=
      Nat.lt_of_le_of_lt (Nat.div_le_self _ _) (Nat.mod_lt _ (by decide))
    rw [BitVec.toNat_ofNat, Nat.mod_eq_of_lt (by omega)]
    omega
  · have even : 2 ∣ (BitVec.ofNat 256 (nBits.toNat % 2 ^ 23) <<< (8 * (nBits.toNat / 2 ^ 24 - 3))).toNat := by
      rw [BitVec.toNat_shiftLeft, Nat.shiftLeft_eq, Nat.dvd_mod_iff (by decide)]
      exact dvd_mul_of_dvd_right (dvd_pow_self 2 (by omega)) _
    omega

/-- The complement divided by the successor, plus one, is the quotient of the range. -/
theorem getBlockProof_eq {nBits : UInt32} (decodes : Decodes nBits) :
    (getBlockProof nBits).toNat = 2 ^ 256 / ((setCompact nBits).value.toNat + 1) := by
  have next := setCompact_succ_lt nBits
  have proof : getBlockProof nBits = (~~~(setCompact nBits).value / ((setCompact nBits).value + 1)) + 1 :=
    if_neg (by simpa [decodes.notNegative, decodes.notOverflow] using decodes.positive)
  have positive := decodes.positive
  generalize (setCompact nBits).value = target at next proof positive ⊢
  have nonzero : target.toNat ≠ 0 := fun zero => positive (eq_of_toNat_eq zero)
  have quotient : (2 ^ 256 - 1 - target.toNat) / (target.toNat + 1) + 1 = 2 ^ 256 / (target.toNat + 1) := by
    rw [← add_div_right _ (succ_pos _)]
    congr 1
    omega
  have below : 2 ^ 256 / (target.toNat + 1) < 2 ^ 256 := div_lt_self (by decide) (by omega)
  have succ : (target + 1).toNat = target.toNat + 1 := by
    rw [toNat_add, show (1 : Uint256).toNat = 1 from rfl, mod_eq_of_lt next]
  rw [proof, toNat_add, toNat_udiv, toNat_not, succ, show (1 : Uint256).toNat = 1 from rfl,
    quotient, mod_eq_of_lt below]

theorem getBlockProof_pos {nBits : UInt32} (decodes : Decodes nBits) : 0 < (getBlockProof nBits).toNat := by
  rw [getBlockProof_eq decodes]
  exact div_pos (le_of_lt (setCompact_succ_lt nBits)) (succ_pos _)

/-- The proofs of headers add up in unbounded numbers. -/
def totalProof (headers : List CBlockHeader) : Nat :=
  (headers.map fun block => (getBlockProof block.nBits).toNat).sum

/-- The branch of the headers, the newest first. -/
def branchOf (headers : List CBlockHeader) : Branch := headers.foldr addToBlockIndex []

/-- The work at each block, the newest first, and zero before the first block. -/
def Branch.work (branch : Branch) : List Nat := branch.map (·.nChainWork.toNat) ++ [0]

/-- Below the range, the work at each block is the sum of the proofs up to it. -/
theorem branchOf_work {headers : List CBlockHeader} (fits : totalProof headers < 2 ^ 256) :
    (branchOf headers).work = headers.tails.map totalProof := by
  induction headers with
  | nil => rfl
  | cons block older ih =>
    have total : totalProof (block :: older) = (getBlockProof block.nBits).toNat + totalProof older := by
      simp [totalProof]
    have sums := ih (by omega)
    have sum : (addToBlockIndex block (branchOf older)).work =
        ((branchOf older).work.headD 0 + (getBlockProof block.nBits).toNat) % 2 ^ 256 :: (branchOf older).work := by
      cases branchOf older with
      | nil => simp [addToBlockIndex, Branch.work, mod_eq_of_lt (isLt _)]
      | cons => simp [addToBlockIndex, Branch.work, indexHeader]
    have newest : (branchOf older).work.headD 0 = totalProof older := by
      rw [sums]
      cases older <;> rfl
    rw [branchOf, foldr_cons, ← branchOf, sum, newest, sums, tails_cons, map_cons, total, add_comm,
      mod_eq_of_lt (by omega)]

/-- The proof of a positive target is the quotient of the range, at least one. Along a branch whose total stays below
the range the work is the sum of the proofs and grows with each block. -/
theorem chainWork_exact :
    (∀ nBits, Decodes nBits → (getBlockProof nBits).toNat = 2 ^ 256 / ((setCompact nBits).value.toNat + 1) ∧
      1 ≤ (getBlockProof nBits).toNat) ∧
    ∀ headers : List CBlockHeader, (∀ block ∈ headers, Decodes block.nBits) → totalProof headers < 2 ^ 256 →
      (branchOf headers).work = headers.tails.map totalProof ∧ (branchOf headers).work.IsChain (· > ·) := by
  refine ⟨fun nBits decodes => ⟨getBlockProof_eq decodes, getBlockProof_pos decodes⟩, fun headers decode fits => ?_⟩
  have sums := branchOf_work fits
  refine ⟨sums, sums ▸ ?_⟩
  clear sums fits
  induction headers with
  | nil => exact .singleton _
  | cons block older ih =>
    rw [forall_mem_cons] at decode
    have grows : totalProof (block :: older) > totalProof older := by
      have positive := getBlockProof_pos decode.1
      simp only [totalProof, map_cons, sum_cons]
      omega
    refine isChain_cons.mpr ⟨?_, ih decode.2⟩
    cases older <;> simpa using grows

theorem chainWork_exact_two :
    let block : CBlockHeader := ⟨1, 0, 0, 0, 0x1e0ffff0, 0⟩
    (branchOf [block, block]).work = [2097184, 1048592, 0] := by
  have decodes : Decodes 0x1e0ffff0 := ⟨by decide +kernel, rfl, rfl⟩
  intro block
  rw [(chainWork_exact.2 _ (by simp [block, decodes]) (by decide +kernel)).1]
  decide +kernel

end Straks.Chain
