import Straks.Proof.Disconnect

namespace Straks.Chain
open Coins Success List

variable {getHash : CTransaction → Uint256} {env : BlockEnv} {nHeight : Int} {tx : CTransaction}
  {state next final : ConnectState} {first : Bool}

/-- No total falls, and the fees grow no faster than the spent values. -/
structure Advanced (state next : ConnectState) : Prop where
  nFees : state.nFees ≤ next.nFees
  nValueIn : next.nFees - state.nFees ≤ next.nValueIn - state.nValueIn
  nValueOut : state.nValueOut ≤ next.nValueOut

theorem connectTransaction_advanced (success : connectTransaction getHash env nHeight first state tx = .ok next) :
    Advanced state next := by
  obtain ⟨_, _, afterPresent⟩ := bind_eq_ok.mp success
  split at afterPresent
  · cases afterPresent
  · obtain ⟨values, inputs, afterInputs⟩ := bind_eq_ok.mp afterPresent
    obtain ⟨nValueOut, valueOut, afterValue⟩ := bind_eq_ok.mp afterInputs
    obtain ⟨_, _, returned⟩ := bind_eq_ok.mp afterValue
    have range := (moneyRange_iff _).mp ((addValueOut_ok valueOut).2.2 rfl)
    obtain ⟨_, _, nonneg, below, _⟩ := checkInputs_eq inputs
    cases returned
    constructor <;> simp only <;> lia

theorem connectTransactions_advanced {vtx : List CTransaction}
    (success : connectTransactions getHash env nHeight first state vtx = .ok final) : Advanced state final := by
  induction vtx generalizing first state with
  | nil =>
    cases success
    constructor <;> simp
  | cons tx rest ih =>
    obtain ⟨next, step, later⟩ := bind_eq_ok.mp success
    obtain ⟨⟩ := connectTransaction_advanced step
    obtain ⟨⟩ := ih later
    constructor <;> lia

theorem connectTransactions_append {processed rest : List CTransaction}
    (success : connectTransactions getHash env nHeight first state (processed ++ rest) = .ok final)
    (reached : connectTransactions getHash env nHeight first state processed = .ok next) : Advanced next final := by
  induction processed generalizing first state with
  | nil =>
    cases reached
    exact connectTransactions_advanced success
  | cons tx processed ih =>
    obtain ⟨middle, step, later⟩ := bind_eq_ok.mp success
    obtain ⟨_, step', further⟩ := bind_eq_ok.mp reached
    cases step.symm.trans step'
    exact ih later further

/-- The running totals are signed 64-bit numbers. -/
def ConnectState.Fits (state : ConnectState) : Prop :=
  ∀ total ∈ [state.nFees, state.nValueIn, state.nValueOut], -2 ^ 63 ≤ total ∧ total < 2 ^ 63

/-- A block in which one coin of 41,250,000 moves 2236 times. -/
def movingBlock : CBlock :=
  ⟨⟨1, 1, 0, 0, 1, 0⟩, ⟨1, [⟨⟨0, 0xffffffff⟩, [0x52, 0x00], 0xffffffff, []⟩], [⟨0, [0x87]⟩], 0⟩ ::
    (range 2236).map fun n =>
      ⟨1, [⟨⟨BitVec.ofNat 256 (n + 1), 0⟩, [], 0xffffffff, []⟩], [⟨41250000 * coin, [0x51]⟩], UInt32.ofNat (n + 2)⟩⟩

end Straks.Chain
