import Straks.Construction.Masternode.Payments

namespace Straks.Masternode

open List

variable {entry : CMasternodePaymentWinner} {env : Env} {state : Payments}

/-- Overwriting in place brings no winner besides the new one. -/
theorem mem_overwriteWinner {winnerIn : CMasternodePaymentWinner} {vWinning replaced : List CMasternodePaymentWinner}
    (overwritten : overwriteWinner winnerIn vWinning = some replaced) (member : entry ∈ replaced) :
    entry ∈ vWinning ∨ entry = winnerIn := by
  induction vWinning generalizing replaced with
  | nil => simp [overwriteWinner] at overwritten
  | cons winner rest ih =>
    simp only [overwriteWinner] at overwritten
    split at overwritten
    next lower =>
      cases overwritten
      rcases mem_cons.mp member with rfl | later
      · right
        rw [lower.1]
      · exact .inl (mem_cons_of_mem _ later)
    next =>
      rw [Option.map_eq_some_iff] at overwritten
      rcases overwritten with ⟨tail, found, rfl⟩
      rcases mem_cons.mp member with rfl | later
      · exact .inl mem_cons_self
      · rcases ih found later with old | new
        · exact .inl (mem_cons_of_mem _ old)
        · exact .inr new

variable {winner : CMasternodePaymentWinner} {history : List PaymentsEvent}

theorem mem_addWinningMasternode (member : entry ∈ (addWinningMasternode env state winner).1.vWinning) :
    entry ∈ state.vWinning ∨ entry = scored env winner := by
  unfold addWinningMasternode at member
  cases overwritten : overwriteWinner (scored env winner) state.vWinning with
  | some replaced =>
    simp only [overwritten] at member
    exact mem_overwriteWinner overwritten member
  | none =>
    simp only [overwritten] at member
    split at member
    · exact .inl member
    · simpa using member

/-- The votes the node has seen include the new one. -/
def Payments.recordVote (env : Env) (state : Payments) (winner : CMasternodePaymentWinner) : Payments :=
  { state with
    mapSeenMasternodeVotes := insertVote state.mapSeenMasternodeVotes (winner.getHash env) winner }

/-- A vote is dropped or is new, in range, final and, when more than one block above the tip, signed. -/
theorem processVote_cases (env : Env) (initialBlockDownload : Bool) (state : Payments)
    (winner : CMasternodePaymentWinner) : (processVote env initialBlockDownload state winner).1 = state ∨
      ∃ height, state.tip = some height ∧ winner.getHash env ∉ state.mapSeenMasternodeVotes ∧
        outOfRange height winner = false ∧ winner.vin.nSequence = 0xffffffff ∧
        (height + 1 < winner.nBlockHeight.toInt → checkSignature env winner = true) ∧
        (processVote env initialBlockDownload state winner).1 =
          (addWinningMasternode env (state.recordVote env winner) winner).1 := by
  unfold processVote
  split
  next => exact .inl rfl
  next =>
    cases tip : state.tip with
    | none => exact .inl rfl
    | some height =>
      by_cases seen : winner.getHash env ∈ state.mapSeenMasternodeVotes
      · simp [seen]
      · by_cases outside : outOfRange height winner = true
        · simp [outside]
        · by_cases sequence : winner.vin.nSequence = 0xffffffff
          · by_cases unsigned : height + 1 < winner.nBlockHeight.toInt ∧ checkSignature env winner = false
            · simp [seen, outside, sequence, unsigned]
            · refine .inr ⟨height, rfl, seen, by simpa using outside, sequence, fun above => ?_, ?_⟩
              · by_contra invalid
                exact unsigned ⟨above, by simpa using invalid⟩
              · simp only [seen, outside, sequence, unsigned, if_false, ne_eq, not_true_eq_false,
                  Payments.recordVote, tip, Bool.false_eq_true]
          · simp [seen, outside, sequence]

/-- A vote brings at most itself, when signed or at most one block above the tip. -/
theorem mem_processVote {initialBlockDownload : Bool}
    (member : entry ∈ (processVote env initialBlockDownload state winner).1.vWinning) :
    entry ∈ state.vWinning ∨ (entry = scored env winner ∧ ∃ height, state.tip = some height ∧
      (checkSignature env winner = true ∨ winner.nBlockHeight.toInt ≤ height + 1)) := by
  rcases processVote_cases env initialBlockDownload state winner with
    dropped | ⟨height, tip, -, -, -, signed, added⟩
  · rw [dropped] at member
    exact .inl member
  · rw [added] at member
    rcases mem_addWinningMasternode member with old | new
    · exact .inl old
    · refine .inr ⟨new, height, tip, ?_⟩
      by_cases near : winner.nBlockHeight.toInt ≤ height + 1
      · exact .inr near
      · exact .inl (signed (by omega))

theorem mem_cleanPaymentList {masternodes : Nat} (member : entry ∈ (cleanPaymentList masternodes state).vWinning) :
    entry ∈ state.vWinning := by
  unfold cleanPaymentList at member
  split at member
  · exact member
  · exact mem_of_mem_eraseP member

/-- The history holds a vote for the entry at a height at most one above the tip. -/
def NearVote (env : Env) (history : List PaymentsEvent) (entry : CMasternodePaymentWinner) : Prop :=
  ∃ before initialBlockDownload winner after height,
    history = before ++ .vote initialBlockDownload winner :: after ∧
      (paymentsRun env before).tip = some height ∧ winner.nBlockHeight.toInt ≤ height + 1 ∧
      entry = scored env winner

theorem NearVote.extend (near : NearVote env history entry) (event : PaymentsEvent) :
    NearVote env (history ++ [event]) entry := by
  rcases near with ⟨before, initialBlockDownload, winner, after, height, rfl, tip, below, same⟩
  exact ⟨before, initialBlockDownload, winner, after ++ [event], height, by simp, tip, below, same⟩

/-- Every winner is signed or came from a vote near the tip of its time. -/
def Authentic (env : Env) (history : List PaymentsEvent) (entry : CMasternodePaymentWinner) : Prop :=
  checkSignature env entry = true ∨ NearVote env history entry

theorem Authentic.extend (authentic : Authentic env history entry) (event : PaymentsEvent) :
    Authentic env (history ++ [event]) entry := by
  rcases authentic with signed | near
  · exact .inl signed
  · exact .inr (near.extend event)

/-- One event keeps every winner authentic. -/
theorem paymentsStep_authentic (env : Env) (history : List PaymentsEvent) (event : PaymentsEvent)
    (authentic : ∀ entry ∈ (paymentsRun env history).vWinning, Authentic env history entry) :
    ∀ entry ∈ (paymentsStep env (paymentsRun env history) event).vWinning,
      Authentic env (history ++ [event]) entry := by
  intro entry member
  cases event with
  | vote initialBlockDownload winner =>
    rcases mem_processVote member with old | ⟨rfl, height, tip, signed | near⟩
    · exact (authentic entry old).extend _
    · exact .inl signed
    · exact .inr ⟨history, initialBlockDownload, winner, [], height, rfl, tip, near, rfl⟩
  | tipChange tip => exact (authentic entry member).extend _
  | clean masternodes => exact (authentic entry (mem_cleanPaymentList member)).extend _

/-- A signer that rejects every signature. -/
def rejectingEnv : Env where
  signer := { getHash := fun _ => 0, recoverCompact := fun _ _ => none, getID := fun _ => 0 }
  lyra2re2Hash := fun _ => 0
  mainNetwork := true

/-- A vote for the next block without any signature. -/
def unsignedVote : CMasternodePaymentWinner :=
  ⟨6, ⟨⟨1, 0⟩, [], 0xffffffff, []⟩, [0x51], [], 0⟩

end Straks.Masternode
