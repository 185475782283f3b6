import Straks.Proof.ElectionCollateral

namespace Straks.Election

open Run CMasternode Node

/-- The clock stays a signed 64-bit number without going back, and a new announcement was not last seen after it. -/
structure Timely (node : Node) (event : View × Event) : Prop where
  forward : node.clock ≤ event.1.getAdjustedTime
  range : event.1.getAdjustedTime < 2 ^ 63
  lastUpdated : ∀ dsee, event.2 = .dsee dsee → node.man.find dsee.vin = none →
    0 ≤ dsee.lastUpdated ∧ dsee.lastUpdated ≤ event.1.getAdjustedTime

/-- Every entry was last seen between the start of time and now, with few errors. -/
structure SeenBefore (clock : Int) (mn : CMasternode) : Prop where
  start : 0 ≤ mn.lastTimeSeen
  clock : mn.lastTimeSeen ≤ clock
  errors : mn.nScanningErrorCount < 4

/-- The clock of a node is past zero and past every entry. -/
def Node.Timed (node : Node) : Prop :=
  0 ≤ node.clock ∧ ∀ mn ∈ node.man.vMasternodes, SeenBefore node.clock mn

theorem start_timed : start.Timed := by
  constructor
  · exact le_refl _
  · intro mn member
    cases member

variable {env : Env} {node : Node} {since : Int}

variable {event : View × Event} {events : List (View × Event)} {prevout : COutPoint} {mn : CMasternode}

theorem Node.Timed.step (timed : node.Timed) (timely : Timely node event) : (node.step env event).Timed := by
  have later : 0 ≤ event.1.getAdjustedTime := timed.1.trans timely.forward
  constructor
  · exact later
  · intro mn member
    cases handle_origin member with
    | kept before old kept =>
      obtain ⟨start, clock, errors⟩ := timed.2 before old
      have few := kept.errors errors
      rcases kept.seen with same | ⟨-, now | zero⟩
      · exact ⟨same ▸ start, same ▸ clock.trans timely.forward, few⟩
      · exact ⟨now ▸ later, now.le, few⟩
      · exact ⟨zero.ge, zero ▸ later, few⟩
    | updated before dsee old announced passed known key value =>
      subst value
      exact ⟨later, le_refl _, (timed.2 before old).errors⟩
    | added dsee announced passed backed missing value =>
      subst value
      obtain ⟨start, clock⟩ := timely.lastUpdated dsee announced missing
      have errors : (0 : Int) < 4 := by decide
      by_cases given : dsee.lastUpdated = 0
      · exact ⟨by simp [updateLastSeen, given, later], by
          simp [updateLastSeen, given, Node.step], errors⟩
      · exact ⟨by simp [updateLastSeen, given, start], by
          simp [updateLastSeen, given, Node.step, clock], errors⟩

theorem run_timed (throughout : Throughout (step env) Timely start events) :
    (run (step env) start events).Timed :=
  run_throughout (fun _ _ timed timely => timed.step timely) start_timed throughout

/-- The entries of one collateral were not seen after a time. -/
def Node.Unseen (prevout : COutPoint) (since : Int) (node : Node) : Prop :=
  ∀ mn ∈ node.man.vMasternodes, mn.vin.prevout = prevout → mn.lastTimeSeen ≤ since

/-- Only a masternode's announcements and pings move when it was seen. -/
theorem Node.Unseen.step (unseen : node.Unseen prevout since) (silent : ¬ event.2.isFrom prevout) :
    (node.step env event).Unseen prevout since := by
  intro mn member place
  cases handle_origin member with
  | kept before old kept =>
    have vin : mn.vin = before.vin := congrArg Dsee.vin kept.announced
    rw [vin] at place
    rcases kept.seen with same | ⟨about, -⟩
    · exact same ▸ unseen before old place
    · exact absurd (place ▸ about) silent
  | updated before dsee old announced passed known key value =>
    subst value
    rw [announced] at silent
    exact absurd ((find_some known).2.symm.trans place) silent
  | added dsee announced passed backed missing value =>
    subst value
    rw [announced] at silent
    exact absurd ((congrArg CTxIn.prevout (normalise_vin dsee)).symm.trans place) silent

theorem run_unseen (unseen : node.Unseen prevout since) (silent : ∀ event ∈ events, ¬ event.2.isFrom prevout) :
    (run (step env) node events).Unseen prevout since := by
  induction events generalizing node with
  | nil => exact unseen
  | cons event rest ih =>
    rw [List.forall_mem_cons] at silent
    exact ih (unseen.step silent.1) silent.2

/-- The 64-bit difference is exact while the times are in order. -/
theorem updatedWithin_eq {now seconds : Int} (start : 0 ≤ mn.lastTimeSeen) (past : mn.lastTimeSeen ≤ now)
    (range : now < 2 ^ 63) : mn.updatedWithin now seconds = decide (now - mn.lastTimeSeen < seconds) := by
  rw [updatedWithin, Int.bmod_eq_of_le (by omega) (by omega)]

/-- After the time of expiration without a message a check finds the entry expired, after that of removal removed. -/
def Lapses (env : Env) (since : Int) (node : Node) (mn : CMasternode) : Prop :=
  ∀ view : View, view.lockRecv mn.vin.prevout = true → node.clock ≤ view.getAdjustedTime →
    view.getAdjustedTime < 2 ^ 63 → mn.activeState ≠ .vinSpent →
    (since + masternodeExpirationSeconds ≤ view.getAdjustedTime →
      (mn.check env view).activeState = .expired ∨ (mn.check env view).activeState = .remove) ∧
    (since + masternodeRemovalSeconds ≤ view.getAdjustedTime → (mn.check env view).activeState = .remove)

theorem SeenBefore.lapses (seen : SeenBefore node.clock mn) (unseen : mn.lastTimeSeen ≤ since) :
    Lapses env since node mn := by
  intro view lock later range unspent
  have within := fun seconds => @updatedWithin_eq mn view.getAdjustedTime seconds seen.start
    (seen.clock.trans later) range
  have errors : ¬ masternodeScanningErrorThreshold ≤ mn.nScanningErrorCount := by
    have few := seen.errors
    have threshold : masternodeScanningErrorThreshold = 6 := rfl
    omega
  simp only [CMasternode.check, checkedState, lock, Bool.not_true, Bool.false_eq_true, if_false,
    ge_iff_le, errors, unspent, within, Bool.not_eq_true', decide_eq_false_iff_not]
  constructor
  · intro expired
    by_cases removed : ¬ view.getAdjustedTime - mn.lastTimeSeen < masternodeRemovalSeconds
    · exact .inr (if_pos removed)
    · rw [if_neg removed, if_pos (by omega)]
      exact .inl rfl
  · intro removed
    exact if_pos (by omega)

/-- In every timely run no entry is ahead of the clock, and a silent masternode lapses on time. -/
theorem lastTimeSeen_le_clock (env : Env) (events : List (View × Event))
    (throughout : Throughout (step env) Timely start events) :
    (∀ mn ∈ (run (step env) start events).man.vMasternodes,
      mn.lastTimeSeen ≤ (run (step env) start events).clock) ∧
    ∀ before silent prevout, events = before ++ silent → (∀ event ∈ silent, ¬ event.2.isFrom prevout) →
      ∀ mn ∈ (run (step env) start events).man.vMasternodes, mn.vin.prevout = prevout →
        Lapses env (run (step env) start before).clock (run (step env) start events) mn := by
  have timed := run_timed throughout
  constructor
  · intro mn member
    exact (timed.2 mn member).clock
  · intro before silent prevout split quiet mn member place
    subst split
    apply (timed.2 mn member).lapses
    have heard := run_timed (throughout_append.mp throughout).1
    have unseen : (run (step env) start before).Unseen prevout
        (run (step env) start before).clock := by
      intro entry old _
      exact (heard.2 entry old).clock
    have append : run (step env) start (before ++ silent) =
        run (step env) (run (step env) start before) silent := List.foldl_append
    rw [append] at member
    exact run_unseen unseen quiet mn member place

/-- One announcement of a new masternode is timely. -/
theorem timely_announcement (now lastUpdated : Int) (past : 0 ≤ lastUpdated ∧ lastUpdated ≤ now)
    (range : now < 2 ^ 63) (sigTime : Int) :
    Timely start (.of now [ownOutput], .dsee (announcement 0 sigTime lastUpdated [])) := by
  constructor
  · exact past.1.trans past.2
  · exact range
  · intro dsee same _
    obtain rfl : announcement 0 sigTime lastUpdated [] = dsee := Event.dsee.inj same
    exact past

/-- A masternode seen 100 seconds before its announcement lapses on time. -/
theorem lastTimeSeen_le_clock_announced : (∀ mn ∈ (run (step regtestEnv) start
        [(.of 1000 [ownOutput], .dsee (announcement 0 1000 900 []))]).man.vMasternodes, mn.lastTimeSeen ≤ 1000) ∧
    Lapses regtestEnv 1000 (run (step regtestEnv) start
        [(.of 1000 [ownOutput], .dsee (announcement 0 1000 900 []))])
      ((announcement 0 1000 900 []).masternode.updateLastSeen 1000 900) := by
  obtain ⟨ahead, silent⟩ := lastTimeSeen_le_clock regtestEnv
    [(.of 1000 [ownOutput], .dsee (announcement 0 1000 900 []))]
    ⟨timely_announcement 1000 900 (by decide) (by decide) 1000, trivial⟩
  constructor
  · exact ahead
  · exact silent [(.of 1000 [ownOutput], .dsee (announcement 0 1000 900 []))] [] ⟨7, 0⟩ rfl (by simp) _
      (by decide +kernel) rfl

/-- The time of the last sighting is not signed; the first announcement sets it freely. -/
theorem lastTimeSeen_ahead : ∃ mn ∈ (run (step regtestEnv) start
        [(.of 1000 [ownOutput], .dsee (announcement 0 1000 1000000 []))]).man.vMasternodes,
      (run (step regtestEnv) start
        [(.of 1000 [ownOutput], .dsee (announcement 0 1000 1000000 []))]).clock < mn.lastTimeSeen :=
  ⟨(announcement 0 1000 0 []).masternode.updateLastSeen 1000 1000000, by decide +kernel, by decide⟩

end Straks.Election
