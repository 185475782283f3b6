import Straks.Proof.ElectionCollateral

namespace Straks.Election

open List CMasternode

variable (env : Env)

/-- What a check asks for: few errors, a recent sighting and a good collateral. -/
structure Good (view : View) (mn : CMasternode) : Prop where
  errors : mn.nScanningErrorCount < masternodeScanningErrorThreshold
  seen : mn.updatedWithin view.getAdjustedTime masternodeExpirationSeconds = true
  collateral : mn.unitTest = true ∨ acceptableInputs env view.coins (collateralTransaction env mn.vin) = .ok ()

/-- What happens to an entry: a ping, its end, a scanning report, or a check of any view. -/
inductive EntryEvent where
  | seen (now override : Int)
  | disabled
  | report (mnse : ScanningError)
  | check (view : View)

def EntryEvent.apply (mn : CMasternode) : EntryEvent → CMasternode
  | .seen now override => mn.updateLastSeen now override
  | .disabled => mn.disable
  | .report mnse => mn.applyScanningError mnse
  | .check view => mn.check env view

def CMasternode.history (mn : CMasternode) (events : List EntryEvent) : CMasternode :=
  events.foldl (EntryEvent.apply env) mn

/-- Every completed check of the history finds the entry good. -/
def AlwaysGood (env : Env) : CMasternode → List EntryEvent → Prop
  | _, [] => True
  | mn, event :: rest =>
    (∀ view, event = .check view → view.lockRecv mn.vin.prevout = true → Good env view mn) ∧
      AlwaysGood env (event.apply env mn) rest

variable {env : Env} {view : View} {mn : CMasternode}

/-- A check never changes the state of a good entry. -/
theorem Good.checkedState (good : Good env view mn) : mn.checkedState env view = mn.activeState := by
  have removal : mn.updatedWithin view.getAdjustedTime masternodeRemovalSeconds = true :=
    decide_eq_true ((of_decide_eq_true good.seen).trans (by decide))
  rw [CMasternode.checkedState, removal, good.seen, if_neg (not_le.mpr good.errors)]
  rcases good.collateral with untested | accepted
  · simp [untested]
  · simp [accepted]

/-- A completed check of another entry finds something wrong. -/
theorem checkedState_of_not_good (locked : view.lockRecv mn.vin.prevout = true) (bad : ¬ Good env view mn) :
    mn.checkedState env view ≠ .enabled ∧
      (mn.checkedState env view = .posError → masternodeScanningErrorThreshold ≤ mn.nScanningErrorCount) := by
  rw [checkedState, locked, Bool.not_true, if_neg Bool.false_ne_true]
  split
  next many => exact ⟨by decide, fun _ => many⟩
  next few =>
    split
    next spent => simp [spent]
    next =>
      split
      · simp
      · split
        · simp
        next seen =>
          split
          next untested =>
            exact absurd ⟨not_le.mp few, by simpa using seen, .inl untested⟩ bad
          next =>
            split
            next accepted => exact absurd ⟨not_le.mp few, by simpa using seen, .inr accepted⟩ bad
            next => simp

theorem check_enabled_iff (locked : view.lockRecv mn.vin.prevout = true) :
    (mn.check env view).activeState = .enabled ↔ mn.activeState = .enabled ∧ Good env view mn := by
  by_cases good : Good env view mn
  · rw [and_iff_left good]
    exact Eq.congr_left good.checkedState
  · exact iff_of_false (checkedState_of_not_good locked good).1 fun both => good both.2

@[simp] theorem applyScanningError_activeState (mn : CMasternode) (mnse : ScanningError) :
    (mn.applyScanningError mnse).activeState = mn.activeState := by
  simp only [applyScanningError]
  split_ifs <;> rfl

/-- Only a completed check that finds something wrong changes an enabled entry, and nothing enables one. -/
theorem apply_enabled_iff (env : Env) (mn : CMasternode) (event : EntryEvent) :
    (event.apply env mn).activeState = .enabled ↔ mn.activeState = .enabled ∧
      ∀ view, event = .check view → view.lockRecv mn.vin.prevout = true → Good env view mn := by
  cases event with
  | check view =>
    by_cases locked : view.lockRecv mn.vin.prevout = true
    · simp [EntryEvent.apply, check_enabled_iff locked, locked]
    · simp [EntryEvent.apply, CMasternode.check, checkedState, locked]
  | report mnse => simp [EntryEvent.apply]
  | seen now override => simp [EntryEvent.apply, updateLastSeen]
  | disabled => simp [EntryEvent.apply, CMasternode.disable]

theorem history_enabled_iff (env : Env) (mn : CMasternode) (events : List EntryEvent) :
    (mn.history env events).activeState = .enabled ↔ mn.activeState = .enabled ∧ AlwaysGood env mn events := by
  induction events generalizing mn with
  | nil => exact (and_iff_left trivial).symm
  | cons event rest ih => exact (ih _).trans (by rw [apply_enabled_iff, and_assoc, AlwaysGood])

/-- After every history, a completed check finds the entry enabled exactly when it is good if and only if a good entry was
enabled at first and good at all completed checks before: no entry recovers. -/
theorem check_recovers_iff (env : Env) (mn : CMasternode) (events : List EntryEvent) (view : View)
    (locked : view.lockRecv (mn.history env events).vin.prevout = true) :
    (((mn.history env events).check env view).activeState = .enabled ↔ Good env view (mn.history env events)) ↔
      (Good env view (mn.history env events) → mn.activeState = .enabled ∧ AlwaysGood env mn events) := by
  rw [check_enabled_iff locked, history_enabled_iff, and_iff_right_iff_imp]

theorem check_recovers_iff_pinged :
    let later := (announcement 0 1000 900 []).masternode.history regtestEnv [.seen 1000 0]
    (later.check regtestEnv (.of 1100 [ownOutput])).activeState = .enabled ↔
      Good regtestEnv (.of 1100 [ownOutput]) later :=
  (check_recovers_iff regtestEnv _ [.seen 1000 0] (.of 1100 [ownOutput]) rfl).mpr fun _ =>
    ⟨rfl, ⟨nofun, trivial⟩⟩

/-- An expired entry stays expired after a ping. -/
theorem check_not_recovered :
    let mn := (announcement 0 1000 900 []).masternode
    let later := mn.history regtestEnv [.seen 1000 0, .check (.of 5000 [ownOutput]), .seen 5000 0]
    mn.activeState = .enabled ∧ Good regtestEnv (.of 5100 [ownOutput]) later ∧
      (later.check regtestEnv (.of 5100 [ownOutput])).activeState = .expired :=
  ⟨rfl, ⟨by decide, by decide, .inr rfl⟩, rfl⟩

section Reports

def CMasternode.reported (mn : CMasternode) (reports : List ScanningError) : CMasternode :=
  reports.foldl applyScanningError mn

/-- What each report keeps, a sequence of reports keeps. -/
theorem reported_keeps {invariant : CMasternode → Prop} (reports : List ScanningError)
    (step : ∀ mn mnse, invariant mn → invariant (mn.applyScanningError mnse)) (initial : invariant mn) :
    invariant (mn.reported reports) := by
  induction reports generalizing mn with
  | nil => exact initial
  | cons mnse rest ih => exact ih (step mn mnse initial)

/-- The number of errors is between 0 and twice the threshold. -/
def CMasternode.InRange (mn : CMasternode) : Prop :=
  0 ≤ mn.nScanningErrorCount ∧ mn.nScanningErrorCount ≤ masternodeScanningErrorThreshold * 2

theorem applyScanningError_inRange (mn : CMasternode) (mnse : ScanningError) (range : mn.InRange) :
    (mn.applyScanningError mnse).InRange := by
  have threshold : masternodeScanningErrorThreshold * 2 = 12 := rfl
  simp only [InRange, applyScanningError, threshold] at range ⊢
  split_ifs <;> grind

theorem applyScanningError_height {mnse : ScanningError} (valid : mnse.isValid = true) :
    (mn.applyScanningError mnse).nLastScanningErrorBlockHeight = mnse.nBlockHeight := by
  simp only [applyScanningError, valid]
  grind

/-- An error at a new height leaves fewer than four, the reset rule being below the threshold. -/
theorem applyScanningError_error {mnse : ScanningError} (valid : mnse.isValid = true) (failed : mnse.success = false)
    (new : mnse.nBlockHeight ≠ mn.nLastScanningErrorBlockHeight) :
    (mn.applyScanningError mnse).nScanningErrorCount < 4 := by
  simp only [applyScanningError, valid, failed, if_neg new]
  grind

theorem reported_error_lt {reports : List ScanningError} (valid : ∀ mnse ∈ reports, mnse.isValid = true)
    (distinct : (mn.nLastScanningErrorBlockHeight :: reports.map (·.nBlockHeight)).Nodup)
    (failed : ∃ mnse ∈ reports, mnse.success = false) : (mn.reported reports).nScanningErrorCount < 4 := by
  induction reports generalizing mn with
  | nil => simp at failed
  | cons mnse rest ih =>
    rw [forall_mem_cons] at valid
    rw [nodup_cons] at distinct
    by_cases failure : mnse.success = false
    · exact @reported_keeps _ (·.nScanningErrorCount < 4) rest (fun _ => applyScanningError_count_lt)
        (applyScanningError_error valid.1 failure fun same => distinct.1 (same ▸ mem_cons_self))
    · apply ih valid.2
      · rw [applyScanningError_height valid.1]
        exact distinct.2
      · simpa [failure] using failed

/-- Valid reports keep the number of errors in range. However many more errors than successes come at distinct heights,
a completed check finds only a good entry in the error state that was in it before. -/
theorem reported_posError_iff (env : Env) (view : View) (mn : CMasternode) (reports : List ScanningError)
    (range : mn.InRange) (valid : ∀ mnse ∈ reports, mnse.isValid = true)
    (locked : view.lockRecv (mn.reported reports).vin.prevout = true) :
    (mn.reported reports).InRange ∧ ((reports.map (·.nBlockHeight)).Nodup →
      masternodeScanningErrorThreshold ≤ (reports.countP (!·.success) : Int) - reports.countP (·.success) →
      (((mn.reported reports).check env view).activeState = .posError ↔
        mn.activeState = .posError ∧ Good env view (mn.reported reports))) := by
  refine ⟨reported_keeps reports applyScanningError_inRange range, fun distinct more => ?_⟩
  have threshold : masternodeScanningErrorThreshold = 6 := rfl
  have few : (mn.reported reports).nScanningErrorCount < 4 := by
    cases reports with
    | nil => exact absurd more (by decide)
    | cons first rest =>
      -- only the first report can repeat the height of an earlier one
      rw [forall_mem_cons] at valid
      apply reported_error_lt valid.2
      · rw [applyScanningError_height valid.1]
        exact distinct
      · rw [countP_cons] at more
        have positive : 0 < rest.countP (!·.success) := by split at more <;> omega
        simpa using countP_pos_iff.mp positive
  have same : (mn.reported reports).activeState = mn.activeState :=
    reported_keeps reports (fun mn mnse => (applyScanningError_activeState mn mnse).trans) rfl
  by_cases good : Good env view (mn.reported reports)
  · rw [and_iff_left good, CMasternode.check, good.checkedState, same]
  · refine iff_of_false (fun error => ?_) fun both => good both.2
    have many := (checkedState_of_not_good locked good).2 error
    omega

theorem reported_posError_iff_six :
    let reports := [1, 2, 3, 4, 5, 6].map fun nBlockHeight => ⟨true, nBlockHeight, false⟩
    (((announcement 0 1000 900 []).masternode.reported reports).check regtestEnv (.of 1000 [])).activeState ≠
      .posError :=
  fun error => absurd (((reported_posError_iff regtestEnv (.of 1000 []) _ _ ⟨by decide, by decide⟩ (by simp) rfl).2
    (by decide) (by decide)).mp error).1 (by decide)

/-- The fourth of six errors starts the count again; the masternode stays enabled. -/
theorem reported_reset :
    let reports := [1, 2, 3, 4, 5, 6].map fun nBlockHeight => ⟨true, nBlockHeight, false⟩
    let after := ((announcement 0 1000 900 []).masternode.updateLastSeen 1000 0).reported reports
    after.nScanningErrorCount = 2 ∧ (after.check regtestEnv (.of 1000 [ownOutput])).activeState = .enabled :=
  ⟨rfl, rfl⟩

end Reports

end Straks.Election
