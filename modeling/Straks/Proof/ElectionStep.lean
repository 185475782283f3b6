import Straks.Construction.Election.Announcement
import Straks.Library.Run

namespace Straks.Election

open List CMasternode

variable (mn : CMasternode)

/-- What an entry keeps of its announcement. -/
def CMasternode.announced : Dsee :=
  { mn.entry 0 0 with lastUpdated := 0 }

@[simp] theorem applyScanningError_announced (mnse : ScanningError) :
    (mn.applyScanningError mnse).announced = mn.announced := by
  simp only [applyScanningError]
  split_ifs <;> rfl

@[simp] theorem applyScanningError_lastTimeSeen (mnse : ScanningError) :
    (mn.applyScanningError mnse).lastTimeSeen = mn.lastTimeSeen := by
  simp only [applyScanningError]
  split_ifs <;> rfl

variable {man : MasternodeMan} {mn pmn : CMasternode} {env : Env} {view : View} {event : Event} {vin : CTxIn}

/-- The number of scanning errors stays below four. -/
theorem applyScanningError_count_lt (mnse : ScanningError) (few : mn.nScanningErrorCount < 4) :
    (mn.applyScanningError mnse).nScanningErrorCount < 4 := by
  have threshold : masternodeScanningErrorThreshold * 2 = 12 := rfl
  simp only [applyScanningError, threshold]
  split
  · exact few
  · split
    · exact few
    · dsimp only
      split_ifs <;> omega

/-- Announcements and pings for this collateral. -/
def Event.isFrom (prevout : COutPoint) : Event → Prop
  | .dsee entry => entry.vin.prevout = prevout
  | .dseep ping => ping.vin.prevout = prevout
  | _ => False

/-- An entry after an event is one from before, but for what the event writes. -/
structure Kept (view : View) (event : Event) (before after : CMasternode) : Prop where
  announced : after.announced = before.announced
  seen : after.lastTimeSeen = before.lastTimeSeen ∨
    event.isFrom before.vin.prevout ∧ (after.lastTimeSeen = view.getAdjustedTime ∨ after.lastTimeSeen = 0)
  errors : before.nScanningErrorCount < 4 → after.nScanningErrorCount < 4

theorem Kept.refl (view : View) (event : Event) (mn : CMasternode) : Kept view event mn mn :=
  ⟨rfl, .inl rfl, id⟩

theorem Kept.check (env : Env) (view : View) (event : Event) (mn : CMasternode) :
    Kept view event mn (mn.check env view) :=
  ⟨rfl, .inl rfl, id⟩

/-- Where an entry on the list after an event comes from. -/
inductive Origin (env : Env) (view : View) (man : MasternodeMan) (event : Event) (after : CMasternode) : Prop
  | kept (before : CMasternode) (member : before ∈ man.vMasternodes) (kept : Kept view event before after)
  | updated (before : CMasternode) (dsee : Dsee) (member : before ∈ man.vMasternodes) (announced : event = .dsee dsee)
      (passed : checkDsee env view dsee = .ok ()) (known : man.find dsee.vin = some before)
      (key : before.pubkey = dsee.pubkey)
      (value : after = ((before.updateLastSeen view.getAdjustedTime 0).takeOver dsee).check env view)
  | added (dsee : Dsee) (announced : event = .dsee dsee) (passed : checkDsee env view dsee = .ok ())
      (backed : checkCollateral env view dsee = .ok ()) (missing : man.find dsee.vin = none)
      (value : after = dsee.normalise.masternode.updateLastSeen view.getAdjustedTime dsee.lastUpdated)

theorem Origin.same (env : Env) (view : View) (event : Event) (member : mn ∈ man.vMasternodes) :
    Origin env view man event mn :=
  .kept mn member (Kept.refl view event mn)

theorem find_some (found : man.find vin = some pmn) : pmn ∈ man.vMasternodes ∧ pmn.vin.prevout = vin.prevout :=
  ⟨mem_of_find?_eq_some found, by simpa [isAt] using find?_some found⟩

theorem find_eq_none : man.find vin = none ↔ ∀ mn ∈ man.vMasternodes, mn.vin.prevout ≠ vin.prevout := by
  simp [MasternodeMan.find, isAt]

variable {changed : CMasternode} {dsee : Dsee} {dseep : Dseep}

/-- A changed entry stands beside the entries of before. -/
theorem origin_replace (origin : Origin env view man event changed)
    (member : mn ∈ (man.replace vin changed).vMasternodes) : Origin env view man event mn := by
  rcases mem_or_eq_of_mem_set member with old | rfl
  · exact .same env view event old
  · exact origin

theorem mem_add {added : CMasternode} (member : mn ∈ (man.add added).vMasternodes) :
    mn ∈ man.vMasternodes ∨ mn = added ∧ man.find added.vin = none := by
  by_cases free : (added.isEnabled && (man.find added.vin).isNone) = true
  · simp only [MasternodeMan.add, if_pos free, mem_append, mem_singleton] at member
    rw [Bool.and_eq_true, Option.isNone_iff_eq_none] at free
    exact member.imp_right fun same => ⟨same, free.2⟩
  · rw [MasternodeMan.add, if_neg free] at member
    exact .inl member

@[simp] theorem normalise_vin (dsee : Dsee) : dsee.normalise.vin = dsee.vin := by
  simp only [Dsee.normalise]
  split_ifs <;> rfl

@[simp] theorem normalise_pubkey (dsee : Dsee) : dsee.normalise.pubkey = dsee.pubkey := by
  simp only [Dsee.normalise]
  split_ifs <;> rfl

@[simp] theorem normalise_lastUpdated (dsee : Dsee) : dsee.normalise.lastUpdated = dsee.lastUpdated := by
  simp only [Dsee.normalise]
  split_ifs <;> rfl

theorem updateEntry_origin (passed : checkDsee env view dsee = .ok ()) (found : man.find dsee.vin = some pmn) :
    Origin env view man (.dsee dsee) (updateEntry env view dsee pmn).1 := by
  obtain ⟨member, place⟩ := find_some found
  by_cases fresh : dsee.count = -1 ∧ pmn.pubkey = dsee.pubkey ∧
      pmn.updatedWithin view.getAdjustedTime masternodeMinDseeSeconds = false
  · by_cases newer : (pmn.updateLastSeen view.getAdjustedTime 0).sigTime < dsee.sigTime
    · simp only [updateEntry, if_pos fresh, if_pos newer]
      exact .updated pmn dsee member rfl passed found fresh.2.1 rfl
    · simp only [updateEntry, if_pos fresh, if_neg newer]
      exact .kept pmn member ⟨rfl, .inr ⟨place.symm, .inl rfl⟩, id⟩
  · simp only [updateEntry, if_neg fresh]
    exact .same env view _ member

theorem processDsee_origin (member : mn ∈ (processDsee env view man dsee).1.vMasternodes) :
    Origin env view man (.dsee dsee) mn := by
  cases passed : checkDsee env view dsee with
  | error actions =>
    simp only [processDsee, passed] at member
    exact .same env view _ member
  | ok _ =>
    cases found : if ours view dsee then none else man.find dsee.vin with
    | some pmn =>
      simp only [processDsee, passed, found] at member
      have known : man.find dsee.vin = some pmn := by
        split_ifs at found with own
        exact found
      exact origin_replace (updateEntry_origin passed known) member
    | none =>
      cases backed : checkCollateral env view dsee with
      | error actions =>
        simp only [processDsee, passed, found, backed] at member
        exact .same env view _ member
      | ok _ =>
        simp only [processDsee, passed, found, backed, newEntry, normalise_lastUpdated] at member
        rcases mem_add member with old | ⟨rfl, missing⟩
        · exact .same env view _ old
        · have named : man.find dsee.vin = none := by
            rw [← normalise_vin]
            exact missing
          exact .added dsee rfl passed backed named rfl

theorem pingEntry_kept (place : pmn.vin.prevout = dseep.vin.prevout) :
    Kept view (.dseep dseep) pmn (pingEntry env view dseep pmn).1 := by
  simp only [pingEntry]
  split
  · split
    · exact ⟨rfl, .inl rfl, id⟩
    · split
      · exact ⟨rfl, .inr ⟨place.symm, .inr rfl⟩, id⟩
      · exact ⟨rfl, .inr ⟨place.symm, .inl rfl⟩, id⟩
  · exact Kept.refl view _ pmn

@[simp] theorem askForEntry_vMasternodes (view : View) (man : MasternodeMan) (vin : CTxIn) :
    (askForEntry view man vin).1.vMasternodes = man.vMasternodes := by
  simp only [askForEntry]
  split
  · split_ifs <;> rfl
  · rfl

theorem processDseep_origin (member : mn ∈ (processDseep env view man dseep).1.vMasternodes) :
    Origin env view man (.dseep dseep) mn := by
  simp only [processDseep] at member
  split_ifs at member with window
  · exact .same env view _ member
  · cases found : (man.find dseep.vin).filter fun pmn => minPeerProtoVersion ≤ pmn.protocolVersion with
    | some pmn =>
      simp only [found] at member
      obtain ⟨old, place⟩ := find_some (Option.filter_eq_some_iff.mp found).1
      exact origin_replace (.kept pmn old (pingEntry_kept place)) member
    | none =>
      simp only [found, askForEntry_vMasternodes] at member
      exact .same env view _ member

theorem processMvote_origin {mvote : Mvote} (member : mn ∈ (processMvote env view man mvote).1.vMasternodes) :
    Origin env view man (.mvote mvote) mn := by
  cases found : man.find mvote.vin with
  | none =>
    simp only [processMvote, found] at member
    exact .same env view _ member
  | some pmn =>
    simp only [processMvote, found] at member
    split_ifs at member with fresh
    · apply origin_replace _ member
      exact .kept pmn (find_some found).1 ⟨rfl, .inl rfl, id⟩
    · exact .same env view _ member

@[simp] theorem processDseg_vMasternodes (view : View) (man : MasternodeMan) (pfrom : CService) (vin : CTxIn) :
    (processDseg view man pfrom vin).1.vMasternodes = man.vMasternodes := by
  simp only [processDseg]
  split_ifs <;> rfl

theorem processMessage_origin (member : mn ∈ (processMessage env view man event).1.vMasternodes) :
    Origin env view man event mn := by
  cases event with
  | dsee dsee => exact processDsee_origin member
  | dseep dseep => exact processDseep_origin member
  | mvote mvote => exact processMvote_origin member
  | dseg pfrom vin =>
    rw [processMessage, processDseg_vMasternodes] at member
    exact .same env view _ member
  | _ => exact .same env view _ member

theorem check_origin (member : mn ∈ (man.check env view).vMasternodes) : Origin env view man event mn := by
  obtain ⟨before, old, rfl⟩ := mem_map.mp member
  exact .kept before old (Kept.check env view event before)

/-- The handling of a message, unless messages are ignored. -/
theorem handle_message :
    handle env view man event = processMessage env view man event ∨ (handle env view man event).2 = [] := by
  cases event with
  | dsee | dseep | mvote | dseg =>
    simp only [handle]
    split_ifs
    · exact .inr rfl
    · exact .inl rfl
  | _ => exact .inr rfl

/-- Every entry after an event was kept, or is from an announcement that verified. -/
theorem handle_origin (member : mn ∈ (handle env view man event).1.vMasternodes) : Origin env view man event mn := by
  cases event with
  | dsee | dseep | mvote | dseg =>
    simp only [handle] at member
    split_ifs at member with ignored
    · exact .same env view _ member
    · exact processMessage_origin member
  | scanningError vin mnse =>
    simp only [handle, MasternodeMan.applyScanningError] at member
    cases found : man.find vin with
    | none =>
      simp only [found] at member
      exact .same env view _ member
    | some pmn =>
      simp only [found] at member
      apply origin_replace _ member
      exact .kept pmn (find_some found).1 ⟨by simp, .inl (by simp), applyScanningError_count_lt mnse⟩
  | check => exact check_origin member
  | checkAndRemove => exact check_origin (mem_of_mem_filter member)
  | remove vin => exact .same env view _ (mem_of_mem_eraseP member)
  | clear => cases member

/-- A node with its list and the time of the last event. -/
structure Node where
  man : MasternodeMan
  clock : Int

def Node.start : Node := ⟨.clear, 0⟩

/-- A node handles an event with what it sees at that moment. -/
def Node.step (env : Env) (node : Node) (event : View × Event) : Node :=
  ⟨(handle env event.1 node.man event.2).1, event.1.getAdjustedTime⟩

end Straks.Election
