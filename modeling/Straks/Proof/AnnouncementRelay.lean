import Straks.Proof.ElectionCollateral

namespace Straks.Election

open Run Script Dsee Node

theorem normalise_donation (dsee : Dsee) : isPayToScriptHash dsee.normalise.donationAddress = false := by
  by_cases script : isPayToScriptHash dsee.donationAddress = true
  · rw [normalise, if_pos script]
    rfl
  · rw [normalise, if_neg script]
    exact Bool.eq_false_of_not_eq_true script

theorem normalise_of_plain {dsee : Dsee} (plain : isPayToScriptHash dsee.donationAddress = false) :
    dsee.normalise = dsee := by
  rw [normalise, if_neg (by simp [plain])]

/-- No entry donates to a script. -/
def Node.PlainDonations (node : Node) : Prop :=
  ∀ mn ∈ node.man.vMasternodes, isPayToScriptHash mn.donationAddress = false

/-- An announcement for a listed entry donates to no script. -/
def PlainUpdate (node : Node) : View × Event → Prop
  | (_, .dsee dsee) => (node.man.find dsee.vin).isSome → isPayToScriptHash dsee.donationAddress = false
  | _ => True

theorem Node.PlainDonations.step {env : Env} {node : Node} {event : View × Event} (plain : node.PlainDonations)
    (update : PlainUpdate node event) : (node.step env event).PlainDonations := by
  obtain ⟨view, event⟩ := event
  intro mn member
  cases handle_origin member with
  | kept before old kept =>
    have donation : mn.donationAddress = before.donationAddress := congrArg donationAddress kept.announced
    rw [donation]
    exact plain before old
  | updated before dsee old announced passed known key value =>
    subst value announced
    exact update (Option.isSome_of_eq_some known)
  | added dsee announced passed backed missing value =>
    subst value
    exact normalise_donation dsee

/-- Without an update that donates to a script, no entry ever does. -/
theorem donationAddress_plain (env : Env) (events : List (View × Event))
    (throughout : Throughout (step env) PlainUpdate start events) :
    (run (step env) start events).PlainDonations := by
  have start : start.PlainDonations := by
    intro mn member
    cases member
  exact run_throughout (fun _ _ plain update => plain.step update) start throughout

/-- A pay-to-script-hash donation address. -/
def scriptDonation : CScript := [0xa9, 0x14] ++ List.replicate 20 1 ++ [0x87]

/-- A first announcement may donate to a script, which is dropped. -/
theorem donationAddress_plain_first : (run (step regtestEnv) start
      [(.of 1000 [ownOutput], .dsee (announcement 0 1000 0 scriptDonation)),
        (.of 1600 [ownOutput], .dsee (announcement 0 1600 0 []))]).PlainDonations :=
  donationAddress_plain regtestEnv
    [(.of 1000 [ownOutput], .dsee (announcement 0 1000 0 scriptDonation)),
      (.of 1600 [ownOutput], .dsee (announcement 0 1600 0 []))]
    ⟨fun known => absurd known Bool.false_ne_true, fun _ => rfl, trivial⟩

/-- An update ten minutes later donates to a script. -/
theorem donationAddress_script : ∃ mn ∈ (run (step regtestEnv) start
      [(.of 1000 [ownOutput], .dsee (announcement 0 1000 0 [])),
        (.of 1600 [ownOutput], .dsee (announcement 0 1600 0 scriptDonation))]).man.vMasternodes,
      isPayToScriptHash mn.donationAddress = true :=
  ⟨(announcement 0 1600 0 scriptDonation).masternode.updateLastSeen 1600 0, by decide +kernel, by decide⟩

open Run Script List

variable (env : Env)

/-- What must be the case for a node to do this. -/
def Action.Justified (view : View) (man : MasternodeMan) (event : Event) : Action → Prop
  | .relayMasternodeEntry entry => ∃ dsee, event = .dsee dsee ∧ dsee.verifies env = true ∧
      (entry = dsee ∨ entry = dsee.normalise ∧ (ours view dsee = true ∨ man.find dsee.vin = none))
  | .sendEntry entry => ∃ mn ∈ man.vMasternodes, ∃ count current, entry = mn.entry count current
  | .misbehaving _ .badSignature => ∃ dsee, event = .dsee dsee ∧ dsee.verifies env = false
  | _ => True

section Justified

variable {env : Env} {view : View} {man : MasternodeMan} {action : Action}

variable {dsee : Dsee} {event : Event} {actions : List Action} {vin : CTxIn}

theorem justified_singleton {sole : Action} (member : action ∈ [sole]) (justified : sole.Justified env view man event) :
    action.Justified env view man event :=
  mem_singleton.mp member ▸ justified

theorem checkDsee_justified (failed : checkDsee env view dsee = .error actions) (member : action ∈ actions) :
    action.Justified env view man (.dsee dsee) := by
  simp only [checkDsee] at failed
  split_ifs at failed with future percentage version size size2 script bad port <;> cases failed
  · cases member
  · cases member
  · cases member
  · exact justified_singleton member trivial
  · exact justified_singleton member trivial
  · cases member
  · exact justified_singleton member ⟨dsee, rfl, by simpa using bad⟩
  · cases member

theorem updateEntry_justified {pmn : CMasternode} (verified : dsee.verifies env = true)
    (member : action ∈ (updateEntry env view dsee pmn).2) : action.Justified env view man (.dsee dsee) := by
  simp only [updateEntry] at member
  split at member
  · split at member
    · split_ifs at member with enabled
      · exact justified_singleton member ⟨dsee, rfl, verified, .inl rfl⟩
      · cases member
    · cases member
  · cases member

theorem checkCollateral_justified (failed : checkCollateral env view dsee = .error actions) (member : action ∈ actions)
    : action.Justified env view man (.dsee dsee) := by
  simp only [checkCollateral] at failed
  split at failed
  · cases failed
    exact justified_singleton member trivial
  · split at failed
    · cases failed
      split_ifs at member
      · exact justified_singleton member trivial
      · cases member
    · cases failed
      cases member
    · split_ifs at failed
      · cases failed
        exact justified_singleton member trivial
      · split at failed
        · split_ifs at failed
          cases failed
          cases member
        · cases failed

theorem newEntry_justified (verified : dsee.verifies env = true)
    (unlisted : ours view dsee = true ∨ man.find dsee.vin = none) (member : action ∈ (newEntry view man dsee).2) :
    action.Justified env view man (.dsee dsee) := by
  simp only [newEntry, mem_append] at member
  rcases member with (peer | hotCold) | relayed
  · exact justified_singleton peer trivial
  · split_ifs at hotCold
    · exact justified_singleton hotCold trivial
    · cases hotCold
  · split_ifs at relayed
    · exact justified_singleton relayed ⟨dsee, rfl, verified, .inr ⟨rfl, unlisted⟩⟩
    · cases relayed

theorem processDsee_justified (member : action ∈ (processDsee env view man dsee).2) :
    action.Justified env view man (.dsee dsee) := by
  cases passed : checkDsee env view dsee with
  | error actions =>
    simp only [processDsee, passed] at member
    exact checkDsee_justified passed member
  | ok _ =>
    have verified := checkDsee_ok passed
    cases found : if ours view dsee then none else man.find dsee.vin with
    | some pmn =>
      simp only [processDsee, passed, found] at member
      exact updateEntry_justified verified member
    | none =>
      cases backed : checkCollateral env view dsee with
      | error actions =>
        simp only [processDsee, passed, found, backed] at member
        exact checkCollateral_justified backed member
      | ok _ =>
        simp only [processDsee, passed, found, backed] at member
        apply newEntry_justified verified _ member
        split_ifs at found with own
        · exact .inl own
        · exact .inr found

theorem processDseep_justified {dseep : Dseep} (member : action ∈ (processDseep env view man dseep).2) :
    action.Justified env view man (.dseep dseep) := by
  simp only [processDseep] at member
  split at member
  · cases member
  · split at member
    · simp only [pingEntry] at member
      split at member
      · split_ifs at member
        · cases member
        · exact justified_singleton member trivial
        · exact justified_singleton member trivial
        · cases member
      · cases member
    · simp only [askForEntry, askForEntry.ask] at member
      split at member
      · split_ifs at member
        · cases member
        · exact justified_singleton member trivial
      · exact justified_singleton member trivial

theorem processMvote_justified {mvote : Mvote} (member : action ∈ (processMvote env view man mvote).2) :
    action.Justified env view man (.mvote mvote) := by
  simp only [processMvote] at member
  split at member
  · split_ifs at member
    · exact justified_singleton member trivial
    · cases member
  · cases member

/-- Only entries of the list are served. -/
theorem mem_sendEntries {count i : Int} {entries : List CMasternode} (member : action ∈ sendEntries vin count i entries)
    : ∃ mn ∈ entries, ∃ current, action = .sendEntry (mn.entry count current) := by
  induction entries generalizing i with
  | nil => cases member
  | cons mn rest ih =>
    have later : ∀ {j}, action ∈ sendEntries vin count j rest →
        ∃ mn' ∈ mn :: rest, ∃ current, action = .sendEntry (mn'.entry count current) := by
      intro j sent
      obtain ⟨entry, old, sent⟩ := ih sent
      exact ⟨entry, mem_cons_of_mem mn old, sent⟩
    simp only [sendEntries] at member
    split_ifs at member
    · exact later member
    · rcases mem_cons.mp member with same | sent
      · exact ⟨mn, mem_cons_self, i, same⟩
      · exact later sent
    · exact ⟨mn, mem_cons_self, i, mem_singleton.mp member⟩
    · exact later member

theorem processDseg_justified {pfrom : CService} (member : action ∈ (processDseg view man pfrom vin).2) :
    action.Justified env view man (.dseg pfrom vin) := by
  have served : action ∈ sendEntries vin man.vMasternodes.length 0 man.vMasternodes →
      action.Justified env view man (.dseg pfrom vin) := by
    intro sent
    obtain ⟨mn, old, current, rfl⟩ := mem_sendEntries sent
    exact ⟨mn, old, _, current, rfl⟩
  simp only [processDseg] at member
  split_ifs at member
  · exact justified_singleton member trivial
  · exact served member
  · exact served member

/-- A node relays what verified, serves its list, and blames only for a bad signature. -/
theorem handle_justified (member : action ∈ (handle env view man event).2) : action.Justified env view man event := by
  rcases @handle_message man env view event with message | silent
  · rw [message] at member
    cases event with
    | dsee dsee => exact processDsee_justified member
    | dseep dseep => exact processDseep_justified member
    | mvote mvote => exact processMvote_justified member
    | dseg pfrom vin => exact processDseg_justified member
    | _ => cases member
  · rw [silent] at member
    cases member

end Justified

/-- What every entry of the list says is signed. -/
def Node.Verified (node : Node) : Prop :=
  ∀ mn ∈ node.man.vMasternodes, mn.announced.verifies env = true

/-- An announcement put on the list does not donate to a script. -/
def PlainAnnouncement (node : Node) : View × Event → Prop
  | (view, .dsee dsee) => ours view dsee = true ∨ node.man.find dsee.vin = none →
      isPayToScriptHash dsee.donationAddress = false
  | _ => True

theorem Node.Verified.step {env : Env} {node : Node} {event : View × Event} (verified : node.Verified env)
    (plain : PlainAnnouncement node event) : (node.step env event).Verified env := by
  obtain ⟨view, event⟩ := event
  intro mn member
  cases handle_origin member with
  | kept before old kept =>
    rw [kept.announced]
    exact verified before old
  | updated before dsee old announced passed known key value =>
    subst value
    have same : verifies env (CMasternode.announced
        (((before.updateLastSeen view.getAdjustedTime 0).takeOver dsee).check env view)) =
        verifyMessage env.signer before.pubkey dsee.vchSig ({ dsee with pubkey := before.pubkey }.strMessage env) := rfl
    rw [same, key]
    exact checkDsee_ok passed
  | added dsee announced passed backed missing value =>
    subst value announced
    rw [normalise_of_plain (plain (.inr missing))]
    exact checkDsee_ok passed

/-- A receiver that reads addresses and signatures alike. -/
structure Env.Alike (left right : Env) : Prop where
  signer : left.signer = right.signer
  serviceToString : left.serviceToString = right.serviceToString

theorem Env.Alike.verifies {left right : Env} (alike : left.Alike right) (dsee : Dsee) :
    dsee.verifies left = dsee.verifies right := by
  simp only [Dsee.verifies, Dsee.strMessage, alike.signer, alike.serviceToString]

/-- The announcement verifies, and no receiver blames the sender. -/
def Harmless (entry : Dsee) : Prop :=
  entry.verifies env = true ∧ ∀ (receiver : Env) (view : View) (man : MasternodeMan), receiver.Alike env →
    ∀ howMuch, .misbehaving howMuch .badSignature ∉ (handle receiver view man (.dsee entry)).2

theorem harmless_of_verifies {env : Env} {entry : Dsee} (verified : entry.verifies env = true) :
    Harmless env entry := by
  constructor
  · exact verified
  · intro receiver view man alike howMuch blamed
    obtain ⟨dsee, same, bad⟩ := handle_justified blamed
    obtain rfl : entry = dsee := Event.dsee.inj same
    rw [alike.verifies, verified] at bad
    exact absurd bad.symm Bool.false_ne_true

/-- In every run without a donation to a script on the list, every announcement relayed or served verifies everywhere.
-/
theorem relayed_harmless (events : List (View × Event))
    (throughout : Throughout (step env) PlainAnnouncement start events)
    (before after : List (View × Event)) (view : View) (event : Event)
    (split : events = before ++ (view, event) :: after) (entry : Dsee)
    (sent : .relayMasternodeEntry entry ∈ (handle env view (run (step env) start before).man event).2 ∨
      .sendEntry entry ∈ (handle env view (run (step env) start before).man event).2) :
    Harmless env entry := by
  subst split
  obtain ⟨earlier, plain, -⟩ := throughout_append.mp throughout
  have start : start.Verified env := by
    intro mn member
    cases member
  have verified := run_throughout (fun _ _ verified plain => Node.Verified.step verified plain) start earlier
  apply harmless_of_verifies
  rcases sent with relayed | served
  · obtain ⟨dsee, rfl, signed, rfl | ⟨rfl, unlisted⟩⟩ := handle_justified relayed
    · exact signed
    · rw [normalise_of_plain (plain unlisted)]
      exact signed
  · obtain ⟨mn, old, count, current, rfl⟩ := handle_justified served
    exact verified mn old

/-- An announcement without a donation is relayed, and verifies. -/
theorem relayed_harmless_plain : Harmless regtestEnv (announcement 0 1000 0 []) :=
  relayed_harmless regtestEnv [(.of 1000 [ownOutput], .dsee (announcement 0 1000 0 []))]
    ⟨fun _ => rfl, trivial⟩ [] [] (.of 1000 [ownOutput]) (.dsee (announcement 0 1000 0 [])) rfl _
    (.inl (by decide +kernel))

/-- An announcement that donates to a script is relayed without the donation; the next node blames the relay. -/
theorem relayed_banned : (announcement 0 1000 0 scriptDonation).verifies regtestEnv = true ∧
    .relayMasternodeEntry (announcement 0 1000 0 scriptDonation).normalise ∈
      (handle regtestEnv (.of 1000 [ownOutput]) .clear (.dsee (announcement 0 1000 0 scriptDonation))).2 ∧
    (announcement 0 1000 0 scriptDonation).normalise.verifies regtestEnv = false ∧
    .misbehaving 100 .badSignature ∈ (handle regtestEnv (.of 1000 [ownOutput]) .clear
      (.dsee (announcement 0 1000 0 scriptDonation).normalise)).2 := by
  decide +kernel

end Straks.Election
