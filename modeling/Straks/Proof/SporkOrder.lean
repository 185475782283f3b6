import Straks.Construction.Spork
import Mathlib.Tactic.NormNum
import Straks.Library.Latest
import Straks.Library.Run

namespace Straks.Spork

open DecimalText

/-- A stored spork replaces the active one of its identifier. -/
def SporkState.store (state : SporkState) (hash : Uint256) (spork : CSporkMessage) : SporkState :=
  ⟨state.mapSporks.insert hash spork, state.mapSporksActive.insert spork.nSporkID spork⟩

/-- A spork message changes nothing, or is newer, verifies and is stored. -/
theorem processSpork_cases (env : Env) (hasTip : Bool) (state : SporkState) (padding : UInt32)
    (spork : CSporkMessage) : (processSpork env hasTip state (.spork padding spork)).1 = state ∨
      (checkSignature env spork = true ∧ isSeen state spork = false ∧
        (processSpork env hasTip state (.spork padding spork)).1 =
          state.store (spork.getHash env.lyra2re2Hash padding) spork) := by
  simp only [processSpork]
  split_ifs with disabled noTip seen unsigned
  · exact .inl rfl
  · exact .inl rfl
  · exact .inl rfl
  · exact .inl rfl
  · exact .inr ⟨by simpa using unsigned, by simpa using seen, rfl⟩

theorem processSpork_unsigned {env : Env} {spork : CSporkMessage} (hasTip : Bool) (state : SporkState)
    (padding : UInt32) (unsigned : checkSignature env spork = false) :
    (processSpork env hasTip state (.spork padding spork)).1 = state := by
  rcases processSpork_cases env hasTip state padding spork with unchanged | ⟨signed, -, -⟩
  · exact unchanged
  · rw [unsigned] at signed
    exact absurd signed Bool.false_ne_true

/-- The node stores every newer spork that verifies. -/
theorem processSpork_signed {env : Env} {state : SporkState} {spork : CSporkMessage} (padding : UInt32)
    (enabled : env.fProUserModeDarksendInstantX2 = false) (newer : isSeen state spork = false)
    (signed : checkSignature env spork = true) : (processSpork env true state (.spork padding spork)).1 =
      state.store (spork.getHash env.lyra2re2Hash padding) spork := by
  simp [processSpork, enabled, newer, signed, SporkState.store]

variable (first second : CSporkMessage)

/-- Two messages have the same signed fields. -/
def SameFields : Prop :=
  first.nSporkID = second.nSporkID ∧ first.nValue = second.nValue ∧ first.nTimeSigned = second.nTimeSigned

instance : Decidable (SameFields first second) :=
  inferInstanceAs (Decidable (_ ∧ _ ∧ _))

/-- The fields of two messages divide one row of digits at different places, with the same length, number and places
of minus signs. -/
def Redivides : Prop :=
  joinedWidth first.signedFields = joinedWidth second.signedFields ∧
    joinedNumber first.signedFields = joinedNumber second.signedFields ∧
    joinedSigns 0 first.signedFields = joinedSigns 0 second.signedFields

instance : Decidable (Redivides first second) :=
  inferInstanceAs (Decidable (_ ∧ _ ∧ _))

theorem strMessage_eq_iff : first.strMessage = second.strMessage ↔ Redivides first second := by
  rw [strMessage_eq_joinedText, strMessage_eq_joinedText]
  exact joinedText_eq_iff _ _

/-- The first message's signature with the second's fields. -/
def replay : CSporkMessage :=
  { second with vchSig := first.vchSig }

/-- A binding signature of one text never verifies for fields of another. -/
theorem checkSignature_replay {env : Env} {first second : CSporkMessage}
    (binding : env.signer.Binding env.pubkey) (signed : checkSignature env first = true)
    (apart : first.strMessage ≠ second.strMessage) : checkSignature env (replay first second) = false := by
  by_contra accepted
  rw [Bool.not_eq_false] at accepted
  exact apart (binding first.vchSig _ _ signed accepted)

/-- The signed text separates two altered messages, and no signature of the first carries the second into the sporks,
exactly when the fields do not redivide one row of digits. -/
theorem sporkSignature_separates_iff : (¬ SameFields first second → first.strMessage ≠ second.strMessage ∧
      ∀ (env : Env) (hasTip : Bool) (state : SporkState) (padding : UInt32),
        env.signer.Binding env.pubkey → checkSignature env first = true →
          (processSpork env hasTip state (.spork padding (replay first second))).1 = state) ↔
      (SameFields first second ∨ ¬ Redivides first second) := by
  rw [← strMessage_eq_iff]
  constructor
  · intro separated
    by_cases same : SameFields first second
    · exact .inl same
    · exact .inr (separated same).1
  · rintro (same | different) altered
    · exact absurd same altered
    · refine ⟨different, fun env hasTip state padding binding signed => ?_⟩
      exact processSpork_unsigned hasTip state padding (checkSignature_replay binding signed different)

/-- The spork the key holder signed in the replay. -/
def signedSpork : CSporkMessage := ⟨[1], 1000, 11507581788, 1600000000⟩

/-- The same digits name the instant transaction spork. -/
def replayedSpork : CSporkMessage := ⟨[1], 10001, 1507581788, 1600000000⟩

/-- This signer accepts only the text of the signed spork. -/
def replayEnv : Env where
  signer :=
    { getHash := fun texts => if texts = [strMessageMagic, signedSpork.strMessage] then 1 else 0
      recoverCompact := fun hash _ => if hash = 1 then some [] else none
      getID := fun _ => 0 }
  lyra2re2Hash := fun _ => 0
  mainNetwork := true
  fProUserModeDarksendInstantX2 := false

theorem replayEnv_verify {vchSig : List UInt8} {text : List Char}
    (verified : verifyMessage replayEnv.signer replayEnv.pubkey vchSig text = true) :
    text = signedSpork.strMessage := by
  by_contra other
  simp [verifyMessage, replayEnv, other] at verified

/-- A signature of one spork activates another of the same digits. -/
theorem sporkSignature_replayed :
    ¬ SameFields signedSpork replayedSpork ∧ signedSpork.strMessage = replayedSpork.strMessage ∧
      replayEnv.signer.Binding replayEnv.pubkey ∧ checkSignature replayEnv signedSpork = true ∧
      replayedSpork = replay signedSpork replayedSpork ∧
      (processSpork replayEnv true .empty (.spork 0 replayedSpork)).1.mapSporksActive.lookup 10001 =
        some replayedSpork := by
  have texts : signedSpork.strMessage = replayedSpork.strMessage := by decide
  have signed : checkSignature replayEnv signedSpork = true := by
    simp [checkSignature, verifyMessage, replayEnv]
  have replayed : checkSignature replayEnv replayedSpork = true := by
    simp [checkSignature, verifyMessage, replayEnv, texts]
  refine ⟨by decide, texts, ?_, signed, rfl, ?_⟩
  · intro vchSig left right leftVerified rightVerified
    rw [replayEnv_verify leftVerified, replayEnv_verify rightVerified]
  · exact AList.lookup_insert _

open Latest Run List

/-- A node with spork code and tip receives a message, with its alignment bytes. -/
def receive (env : Env) (state : SporkState) (delivery : UInt32 × CSporkMessage) : SporkState :=
  (processSpork env true state (.spork delivery.1 delivery.2)).1

/-- The active message with the identifier. -/
def SporkState.active (state : SporkState) (nSporkID : Int32) : Option CSporkMessage :=
  state.mapSporksActive.lookup nSporkID

/-- The active sporks after the messages, from none on. -/
def activeAfter (env : Env) (deliveries : List (UInt32 × CSporkMessage)) : Int32 → Option CSporkMessage :=
  (run (receive env) .empty deliveries).active

/-- Sporks name a register by identifier and are ordered by signing time. -/
def channel (env : Env) : Channel Int32 CSporkMessage Int where
  name := CSporkMessage.nSporkID
  time := fun spork => spork.nTimeSigned.toInt
  valid := fun spork => checkSignature env spork = true

variable {env : Env} {state : SporkState} {spork : CSporkMessage}

theorem isSeen_eq_false : isSeen state spork = false ↔ ∀ active, state.active spork.nSporkID = some active →
      active.nTimeSigned.toInt < spork.nTimeSigned.toInt := by
  rw [isSeen, SporkState.active]
  cases state.mapSporksActive.lookup spork.nSporkID with
  | none => simp
  | some active => simp [Int64.le_iff_toInt_le]

/-- A message leaves every other identifier's spork. -/
theorem processSpork_others {hasTip : Bool} {padding : UInt32} {nSporkID : Int32} (other : nSporkID ≠ spork.nSporkID) :
    (processSpork env hasTip state (.spork padding spork)).1.active nSporkID = state.active nSporkID := by
  rcases processSpork_cases env hasTip state padding spork with unchanged | ⟨-, -, stored⟩
  · rw [unchanged]
  · rw [stored]
    exact AList.lookup_insert_ne other

/-- A message no newer than the active one changes nothing. -/
theorem processSpork_seen {hasTip : Bool} {padding : UInt32} (seen : isSeen state spork = true) :
    (processSpork env hasTip state (.spork padding spork)).1 = state := by
  rcases processSpork_cases env hasTip state padding spork with unchanged | ⟨-, newer, -⟩
  · exact unchanged
  · rw [seen] at newer
    exact absurd newer.symm Bool.false_ne_true

theorem receive_takes (enabled : env.fProUserModeDarksendInstantX2 = false) (state : SporkState)
    (delivery : UInt32 × CSporkMessage) :
    (channel env).Takes state.active delivery.2 (receive env state delivery).active where
  others nSporkID other := processSpork_others other
  fresh valid newer := by
    have stored := processSpork_signed delivery.1 enabled (isSeen_eq_false.mpr newer) valid
    rw [receive, stored]
    exact AList.lookup_insert _
  stale held same later := by
    have seen : isSeen state delivery.2 = true := by
      rw [← Bool.not_eq_false, isSeen_eq_false]
      exact fun newer => absurd (newer held same) (not_lt.mpr later)
    rw [receive, processSpork_seen seen]
  invalid unsigned := by
    rw [receive, processSpork_unsigned true state delivery.1 (Bool.eq_false_iff.mpr unsigned)]

/-- The active spork is the newest validly signed one. -/
theorem activeAfter_holds (enabled : env.fProUserModeDarksendInstantX2 = false)
    (deliveries : List (UInt32 × CSporkMessage)) :
    (channel env).Holds (deliveries.map Prod.snd : List CSporkMessage) (activeAfter env deliveries) := by
  apply run_history fun history (state : SporkState) =>
    (channel env).Holds (history.map Prod.snd : List CSporkMessage) state.active
  · exact Channel.holds_empty
  · intro history delivery holds
    have received := holds.takes (receive_takes enabled _ delivery)
    rwa [Multiset.cons_coe, ← Multiset.coe_eq_coe.mpr (perm_append_singleton _ _),
      ← map_singleton, ← map_append] at received

/-- Nodes that received the same messages in any two orders have the same active sporks, the validly signed ones with
the greatest signing time, and a message that is not validly signed never changes them. -/
theorem activeAfter_confluent {env : Env} (enabled : env.fProUserModeDarksendInstantX2 = false)
    (messages : Multiset CSporkMessage) (distinct : (channel env).Distinct messages)
    (left right : List (UInt32 × CSporkMessage)) (leftOrder : (left.map Prod.snd : List CSporkMessage) = messages)
    (rightOrder : (right.map Prod.snd : List CSporkMessage) = messages) :
    (∀ nSporkID, activeAfter env left nSporkID = activeAfter env right nSporkID) ∧
      (∀ nSporkID spork, activeAfter env left nSporkID = some spork ↔
        (channel env).IsLatest messages nSporkID spork) ∧
      ∀ (node : Env) (hasTip : Bool) (state : SporkState) (padding : UInt32) (spork : CSporkMessage),
        checkSignature node spork = false →
          (processSpork node hasTip state (.spork padding spork)).1.mapSporksActive = state.mapSporksActive := by
  have leftHolds := activeAfter_holds enabled left
  have rightHolds := activeAfter_holds enabled right
  rw [leftOrder] at leftHolds
  rw [rightOrder] at rightHolds
  refine ⟨fun nSporkID => ?_, leftHolds.iff_isLatest distinct, ?_⟩
  · ext spork
    rw [leftHolds.iff_isLatest distinct, rightHolds.iff_isLatest distinct]
  · intro node hasTip state padding spork unsigned
    rw [processSpork_unsigned hasTip state padding unsigned]

/-- This signer accepts all; the mode turns the spork code off or on. -/
def openEnv (fProUserModeDarksendInstantX2 : Bool) : Env where
  signer := { getHash := fun _ => 0, recoverCompact := fun _ _ => some [], getID := fun _ => 0 }
  lyra2re2Hash := fun _ => 0
  mainNetwork := true
  fProUserModeDarksendInstantX2 := fProUserModeDarksendInstantX2

/-- Two sporks for one identifier, the first signed earlier. -/
def earlierSpork : CSporkMessage := ⟨[], 10001, 5, 1600000000⟩

def laterSpork : CSporkMessage := ⟨[], 10001, 7, 1600000001⟩

theorem openEnv_distinct :
    (channel (openEnv false)).Distinct (([(0, earlierSpork), (0, laterSpork)].map Prod.snd : List CSporkMessage)) := by
  rintro nSporkID first second ⟨firstMember, -, -⟩ ⟨secondMember, -, -⟩ times
  simp only [map_cons, map_nil, Multiset.mem_coe, mem_cons, not_mem_nil, or_false] at *
  rcases firstMember with rfl | rfl <;> rcases secondMember with rfl | rfl
  · rfl
  · exact absurd times (by decide)
  · exact absurd times (by decide)
  · rfl

/-- Two nodes receiving two sporks in opposite orders agree. -/
theorem activeAfter_confluent_pair : (activeAfter (openEnv false) [(0, earlierSpork), (0, laterSpork)] 10001 =
        activeAfter (openEnv false) [(3, laterSpork), (0, earlierSpork)] 10001) ∧
      activeAfter (openEnv false) [(0, earlierSpork), (0, laterSpork)] 10001 = some laterSpork := by
  have confluent := @activeAfter_confluent (openEnv false) rfl _ openEnv_distinct
    [(0, earlierSpork), (0, laterSpork)] [(3, laterSpork), (0, earlierSpork)] rfl
    (Multiset.coe_eq_coe.mpr (Perm.swap _ _ _))
  refine ⟨confluent.1 10001, (confluent.2.1 10001 laterSpork).mpr ⟨⟨by simp, rfl, rfl⟩, ?_⟩⟩
  rintro other ⟨member, -, -⟩
  simp only [map_cons, map_nil, Multiset.mem_coe, mem_cons, not_mem_nil, or_false] at member
  rcases member with rfl | rfl <;> decide

/-- A node with the spork code off does not follow the others. -/
theorem activeAfter_disabled :
    checkSignature (openEnv true) laterSpork = true ∧ checkSignature (openEnv false) laterSpork = true ∧
      activeAfter (openEnv false) [(0, laterSpork)] 10001 = some laterSpork ∧
      activeAfter (openEnv true) [(0, laterSpork)] 10001 = none := by
  refine ⟨rfl, rfl, ?_, rfl⟩
  decide +kernel

end Straks.Spork
