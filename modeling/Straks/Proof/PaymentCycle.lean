import Straks.Construction.Masternode.Payments

namespace Straks.Masternode
open Run List PaymentsMaster

section Search

variable {vVins : List CTxIn} {nMinimumAge seconds : Int} {vMasternodes : List CMasternode}
  {oldest : Option CMasternode} {mn pmn : CMasternode}

/-- A masternode the search for the oldest does not skip. -/
structure Payable (vVins : List CTxIn) (nMinimumAge nMinimumActiveSeconds : Int) (mn : CMasternode) : Prop where
  isEnabled : mn.isEnabled = true
  oldEnough : nMinimumAge ≤ mn.masternodeInputAge
  active : nMinimumActiveSeconds ≤ mn.lastTimeSeen - mn.sigTime
  unpaid : ∀ vin ∈ vVins, mn.vin.prevout ≠ vin.prevout

theorem takeOlder_cases (oldest : Option CMasternode) (mn : CMasternode) :
    takeOlder oldest mn = mn ∨ oldest = some (takeOlder oldest mn) := by
  cases oldest with
  | none => exact .inl rfl
  | some before =>
    rw [takeOlder]
    split
    · exact .inl rfl
    · exact .inr rfl

/-- One turn of the search: what is not payable is skipped. -/
theorem findOldestNotInVec_cons (mn : CMasternode) (vMasternodes : List CMasternode) (oldest : Option CMasternode) :
    (¬ Payable vVins nMinimumAge seconds mn ∧
      findOldestNotInVec vVins nMinimumAge seconds (mn :: vMasternodes) oldest =
        findOldestNotInVec vVins nMinimumAge seconds vMasternodes oldest) ∨
    (Payable vVins nMinimumAge seconds mn ∧ ∃ next, (next = mn ∨ oldest = some next) ∧
      findOldestNotInVec vVins nMinimumAge seconds (mn :: vMasternodes) oldest =
        findOldestNotInVec vVins nMinimumAge seconds vMasternodes (some next)) := by
  simp only [findOldestNotInVec]
  split_ifs with isEnabled young paid
  · exact .inl ⟨fun payable => young.elim (not_lt.mpr payable.oldEnough) (not_lt.mpr payable.active), rfl⟩
  · refine .inl ⟨fun payable => ?_, rfl⟩
    obtain ⟨vin, member, same⟩ := any_eq_true.mp paid
    exact payable.unpaid vin member (by simpa using same)
  · have payable : Payable vVins nMinimumAge seconds mn := by
      rw [not_or, not_lt, not_lt] at young
      refine ⟨isEnabled, young.1, young.2, fun vin member same => paid ?_⟩
      exact any_eq_true.mpr ⟨vin, member, by simpa using same⟩
    exact .inr ⟨payable, takeOlder oldest mn, takeOlder_cases oldest mn, rfl⟩
  · exact .inl ⟨fun payable => isEnabled payable.isEnabled, rfl⟩

theorem findOldestNotInVec_some
    (found : findOldestNotInVec vVins nMinimumAge seconds vMasternodes oldest = some pmn) :
    oldest = some pmn ∨ pmn ∈ vMasternodes ∧ Payable vVins nMinimumAge seconds pmn := by
  induction vMasternodes generalizing oldest with
  | nil => exact .inl found
  | cons mn rest ih =>
    rcases findOldestNotInVec_cons mn rest oldest with
      ⟨-, skip⟩ | ⟨payable, next, origin, keep⟩
    · rw [skip] at found
      exact (ih found).imp_right fun ⟨member, fits⟩ => ⟨mem_cons_of_mem _ member, fits⟩
    · rw [keep] at found
      rcases ih found with same | ⟨member, fits⟩
      · obtain rfl := Option.some.inj same
        rcases origin with rfl | before
        · exact .inr ⟨mem_cons_self, payable⟩
        · exact .inl before
      · exact .inr ⟨mem_cons_of_mem _ member, fits⟩

theorem findOldestNotInVec_none (found : findOldestNotInVec vVins nMinimumAge seconds vMasternodes oldest = none) :
    oldest = none ∧ ∀ mn ∈ vMasternodes, ¬ Payable vVins nMinimumAge seconds mn := by
  induction vMasternodes generalizing oldest with
  | nil => exact ⟨found, by simp⟩
  | cons mn rest ih =>
    rcases findOldestNotInVec_cons mn rest oldest with
      ⟨skipped, skip⟩ | ⟨payable, next, origin, keep⟩
    · rw [skip] at found
      exact ⟨(ih found).1, forall_mem_cons.mpr ⟨skipped, (ih found).2⟩⟩
    · rw [keep] at found
      cases (ih found).1

end Search

theorem lastPayments_eq (nMinimumAge : Nat) (winners : List CMasternodePaymentWinner) (vecLastPayments : List CTxIn) :
    lastPayments nMinimumAge winners vecLastPayments =
      vecLastPayments ++ (winners.map (·.vin)).take (nMinimumAge + 1 - vecLastPayments.length) := by
  induction winners generalizing vecLastPayments with
  | nil => simp [lastPayments]
  | cons winner older ih =>
    rw [lastPayments]
    split_ifs with full
    · rw [Nat.sub_eq_zero_of_le full, take_zero, append_nil]
    · rw [ih, length_append, length_singleton, map_cons,
        show nMinimumAge + 1 - vecLastPayments.length = nMinimumAge + 1 - (vecLastPayments.length + 1) + 1 by omega,
        take_succ_cons, append_assoc, singleton_append]

theorem findEnabled_mem {vMasternodes : List CMasternode} {vins : List CTxIn} {pmn : CMasternode}
    (found : findEnabled vMasternodes vins = some pmn) : pmn ∈ vMasternodes := by
  induction vins with
  | nil => cases found
  | cons vinLP rest ih =>
    rw [findEnabled] at found
    split at found
    · exact ih found
    · rename_i candidate first
      split at found
      · obtain rfl := Option.some.inj found
        exact mem_of_find?_eq_some first
      · exact ih found

variable (collaterals : List COutPoint)

/-- The masternodes are always the same, enabled and older than their number. -/
structure FixedSet (view : ProcessBlockView) : Prop where
  same : (view.vMasternodes.map (·.vin.prevout)).Perm collaterals
  isEnabled : ∀ mn ∈ view.vMasternodes, mn.isEnabled = true
  old : ∀ mn ∈ view.vMasternodes, (collaterals.length : Int) < mn.masternodeInputAge

section Choice

variable {collaterals : List COutPoint} {view : ProcessBlockView} {vWinning : List CMasternodePaymentWinner}
  {pmn : CMasternode}

theorem FixedSet.countEnabled_eq (fixed : FixedSet collaterals view) :
    countEnabled view.vMasternodes = collaterals.length := by
  rw [countEnabled, countP_eq_length.mpr fixed.isEnabled, ← fixed.same.length_eq, length_map]

theorem FixedSet.mem (fixed : FixedSet collaterals view) {prevout : COutPoint} :
    prevout ∈ collaterals ↔ ∃ mn ∈ view.vMasternodes, mn.vin.prevout = prevout := by
  rw [← fixed.same.mem_iff, mem_map]

theorem nextPaid_mem (next : nextPaid view.vMasternodes vWinning = some pmn) : pmn ∈ view.vMasternodes := by
  rw [nextPaid] at next
  split at next
  · rename_i found
    obtain rfl := Option.some.inj next
    rcases findOldestNotInVec_some found with impossible | ⟨member, -⟩
    · cases impossible
    · exact member
  · split_ifs at next
    exact findEnabled_mem next

/-- The fallback finds the first collateral of the set. -/
theorem FixedSet.findEnabled_cons (fixed : FixedSet collaterals view) {vin : CTxIn} (rest : List CTxIn)
    (member : vin.prevout ∈ collaterals) :
    ∃ pmn, findEnabled view.vMasternodes (vin :: rest) = some pmn ∧ pmn.vin.prevout = vin.prevout := by
  obtain ⟨mn, inside, same⟩ := fixed.mem.mp member
  rw [findEnabled]
  cases found : find view.vMasternodes vin with
  | none => exact absurd (find?_eq_none.mp found mn inside) (by simp [same])
  | some pmn =>
    refine ⟨pmn, ?_, by simpa using find?_some found⟩
    dsimp only
    rw [if_pos (fixed.isEnabled pmn (mem_of_find?_eq_some found))]

/-- While all winners are in the window, the next is new, or none is and the first comes again. -/
theorem FixedSet.nextPaid_cases (fixed : FixedSet collaterals view)
    (members : ∀ entry ∈ vWinning, entry.vin.prevout ∈ collaterals) (few : vWinning.length ≤ collaterals.length + 1)
    (next : nextPaid view.vMasternodes vWinning = some pmn) : pmn.vin.prevout ∉ vWinning.map (·.vin.prevout) ∨
      ((∀ mn ∈ view.vMasternodes, mn.sigTime ≤ mn.lastTimeSeen → mn.vin.prevout ∈ vWinning.map (·.vin.prevout)) ∧
        (vWinning.map (·.vin.prevout)).head? = some pmn.vin.prevout) := by
  have window : lastPayments collaterals.length vWinning.reverse [] = (vWinning.map (·.vin)).reverse := by
    rw [lastPayments_eq, nil_append, map_reverse, take_of_length_le]
    simpa using few
  simp only [nextPaid, fixed.countEnabled_eq, window, reverse_reverse] at next
  split at next
  · rename_i found
    obtain rfl := Option.some.inj next
    rcases findOldestNotInVec_some found with impossible | ⟨-, payable⟩
    · cases impossible
    · left
      intro paid
      obtain ⟨winner, member, same⟩ := mem_map.mp paid
      exact payable.unpaid winner.vin (by simpa using ⟨winner, member, rfl⟩) same.symm
  · rename_i found
    have unpayable := (findOldestNotInVec_none found).2
    right
    constructor
    · intro mn member active
      by_contra unpaid
      refine unpayable mn member ⟨fixed.isEnabled mn member, (fixed.old mn member).le, by omega, ?_⟩
      intro vin inside same
      obtain ⟨winner, inWinning, rfl⟩ := mem_map.mp (mem_reverse.mp inside)
      exact unpaid (mem_map.mpr ⟨winner, inWinning, same.symm⟩)
    · split_ifs at next
      cases vWinning with
      | nil => cases next
      | cons winner rest =>
        obtain ⟨first, chosen, same⟩ := fixed.findEnabled_cons (rest.map (·.vin)) (members winner mem_cons_self)
        rw [map_cons, chosen] at next
        rw [← Option.some.inj next, same]
        rfl

end Choice

variable (master : PaymentsMaster)

/-- The winners' outpoints so far, the oldest first. -/
def PaymentsMaster.paid : List COutPoint :=
  master.payments.vWinning.map (·.vin.prevout)

variable (env : Env)

/-- A winner for a new height is added at the end. -/
theorem addWinningMasternode_new (payments : Payments) (winner : CMasternodePaymentWinner)
    (new : ∀ entry ∈ payments.vWinning, entry.nBlockHeight ≠ winner.nBlockHeight) :
    (addWinningMasternode env payments winner).1.vWinning = payments.vWinning ++ [scored env winner] ∧
      (addWinningMasternode env payments winner).2 = true := by
  have kept : ∀ {vWinning : List CMasternodePaymentWinner},
      (∀ entry ∈ vWinning, entry.nBlockHeight ≠ winner.nBlockHeight) → overwriteWinner (scored env winner) vWinning = none := by
    intro vWinning
    induction vWinning with
    | nil => exact fun _ => rfl
    | cons entry rest ih =>
      intro new
      rw [forall_mem_cons] at new
      rw [overwriteWinner, if_neg (fun lower => new.1 lower.1), ih new.2, Option.map_none]
  have absent : (payments.vWinning.any fun other => other.nBlockHeight == (scored env winner).nBlockHeight) = false := by
    rw [any_eq_false]
    intro entry member same
    exact new entry member (beq_iff_eq.mp same)
  simp [addWinningMasternode, kept new, absent]

variable (signer : MasterSigner)

/-- A call changes nothing, or adds the next masternode as winner of the block. -/
theorem processBlock_cases {master : PaymentsMaster} (view : ProcessBlockView)
    (heights : ∀ entry ∈ master.payments.vWinning, entry.nBlockHeight ≤ master.nLastBlockHeight) :
    (processBlock env signer master view).1 = master ∨
      ∃ pmn entry, nextPaid view.vMasternodes master.payments.vWinning = some pmn ∧ entry.vin = pmn.vin ∧
        master.nLastBlockHeight < view.nBlockHeight ∧ entry.nBlockHeight = view.nBlockHeight ∧
        (processBlock env signer master view).1.nLastBlockHeight = view.nBlockHeight ∧
        (processBlock env signer master view).1.payments.vWinning = master.payments.vWinning ++ [entry] := by
  rw [processBlock]
  split
  · exact .inl rfl
  · split
    · exact .inl rfl
    · rename_i later
      rw [Int32.not_le] at later
      cases view.blockHash with
      | none => exact .inl rfl
      | some hash =>
        cases next : nextPaid view.vMasternodes master.payments.vWinning with
        | none => exact .inl rfl
        | some pmn =>
          dsimp only
          split
          · exact .inl rfl
          · rw [sign]
            cases signer (newWinner view.nBlockHeight _ pmn).strMessage with
            | none => exact .inl rfl
            | some vchSig =>
              right
              dsimp only [Option.map_some]
              have new : ∀ entry ∈ master.payments.vWinning, entry.nBlockHeight ≠ view.nBlockHeight := by
                intro entry member same
                have below := heights entry member
                rw [same] at below
                exact absurd later (Int32.not_lt.mpr below)
              obtain ⟨added, success⟩ := addWinningMasternode_new env master.payments
                { newWinner view.nBlockHeight
                  (hash.toNat % 65536 + 65536 * view.uninitialized.toNat) pmn with vchSig := vchSig } new
              rw [if_pos success]
              exact ⟨pmn, _, rfl, rfl, later, rfl, rfl, added⟩

/-- The winners are from the set, up to the last height. -/
structure WinnersOk : Prop where
  heights : ∀ entry ∈ master.payments.vWinning, entry.nBlockHeight ≤ master.nLastBlockHeight
  members : ∀ entry ∈ master.payments.vWinning, entry.vin.prevout ∈ collaterals

/-- The winners are different, or all of the set and the first again. -/
def FirstCycle (collaterals paid : List COutPoint) : Prop :=
  paid.Nodup ∨ ∃ first rest, paid = first :: rest ++ [first] ∧ (first :: rest).Nodup ∧
    rest.length + 1 = collaterals.length

/-- Before a call the set has one masternode, or its winners are just one full cycle, or less than a cycle and none
yet or not all of those seen after their announcement. -/
def WithinCycle (view : ProcessBlockView) : Prop :=
  collaterals.length = 1 ∨ master.paid.length = collaterals.length ∨
    master.paid.length < collaterals.length ∧ (master.paid = [] ∨
      ∃ mn ∈ view.vMasternodes, mn.sigTime ≤ mn.lastTimeSeen ∧ mn.vin.prevout ∉ master.paid)

/-- The payments master after calls of `ProcessBlock`. -/
def runMaster (tip : Option Int) (views : List ProcessBlockView) : PaymentsMaster :=
  run (fun master view => (processBlock env signer master view).1) ⟨⟨[], ∅, tip⟩, true, 0⟩ views

section Cycle

variable {env : Env} {signer : MasterSigner} {collaterals : List COutPoint} {master : PaymentsMaster}
  {view : ProcessBlockView}

theorem WinnersOk.processBlock (ok : WinnersOk collaterals master) (fixed : FixedSet collaterals view) :
    WinnersOk collaterals (processBlock env signer master view).1 := by
  rcases processBlock_cases env signer view ok.heights with same | ⟨pmn, entry, next, vin, later, height, last, added⟩
  · rwa [same]
  · constructor
    · rw [added, last, forall_mem_append, forall_mem_singleton]
      refine ⟨fun other member => ?_, Int32.le_of_eq height⟩
      exact Int32.le_trans (ok.heights other member) (Int32.le_of_lt later)
    · rw [added, forall_mem_append, forall_mem_singleton]
      exact ⟨ok.members, fixed.mem.mpr ⟨pmn, nextPaid_mem next, by rw [vin]⟩⟩

/-- A call in the first cycle adds a new masternode, after it the first one. -/
theorem FirstCycle.processBlock (ok : WinnersOk collaterals master) (cycle : FirstCycle collaterals master.paid)
    (fixed : FixedSet collaterals view) (several : collaterals.length ≠ 1)
    (within : WithinCycle collaterals master view) :
    FirstCycle collaterals (processBlock env signer master view).1.paid := by
  rcases processBlock_cases env signer view ok.heights with same | ⟨pmn, entry, next, vin, -, -, -, added⟩
  · rwa [same]
  have longer : (Masternode.processBlock env signer master view).1.paid = master.paid ++ [pmn.vin.prevout] := by
    rw [paid, added, map_append, map_singleton, vin, paid]
  have few : master.paid.length ≤ collaterals.length := by
    rcases within with one | full | ⟨fewer, -⟩
    · exact absurd one several
    · exact full.le
    · exact fewer.le
  have distinct : master.paid.Nodup := by
    rcases cycle with distinct | ⟨first, rest, paid, -, full⟩
    · exact distinct
    · rw [paid, length_append, length_cons, length_singleton] at few
      omega
  rw [longer]
  rcases fixed.nextPaid_cases ok.members (by rw [paid, length_map] at few; omega) next with
    new | ⟨allPaid, first⟩
  · exact .inl (nodup_append_comm.mp (nodup_cons.mpr ⟨new, distinct⟩))
  · right
    rcases within with one | full | ⟨-, none | ⟨mn, member, active, unpaid⟩⟩
    · exact absurd one several
    · change master.paid.head? = some pmn.vin.prevout at first
      obtain ⟨rest, start⟩ := head?_eq_some_iff.mp first
      rw [start] at full distinct ⊢
      exact ⟨_, rest, rfl, distinct, full⟩
    · change master.paid.head? = some pmn.vin.prevout at first
      rw [none] at first
      cases first
    · exact absurd (allPaid mn member active) unpaid

/-- In the first cycle every masternode comes once. -/
theorem FirstCycle.window {paid : List COutPoint} (cycle : FirstCycle collaterals paid) (start : Nat) :
    ((paid.drop start).take collaterals.length).Nodup := by
  rcases cycle with distinct | ⟨first, rest, rfl, distinct, full⟩
  · exact distinct.sublist ((take_sublist _ _).trans (drop_sublist _ _))
  · cases start with
    | zero =>
      rw [drop_zero, take_left' (by simpa using full)]
      exact distinct
    | succ start =>
      have rotated : (rest ++ [first]).Nodup := nodup_append_comm.mp distinct
      rw [cons_append, drop_succ_cons]
      exact rotated.sublist ((take_sublist _ _).trans (drop_sublist _ _))

end Cycle

/-- On a fixed set of enabled masternodes with old inputs, in every run of calls within the first cycle and the call
after it, as many consecutive winners as there are masternodes are different, and are all of them when there are that
many. -/
theorem processBlock_cycle (tip : Option Int) (collaterals : List COutPoint)
    (views : List ProcessBlockView) (fixed : ∀ view ∈ views, FixedSet collaterals view)
    (within : ∀ before view after, views = before ++ view :: after →
      WithinCycle collaterals (runMaster env signer tip before) view) (start : Nat) :
    (((runMaster env signer tip views).paid.drop start).take collaterals.length).Nodup ∧
      (start + collaterals.length ≤ (runMaster env signer tip views).paid.length →
        (((runMaster env signer tip views).paid.drop start).take collaterals.length).Perm collaterals) := by
  have invariant : WinnersOk collaterals (runMaster env signer tip views) ∧
      (collaterals.length ≠ 1 → FirstCycle collaterals (runMaster env signer tip views).paid) := by
    refine run_history (fun history master => (∃ later, views = history ++ later) → WinnersOk collaterals master ∧
      (collaterals.length ≠ 1 → FirstCycle collaterals master.paid)) ?_ ?_ views ⟨[], by simp⟩
    · intro _
      exact ⟨⟨by simp, by simp⟩, fun _ => .inl nodup_nil⟩
    · rintro history view holds ⟨later, split⟩
      rw [append_assoc] at split
      obtain ⟨ok, cycle⟩ := holds ⟨view :: later, split⟩
      have sameSet := fixed view (by simp [split])
      exact ⟨ok.processBlock sameSet,
        fun several => (cycle several).processBlock ok sameSet several (within history view later split)⟩
  obtain ⟨ok, cycle⟩ := invariant
  have distinct : (((runMaster env signer tip views).paid.drop start).take collaterals.length).Nodup := by
    by_cases one : collaterals.length = 1
    · rw [one]
      cases (runMaster env signer tip views).paid.drop start with
      | nil => exact nodup_nil
      | cons prevout rest => exact nodup_singleton prevout
    · exact (cycle one).window start
  refine ⟨distinct, fun enough => (subperm_of_subset distinct ?_).perm_of_length_le ?_⟩
  · intro prevout member
    have paid := mem_of_mem_drop (mem_of_mem_take member)
    obtain ⟨entry, inside, rfl⟩ := mem_map.mp paid
    exact ok.members entry inside
  · rw [length_take, length_drop]
    omega

/-- A masternode with the collateral of that number. -/
def numberedMasternode (hash : Uint256) : CMasternode :=
  ⟨⟨⟨hash, 0⟩, [], 0xffffffff, []⟩, true, 70100, 0, 1000, 0, 0, 0, [], []⟩

/-- A call for a block when two masternodes are enabled. -/
def twoMasternodes (nBlockHeight : Int32) : ProcessBlockView :=
  ⟨nBlockHeight, [numberedMasternode 1, numberedMasternode 2], some 0, 0⟩

theorem twoMasternodes_fixed (asked : Int32) : FixedSet [⟨1, 0⟩, ⟨2, 0⟩] (twoMasternodes asked) := by
  constructor
  · exact Perm.refl _
  · simp [twoMasternodes, numberedMasternode]
  · simp [twoMasternodes, numberedMasternode]

def zeroHashEnv : Env where
  signer := { getHash := fun _ => 0, recoverCompact := fun _ _ => none, getID := fun _ => 0 }
  lyra2re2Hash := fun _ => 0
  mainNetwork := true

theorem processBlock_cycle_three :
    (((runMaster zeroHashEnv (fun _ => some []) none ([100, 101, 102].map twoMasternodes)).paid.drop 1).take 2).Perm
      [⟨1, 0⟩, ⟨2, 0⟩] := by
  refine (processBlock_cycle zeroHashEnv (fun _ => some []) none [⟨1, 0⟩, ⟨2, 0⟩] ([100, 101, 102].map twoMasternodes)
    ?_ ?_ 1).2 ?_
  · rw [forall_mem_map]
    exact fun nBlockHeight _ => twoMasternodes_fixed nBlockHeight
  · rintro before view after split
    -- the winners before the three calls are none, the first, and both
    rcases before with _ | ⟨first, _ | ⟨second, _ | ⟨third, more⟩⟩⟩
    · exact .inr (.inr ⟨by decide, .inl rfl⟩)
    · obtain ⟨rfl, rfl, -⟩ := split
      exact .inr (.inr ⟨by decide +kernel, .inr ⟨numberedMasternode 2, by decide, by decide, by decide +kernel⟩⟩)
    · obtain ⟨rfl, rfl, rfl, -⟩ := split
      exact .inr (.inl (by decide +kernel))
    · have lengths := congrArg List.length split
      simp at lengths
  · decide +kernel

/-- The fourth winner is the third one again. -/
theorem processBlock_repeats : (∀ view ∈ [100, 101, 102, 103].map twoMasternodes, FixedSet [⟨1, 0⟩, ⟨2, 0⟩] view) ∧
      (runMaster zeroHashEnv (fun _ => some []) none ([100, 101, 102, 103].map twoMasternodes)).paid =
        [⟨1, 0⟩, ⟨2, 0⟩, ⟨1, 0⟩, ⟨1, 0⟩] := by
  constructor
  · rw [forall_mem_map]
    exact fun nBlockHeight _ => twoMasternodes_fixed nBlockHeight
  · decide +kernel

end Straks.Masternode
