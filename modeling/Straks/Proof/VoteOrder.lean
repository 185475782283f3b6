import Straks.Proof.WinningPayees
import Mathlib.Data.List.MinMax

namespace Straks.Masternode
open Run List

/-- The list has a winner for the entry's height, of at least its score. -/
def Covered (vWinning : List CMasternodePaymentWinner) (entry : CMasternodePaymentWinner) : Prop :=
  ∃ kept ∈ vWinning, kept.nBlockHeight = entry.nBlockHeight ∧ entry.score ≤ kept.score

section Election

variable {winnerIn entry : CMasternodePaymentWinner} {vWinning replaced : List CMasternodePaymentWinner}

theorem overwriteWinner_heights (overwritten : overwriteWinner winnerIn vWinning = some replaced) :
    replaced.map (·.nBlockHeight) = vWinning.map (·.nBlockHeight) := by
  induction vWinning generalizing replaced with
  | nil => cases overwritten
  | cons winner rest ih =>
    rw [overwriteWinner] at overwritten
    split at overwritten
    · cases overwritten
      rfl
    · obtain ⟨tail, found, rfl⟩ := Option.map_eq_some_iff.mp overwritten
      rw [map_cons, map_cons, ih found]

theorem covered_of_mem (member : entry ∈ vWinning) : Covered vWinning entry :=
  ⟨entry, member, rfl, UInt64.le_refl _⟩

/-- Every height keeps a winner of its score, and the new winner's one of the new score. -/
theorem overwriteWinner_covers (overwritten : overwriteWinner winnerIn vWinning = some replaced) :
    winnerIn ∈ replaced ∧ ∀ entry ∈ vWinning, Covered replaced entry := by
  induction vWinning generalizing replaced with
  | nil => cases overwritten
  | cons winner rest ih =>
    rw [overwriteWinner] at overwritten
    split at overwritten
    · rename_i lower
      cases overwritten
      constructor
      · rw [lower.1]
        exact mem_cons_self
      · intro entry member
        rcases mem_cons.mp member with rfl | later
        · exact ⟨_, mem_cons_self, rfl, UInt64.le_of_lt lower.2⟩
        · exact covered_of_mem (mem_cons_of_mem _ later)
    · obtain ⟨tail, found, rfl⟩ := Option.map_eq_some_iff.mp overwritten
      obtain ⟨new, covers⟩ := ih found
      constructor
      · exact mem_cons_of_mem _ new
      · intro entry member
        rcases mem_cons.mp member with rfl | later
        · exact covered_of_mem mem_cons_self
        · obtain ⟨kept, inTail, same⟩ := covers entry later
          exact ⟨kept, mem_cons_of_mem _ inTail, same⟩

theorem le_score_of_overwriteWinner_none (unchanged : overwriteWinner winnerIn vWinning = none)
    (member : entry ∈ vWinning) (height : entry.nBlockHeight = winnerIn.nBlockHeight) : winnerIn.score ≤ entry.score := by
  induction vWinning with
  | nil => cases member
  | cons winner rest ih =>
    rw [overwriteWinner] at unchanged
    split_ifs at unchanged with kept
    rcases mem_cons.mp member with rfl | later
    · exact UInt64.not_lt.mp fun lower => kept ⟨height, lower⟩
    · exact ih (Option.map_eq_none_iff.mp unchanged) later

end Election

/-- The winners after one more vote. -/
def electWinner (winnerIn : CMasternodePaymentWinner) (vWinning : List CMasternodePaymentWinner) :
    List CMasternodePaymentWinner :=
  match overwriteWinner winnerIn vWinning with
  | some replaced => replaced
  | none =>
    if vWinning.any fun other => other.nBlockHeight == winnerIn.nBlockHeight then vWinning else vWinning ++ [winnerIn]

section Elected

variable (winnerIn : CMasternodePaymentWinner) {vWinning : List CMasternodePaymentWinner}

theorem mem_electWinner {entry : CMasternodePaymentWinner} (member : entry ∈ electWinner winnerIn vWinning) :
    entry ∈ vWinning ∨ entry = winnerIn := by
  rw [electWinner] at member
  split at member
  · exact mem_overwriteWinner ‹_› member
  · split at member
    · exact .inl member
    · simpa using member

theorem electWinner_nodup (distinct : (vWinning.map (·.nBlockHeight)).Nodup) :
    ((electWinner winnerIn vWinning).map (·.nBlockHeight)).Nodup := by
  rw [electWinner]
  split
  · rwa [overwriteWinner_heights ‹_›]
  · split
    · exact distinct
    · rename_i absent
      rw [map_append, nodup_append]
      refine ⟨distinct, by simp, ?_⟩
      rintro _ member _ last rfl
      obtain ⟨other, inside, rfl⟩ := mem_map.mp member
      exact absent (any_eq_true.mpr ⟨other, inside, by simpa using last⟩)

theorem electWinner_covers (vWinning : List CMasternodePaymentWinner) :
    Covered (electWinner winnerIn vWinning) winnerIn ∧
      ∀ entry ∈ vWinning, Covered (electWinner winnerIn vWinning) entry := by
  rw [electWinner]
  split
  · rename_i replaced overwritten
    obtain ⟨new, covers⟩ := overwriteWinner_covers overwritten
    exact ⟨covered_of_mem new, covers⟩
  · rename_i unchanged
    split
    · rename_i present
      obtain ⟨other, member, height⟩ := any_eq_true.mp present
      have same : other.nBlockHeight = winnerIn.nBlockHeight := by simpa using height
      exact ⟨⟨other, member, same, le_score_of_overwriteWinner_none unchanged member same⟩,
        fun _ member => covered_of_mem member⟩
    · exact ⟨covered_of_mem (by simp), fun _ member => covered_of_mem (mem_append_left _ member)⟩

end Elected

/-- The votes not refused at a tip: near it and with a final input. -/
def eligible (tip : Int) (vote : CMasternodePaymentWinner) : Bool :=
  !outOfRange tip vote && vote.vin.nSequence == 0xffffffff

variable (env : Env)

/-- A vote the handler takes. -/
def deliverVote (state : Payments) (vote : CMasternodePaymentWinner) : Payments :=
  (processVote env false state vote).1

/-- The votes reach, in order, a node that has seen none. -/
def deliverVotes (tip : Int) (votes : List CMasternodePaymentWinner) : Payments :=
  run (deliverVote env) ⟨[], ∅, some tip⟩ votes

section Delivery

variable (env : Env) (tip : Int)

variable {votes : AList fun _ : Uint256 => CMasternodePaymentWinner} {hash : Uint256}

theorem mem_insertVote {key : Uint256} {winner : CMasternodePaymentWinner} :
    key ∈ insertVote votes hash winner ↔ key = hash ∨ key ∈ votes := by
  rw [insertVote]
  split_ifs with seen
  · exact ⟨.inr, fun either => either.elim (fun same => same ▸ seen) id⟩
  · exact AList.mem_insert votes

/-- After the vote is recorded, only the winners change. -/
theorem addWinningMasternode_recordVote (state : Payments) (vote : CMasternodePaymentWinner) :
    (addWinningMasternode env (state.recordVote env vote) vote).1 =
      { state.recordVote env vote with vWinning := electWinner (scored env vote) state.vWinning } := by
  have seen : (scored env vote).getHash env ∈ (state.recordVote env vote).mapSeenMasternodeVotes :=
    mem_insertVote.mpr (.inl rfl)
  have kept : (state.recordVote env vote).vWinning = state.vWinning := rfl
  unfold addWinningMasternode electWinner
  simp only [insertVote, if_pos seen, kept]
  cases overwriteWinner (scored env vote) state.vWinning with
  | some replaced => rfl
  | none => dsimp only; split <;> rfl

/-- A signed vote is dropped when seen or not eligible, and else enters the election. -/
theorem deliverVote_eq {state : Payments} (atTip : state.tip = some tip) {vote : CMasternodePaymentWinner}
    (signed : checkSignature env vote = true) : deliverVote env state vote =
      if vote.getHash env ∈ state.mapSeenMasternodeVotes ∨ eligible tip vote = false then state
      else { state.recordVote env vote with vWinning := electWinner (scored env vote) state.vWinning } := by
  rw [← addWinningMasternode_recordVote, deliverVote, processVote, atTip, eligible]
  by_cases seen : vote.getHash env ∈ state.mapSeenMasternodeVotes
  · simp [seen]
  · by_cases outside : outOfRange tip vote = true
    · simp [outside]
    · by_cases final : vote.vin.nSequence = 0xffffffff
      · simp [seen, outside, final, signed, Payments.recordVote, atTip]
      · simp [seen, outside, final]

/-- An eligible vote makes the later ones of its hash dropped. -/
def Precedes (earlier later : CMasternodePaymentWinner) : Prop :=
  eligible tip earlier = true ∧ earlier.getHash env = later.getHash env

/-- The votes of a history that take part in the election. -/
def Accepted (history : List CMasternodePaymentWinner) (vote : CMasternodePaymentWinner) : Prop :=
  eligible tip vote = true ∧ FirstOf (Precedes env tip) history vote

/-- A node after deliveries: one winner for each height with an accepted vote, of the highest score. -/
structure Delivered (history : List CMasternodePaymentWinner) (state : Payments) : Prop where
  atTip : state.tip = some tip
  seen : ∀ hash, hash ∈ state.mapSeenMasternodeVotes ↔
    ∃ vote ∈ history, eligible tip vote = true ∧ vote.getHash env = hash
  heights : (state.vWinning.map (·.nBlockHeight)).Nodup
  accepted : ∀ entry ∈ state.vWinning, ∃ vote, Accepted env tip history vote ∧ entry = scored env vote
  covers : ∀ vote, Accepted env tip history vote →
    ∃ entry ∈ state.vWinning, entry.nBlockHeight = vote.nBlockHeight ∧ (scored env vote).score ≤ entry.score

variable {env tip} {history : List CMasternodePaymentWinner} {vote : CMasternodePaymentWinner} {state : Payments}

theorem accepted_concat {last : CMasternodePaymentWinner} :
    Accepted env tip (history ++ [last]) vote ↔ Accepted env tip history vote ∨
      vote = last ∧ eligible tip vote = true ∧ ∀ earlier ∈ history, ¬ Precedes env tip earlier vote := by
  rw [Accepted, firstOf_concat, Accepted]
  tauto

/-- An ineligible or seen vote is not accepted. -/
theorem Delivered.drop (delivered : Delivered env tip history state)
    (dropped : vote.getHash env ∈ state.mapSeenMasternodeVotes ∨ eligible tip vote = false) :
    Delivered env tip (history ++ [vote]) state := by
  have same (other : CMasternodePaymentWinner) :
      Accepted env tip (history ++ [vote]) other ↔ Accepted env tip history other := by
    rw [accepted_concat, or_iff_left]
    rintro ⟨rfl, taken, first⟩
    rcases dropped with seen | refused
    · obtain ⟨earlier, member, precedes⟩ := (delivered.seen _).mp seen
      exact first earlier member precedes
    · exact absurd taken (by simp [refused])
  constructor
  · exact delivered.atTip
  · intro hash
    rw [delivered.seen]
    constructor
    · rintro ⟨other, member, both⟩
      exact ⟨other, mem_append_left _ member, both⟩
    · rintro ⟨other, member, taken, rfl⟩
      rcases mem_append.mp member with earlier | last
      · exact ⟨other, earlier, taken, rfl⟩
      · rw [mem_singleton.mp last] at taken ⊢
        rcases dropped with seen | refused
        · exact (delivered.seen _).mp seen
        · exact absurd taken (by simp [refused])
  · exact delivered.heights
  · simpa only [same] using delivered.accepted
  · simpa only [same] using delivered.covers

theorem Delivered.elect (delivered : Delivered env tip history state)
    (new : vote.getHash env ∉ state.mapSeenMasternodeVotes) (taken : eligible tip vote = true) :
    Delivered env tip (history ++ [vote])
      { state.recordVote env vote with vWinning := electWinner (scored env vote) state.vWinning } := by
  have first : ∀ earlier ∈ history, ¬ Precedes env tip earlier vote := fun earlier member precedes =>
    new ((delivered.seen _).mpr ⟨earlier, member, precedes⟩)
  obtain ⟨own, others⟩ := electWinner_covers (scored env vote) state.vWinning
  constructor
  · exact delivered.atTip
  · intro hash
    show hash ∈ insertVote state.mapSeenMasternodeVotes (vote.getHash env) vote ↔ _
    rw [mem_insertVote, delivered.seen]
    constructor
    · rintro (rfl | ⟨other, member, both⟩)
      · exact ⟨vote, by simp, taken, rfl⟩
      · exact ⟨other, mem_append_left _ member, both⟩
    · rintro ⟨other, member, both⟩
      rcases mem_append.mp member with earlier | last
      · exact .inr ⟨other, earlier, both⟩
      · rw [← both.2, mem_singleton.mp last]
        exact .inl rfl
  · exact electWinner_nodup _ delivered.heights
  · intro entry member
    rcases mem_electWinner _ member with old | rfl
    · obtain ⟨other, accepted, same⟩ := delivered.accepted entry old
      exact ⟨other, accepted_concat.mpr (.inl accepted), same⟩
    · exact ⟨vote, accepted_concat.mpr (.inr ⟨rfl, taken, first⟩), rfl⟩
  · intro other accepted
    rcases accepted_concat.mp accepted with old | ⟨rfl, -⟩
    · obtain ⟨entry, member, height, score⟩ := delivered.covers other old
      obtain ⟨kept, inside, sameHeight, higher⟩ := others entry member
      exact ⟨kept, inside, sameHeight.trans height, UInt64.le_trans score higher⟩
    · exact own

/-- What the delivered valid votes leave in the node. -/
theorem deliverVotes_delivered {votes : List CMasternodePaymentWinner}
    (signed : ∀ vote ∈ votes, checkSignature env vote = true) : Delivered env tip votes (deliverVotes env tip votes) := by
  refine run_history (fun history state => (∀ vote ∈ history, checkSignature env vote = true) →
    Delivered env tip history state) ?_ ?_ votes signed
  · intro _
    constructor
    · rfl
    · simp
    · simp
    · simp
    · rintro vote ⟨-, first⟩
      cases first.mem
  · intro history vote delivers signed
    rw [forall_mem_append, forall_mem_singleton] at signed
    have delivered := delivers signed.1
    rw [deliverVote_eq env tip delivered.atTip signed.2]
    split
    · exact delivered.drop ‹_›
    · rename_i kept
      rw [not_or, Bool.not_eq_false] at kept
      exact delivered.elect kept.1 kept.2

end Delivery

/-- A vote that none for its height exceeds in score. -/
def TopVote (votes : List CMasternodePaymentWinner) (top : CMasternodePaymentWinner) : Prop :=
  top ∈ votes ∧ ∀ other ∈ votes, other.nBlockHeight = top.nBlockHeight →
    (scored env other).score ≤ (scored env top).score

/-- The handler takes a vote of the set for that height. -/
def Contested (tip : Int) (votes : List CMasternodePaymentWinner) (nBlockHeight : Int32) : Prop :=
  ∃ vote ∈ votes, eligible tip vote = true ∧ vote.nBlockHeight = nBlockHeight

/-- Every order of the votes leads to the same payees, to at most one entry for a height, and to entries that are, up
to the carried score, the only highest-scoring votes of the set. -/
def OrderIndependent (tip : Int) (votes : List CMasternodePaymentWinner) : Prop :=
  ∀ order, order.Perm votes →
    (∀ other, other.Perm votes → ∀ nBlockHeight,
      getBlockPayee (deliverVotes env tip order) nBlockHeight = getBlockPayee (deliverVotes env tip other) nBlockHeight) ∧
    ((deliverVotes env tip order).vWinning.map (·.nBlockHeight)).Nodup ∧
    ∀ entry ∈ (deliverVotes env tip order).vWinning, ∃ vote ∈ votes, entry = scored env vote ∧
      ∀ other ∈ votes, other.nBlockHeight = vote.nBlockHeight →
        scored env other = scored env vote ∨ (scored env other).score < (scored env vote).score

/-- A top vote for a contested height is taken, and is the only one for its collateral and height and the only one
taken under its hash. -/
def TopVotesDistinct (tip : Int) (votes : List CMasternodePaymentWinner) : Prop :=
  ∀ top, TopVote env votes top → Contested tip votes top.nBlockHeight →
    eligible tip top = true ∧
      ∀ other ∈ votes, other.nBlockHeight = top.nBlockHeight ∧ other.vin.prevout = top.vin.prevout ∨
        Precedes env tip other top → scored env other = scored env top

theorem getBlockPayee_eq_some {state : Payments} (heights : (state.vWinning.map (·.nBlockHeight)).Nodup)
    {nBlockHeight : Int32} {payee : CScript} : getBlockPayee state nBlockHeight = some payee ↔
      ∃ entry ∈ state.vWinning, entry.nBlockHeight = nBlockHeight ∧ entry.payee = payee := by
  rw [getBlockPayee, Option.map_eq_some_iff]
  constructor
  · rintro ⟨entry, found, paid⟩
    exact ⟨entry, mem_of_find?_eq_some found, by simpa using find?_some found, paid⟩
  · rintro ⟨entry, member, rfl, paid⟩
    cases found : state.vWinning.find? fun winner => winner.nBlockHeight == entry.nBlockHeight with
    | none => exact absurd (find?_eq_none.mp found entry member) (by simp)
    | some first =>
      have same : first.nBlockHeight = entry.nBlockHeight := by simpa using find?_some found
      rw [inj_on_of_nodup_map heights (mem_of_find?_eq_some found) member same]
      exact ⟨entry, rfl, paid⟩

section Order

variable {env : Env} {tip : Int} {votes order : List CMasternodePaymentWinner} {entry top vote : CMasternodePaymentWinner}

theorem eligible_scored (env : Env) (vote : CMasternodePaymentWinner) :
    eligible tip (scored env vote) = eligible tip vote := rfl

theorem getHash_scored (env : Env) (vote : CMasternodePaymentWinner) :
    (scored env vote).getHash env = vote.getHash env := rfl

theorem score_of_prevout {other : CMasternodePaymentWinner} (same : other.vin.prevout = vote.vin.prevout) :
    (scored env other).score = (scored env vote).score := by
  show calculateScore env 0 other.vin = calculateScore env 0 vote.vin
  rw [calculateScore, calculateScore, same]

theorem exists_topVote (env : Env) (member : vote ∈ votes) :
    ∃ top, TopVote env votes top ∧ top.nBlockHeight = vote.nBlockHeight := by
  let rivals := votes.filter fun other => other.nBlockHeight == vote.nBlockHeight
  have inRivals {other : CMasternodePaymentWinner} :
      other ∈ rivals ↔ other ∈ votes ∧ other.nBlockHeight = vote.nBlockHeight := by simp [rivals]
  cases highest : rivals.argmax fun other => (scored env other).score.toNat with
  | none =>
    rw [argmax_eq_none] at highest
    have inside := inRivals.mpr ⟨member, rfl⟩
    rw [highest] at inside
    cases inside
  | some top =>
    obtain ⟨inVotes, height⟩ := inRivals.mp (argmax_mem highest)
    refine ⟨top, ⟨inVotes, fun other inside same => ?_⟩, height⟩
    have bound := le_of_mem_argmax (inRivals.mpr ⟨inside, same.trans height⟩) highest
    exact UInt64.le_iff_toNat_le.mpr bound

/-- A top vote, or its equal, takes part in the election. -/
theorem Delivered.covers_top {state : Payments} (delivered : Delivered env tip order state)
    (distinct : TopVotesDistinct env tip votes) (permuted : order.Perm votes) (topVote : TopVote env votes top)
    (contested : Contested tip votes top.nBlockHeight) : Covered state.vWinning (scored env top) := by
  obtain ⟨taken, alone⟩ := distinct top topVote contested
  obtain ⟨first, firstOf, precedes⟩ := exists_firstOf (Precedes env tip)
    (fun left right => ⟨left.1, left.2.trans right.2⟩) (permuted.mem_iff.mpr topVote.1) ⟨taken, rfl⟩
  have firstTop : scored env first = scored env top := alone first (permuted.mem_iff.mp firstOf.mem) (.inr precedes)
  obtain ⟨kept, inside, height, higher⟩ := delivered.covers first ⟨precedes.1, firstOf⟩
  have sameHeight : first.nBlockHeight = top.nBlockHeight := congrArg (·.nBlockHeight) firstTop
  exact ⟨kept, inside, height.trans sameHeight, firstTop ▸ higher⟩

/-- Different collaterals of the votes have different scores. -/
def ScoresSeparate (env : Env) (votes : List CMasternodePaymentWinner) : Prop :=
  ∀ vote ∈ votes, ∀ other ∈ votes, calculateScore env 0 vote.vin = calculateScore env 0 other.vin →
    vote.vin.prevout = other.vin.prevout

/-- The winner for the height of a top vote is that vote. -/
theorem Delivered.winner_eq_top {state : Payments} (delivered : Delivered env tip order state)
    (distinct : TopVotesDistinct env tip votes) (separate : ScoresSeparate env votes) (permuted : order.Perm votes)
    (topVote : TopVote env votes top) (contested : Contested tip votes top.nBlockHeight)
    (member : entry ∈ state.vWinning) (height : entry.nBlockHeight = top.nBlockHeight) : entry = scored env top := by
  obtain ⟨kept, inside, keptHeight, higher⟩ := delivered.covers_top distinct permuted topVote contested
  obtain rfl := inj_on_of_nodup_map delivered.heights inside member (keptHeight.trans height.symm)
  obtain ⟨winner, accepted, rfl⟩ := delivered.accepted kept inside
  have inVotes := permuted.mem_iff.mp accepted.2.mem
  have prevout := separate winner inVotes top topVote.1 (UInt64.le_antisymm (topVote.2 winner inVotes height) higher)
  exact (distinct top topVote contested).2 winner inVotes (.inl ⟨height, prevout⟩)

/-- Under the condition the winners are the top votes of contested heights, in any order. -/
theorem mem_vWinning_iff (distinct : TopVotesDistinct env tip votes)
    (signed : ∀ vote ∈ votes, checkSignature env vote = true) (separate : ScoresSeparate env votes)
    (permuted : order.Perm votes) : entry ∈ (deliverVotes env tip order).vWinning ↔
      ∃ top, TopVote env votes top ∧ Contested tip votes top.nBlockHeight ∧ entry = scored env top := by
  have delivered : Delivered env tip order (deliverVotes env tip order) :=
    deliverVotes_delivered fun vote member => signed vote (permuted.mem_iff.mp member)
  constructor
  · intro member
    obtain ⟨winner, accepted, same⟩ := delivered.accepted entry member
    have inVotes := permuted.mem_iff.mp accepted.2.mem
    obtain ⟨top, topVote, height⟩ := exists_topVote env inVotes
    have contested : Contested tip votes top.nBlockHeight := ⟨winner, inVotes, accepted.1, height.symm⟩
    have sameHeight : entry.nBlockHeight = top.nBlockHeight := by rw [height, same, scored]
    exact ⟨top, topVote, contested, delivered.winner_eq_top distinct separate permuted topVote contested member sameHeight⟩
  · rintro ⟨top, topVote, contested, rfl⟩
    obtain ⟨kept, inside, height, -⟩ := delivered.covers_top distinct permuted topVote contested
    rwa [← delivered.winner_eq_top distinct separate permuted topVote contested inside height]

theorem orderIndependent_of_distinct (distinct : TopVotesDistinct env tip votes)
    (signed : ∀ vote ∈ votes, checkSignature env vote = true) (separate : ScoresSeparate env votes) :
    OrderIndependent env tip votes := by
  have heights {order : List CMasternodePaymentWinner} (permuted : order.Perm votes) :
      ((deliverVotes env tip order).vWinning.map (·.nBlockHeight)).Nodup :=
    (deliverVotes_delivered fun vote member => signed vote (permuted.mem_iff.mp member)).heights
  intro order permuted
  refine ⟨?_, heights permuted, ?_⟩
  · intro other permuted' nBlockHeight
    apply Option.ext
    intro payee
    rw [getBlockPayee_eq_some (heights permuted), getBlockPayee_eq_some (heights permuted')]
    simp only [mem_vWinning_iff distinct signed separate permuted, mem_vWinning_iff distinct signed separate permuted']
  · intro entry member
    obtain ⟨top, topVote, contested, rfl⟩ := (mem_vWinning_iff distinct signed separate permuted).mp member
    refine ⟨top, topVote.1, rfl, fun other inVotes height => ?_⟩
    by_cases equal : (scored env other).score = (scored env top).score
    · exact .inl ((distinct top topVote contested).2 other inVotes
        (.inl ⟨height, separate other inVotes top topVote.1 equal⟩))
    · exact .inr (UInt64.lt_of_le_of_ne (topVote.2 other inVotes height) equal)

/-- In an order-independent set, a top vote's height holds that vote. -/
theorem OrderIndependent.entry_eq_top (independent : OrderIndependent env tip votes) (permuted : order.Perm votes)
    (topVote : TopVote env votes top) (member : entry ∈ (deliverVotes env tip order).vWinning)
    (height : entry.nBlockHeight = top.nBlockHeight) : entry = scored env top := by
  obtain ⟨vote, inVotes, rfl, unique⟩ := (independent order permuted).2.2 entry member
  rcases unique top topVote.1 height.symm with same | lower
  · exact same.symm
  · exact absurd (UInt64.lt_of_lt_of_le lower (topVote.2 vote inVotes height)) (UInt64.lt_irrefl _)

theorem OrderIndependent.distinct (independent : OrderIndependent env tip votes)
    (signed : ∀ vote ∈ votes, checkSignature env vote = true) : TopVotesDistinct env tip votes := by
  have delivered {order : List CMasternodePaymentWinner} (permuted : order.Perm votes) :
      Delivered env tip order (deliverVotes env tip order) :=
    deliverVotes_delivered fun vote member => signed vote (permuted.mem_iff.mp member)
  rintro top topVote ⟨vote, inVotes, taken, height⟩
  -- the order that starts with the eligible vote has an entry for the height
  have permuted := (perm_cons_erase inVotes).symm
  obtain ⟨entry, member, entryHeight, -⟩ := (delivered permuted).covers vote ⟨taken, FirstOf.head _ _ _⟩
  have isTop := independent.entry_eq_top permuted topVote member (entryHeight.trans height)
  obtain ⟨winner, accepted, same⟩ := (delivered permuted).accepted entry member
  refine ⟨?_, ?_⟩
  · rw [← eligible_scored env top, ← isTop, same]
    exact accepted.1
  · rintro other inside (⟨otherHeight, prevout⟩ | precedes)
    · obtain ⟨origin, -, rfl, unique⟩ := (independent _ permuted).2.2 entry member
      rcases unique other inside (otherHeight.trans (congrArg (·.nBlockHeight) isTop).symm) with equal | lower
      · rw [equal, isTop]
      · rw [isTop, score_of_prevout prevout] at lower
        exact absurd lower (UInt64.lt_irrefl _)
    · -- the order that starts with the vote of the same hash has an entry for the height as well
      have permuted' := (perm_cons_erase inside).symm
      have paid : getBlockPayee (deliverVotes env tip _) top.nBlockHeight = some entry.payee :=
        (getBlockPayee_eq_some (delivered permuted).heights).mpr ⟨entry, member, entryHeight.trans height, rfl⟩
      rw [(independent _ permuted).1 _ permuted', getBlockPayee_eq_some (delivered permuted').heights] at paid
      obtain ⟨entry', member', height', -⟩ := paid
      have isTop' := independent.entry_eq_top permuted' topVote member' height'
      obtain ⟨winner', accepted', same'⟩ := (delivered permuted').accepted entry' member'
      have hash : other.getHash env = winner'.getHash env := by
        rw [precedes.2, ← getHash_scored env top, ← isTop', same', getHash_scored]
      rw [← isTop', same', accepted'.2.eq_head ⟨precedes.1, hash⟩]

end Order

/-- Every order of a set of signed votes gives the same payees, with one entry for a height that is its highest-scoring
vote, exactly when no top vote of a contested height is refused or shares its hash, or its collateral, with another
vote. -/
theorem deliverVotes_orderIndependent_iff (tip : Int) (votes : List CMasternodePaymentWinner)
    (signed : ∀ vote ∈ votes, checkSignature env vote = true) (separate : ScoresSeparate env votes) :
    OrderIndependent env tip votes ↔ TopVotesDistinct env tip votes :=
  ⟨fun independent => independent.distinct signed, fun distinct => orderIndependent_of_distinct distinct signed separate⟩

/-- The signer accepts all; the hash of a height is 5, that of a hash its lowest byte. -/
def lowByteEnv : Env where
  signer := { getHash := fun _ => 0, recoverCompact := fun _ _ => some [], getID := fun _ => 0 }
  lyra2re2Hash := fun bytes => if bytes.length = 4 then 5 else BitVec.ofNat 256 (bytes.headD 0).toNat
  mainNetwork := true

/-- A vote for block 100. -/
def collateralVote (hash : Uint256) (payee : CScript) : CMasternodePaymentWinner :=
  ⟨100, ⟨⟨hash, 0⟩, [], 0xffffffff, []⟩, payee, [], 0⟩

/-- The collaterals 4 and 7 are at different distances from 5. -/
theorem deliverVotes_orderIndependent_pair :
    OrderIndependent lowByteEnv 99 [collateralVote 4 [0x51], collateralVote 7 [0x52]] := by
  have signed : ∀ vote ∈ [collateralVote 4 [0x51], collateralVote 7 [0x52]], checkSignature lowByteEnv vote = true :=
    fun _ _ => rfl
  have separate : ScoresSeparate lowByteEnv [collateralVote 4 [0x51], collateralVote 7 [0x52]] := by
    simp only [ScoresSeparate, forall_mem_cons, not_mem_nil, false_implies, implies_true, and_true]
    decide
  refine (deliverVotes_orderIndependent_iff lowByteEnv 99 _ signed separate).mpr ?_
  rintro top ⟨member, highest⟩ -
  have isHigher : top = collateralVote 7 [0x52] := by
    simp only [mem_cons, not_mem_nil, or_false] at member
    rcases member with rfl | rfl
    · exact absurd (highest (collateralVote 7 [0x52]) (by simp) rfl) (by decide)
    · rfl
  subst isHigher
  refine ⟨by decide, ?_⟩
  simp only [forall_mem_cons, not_mem_nil, false_implies, implies_true, and_true, Precedes]
  decide

/-- The collaterals 4 and 6 are equally far from 5, so the first vote keeps the other out. -/
theorem deliverVotes_orderDependent :
    (∀ vote ∈ [collateralVote 4 [0x51], collateralVote 6 [0x52]], checkSignature lowByteEnv vote = true) ∧
    ScoresSeparate lowByteEnv [collateralVote 4 [0x51], collateralVote 6 [0x52]] ∧
    ¬ OrderIndependent lowByteEnv 99 [collateralVote 4 [0x51], collateralVote 6 [0x52]] := by
  refine ⟨fun _ _ => rfl, ?_, ?_⟩
  · simp only [ScoresSeparate, forall_mem_cons, not_mem_nil, false_implies, implies_true, and_true]
    decide
  · intro independent
    have samePayee := (independent _ (.refl _)).1 [collateralVote 6 [0x52], collateralVote 4 [0x51]]
      (Perm.swap _ _ _) 100
    exact absurd samePayee (by decide +kernel)

end Straks.Masternode
