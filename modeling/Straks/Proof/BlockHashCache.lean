import Straks.Library.Run
import Straks.Proof.RankScan

namespace Straks.Election

open Run Ranking List ChainNode

variable (chainActive : ActiveChain)

/-- The hash of the block at a height of the active chain. -/
def blockAt (nHeight : Int) : Option Uint256 :=
  if 0 ≤ nHeight then chainActive.reverse[nHeight.toNat]? else none

/-- The hash a query is for: of the block below the tip for zero, else below the height. -/
def blockAsked (nBlockHeight : Int) : Option Uint256 :=
  if nBlockHeight = 0 then chainActive[1]? else blockAt chainActive (nBlockHeight - 1)

variable {chain : ActiveChain} {nBlockHeight : Int} {node : ChainNode} {hash : Uint256}

theorem blockAt_eq {nHeight : Int} (start : 0 ≤ nHeight) (within : nHeight < chain.length) :
    blockAt chain nHeight = chain[chain.length - 1 - nHeight.toNat]? := by
  rw [blockAt, if_pos start, getElem?_reverse (by omega)]

/-- A block keeps its height under new blocks. -/
theorem blockAt_cons {nHeight : Int} (hash : Uint256) (within : nHeight < chain.length) :
    blockAt (hash :: chain) nHeight = blockAt chain nHeight := by
  by_cases start : 0 ≤ nHeight
  · rw [blockAt, blockAt, if_pos start, if_pos start, reverse_cons, getElem?_append_left]
    simp only [length_reverse]
    omega
  · rw [blockAt, blockAt, if_neg start, if_neg start]

/-- The walk finds the block so far below the tip, above genesis. -/
theorem readBack_eq {nBlocksAgo n : Int} (left : n ≤ nBlocksAgo) (chain : ActiveChain) : readBack nBlocksAgo n chain =
      if (nBlocksAgo - n).toNat + 1 < chain.length then chain[(nBlocksAgo - n).toNat]? else none := by
  induction chain generalizing n with
  | nil => rfl
  | cons hash rest ih =>
    cases rest with
    | nil => simp [readBack]
    | cons below rest =>
      by_cases arrived : n ≥ nBlocksAgo
      · have zero : (nBlocksAgo - n).toNat = 0 := by omega
        rw [readBack, if_pos arrived, zero]
        rfl
      · have further : (nBlocksAgo - n).toNat = (nBlocksAgo - (n + 1)).toNat + 1 := by omega
        rw [readBack, if_neg arrived, ih (by omega), further]
        simp only [length_cons, Nat.add_lt_add_iff_right, getElem?_cons_succ]

/-- The walk for a height in range finds the block below it, genesis aside. -/
theorem readBack_blocksAgo (positive : 0 < askedHeight chain nBlockHeight)
    (within : askedHeight chain nBlockHeight ≤ chain.length) : readBack (blocksAgo chain nBlockHeight) 0 chain =
      if 2 ≤ askedHeight chain nBlockHeight then blockAt chain (askedHeight chain nBlockHeight - 1) else none := by
  have ago : blocksAgo chain nBlockHeight = chain.length - askedHeight chain nBlockHeight := by
    rw [blocksAgo]
    omega
  rw [ago, readBack_eq (by omega), blockAt_eq (by omega) (by omega)]
  have index : ((chain.length : Int) - askedHeight chain nBlockHeight - 0).toNat =
      chain.length - 1 - (askedHeight chain nBlockHeight - 1).toNat := by omega
  rw [index]
  by_cases above : 2 ≤ askedHeight chain nBlockHeight
  · rw [if_pos above, if_pos (by omega)]
  · rw [if_neg above, if_neg (by omega)]

/-- What is remembered for a positive height is the hash of the block below, never genesis. -/
structure Remembers (nBlockHeight : Int) (hash : Uint256) : Prop where
  above : 2 ≤ nBlockHeight
  within : nBlockHeight ≤ chainActive.length
  block : blockAt chainActive (nBlockHeight - 1) = some hash

/-- What is remembered above genesis agrees with the chain. -/
def ChainNode.Coherent (node : ChainNode) : Prop :=
  ∀ nBlockHeight hash, 0 ≤ nBlockHeight → node.mapCacheBlockHashes.lookup nBlockHeight = some hash →
    Remembers node.chainActive nBlockHeight hash

/-- No remembered block is disconnected, and nobody asks for genesis. -/
def Cautious (node : ChainNode) : ChainEvent → Prop
  | .connectTip _ => True
  | .disconnectTip => node.mapCacheBlockHashes.lookup (node.chainActive.length : Int) = none
  | .query nBlockHeight => askedHeight node.chainActive nBlockHeight ≠ 1

instance (node : ChainNode) (event : ChainEvent) : Decidable (Cautious node event) :=
  match event with
  | .connectTip _ => .isTrue trivial
  | .disconnectTip => inferInstanceAs (Decidable (_ = _))
  | .query _ => inferInstanceAs (Decidable (_ ≠ _))

theorem start_coherent : start.Coherent := by
  intro nBlockHeight hash _ found
  cases found

theorem Remembers.connect (remembers : Remembers chain nBlockHeight hash) (tip : Uint256) :
    Remembers (tip :: chain) nBlockHeight hash := by
  obtain ⟨above, within, block⟩ := remembers
  constructor
  · exact above
  · rw [length_cons]
    omega
  · rw [blockAt_cons tip (by omega)]
    exact block

theorem Remembers.disconnect (remembers : Remembers chain nBlockHeight hash) (below : nBlockHeight < chain.length) :
    Remembers chain.tail nBlockHeight hash := by
  obtain ⟨above, within, block⟩ := remembers
  cases chain with
  | nil =>
    rw [length_nil] at below
    omega
  | cons tip rest =>
    rw [length_cons] at below
    rw [blockAt_cons tip (by omega)] at block
    exact ⟨above, by rw [tail_cons]; omega, block⟩

/-- An answer that was read from the chain may be remembered. -/
theorem remembers_of_walk (above : chain.length ≠ 1) (start : 0 ≤ askedHeight chain nBlockHeight)
    (within : askedHeight chain nBlockHeight ≤ chain.length)
    (walked : readBack (blocksAgo chain nBlockHeight) 0 chain = some hash) :
    Remembers chain (askedHeight chain nBlockHeight) hash := by
  have positive : 0 < askedHeight chain nBlockHeight := by
    apply lt_of_le_of_ne start
    intro zero
    rw [askedHeight] at zero
    split_ifs at zero <;> omega
  rw [readBack_blocksAgo positive within] at walked
  split_ifs at walked with high
  exact ⟨high, within, walked⟩

theorem ChainNode.Coherent.step {event : ChainEvent} (coherent : node.Coherent) (cautious : Cautious node event) :
    (node.step event).Coherent := by
  intro height remembered start found
  cases event with
  | connectTip tip => exact (coherent height remembered start found).connect tip
  | disconnectTip =>
    have old := coherent height remembered start found
    apply old.disconnect
    apply lt_of_le_of_ne old.within
    intro same
    have missing : node.mapCacheBlockHashes.lookup height = none := same ▸ cautious
    exact absurd (found.symm.trans missing) (Option.some_ne_none remembered)
  | query nBlockHeight =>
    by_cases empty : node.chainActive = []
    · have unchanged : (getBlockHash node.chainActive nBlockHeight node.mapCacheBlockHashes).2 =
          node.mapCacheBlockHashes := by rw [empty, getBlockHash_nil]
      exact coherent height remembered start (unchanged ▸ found)
    · cases getBlockHash_answered empty nBlockHeight node.mapCacheBlockHashes with
      | remembered hash present result =>
        rw [ChainNode.step, result] at found
        exact coherent height remembered start found
      | failed missing reason result =>
        rw [ChainNode.step, result] at found
        exact coherent height remembered start found
      | read hash missing above within walked result =>
        simp only [ChainNode.step, result] at found ⊢
        by_cases same : height = askedHeight node.chainActive nBlockHeight
        · subst same
          rw [AList.lookup_insert, Option.some.injEq] at found
          subst found
          exact remembers_of_walk above start within walked
        · rw [AList.lookup_insert_ne same] at found
          exact coherent height remembered start found

/-- The hash a query is for, by the height it is kept under. -/
theorem blockAsked_eq (above : 2 ≤ chain.length) :
    blockAsked chain nBlockHeight = blockAt chain (askedHeight chain nBlockHeight - 1) := by
  rw [blockAsked, askedHeight]
  split_ifs with tip
  · rw [blockAt_eq (by omega) (by omega)]
    congr 1
    omega
  · rfl

/-- On genesis alone nothing is remembered or below the tip. -/
theorem ChainNode.Coherent.answer_genesis (coherent : node.Coherent) (alone : node.chainActive.length = 1) :
    (getBlockHash node.chainActive 0 node.mapCacheBlockHashes).1 = blockAsked node.chainActive 0 := by
  have nonempty : node.chainActive ≠ [] := ne_nil_of_length_pos (by omega)
  have zero : askedHeight node.chainActive 0 = 0 := by
    rw [askedHeight]
    omega
  have below : blockAsked node.chainActive 0 = none := by
    rw [blockAsked, if_pos rfl, getElem?_eq_none (by omega)]
  cases getBlockHash_answered nonempty 0 node.mapCacheBlockHashes with
  | remembered hash found result =>
    rw [zero] at found
    exact absurd (coherent 0 hash (le_refl 0) found).above (by decide)
  | failed missing reason result => rw [result, below]
  | read hash missing above within walked result => exact absurd alone above

/-- While the memory agrees with the active chain, so do answers in range. -/
theorem ChainNode.Coherent.answer (coherent : node.Coherent) (start : 0 ≤ nBlockHeight)
    (within : nBlockHeight ≤ node.chainActive.length) (cautious : Cautious node (.query nBlockHeight)) :
    (getBlockHash node.chainActive nBlockHeight node.mapCacheBlockHashes).1 =
      blockAsked node.chainActive nBlockHeight := by
  have notGenesis : askedHeight node.chainActive nBlockHeight ≠ 1 := cautious
  by_cases empty : node.chainActive = []
  · rw [empty] at within ⊢
    obtain rfl : nBlockHeight = 0 := le_antisymm within start
    rfl
  · have some : 0 < node.chainActive.length := length_pos_iff.mpr empty
    by_cases alone : node.chainActive.length = 1
    · obtain rfl : nBlockHeight = 0 := by
        rw [askedHeight] at notGenesis
        split_ifs at notGenesis <;> omega
      exact coherent.answer_genesis alone
    · have asked : 2 ≤ askedHeight node.chainActive nBlockHeight ∧
          askedHeight node.chainActive nBlockHeight ≤ node.chainActive.length := by
        rw [askedHeight] at notGenesis ⊢
        split_ifs at notGenesis ⊢ <;> omega
      have walk := readBack_blocksAgo (by omega) asked.2
      rw [if_pos asked.1] at walk
      rw [blockAsked_eq (by omega), ← walk]
      cases getBlockHash_answered empty nBlockHeight node.mapCacheBlockHashes with
      | remembered hash found result =>
        rw [result, walk]
        exact (coherent _ hash (by omega) found).block.symm
      | failed missing reason result =>
        rw [result]
        rcases reason with alone' | outside | unread
        · exact absurd alone' alone
        · omega
        · exact unread.symm
      | read hash missing above within walked result => rw [result, walked]

/-- Hashes, scores and ranks are functions of the active chain. -/
structure FollowsChain (node : ChainNode) (nBlockHeight : Int) : Prop where
  hash : (getBlockHash node.chainActive nBlockHeight node.mapCacheBlockHashes).1 =
    blockAsked node.chainActive nBlockHeight
  score : ∀ hashes vin, (calculateScore hashes node.chainActive vin nBlockHeight node.mapCacheBlockHashes).1 =
    scoreGiven hashes vin (blockAsked node.chainActive nBlockHeight)
  rank : ∀ (ranker : Ranker) sorter man vin minProtocol fOnlyActive, ranker.chainActive = node.chainActive →
    (getMasternodeRank ranker sorter man vin nBlockHeight minProtocol fOnlyActive node.mapCacheBlockHashes).1.1 =
      ranker.rankGiven sorter man vin minProtocol fOnlyActive (blockAsked node.chainActive nBlockHeight)

theorem followsChain_of_hash
    (hash : (getBlockHash node.chainActive nBlockHeight node.mapCacheBlockHashes).1 = blockAsked node.chainActive nBlockHeight) :
    FollowsChain node nBlockHeight := by
  constructor
  · exact hash
  · intro hashes vin
    rw [calculateScore_eq, hash]
  · intro ranker sorter man vin protocol fOnlyActive same
    rw [getMasternodeRank_eq, same, hash]

/-- In every run in which no remembered block is disconnected and nobody asks for the genesis block,
every query in range follows the active chain. -/
theorem query_followsChain (events : List ChainEvent)
    (throughout : Throughout ChainNode.step Cautious ChainNode.start events) (before after : List ChainEvent)
    (nBlockHeight : Int) (split : events = before ++ .query nBlockHeight :: after) (start : 0 ≤ nBlockHeight)
    (within : nBlockHeight ≤ (run ChainNode.step ChainNode.start before).chainActive.length) :
    FollowsChain (run ChainNode.step ChainNode.start before) nBlockHeight := by
  subst split
  obtain ⟨earlier, cautious, -⟩ := throughout_append.mp throughout
  have coherent := run_throughout (fun _ _ coherent cautious => ChainNode.Coherent.step coherent cautious)
    start_coherent earlier
  exact followsChain_of_hash (coherent.answer start within cautious)

/-- The block below the tip is asked for before and after a change of tip. -/
theorem query_followsChain_replaced : FollowsChain (run step start
      [.connectTip 1, .connectTip 2, .connectTip 3, .query 0, .disconnectTip, .connectTip 4]) 3 :=
  query_followsChain
    [.connectTip 1, .connectTip 2, .connectTip 3, .query 0, .disconnectTip, .connectTip 4, .query 3]
    (by decide)
    [.connectTip 1, .connectTip 2, .connectTip 3, .query 0, .disconnectTip, .connectTip 4] [] 3 rfl
    (by decide) (by decide)

/-- The old hash of the tip is still given after it was replaced. -/
theorem query_stale : (getBlockHash (run step start
        [.connectTip 1, .connectTip 2, .connectTip 3, .query 3, .disconnectTip, .connectTip 4]).chainActive 3
      (run step start
        [.connectTip 1, .connectTip 2, .connectTip 3, .query 3, .disconnectTip, .connectTip 4]).mapCacheBlockHashes).1 =
      some 3 ∧
    blockAsked (run step start
      [.connectTip 1, .connectTip 2, .connectTip 3, .query 3, .disconnectTip, .connectTip 4]).chainActive 3 = some 4 := by
  decide

end Straks.Election
