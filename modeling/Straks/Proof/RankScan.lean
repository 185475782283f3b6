import Straks.Construction.Election.Ranking

namespace Straks.Election

open Ranking Ranker

variable (chainActive : ActiveChain) (nBlockHeight : Int)

/-- The height under which an answer is remembered. -/
def askedHeight : Int :=
  if nBlockHeight = 0 then chainActive.length - 1 else nBlockHeight

/-- How far below the tip the walk ends. -/
def blocksAgo : Int :=
  if askedHeight chainActive nBlockHeight > 0 then
    (chainActive.length : Int) - 1 + 1 - askedHeight chainActive nBlockHeight
  else 0

/-- A query repeats a remembered answer, fails, or reads and remembers one. -/
inductive Answered (cache : BlockHashes) : Prop
  | remembered (hash : Uint256) (found : cache.lookup (askedHeight chainActive nBlockHeight) = some hash)
      (result : getBlockHash chainActive nBlockHeight cache = (some hash, cache))
  | failed (missing : cache.lookup (askedHeight chainActive nBlockHeight) = none)
      (reason : chainActive.length = 1 ∨ (chainActive.length : Int) < askedHeight chainActive nBlockHeight ∨
        readBack (blocksAgo chainActive nBlockHeight) 0 chainActive = none)
      (result : getBlockHash chainActive nBlockHeight cache = (none, cache))
  | read (hash : Uint256) (missing : cache.lookup (askedHeight chainActive nBlockHeight) = none)
      (above : chainActive.length ≠ 1) (within : askedHeight chainActive nBlockHeight ≤ chainActive.length)
      (walked : readBack (blocksAgo chainActive nBlockHeight) 0 chainActive = some hash)
      (result : getBlockHash chainActive nBlockHeight cache =
        (some hash, cache.insert (askedHeight chainActive nBlockHeight) hash))

variable (ranker : Ranker) (asked : Int) (cache : BlockHashes)

theorem getBlockHash_nil : getBlockHash [] asked cache = (none, cache) := rfl

variable {chain : ActiveChain} {fOnlyActive : Bool}

/-- The query by the height asked for and the walk from the tip. -/
theorem getBlockHash_eq (nonempty : chain ≠ []) (asked : Int) (cache : BlockHashes) : getBlockHash chain asked cache =
      match cache.lookup (askedHeight chain asked) with
      | some hash => (some hash, cache)
      | none =>
        if (chain.length : Int) - 1 = 0 ∨ (chain.length : Int) - 1 + 1 < askedHeight chain asked then (none, cache)
        else
          match readBack (blocksAgo chain asked) 0 chain with
          | some hash => (some hash, cache.insert (askedHeight chain asked) hash)
          | none => (none, cache) := by
  have notEmpty : ¬ chain.isEmpty = true := by simpa using nonempty
  rw [getBlockHash, if_neg notEmpty]
  rfl

theorem getBlockHash_answered (nonempty : chain ≠ []) (asked : Int) (cache : BlockHashes) :
    Answered chain asked cache := by
  have whole := getBlockHash_eq nonempty asked cache
  cases found : cache.lookup (askedHeight chain asked) with
  | some hash =>
    simp only [found] at whole
    exact .remembered hash found whole
  | none =>
    by_cases outside : (chain.length : Int) - 1 = 0 ∨
        (chain.length : Int) - 1 + 1 < askedHeight chain asked
    · simp only [found, if_pos outside] at whole
      exact .failed found (by omega) whole
    · cases walked : readBack (blocksAgo chain asked) 0 chain with
      | some hash =>
        simp only [found, if_neg outside, walked] at whole
        exact .read hash found (by omega) (by omega) walked whole
      | none =>
        simp only [found, if_neg outside, walked] at whole
        exact .failed found (.inr (.inr walked)) whole

/-- Asking again for a height gives the same answer and remembers nothing more. -/
theorem getBlockHash_again (chain : ActiveChain) (asked : Int) (cache : BlockHashes) :
    getBlockHash chain asked (getBlockHash chain asked cache).2 = getBlockHash chain asked cache := by
  by_cases empty : chain = []
  · subst empty
    rfl
  · cases getBlockHash_answered empty asked cache with
    | remembered hash found result => rw [result, result]
    | failed missing reason result => rw [result, result]
    | read hash missing above within walked result =>
      rw [result, getBlockHash_eq empty]
      simp only [AList.lookup_insert]

/-- The score that follows from the hash of a block. -/
def scoreGiven (hashes : ScoreHash) (vin : CTxIn) : Option Uint256 → Uint256
  | some hash => scoreDistance hashes hash vin
  | none => 0

theorem calculateScore_eq (hashes : ScoreHash) (chain : ActiveChain) (vin : CTxIn) (asked : Int)
    (cache : BlockHashes) :
    calculateScore hashes chain vin asked cache = (scoreGiven hashes vin (getBlockHash chain asked cache).1,
        (getBlockHash chain asked cache).2) := by
  by_cases empty : chain = []
  · subst empty
    rfl
  · have notEmpty : ¬ chain.isEmpty = true := by simpa using empty
    rcases result : getBlockHash chain asked cache with ⟨answer, after⟩
    simp only [calculateScore, if_neg notEmpty, bind, StateT.bind, result]
    cases answer <;> rfl

/-- The masternodes that take part in a ranking. -/
def Ranker.eligible (ranker : Ranker) (minProtocol : Int) (fOnlyActive : Bool) (entries : List CMasternode) :
    List CMasternode :=
  entries.filter fun mn =>
    decide (minProtocol ≤ mn.protocolVersion) && (!fOnlyActive || (mn.check ranker.env ranker.view).isEnabled)

/-- The list after a scan. -/
def Ranker.visited (ranker : Ranker) (minProtocol : Int) (fOnlyActive : Bool) (entries : List CMasternode) :
    List CMasternode :=
  entries.map fun mn => if mn.protocolVersion < minProtocol then mn else ranker.visit fOnlyActive mn

/-- The number masternodes are ranked by, given the hash. -/
def Ranker.word (ranker : Ranker) (answer : Option Uint256) (vin : CTxIn) : Nat :=
  scoreWord (scoreGiven ranker.hashes vin answer)

variable {protocol : Int} {mn : CMasternode}

theorem scan_old (fOnlyActive : Bool) (rest : List CMasternode) (cache : BlockHashes)
    (old : mn.protocolVersion < protocol) : (ranker.scan asked protocol fOnlyActive (mn :: rest) cache).1 =
      (mn :: (ranker.scan asked protocol fOnlyActive rest cache).1.1,
        (ranker.scan asked protocol fOnlyActive rest cache).1.2) := by
  simp only [scan, if_pos old]
  rfl

theorem scan_idle (rest : List CMasternode) (cache : BlockHashes) (recent : ¬ mn.protocolVersion < protocol)
    (idle : (fOnlyActive && !(ranker.visit fOnlyActive mn).isEnabled) = true) :
    (ranker.scan asked protocol fOnlyActive (mn :: rest) cache).1 =
      (ranker.visit fOnlyActive mn :: (ranker.scan asked protocol fOnlyActive rest cache).1.1,
        (ranker.scan asked protocol fOnlyActive rest cache).1.2) := by
  simp only [scan, if_neg recent, if_pos idle]
  rfl

theorem scan_active (rest : List CMasternode) (cache : BlockHashes) (recent : ¬ mn.protocolVersion < protocol)
    (active : (fOnlyActive && !(ranker.visit fOnlyActive mn).isEnabled) = false) :
    (ranker.scan asked protocol fOnlyActive (mn :: rest) cache).1 =
      (ranker.visit fOnlyActive mn :: (ranker.scan asked protocol fOnlyActive rest
          (getBlockHash ranker.chainActive asked cache).2).1.1,
        (ranker.word (getBlockHash ranker.chainActive asked cache).1 mn.vin, mn.vin) ::
          (ranker.scan asked protocol fOnlyActive rest (getBlockHash ranker.chainActive asked cache).2).1.2) := by
  have notIdle : ¬ (fOnlyActive && !(ranker.visit fOnlyActive mn).isEnabled) = true := by simp [active]
  simp only [scan, if_neg recent, if_neg notIdle, bind, StateT.bind, calculateScore_eq]
  rfl

/-- A scan ranks by the hash the node has for the height. -/
theorem scan_eq (protocol : Int) (fOnlyActive : Bool) (entries : List CMasternode) {answer : Option Uint256}
    {cache : BlockHashes} (answers : (getBlockHash ranker.chainActive asked cache).1 = answer) :
    (ranker.scan asked protocol fOnlyActive entries cache).1 = (ranker.visited protocol fOnlyActive entries,
          tabulate (ranker.word answer) ((ranker.eligible protocol fOnlyActive entries).map CMasternode.vin)) := by
  induction entries generalizing cache with
  | nil => rfl
  | cons mn rest ih =>
    by_cases old : mn.protocolVersion < protocol
    · have low : ¬ protocol ≤ mn.protocolVersion := by omega
      rw [scan_old ranker asked fOnlyActive rest cache old, ih answers]
      simp [visited, eligible, old, low]
    · have high : protocol ≤ mn.protocolVersion := by omega
      cases idle : fOnlyActive && !(ranker.visit fOnlyActive mn).isEnabled with
      | true =>
        have left : (!fOnlyActive || (mn.check ranker.env ranker.view).isEnabled) = false := by
          cases fOnlyActive <;> simp_all [visit]
        rw [scan_idle ranker asked rest cache old idle, ih answers]
        simp [visited, eligible, old, left]
      | false =>
        have right : (!fOnlyActive || (mn.check ranker.env ranker.view).isEnabled) = true := by
          cases fOnlyActive <;> simp_all [visit]
        rw [scan_active ranker asked rest cache old idle]
        rw [ih (by rw [getBlockHash_again, answers]), answers]
        simp [visited, eligible, old, high, right, tabulate]

/-- The rank of a masternode by a sorting algorithm, given the hash. -/
def Ranker.rankGiven (ranker : Ranker) (sorter : Sorter Nat CTxIn) (man : MasternodeMan) (vin : CTxIn)
    (minProtocol : Int) (fOnlyActive : Bool) (answer : Option Uint256) : Int :=
  if answer.isSome then
    rankOf vin 0 (sorter.order (ranker.word answer)
      ((ranker.eligible minProtocol fOnlyActive man.vMasternodes).map CMasternode.vin))
  else -1

/-- A rank depends on chain and memory only through the block hash. -/
theorem getMasternodeRank_eq (sorter : Sorter Nat CTxIn) (man : MasternodeMan) (vin : CTxIn)
    (asked protocol : Int) (fOnlyActive : Bool) (cache : BlockHashes) :
    (getMasternodeRank ranker sorter man vin asked protocol fOnlyActive cache).1.1 =
      ranker.rankGiven sorter man vin protocol fOnlyActive (getBlockHash ranker.chainActive asked cache).1 := by
  have again := getBlockHash_again ranker.chainActive asked cache
  rcases result : getBlockHash ranker.chainActive asked cache with ⟨answer, after⟩
  rw [result] at again
  cases answer with
  | none =>
    simp only [getMasternodeRank, bind, StateT.bind, result]
    rfl
  | some hash =>
    have scanned := scan_eq ranker asked protocol fOnlyActive man.vMasternodes (congrArg Prod.fst again)
    simp only [getMasternodeRank, bind, StateT.bind, result]
    rcases whole : ranker.scan asked protocol fOnlyActive man.vMasternodes after with
      ⟨⟨entries, scores⟩, later⟩
    simp only [whole, Prod.mk.injEq] at scanned
    rw [scanned.2]
    rfl

end Straks.Election
