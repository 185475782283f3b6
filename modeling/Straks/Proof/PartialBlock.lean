import Straks.Construction.Net.PartialBlock

namespace Straks.Net
open Chain Success List Option CBlockHeaderAndShortTxIDs Ends

variable {allowed : DownloadError → Prop}

section

variable {Value : Type} {values : List Value} {position : Nat} (inside : position < values.length)
include inside

theorem readAt_ends : Ends (readAt values position) allowed fun value => values[position]? = some value := by
  rw [readAt, getElem?_eq_getElem inside]
  exact .ok rfl

theorem writeAt_ends (value : Value) :
    Ends (writeAt values position value) allowed (· = values.set position value) := by
  rw [writeAt, if_pos inside]
  exact .ok rfl

end

/-- The transactions up to a position when prefilled ones are placed, free positions behind. -/
structure Prefilled (count placed : Nat) (lastprefilledindex : Int) (txnAvailable : List (Option CTransaction)) :
    Prop where
  length : txnAvailable.length = count
  bounded : lastprefilledindex ≤ 65535
  free : ∀ position : Nat, lastprefilledindex < position → position < count → txnAvailable[position]? = some none
  taken : txnAvailable.countP isSome = placed

theorem Prefilled.initial (count : Nat) : Prefilled count 0 (-1) (List.replicate count none) where
  length := length_replicate
  bounded := by decide
  free := by
    intro position _ inside
    simp [inside]
  taken := by simp [countP_replicate]

variable {txnAvailable : List (Option CTransaction)} {i : Nat}

variable {placed taken : Nat} {lastIndex : Int} {indexOffset : UInt16} {shorttxids : ShortIds} {count : Nat}

theorem Prefilled.place (prefilled : Prefilled count placed lastIndex txnAvailable)
    {position : Nat} (behind : lastIndex < position) (inside : position < count) (small : position ≤ 65535)
    (tx : CTransaction) : Prefilled count (placed + 1) position (txnAvailable.set position (some tx)) where
  length := by rw [length_set, prefilled.length]
  bounded := by exact_mod_cast small
  free := by
    intro other further within
    rw [getElem?_set_ne (by omega)]
    exact prefilled.free other (by omega) within
  taken := by
    have within : position < txnAvailable.length := by rw [prefilled.length]; exact inside
    have wasFree := prefilled.free position behind inside
    rw [getElem?_eq_getElem within, some_inj] at wasFree
    rw [countP_set within, wasFree, prefilled.taken]
    rfl

/-- The prefilled transactions stay within the block. -/
theorem placePrefilled_ends {shortCount count : Nat} {prefilledtxn : List PrefilledTransaction}
    (prefilled : Prefilled count i lastIndex txnAvailable) (lower : -1 ≤ lastIndex)
    (total : count = shortCount + (i + prefilledtxn.length)) :
    Ends (placePrefilled shortCount i lastIndex prefilledtxn txnAvailable) allowed fun result =>
      result.1 = true → ∃ last, Prefilled count (i + prefilledtxn.length) last result.2 := by
  induction prefilledtxn generalizing i lastIndex txnAvailable with
  | nil => exact .ok fun _ => ⟨_, prefilled⟩
  | cons next rest ih =>
    rw [length_cons] at total ⊢
    simp only [placePrefilled]
    generalize position_eq : lastIndex + next.index.toNat + 1 = position
    obtain ⟨position, rfl⟩ : ∃ natural : Nat, position = natural :=
      ⟨position.toNat, (Int.toNat_of_nonneg (by omega)).symm⟩
    apply branch
    · intro _
      exact .ok fun impossible => absurd impossible Bool.false_ne_true
    · intro _
      apply branch
      · intro _
        exact .ok fun impossible => absurd impossible Bool.false_ne_true
      · intro small
        apply branch
        · intro _
          exact .ok fun impossible => absurd impossible Bool.false_ne_true
        · intro near
          have inside : position < count := by omega
          apply bind (writeAt_ends (by rw [prefilled.length]; exact inside) _)
          intro written placedThere
          rw [placedThere]
          have extended := prefilled.place (by omega) inside (by omega) next.tx
          rw [show i + (rest.length + 1) = i + 1 + rest.length by omega]
          exact ih extended (by omega) (by omega)

/-- What is left to scan while short ids get positions. -/
structure Scanning (txnAvailable : List (Option CTransaction)) (i offset free taken : Nat) : Prop where
  free : (txnAvailable.drop (i + offset)).countP isNone = free
  taken : offset + (txnAvailable.drop (i + offset)).countP isSome = taken

/-- With fewer than 65536 positions taken the search ends inside the block. -/
theorem skipAvailable_ends {free rounds : Nat} (scanning : Scanning txnAvailable i indexOffset.toNat (free + 1) taken)
    (few : taken < 65536) (enough : taken < rounds + indexOffset.toNat) :
    Ends (skipAvailable txnAvailable i rounds indexOffset) allowed fun later =>
      i + later.toNat < txnAvailable.length ∧ Scanning txnAvailable (i + 1) later.toNat free taken := by
  induction rounds generalizing indexOffset with
  | zero =>
    have bound := scanning.taken
    omega
  | succ rounds ih =>
    obtain ⟨freeHere, takenHere⟩ := scanning
    cases here : txnAvailable.drop (i + indexOffset.toNat) with
    | nil =>
      rw [here] at freeHere
      simp at freeHere
    | cons tx rest =>
      have inside : i + indexOffset.toNat < txnAvailable.length := by
        by_contra outside
        rw [drop_eq_nil_of_le (by omega)] at here
        cases here
      have further : txnAvailable.drop (i + indexOffset.toNat + 1) = rest := by
        rw [← tail_drop, here, tail_cons]
      rw [here] at freeHere takenHere
      apply bind (readAt_ends inside)
      intro found foundHere
      rw [← head?_drop, here, head?_cons, some_inj] at foundHere
      subst foundHere
      cases tx with
      | none =>
        refine .ok ⟨inside, ?_, ?_⟩
        · rw [show i + 1 + indexOffset.toNat = i + indexOffset.toNat + 1 by omega, further]
          simpa using freeHere
        · rw [show i + 1 + indexOffset.toNat = i + indexOffset.toNat + 1 by omega, further]
          simpa using takenHere
      | some tx =>
        have larger : (indexOffset + 1).toNat = indexOffset.toNat + 1 := by
          rw [countP_cons_of_pos rfl] at takenHere
          exact Nat.mod_eq_of_lt (by simp; omega)
        apply ih
        · rw [larger]
          constructor
          · rw [← Nat.add_assoc, further]
            simpa using freeHere
          · rw [← Nat.add_assoc, further]
            simp at takenHere
            omega
        · omega

/-- Every short id stands for a position of the block. -/
def ShortIds.Inside (count : Nat) (shorttxids : ShortIds) : Prop :=
  ∀ shortid position, shorttxids.lookup shortid = some position → position.toNat < count

theorem ShortIds.Inside.insert (inside : ShortIds.Inside count shorttxids) (shortid : UInt64)
    {position : Nat} (within : position < count) :
    ShortIds.Inside count (shorttxids.insert shortid (UInt16.ofNat position)) := by
  intro other found stored
  by_cases same : other = shortid
  · subst same
    rw [AList.lookup_insert, some_inj] at stored
    rw [← stored]
    exact lt_of_le_of_lt (Nat.mod_le _ _) within
  · rw [AList.lookup_insert_ne same] at stored
    exact inside other found stored

/-- With fewer than 65536 prefilled transactions each short id gets a position. -/
theorem assignPositions_ends {sources : TxSources} {shortids : List UInt64}
    (scanning : Scanning txnAvailable i indexOffset.toNat shortids.length taken) (few : taken < 65536)
    (inside : ShortIds.Inside txnAvailable.length shorttxids) :
    Ends (assignPositions sources txnAvailable i indexOffset shortids shorttxids) allowed fun result =>
      ShortIds.Inside txnAvailable.length result.2 := by
  induction shortids generalizing i indexOffset shorttxids with
  | nil => exact .ok inside
  | cons shortid rest ih =>
    apply Ends.bind (skipAvailable_ends scanning few (by omega))
    intro later ⟨within, continued⟩
    have inserted := inside.insert shortid within
    apply Ends.branch
    · intro _
      exact .ok inserted
    · intro _
      exact ih continued inserted

/-- A full window of 65536 positions is searched for ever. -/
theorem skipAvailable_diverges (full : ∀ position < 65536, ∃ tx, txnAvailable[i + position]? = some (some tx))
    (rounds : Nat) (indexOffset : UInt16) : skipAvailable txnAvailable i rounds indexOffset = .error .diverges := by
  induction rounds generalizing indexOffset with
  | zero => rfl
  | succ rounds ih =>
    obtain ⟨tx, here⟩ := full indexOffset.toNat indexOffset.toNat_lt
    rw [skipAvailable, readAt, here]
    exact ih (indexOffset + 1)

/-- Positions have 16 bits, so no more can be prefilled, and so many fill every one. -/
theorem Prefilled.limit {last : Int} (prefilled : Prefilled count placed last txnAvailable) :
    placed ≤ 65536 ∧ (placed = 65536 → ∀ position < 65536, ∃ tx, txnAvailable[position]? = some (some tx)) := by
  have behind : (txnAvailable.drop 65536).countP isSome = 0 := by
    rw [countP_eq_zero]
    intro tx member
    obtain ⟨further, inside, rfl⟩ := mem_iff_getElem.mp member
    rw [length_drop, prefilled.length] at inside
    have free := prefilled.free (65536 + further) (by have := prefilled.bounded; omega) (by omega)
    rw [getElem?_eq_getElem (by rw [prefilled.length]; omega), some_inj] at free
    simp [free]
  have split : (txnAvailable.take 65536).countP isSome = placed := by
    have together := congrArg (List.countP isSome) (take_append_drop 65536 txnAvailable)
    rw [countP_append, behind, prefilled.taken] at together
    exact together
  have atMost : (txnAvailable.take 65536).countP isSome ≤ (txnAvailable.take 65536).length := countP_le_length
  rw [length_take] at atMost
  refine ⟨by omega, ?_⟩
  intro most position below
  have all : (txnAvailable.take 65536).countP isSome = (txnAvailable.take 65536).length := by
    rw [length_take]
    omega
  have within : position < (txnAvailable.take 65536).length := by
    omega
  have taken := countP_eq_length.mp all _ (getElem_mem within)
  obtain ⟨tx, there⟩ := isSome_iff_exists.mp taken
  refine ⟨tx, ?_⟩
  rw [← there, getElem_take, getElem?_eq_getElem]

/-- The vectors of the matching keep the size of the block. -/
structure Matching.Sized (count : Nat) (matching : Matching) : Prop where
  txnAvailable : matching.txnAvailable.length = count
  haveTxn : matching.haveTxn.length = count

namespace Matching.Sized

variable {count position : Nat} {matching : Matching}

theorem place (sized : Sized count matching) (inside : position < count) (tx : CTransaction) :
    Ends (matching.place position tx) allowed (Sized count) := by
  apply bind (writeAt_ends (by rw [sized.txnAvailable]; exact inside) _)
  intro written writtenThere
  apply bind (writeAt_ends (by rw [sized.haveTxn]; exact inside) _)
  intro marked markedThere
  rw [writtenThere, markedThere]
  exact .ok ⟨by rw [length_set, sized.txnAvailable], by rw [length_set, sized.haveTxn]⟩

theorem reset (sized : Sized count matching) (inside : position < count) :
    Ends (matching.reset position) allowed (Sized count) := by
  apply bind (writeAt_ends (by rw [sized.txnAvailable]; exact inside) _)
  intro written writtenThere
  rw [writtenThere]
  exact .ok ⟨by rw [length_set, sized.txnAvailable], sized.haveTxn⟩

theorem matchMempoolTx (sized : Sized count matching) (inside : position < count) (tx : CTransaction) :
    Ends (matchMempoolTx matching position tx) allowed (Sized count) := by
  apply bind (readAt_ends (by rw [sized.haveTxn]; exact inside))
  intro matched _
  apply branch
  · intro _
    exact sized.place inside tx
  · intro _
    apply bind (readAt_ends (by rw [sized.txnAvailable]; exact inside))
    intro found _
    apply branch
    · intro _
      exact sized.reset inside
    · intro _
      exact .ok sized

theorem matchExtraTx (sources : TxSources) (sized : Sized count matching) (inside : position < count)
    (tx : CTransaction) : Ends (matchExtraTx sources matching position tx) allowed (Sized count) := by
  apply bind (readAt_ends (by rw [sized.haveTxn]; exact inside))
  intro matched _
  apply branch
  · intro _
    apply bind (sized.place inside tx)
    intro placed after
    exact .ok ⟨after.txnAvailable, after.haveTxn⟩
  · intro _
    apply bind (readAt_ends (by rw [sized.txnAvailable]; exact inside))
    intro found _
    apply branch
    · intro _
      apply bind (sized.reset inside)
      intro cleared after
      exact .ok ⟨after.txnAvailable, after.haveTxn⟩
    · intro _
      exact .ok sized

theorem matchPool {getShortID : Uint256 → UInt64}
    {matchAt : Matching → Nat → CTransaction → Except DownloadError Matching} {shorttxids : ShortIds}
    (step : ∀ {matching position} (tx), Sized count matching → position < count →
      Ends (matchAt matching position tx) allowed (Sized count))
    (inside : ShortIds.Inside count shorttxids) {pool : List (Uint256 × CTransaction)}
    (sized : Sized count matching) :
    Ends (matchPool getShortID matchAt shorttxids pool matching) allowed (Sized count) := by
  induction pool generalizing matching with
  | nil => exact .ok sized
  | cons pooled rest ih =>
    have matched : Ends (matchTx getShortID matchAt shorttxids matching pooled) allowed (Sized count) := by
      rw [matchTx]
      cases found : shorttxids.lookup (getShortID pooled.1) with
      | none => exact .ok sized
      | some position => exact step pooled.2 sized (inside _ _ found)
    apply bind matched
    intro later after
    apply branch
    · intro _
      exact .ok after
    · intro _
      exact ih after

end Matching.Sized

namespace PartiallyDownloadedBlock

variable (cmpctblock : CBlockHeaderAndShortTxIDs)

/-- The partial block of a compact block that has been read. -/
structure Initialised (partialBlock : PartiallyDownloadedBlock) : Prop where
  header : partialBlock.header = cmpctblock.header
  notNull : partialBlock.header.isNull = false
  length : partialBlock.txnAvailable.length = cmpctblock.blockTxCount

/-- What a call of `InitData` leaves behind. -/
def AfterInit : ReadStatus × PartiallyDownloadedBlock → Prop
  | (.invalid, _) => True
  | (.checkBlockFailed, _) => False
  | (_, partialBlock) => Initialised cmpctblock partialBlock

/-- The search has no end when every 16-bit position is prefilled. -/
def EndlessSearch (error : DownloadError) : Prop :=
  error = .diverges ∧ cmpctblock.prefilledtxn.length = 65536 ∧ cmpctblock.shorttxids ≠ []

variable {sources : TxSources} {partialBlock : PartiallyDownloadedBlock} {cmpctblock : CBlockHeaderAndShortTxIDs}

theorem assignPositions_prefilled {last : Int} {txnAvailable : List (Option CTransaction)}
    (prefilled : Prefilled cmpctblock.blockTxCount cmpctblock.prefilledtxn.length last txnAvailable) :
    Ends (assignPositions sources txnAvailable 0 0 cmpctblock.shorttxids ∅) (EndlessSearch cmpctblock) fun result =>
      ShortIds.Inside txnAvailable.length result.2 := by
  have nothing : ShortIds.Inside txnAvailable.length ∅ := by
    intro shortid position stored
    cases stored
  have limit := prefilled.limit
  by_cases few : cmpctblock.prefilledtxn.length < 65536
  · apply assignPositions_ends _ few nothing
    have counted := length_eq_countP_add_countP isSome (l := txnAvailable)
    rw [prefilled.length, prefilled.taken, blockTxCount] at counted
    constructor
    · have opposite : (fun tx : Option CTransaction => decide ¬ tx.isSome = true) = isNone := by
        funext tx
        cases tx <;> rfl
      rw [opposite] at counted
      simp only [UInt16.toNat_zero, Nat.add_zero, drop_zero]
      omega
    · simp only [UInt16.toNat_zero, Nat.add_zero, drop_zero, Nat.zero_add]
      exact prefilled.taken
  · have most : cmpctblock.prefilledtxn.length = 65536 := by omega
    cases shortids : cmpctblock.shorttxids with
    | nil => exact .ok nothing
    | cons shortid rest =>
      have full := limit.2 most
      rw [assignPositions, skipAvailable_diverges (by simpa using full)]
      exact .error ⟨rfl, most, by rw [shortids]; exact cons_ne_nil _ _⟩

theorem matchShortIds_ends {last : Int} (header : partialBlock.header = cmpctblock.header)
    (notNull : cmpctblock.header.isNull = false)
    (prefilled : Prefilled cmpctblock.blockTxCount cmpctblock.prefilledtxn.length last partialBlock.txnAvailable) :
    Ends (partialBlock.matchShortIds sources cmpctblock) (EndlessSearch cmpctblock) (AfterInit cmpctblock) := by
  have kept : Initialised cmpctblock partialBlock := ⟨header, by rw [header]; exact notNull, prefilled.length⟩
  apply bind (assignPositions_prefilled prefilled)
  rintro ⟨even, shorttxids⟩ inside
  apply branch
  · intro _
    exact .ok kept
  · intro _
    apply branch
    · intro _
      exact .ok kept
    · intro _
      have sized : Matching.Sized partialBlock.txnAvailable.length
          ⟨partialBlock.txnAvailable, List.replicate partialBlock.txnAvailable.length false,
            partialBlock.mempoolCount, partialBlock.extraCount⟩ := ⟨rfl, length_replicate⟩
      apply bind (sized.matchPool (fun tx sized inside => sized.matchMempoolTx inside tx) inside)
      intro matching afterMempool
      apply bind (afterMempool.matchPool (fun tx sized inside => sized.matchExtraTx sources inside tx) inside)
      intro matching afterExtra
      exact .ok ⟨header, kept.notNull, by rw [afterExtra.txnAvailable]; exact prefilled.length⟩

/-- A new partial block can be initialised with any message. -/
theorem initData_ends : Ends (PartiallyDownloadedBlock.new.initData sources cmpctblock) (EndlessSearch cmpctblock)
      (AfterInit cmpctblock) := by
  apply branch
  · intro _
    exact .ok trivial
  · intro present
    apply branch
    · intro _
      exact .ok trivial
    · intro _
      have total : cmpctblock.blockTxCount = cmpctblock.shorttxids.length + (0 + cmpctblock.prefilledtxn.length) := by
        rw [Nat.zero_add, blockTxCount]
      apply bind (placePrefilled_ends (Prefilled.initial cmpctblock.blockTxCount) le_rfl total)
      rintro ⟨complete, txnAvailable⟩ prefilled
      apply branch
      · intro _
        exact .ok trivial
      · intro all
        obtain ⟨last, prefilled⟩ := prefilled (by simpa using all)
        rw [Nat.zero_add] at prefilled
        exact matchShortIds_ends rfl (by simpa using fun null => present (.inl null)) prefilled

theorem isTxAvailable_ends {index : Nat} (notNull : partialBlock.header.isNull = false)
    (inside : index < partialBlock.txnAvailable.length) :
    Ends (partialBlock.isTxAvailable index) allowed fun available =>
      partialBlock.txnAvailable[index]? = some none ↔ available = false := by
  rw [isTxAvailable, if_neg (by rw [notNull]; exact Bool.false_ne_true), getElem?_eq_getElem inside]
  apply ok
  simp

/-- The block completed by as many transactions as missing. -/
def completed (partialBlock : PartiallyDownloadedBlock) (vtxMissing : List CTransaction) : Option CBlock :=
  match (takeTransactions partialBlock.txnAvailable vtxMissing).2 with
  | some (vtx, []) => some { partialBlock.header with vtx := vtx }
  | _ => none

/-- A partial block that is not used up can be filled. -/
theorem fillBlock_ends {env : BlockEnv} (notNull : partialBlock.header.isNull = false)
    (vtxMissing : List CTransaction) : Ends (partialBlock.fillBlock env vtxMissing) allowed fun filled =>
      filled.result = .returned .invalid ∨
        ∃ block, partialBlock.completed vtxMissing = some block ∧ filled.result = checkFilled env block := by
  rw [fillBlock, if_neg (by rw [notNull]; exact Bool.false_ne_true), completed]
  rcases takeTransactions partialBlock.txnAvailable vtxMissing with ⟨moved, taken⟩
  cases taken with
  | none => exact .ok (.inl rfl)
  | some filled =>
    obtain ⟨vtx, left⟩ := filled
    cases left with
    | nil => exact .ok (.inr ⟨_, rfl, rfl⟩)
    | cons tx rest => exact .ok (.inl rfl)

end PartiallyDownloadedBlock

end Straks.Net
