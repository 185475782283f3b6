import Straks.Construction.Chain.MerkleBlock
import Straks.Proof.MerkleRoot
import Mathlib.Tactic.IntervalCases

namespace Straks.Chain
open MerkleTree List Nat CPartialMerkleTree Extraction

variable {count nTransactions used : Nat} {height pos : Nat}

theorem lt_calcTreeWidth : pos < calcTreeWidth nTransactions height ↔ pos * 2 ^ height < nTransactions := by
  have width := Nat.two_pow_pos height
  rw [calcTreeWidth, ← Nat.succ_le_iff, Nat.le_div_iff_mul_le width, Nat.succ_eq_add_one, add_mul]
  omega

theorem findHeight_spec {fuel nHeight : Nat} (enough : nTransactions ≤ fuel + nHeight)
    (below : ∀ height < nHeight, 2 ^ height < nTransactions) :
    nTransactions ≤ 2 ^ findHeight nTransactions fuel nHeight ∧
      ∀ height < findHeight nTransactions fuel nHeight, 2 ^ height < nTransactions := by
  induction fuel generalizing nHeight with
  | zero =>
    rw [findHeight]
    exact ⟨le_trans (by omega) Nat.lt_two_pow_self.le, below⟩
  | succ fuel ih =>
    have wider : 1 < calcTreeWidth nTransactions nHeight ↔ 2 ^ nHeight < nTransactions := by
      rw [lt_calcTreeWidth, one_mul]
    rw [findHeight]
    split
    · rename_i more
      apply ih (by omega)
      intro height low
      rcases Nat.lt_succ_iff_lt_or_eq.mp low with low | rfl
      · exact below height low
      · exact wider.mp more
    · rename_i single
      exact ⟨not_lt.mp (mt wider.mpr single), below⟩

/-- The height of the tree is that of the root. -/
theorem treeHeight_eq_clog (nTransactions : Nat) : treeHeight nTransactions = clog 2 nTransactions := by
  obtain ⟨fits, below⟩ := findHeight_spec (le_refl (nTransactions + 0)) (by simp)
  exact (clog_eq_of_lowest fits below).symm

variable {pair : Uint256 → Uint256 → Uint256} {vTxid : List Uint256} {vMatch : List Bool}

/-- The hashes of a partial tree are nodes of its block's tree. -/
theorem calcHash_eq_nodeAt (inside : pos * 2 ^ height < vTxid.length) :
    calcHash pair vTxid.length vTxid height pos = nodeAt pair height pos vTxid := by
  induction height generalizing pos with
  | zero => rw [nodeAt_leaf]; rfl
  | succ height ih =>
    have left : pos * 2 * 2 ^ height < vTxid.length := by rwa [mul_assoc, mul_comm 2]
    rw [calcHash]
    simp only [ih left, lt_calcTreeWidth]
    split
    · rename_i many
      rw [ih many, mul_comm pos, nodeAt_succ_of_lt pair (by rwa [mul_comm 2])]
    · rename_i few
      rw [mul_comm pos, nodeAt_succ_of_le pair (by rw [mul_comm 2]; exact not_lt.mp few)]

theorem calcHash_root (some : vTxid ≠ []) :
    calcHash pair vTxid.length vTxid (treeHeight vTxid.length) 0 = (computeMerkleRoot pair vTxid).1 := by
  have positive := length_pos_iff.mpr some
  rw [calcHash_eq_nodeAt (by rwa [zero_mul]), treeHeight_eq_clog, nodeAt_zero_of_le pair (fits_clog some).bound,
    (computeMerkleRoot_spec pair some).1, root]

section Matched

/-- The positions of the matched transactions under a node. -/
def matchedPositions (nTransactions : Nat) (vMatch : List Bool) (height pos : Nat) : List Nat :=
  (range' (pos * 2 ^ height) (2 ^ height)).filter fun p => decide (p < nTransactions) && vMatch.getD p false

variable {nTransactions height pos : Nat}

theorem parentOfMatch_eq_false :
    parentOfMatch nTransactions vMatch height pos = false ↔ matchedPositions nTransactions vMatch height pos = [] := by
  rw [parentOfMatch, matchedPositions, any_eq_false, filter_eq_nil_iff]

theorem matchedPositions_succ (nTransactions height pos : Nat) :
    matchedPositions nTransactions vMatch (height + 1) pos =
      matchedPositions nTransactions vMatch height (pos * 2) ++ matchedPositions nTransactions vMatch height (pos * 2 + 1) := by
  have split : range' (pos * 2 ^ (height + 1)) (2 ^ (height + 1)) =
      range' (pos * 2 * 2 ^ height) (2 ^ height) ++ range' ((pos * 2 + 1) * 2 ^ height) (2 ^ height) := by
    rw [show (pos * 2 + 1) * 2 ^ height = pos * 2 * 2 ^ height + 1 * 2 ^ height by ring, range'_append,
      show pos * 2 ^ (height + 1) = pos * 2 * 2 ^ height by ring,
      show 2 ^ (height + 1) = 2 ^ height + 2 ^ height by ring]
  rw [matchedPositions, split, filter_append]
  rfl

theorem filter_range'_outside {start : Nat} (outside : nTransactions ≤ start) (count : Nat) :
    ((range' start count).filter fun p => decide (p < nTransactions) && vMatch.getD p false) = [] := by
  rw [filter_eq_nil_iff]
  intro p member
  have reached := (mem_range'_1.mp member).1
  simp only [Bool.and_eq_true, decide_eq_true_eq, not_and]
  omega

/-- Under the root lie all transactions. -/
theorem matchedPositions_root (fits : nTransactions ≤ 2 ^ height) :
    matchedPositions nTransactions vMatch height 0 = (range nTransactions).filter fun p => vMatch.getD p false := by
  obtain ⟨rest, width⟩ := Nat.exists_eq_add_of_le fits
  rw [matchedPositions, zero_mul, width, ← range'_append_1, filter_append, range_eq_range']
  rw [filter_range'_outside (Nat.le_add_left _ 0), append_nil]
  apply filter_congr
  intro p member
  have inside := (mem_range'_1.mp member).2
  simp only [show p < nTransactions by omega, decide_true, Bool.true_and]

end Matched

/-- The bits and the hashes that are stored for a node. -/
def layout (hashPair : Uint256 → Uint256 → Uint256) (vTxid : List Uint256) (vMatch : List Bool) :
    Nat → Nat → List Bool × List Uint256
  | 0, pos => ([parentOfMatch vTxid.length vMatch 0 pos], [calcHash hashPair vTxid.length vTxid 0 pos])
  | height + 1, pos =>
    if parentOfMatch vTxid.length vMatch (height + 1) pos = false then
      ([false], [calcHash hashPair vTxid.length vTxid (height + 1) pos])
    else
      let left := layout hashPair vTxid vMatch height (pos * 2)
      let right := if pos * 2 + 1 < calcTreeWidth vTxid.length height then layout hashPair vTxid vMatch height (pos * 2 + 1)
        else ([], [])
      (true :: (left.1 ++ right.1), left.2 ++ right.2)

variable {tree : CPartialMerkleTree}

theorem traverseAndBuild_eq_layout (count : tree.nTransactions = vTxid.length) :
    traverseAndBuild pair vTxid vMatch height pos tree =
      { tree with
        vBits := tree.vBits ++ (layout pair vTxid vMatch height pos).1
        vHash := tree.vHash ++ (layout pair vTxid vMatch height pos).2 } := by
  induction height generalizing pos tree with
  | zero => simp only [traverseAndBuild, layout, count]
  | succ height ih =>
    rw [traverseAndBuild, layout]
    simp only [count]
    cases parentOfMatch vTxid.length vMatch (height + 1) pos with
    | false => rfl
    | true =>
      simp only [Bool.not_true, Bool.false_eq_true, if_false, reduceCtorEq]
      split
      · rw [ih (by rw [ih rfl]), ih rfl]
        simp
      · rw [ih rfl]
        simp

theorem build_eq_layout (short : vTxid.length < 4294967296) : build pair vTxid vMatch =
      ⟨vTxid.length, (layout pair vTxid vMatch (treeHeight vTxid.length) 0).1,
        (layout pair vTxid vMatch (treeHeight vTxid.length) 0).2, false⟩ := by
  rw [build, mod_eq_of_lt short, traverseAndBuild_eq_layout rfl]
  rfl

/-- At most one hash per transaction, and a bit with each. -/
theorem layout_lengths (inside : pos * 2 ^ height < vTxid.length) :
    (layout pair vTxid vMatch height pos).2.length ≤ min (2 ^ height) (vTxid.length - pos * 2 ^ height) ∧
      (layout pair vTxid vMatch height pos).2.length ≤ (layout pair vTxid vMatch height pos).1.length := by
  have width := Nat.two_pow_pos height
  induction height generalizing pos with
  | zero =>
    simp only [layout, length_singleton]
    omega
  | succ height ih =>
    have left : pos * 2 * 2 ^ height = pos * 2 ^ (height + 1) := by ring
    have right : (pos * 2 + 1) * 2 ^ height = pos * 2 ^ (height + 1) + 2 ^ height := by ring
    have low := ih (left ▸ inside) (Nat.two_pow_pos height)
    rw [layout]
    split
    · simp only [length_singleton]
      omega
    · simp only [lt_calcTreeWidth]
      split
      · rename_i more
        have high := ih more (Nat.two_pow_pos height)
        simp only [length_cons, length_append]
        omega
      · simp only [append_nil, length_cons]
        omega

variable (hashPair : Uint256 → Uint256 → Uint256)

/-- No two siblings of the tree have the same hash. -/
def DistinctSiblings (vTxid : List Uint256) : Prop :=
  ∀ height pos, pos * 2 + 1 < calcTreeWidth vTxid.length height →
    calcHash hashPair vTxid.length vTxid height (pos * 2) ≠ calcHash hashPair vTxid.length vTxid height (pos * 2 + 1)

/-- What a walk over a node adds to what was found. -/
def Extraction.after (vTxid : List Uint256) (vMatch : List Bool)
    (height pos : Nat) (state : Extraction) : Extraction where
  nBitsUsed := state.nBitsUsed + (layout hashPair vTxid vMatch height pos).1.length
  nHashUsed := state.nHashUsed + (layout hashPair vTxid vMatch height pos).2.length
  vMatch := state.vMatch ++ (matchedPositions vTxid.length vMatch height pos).map fun p => vTxid.getD p 0
  vnIndex := state.vnIndex ++ matchedPositions vTxid.length vMatch height pos
  fBad := state.fBad

theorem getElem?_of_drop {α : Type} {stored rest : List α} {value : α} (left : stored.drop used = value :: rest) :
    stored[used]? = some value ∧ stored.drop (used + 1) = rest := by
  constructor
  · rw [← head?_drop, left, head?_cons]
  · rw [← drop_drop, left, drop_one, tail_cons]

theorem drop_of_drop_append {α : Type} {stored first rest : List α} (left : stored.drop used = first ++ rest) :
    stored.drop (used + first.length) = rest := by
  rw [← drop_drop, left, drop_left]

theorem matchedPositions_leaf (nTransactions pos : Nat) :
    matchedPositions nTransactions vMatch 0 pos = if parentOfMatch nTransactions vMatch 0 pos then [pos] else [] := by
  simp [matchedPositions, parentOfMatch, filter_cons]

/-- A walk that descends into both branches. -/
theorem Extraction.after_both (state : Extraction)
    (parent : parentOfMatch vTxid.length vMatch (height + 1) pos = true)
    (more : pos * 2 + 1 < calcTreeWidth vTxid.length height) : state.after pair vTxid vMatch (height + 1) pos =
      (({ state with nBitsUsed := state.nBitsUsed + 1 } : Extraction).after pair vTxid vMatch height (pos * 2)).after
        pair vTxid vMatch height (pos * 2 + 1) := by
  simp only [after, layout, parent, more, matchedPositions_succ, reduceCtorEq, if_false, if_true,
    length_cons, length_append, map_append, append_assoc, mk.injEq, and_true]
  omega

/-- A walk that descends into the only branch. -/
theorem Extraction.after_left (state : Extraction)
    (parent : parentOfMatch vTxid.length vMatch (height + 1) pos = true)
    (few : ¬ pos * 2 + 1 < calcTreeWidth vTxid.length height) : state.after pair vTxid vMatch (height + 1) pos =
      ({ state with nBitsUsed := state.nBitsUsed + 1 } : Extraction).after pair vTxid vMatch height (pos * 2) := by
  have outside : matchedPositions vTxid.length vMatch height (pos * 2 + 1) = [] :=
    filter_range'_outside (not_lt.mp (mt lt_calcTreeWidth.mpr few)) _
  simp only [after, layout, parent, few, outside, matchedPositions_succ, reduceCtorEq, if_false,
    length_cons, append_nil, mk.injEq, and_true]
  omega

/-- The walk reads back what was stored for a node. -/
theorem traverseAndExtract_layout (distinct : DistinctSiblings pair vTxid) (count : tree.nTransactions = vTxid.length)
    {state : Extraction} {restBits : List Bool} {restHashes : List Uint256}
    (bits : tree.vBits.drop state.nBitsUsed = (layout pair vTxid vMatch height pos).1 ++ restBits)
    (hashes : tree.vHash.drop state.nHashUsed = (layout pair vTxid vMatch height pos).2 ++ restHashes) :
    traverseAndExtract pair tree height pos state =
      (calcHash pair vTxid.length vTxid height pos, state.after pair vTxid vMatch height pos) := by
  induction height generalizing pos state restBits restHashes with
  | zero =>
    obtain ⟨bit, -⟩ := getElem?_of_drop bits
    obtain ⟨hash, -⟩ := getElem?_of_drop hashes
    rw [traverseAndExtract, bit]
    simp only [useHash, hash, Extraction.after, layout, matchedPositions_leaf]
    cases parentOfMatch vTxid.length vMatch 0 pos <;> simp [calcHash]
  | succ height ih =>
    rw [layout] at bits hashes
    cases parent : parentOfMatch vTxid.length vMatch (height + 1) pos with
    | false =>
      rw [if_pos parent] at bits hashes
      obtain ⟨bit, -⟩ := getElem?_of_drop bits
      obtain ⟨hash, -⟩ := getElem?_of_drop hashes
      rw [traverseAndExtract, bit]
      simp [useHash, hash, Extraction.after, layout, parent, parentOfMatch_eq_false.mp parent]
    | true =>
      rw [if_neg (by simp [parent])] at bits hashes
      simp only [cons_append, append_assoc] at bits hashes
      obtain ⟨bit, bits⟩ := getElem?_of_drop bits
      have left : traverseAndExtract pair tree height (pos * 2) { state with nBitsUsed := state.nBitsUsed + 1 } = _ :=
        ih bits hashes
      rw [traverseAndExtract, bit]
      simp only [Bool.not_true, Bool.false_eq_true, if_false, count, left, calcHash]
      split
      · rename_i more
        rw [if_pos more] at bits hashes
        rw [ih (drop_of_drop_append bits) (drop_of_drop_append hashes), state.after_both parent more]
        have differ := beq_eq_false_iff_ne.mpr (distinct height pos more).symm
        simp only [differ, Bool.or_false]
      · rename_i few
        rw [state.after_left parent few]

/-- The positions of the matched transactions of the block. -/
def matchedIn (vTxid : List Uint256) (vMatch : List Bool) : List Nat :=
  (range vTxid.length).filter fun p => vMatch.getD p false

/-- A partial tree gives back its root and matches. -/
theorem extractMatches_build (some : vTxid ≠ []) (few : vTxid.length ≤ maxBlockVtx)
    (distinct : DistinctSiblings pair vTxid) (vnIndex : List Nat) :
    extractMatches pair (build pair vTxid vMatch) vnIndex =
      ⟨(computeMerkleRoot pair vTxid).1, (matchedIn vTxid vMatch).map fun p => vTxid.getD p 0,
        vnIndex ++ matchedIn vTxid vMatch⟩ := by
  have positive := length_pos_iff.mpr some
  have short : vTxid.length < 4294967296 := lt_of_le_of_lt few (by decide)
  have fits : vTxid.length ≤ 2 ^ treeHeight vTxid.length := by
    rw [treeHeight_eq_clog]
    exact (fits_clog some).bound
  obtain ⟨oneEach, withBit⟩ : (layout pair vTxid vMatch (treeHeight vTxid.length) 0).2.length ≤ _ ∧ _ :=
    layout_lengths (by rwa [zero_mul])
  have walk : traverseAndExtract pair ⟨vTxid.length, (layout pair vTxid vMatch (treeHeight vTxid.length) 0).1,
      (layout pair vTxid vMatch (treeHeight vTxid.length) 0).2, false⟩ (treeHeight vTxid.length) 0
      ⟨0, 0, [], vnIndex, false⟩ = _ :=
    traverseAndExtract_layout distinct rfl (append_nil _).symm (append_nil _).symm
  rw [build_eq_layout short, extractMatches]
  simp only [walk, calcHash_root some, Extraction.after, zero_add, nil_append, matchedPositions_root fits]
  rw [if_neg positive.ne', if_neg (by omega), if_neg (by omega), if_neg (by omega), if_neg (not_not.mpr rfl), if_neg (not_not.mpr rfl)]
  rfl

/-- The pairs hashed on the walk over a partial tree. -/
def extractedPairs (hashPair : Uint256 → Uint256 → Uint256) (tree : CPartialMerkleTree) :
    Nat → Nat → Extraction → List (Uint256 × Uint256)
  | 0, _, _ => []
  | height + 1, pos, state =>
    if tree.vBits[state.nBitsUsed]? = some true then
      let visited := { state with nBitsUsed := state.nBitsUsed + 1 }
      let left := traverseAndExtract hashPair tree height (pos * 2) visited
      if pos * 2 + 1 < calcTreeWidth tree.nTransactions height then
        let right := traverseAndExtract hashPair tree height (pos * 2 + 1) left.2
        (left.1, right.1) :: (extractedPairs hashPair tree height (pos * 2) visited ++
          extractedPairs hashPair tree height (pos * 2 + 1) left.2)
      else (left.1, left.1) :: extractedPairs hashPair tree height (pos * 2) visited
    else []

section Walk

variable {tree : CPartialMerkleTree} {height pos : Nat} {state : Extraction}

/-- What a node that is descended into is computed from. -/
theorem traverseAndExtract_descend (bit : tree.vBits[state.nBitsUsed]? = some true) :
    traverseAndExtract pair tree (height + 1) pos state =
      let left := traverseAndExtract pair tree height (pos * 2) { state with nBitsUsed := state.nBitsUsed + 1 }
      if pos * 2 + 1 < calcTreeWidth tree.nTransactions height then
        let right := traverseAndExtract pair tree height (pos * 2 + 1) left.2
        (pair left.1 right.1, { right.2 with fBad := right.2.fBad || right.1 == left.1 })
      else (pair left.1 left.1, left.2) := by
  rw [traverseAndExtract, bit]
  rfl

/-- A node not descended into fails or is a stored hash, matched at height zero only. -/
theorem traverseAndExtract_stop (pair : Uint256 → Uint256 → Uint256) (pos : Nat)
    (bit : height = 0 ∨ tree.vBits[state.nBitsUsed]? ≠ some true) :
    let walk := traverseAndExtract pair tree height pos state
    walk.2.fBad = true ∨ walk.2.fBad = state.fBad ∧ (walk.2.vMatch = state.vMatch ∧ walk.2.vnIndex = state.vnIndex ∨
      height = 0 ∧ walk.2.vMatch = state.vMatch ++ [walk.1] ∧ walk.2.vnIndex = state.vnIndex ++ [pos]) := by
  dsimp only
  rw [traverseAndExtract]
  split
  · simp
  · rename_i marked found
    cases height with
    | zero =>
      simp only [useHash]
      split
      · simp
      · split <;> simp
    | succ height =>
      have unmarked : marked = false := by simpa [found] using bit
      simp only [unmarked, Bool.not_false, if_true, useHash, Bool.false_eq_true, if_false]
      split <;> simp

/-- A walk that goes wrong stays wrong. -/
theorem traverseAndExtract_fBad (good : (traverseAndExtract pair tree height pos state).2.fBad = false) :
    state.fBad = false := by
  induction height generalizing pos state with
  | zero =>
    rcases traverseAndExtract_stop pair pos (.inl rfl) with bad | ⟨same, -⟩
    · exact absurd (good.symm.trans bad) Bool.false_ne_true
    · rw [← same, good]
  | succ height ih =>
    by_cases bit : tree.vBits[state.nBitsUsed]? = some true
    · rw [traverseAndExtract_descend bit] at good
      have visited : ({ state with nBitsUsed := state.nBitsUsed + 1 } : Extraction).fBad = false := by
        split at good
        · exact ih (ih (Bool.or_eq_false_iff.mp good).1)
        · exact ih good
      exact visited
    · rcases traverseAndExtract_stop pair pos (.inr bit) with bad | ⟨same, -⟩
      · exact absurd (good.symm.trans bad) Bool.false_ne_true
      · rw [← same, good]

/-- The extracted ids stand at the extracted positions. -/
def Genuine (vTxid : List Uint256) (state : Extraction) : Prop :=
  List.Forall₂ (fun txid pos => vTxid[pos]? = some txid) state.vMatch state.vnIndex

theorem Genuine.append {found next : Extraction} {txid : Uint256} (genuine : Genuine vTxid found)
    (member : vTxid[pos]? = some txid) (ids : next.vMatch = found.vMatch ++ [txid])
    (positions : next.vnIndex = found.vnIndex ++ [pos]) : Genuine vTxid next := by
  rw [Genuine, ids, positions]
  exact rel_append genuine (.cons member .nil)

theorem Genuine.stop (bit : height = 0 ∨ tree.vBits[state.nBitsUsed]? ≠ some true)
    (inside : pos * 2 ^ height < vTxid.length) (good : (traverseAndExtract pair tree height pos state).2.fBad = false)
    (value : (traverseAndExtract pair tree height pos state).1 = nodeAt pair height pos vTxid)
    (genuine : Genuine vTxid state) : Genuine vTxid (traverseAndExtract pair tree height pos state).2 := by
  rcases traverseAndExtract_stop pair pos bit with bad | ⟨-, ⟨ids, positions⟩ | ⟨rfl, ids, positions⟩⟩
  · exact absurd (good.symm.trans bad) Bool.false_ne_true
  · rwa [Genuine, ids, positions]
  · rw [pow_zero, mul_one] at inside
    apply genuine.append _ ids positions
    rw [value, nodeAt_leaf]
    simp [inside]

/-- A walk over a node with the block's hash finds only its transactions. -/
theorem traverseAndExtract_genuine {hashed : Set (Uint256 × Uint256)}
    (injective : Set.InjOn (Function.uncurry pair) hashed) (count : tree.nTransactions = vTxid.length)
    (inside : pos * 2 ^ height < vTxid.length) (hashedTree : HashedIn pair hashed height (segment height pos vTxid))
    (hashedWalk : ∀ both ∈ extractedPairs pair tree height pos state, both ∈ hashed)
    (good : (traverseAndExtract pair tree height pos state).2.fBad = false)
    (value : (traverseAndExtract pair tree height pos state).1 = nodeAt pair height pos vTxid)
    (genuine : Genuine vTxid state) : Genuine vTxid (traverseAndExtract pair tree height pos state).2 := by
  induction height generalizing pos state with
  | zero => exact genuine.stop (.inl rfl) inside good value
  | succ height ih =>
    by_cases bit : tree.vBits[state.nBitsUsed]? = some true
    · have visited : Genuine vTxid { state with nBitsUsed := state.nBitsUsed + 1 } := genuine
      have insideLeft : pos * 2 * 2 ^ height < vTxid.length := by rwa [mul_assoc, mul_comm 2]
      rw [traverseAndExtract_descend bit] at good value ⊢
      rw [extractedPairs, if_pos bit] at hashedWalk
      simp only [count, lt_calcTreeWidth] at good value hashedWalk ⊢
      split at value
      · rename_i more
        rw [if_pos more] at good hashedWalk ⊢
        rw [forall_mem_cons, forall_mem_append] at hashedWalk
        obtain ⟨walked, walkedLeft, walkedRight⟩ := hashedWalk
        have many : (2 * pos + 1) * 2 ^ height < vTxid.length := by rwa [mul_comm 2]
        obtain ⟨children, hashedLeft, hashedRight⟩ := hashedTree.nodeAt_of_lt many
        rw [nodeAt_succ_of_lt pair many, pair_eq_iff injective walked children] at value
        rw [mul_comm 2] at hashedLeft hashedRight value
        have goodRight := (Bool.or_eq_false_iff.mp good).1
        have left := ih insideLeft hashedLeft walkedLeft (traverseAndExtract_fBad goodRight) value.1 visited
        exact ih more hashedRight walkedRight goodRight value.2 left
      · rename_i few
        rw [if_neg few] at good hashedWalk ⊢
        rw [forall_mem_cons] at hashedWalk
        have last : vTxid.length ≤ (2 * pos + 1) * 2 ^ height := by rw [mul_comm 2]; exact not_lt.mp few
        obtain ⟨children, hashedLeft⟩ := hashedTree.nodeAt_of_le last
        rw [nodeAt_succ_of_le pair last, pair_eq_iff injective hashedWalk.1 children] at value
        rw [mul_comm 2] at hashedLeft value
        exact ih insideLeft hashedLeft hashedWalk.2 good value.1 visited
    · exact genuine.stop (.inr bit) inside good value

end Walk

/-- The pairs that `ExtractMatches` hashes. -/
def walkedPairs (tree : CPartialMerkleTree) : List (Uint256 × Uint256) :=
  extractedPairs hashPair tree (treeHeight tree.nTransactions) 0 ⟨0, 0, [], [], tree.fBad⟩

/-- A root other than zero is that of a walk that went well. -/
theorem extractMatches_success (success : (extractMatches pair tree []).hashMerkleRoot ≠ 0) :
    let walk := traverseAndExtract pair tree (treeHeight tree.nTransactions) 0 ⟨0, 0, [], [], tree.fBad⟩
    walk.2.fBad = false ∧ extractMatches pair tree [] = ⟨walk.1, walk.2.vMatch, walk.2.vnIndex⟩ := by
  rw [extractMatches] at success ⊢
  generalize traverseAndExtract pair tree (treeHeight tree.nTransactions) 0 _ = walk at success ⊢
  simp only at success ⊢
  split_ifs at success ⊢ with none many hashes bits bad padding unused <;> try exact absurd rfl success
  exact ⟨Bool.eq_false_iff.mpr bad, rfl⟩

/-- The matches of any partial tree with the block's root and count are in the block. -/
theorem extractMatches_genuine (nonempty : vTxid ≠ []) (count : tree.nTransactions = vTxid.length)
    (injective : Set.InjOn (Function.uncurry pair) { both | both ∈ hashedPairs pair vTxid ++ walkedPairs pair tree })
    (nonzero : (computeMerkleRoot pair vTxid).1 ≠ 0)
    (value : (extractMatches pair tree []).hashMerkleRoot = (computeMerkleRoot pair vTxid).1) :
    List.Forall₂ (fun txid pos => vTxid[pos]? = some txid) (extractMatches pair tree []).vMatch
      (extractMatches pair tree []).vnIndex := by
  have height : treeHeight tree.nTransactions = clog 2 vTxid.length := by rw [count, treeHeight_eq_clog]
  have whole : segment (clog 2 vTxid.length) 0 vTxid = vTxid := by
    rw [segment_zero, take_of_length_le (fits_clog nonempty).bound]
  obtain ⟨good, result⟩ := extractMatches_success (value ▸ nonzero)
  rw [result] at value ⊢
  rw [(computeMerkleRoot_spec pair nonempty).1, root, ← nodeAt_zero_of_le pair (fits_clog nonempty).bound, ← height] at value
  apply traverseAndExtract_genuine injective count _ _ _ good value .nil
  · rw [zero_mul]
    exact length_pos_iff.mpr nonempty
  · rw [height, whole]
    exact fun both => mem_append_left _
  · exact fun both => mem_append_right _

/-- A stand-in for the hash keeping the left half: each node shows its first id. -/
def leftWord (left _right : Uint256) : Uint256 := left

theorem calcHash_leftWord (nTransactions : Nat) (vTxid : List Uint256) (height pos : Nat) :
    calcHash leftWord nTransactions vTxid height pos = vTxid.getD (pos * 2 ^ height) 0 := by
  induction height generalizing pos with
  | zero => rw [calcHash, pow_zero, mul_one]
  | succ height ih => rw [calcHash, leftWord, ih, mul_assoc, pow_succ, mul_comm 2]

/-- Distinct ids, as many as asked for. -/
def numberedIds (count : Nat) : List Uint256 := (range count).map fun i => BitVec.ofNat 256 (i + 1)

theorem numberedIds_getD {i : Nat} (inside : i < count) : (numberedIds count).getD i 0 = BitVec.ofNat 256 (i + 1) := by
  simp [numberedIds, inside]

@[simp] theorem numberedIds_length (count : Nat) : (numberedIds count).length = count := by
  simp [numberedIds]

theorem numberedIds_distinct (bound : count < 2 ^ 256) : DistinctSiblings leftWord (numberedIds count) := by
  intro height pos inside
  rw [lt_calcTreeWidth, numberedIds_length] at inside
  have before : pos * 2 * 2 ^ height < (pos * 2 + 1) * 2 ^ height :=
    Nat.mul_lt_mul_of_pos_right (Nat.lt_succ_self _) (Nat.two_pow_pos height)
  rw [calcHash_leftWord, calcHash_leftWord, numberedIds_getD inside, numberedIds_getD (lt_trans before inside)]
  intro equal
  have values := congrArg BitVec.toNat equal
  rw [BitVec.toNat_ofNat, BitVec.toNat_ofNat] at values
  omega

/-- The extraction refuses a block with too many transactions. -/
theorem extractMatches_too_many (many : maxBlockVtx < count) (bound : count < 4294967296) :
    (extractMatches leftWord (build leftWord (numberedIds count) []) []).hashMerkleRoot ≠
      (computeMerkleRoot leftWord (numberedIds count)).1 := by
  have positive : 0 < count := lt_of_le_of_lt (zero_le _) many
  have nonempty : numberedIds count ≠ [] := by rwa [← length_pos_iff, numberedIds_length]
  rw [build_eq_layout (by rwa [numberedIds_length]), extractMatches, ← calcHash_root nonempty, calcHash_leftWord, zero_mul,
    numberedIds_getD positive]
  simp only [numberedIds_length]
  rw [if_neg positive.ne', if_pos many]
  show (0 : Uint256) ≠ BitVec.ofNat 256 (0 + 1)
  decide

/-- With one id above `MAX_BLOCK_VTX` every extraction fails, like a zero root. -/
theorem extractMatches_unfaithful : (numberedIds 400001 ≠ [] ∧ DistinctSiblings leftWord (numberedIds 400001) ∧
      (extractMatches leftWord (build leftWord (numberedIds 400001) []) []).hashMerkleRoot ≠
        (computeMerkleRoot leftWord (numberedIds 400001)).1) ∧
    ∃ tree : CPartialMerkleTree, tree.nTransactions = ([0] : List Uint256).length ∧
      hashedPairs joinedWords [0] ++ walkedPairs joinedWords tree = [] ∧
      (extractMatches joinedWords tree []).hashMerkleRoot = (computeMerkleRoot joinedWords [0]).1 ∧
      (extractMatches joinedWords tree []).vMatch = [5] ∧ (extractMatches joinedWords tree []).vnIndex = [0] := by
  have many : maxBlockVtx < 400001 := by norm_num [maxBlockVtx]
  have nonempty : numberedIds 400001 ≠ [] := by
    rw [← length_pos_iff]
    norm_num
  refine ⟨⟨nonempty, numberedIds_distinct (by norm_num), extractMatches_too_many many (by norm_num)⟩, ?_⟩
  refine ⟨⟨1, [true, false, false, false, false, false, false, false, false], [5], false⟩, ?_⟩
  decide +kernel

/-- For at most `MAX_BLOCK_VTX` ids without equal siblings, the partial tree built from any choice of matches gives
back the root and exactly the matches with their positions. For a hash that separates the pairs it is applied to, any
partial tree that yields the root of the block, unless it is the zero of a failure, gives only ids of the block at
their positions. -/
theorem extractMatches_faithful (vTxid : List Uint256) (nonempty : vTxid ≠ []) :
    (∀ vMatch : List Bool, vTxid.length ≤ maxBlockVtx → DistinctSiblings hashPair vTxid →
      extractMatches hashPair (build hashPair vTxid vMatch) [] =
        ⟨(computeMerkleRoot hashPair vTxid).1, (matchedIn vTxid vMatch).map fun p => vTxid.getD p 0,
          matchedIn vTxid vMatch⟩) ∧
    ∀ tree : CPartialMerkleTree, tree.nTransactions = vTxid.length → Set.InjOn (Function.uncurry hashPair)
        { pair | pair ∈ hashedPairs hashPair vTxid ++ walkedPairs hashPair tree } →
      (computeMerkleRoot hashPair vTxid).1 ≠ 0 →
      (extractMatches hashPair tree []).hashMerkleRoot = (computeMerkleRoot hashPair vTxid).1 →
      List.Forall₂ (fun txid pos => vTxid[pos]? = some txid) (extractMatches hashPair tree []).vMatch
        (extractMatches hashPair tree []).vnIndex := by
  constructor
  · intro vMatch few distinct
    exact extractMatches_build nonempty few distinct []
  · intro tree count injective nonzero value
    exact extractMatches_genuine nonempty count injective nonzero value

theorem distinctSiblings_three : DistinctSiblings joinedWords [1, 2, 3] := by
  intro height pos inside
  replace inside : (pos * 2 + 1) * 2 ^ height < 3 := lt_calcTreeWidth.mp inside
  have wide : 2 ^ height < 3 := lt_of_le_of_lt (Nat.le_mul_of_pos_left _ (Nat.succ_pos _)) inside
  have low : height < 2 := (Nat.pow_lt_pow_iff_right Nat.one_lt_two).mp (lt_of_lt_of_le wide (by norm_num))
  have first : pos = 0 := by
    have narrow := le_trans (Nat.le_mul_of_pos_right (pos * 2 + 1) (Nat.two_pow_pos height)) (Nat.le_of_lt_succ inside)
    omega
  subst first
  interval_cases height <;> decide

theorem extractMatches_faithful_three :
    extractMatches joinedWords (build joinedWords [1, 2, 3] [false, true, false]) [] =
      ⟨(computeMerkleRoot joinedWords [1, 2, 3]).1, [2], [1]⟩ ∧
    List.Forall₂ (fun txid pos => ([1, 2, 3] : List Uint256)[pos]? = some txid)
      (extractMatches joinedWords (build joinedWords [1, 2, 3] [false, true, false]) []).vMatch
      (extractMatches joinedWords (build joinedWords [1, 2, 3] [false, true, false]) []).vnIndex := by
  have faithful := extractMatches_faithful joinedWords [1, 2, 3] (by simp)
  have built := faithful.1 [false, true, false] (by decide) distinctSiblings_three
  exact ⟨built, faithful.2 _ (by decide) (joinedWords_injOn (by decide +kernel)) (by decide +kernel) (by rw [built])⟩

end Straks.Chain
