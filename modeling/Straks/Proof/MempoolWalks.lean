import Straks.Proof.MempoolFamily

namespace Straks.Mempool
open Relation Success Worklist CTxMemPoolEntry List OrderedSet CTxMemPool

namespace CTxMemPool

/-- The recorded parents are those spent from. -/
def ParentsOk (pool : CTxMemPool) : Prop :=
  ∀ hash ∈ pool.family.carrier, ∃ parents, pool.getMemPoolParents hash = .ok parents ∧
    ∀ parent, parent ∈ parents ↔ pool.Spends hash parent

/-- The recorded children are those that spend. -/
def ChildrenOk (pool : CTxMemPool) : Prop :=
  ∀ hash ∈ pool.family.carrier, ∃ children, pool.getMemPoolChildren hash = .ok children ∧
    ∀ child, child ∈ children ↔ pool.Spends child hash

/-- A walk through the pool has enough fuel. -/
theorem walking_of_closed {pool : CTxMemPool} {successor : Uint256 → Uint256 → Prop} {stage found : SetEntries}
    (disjoint : ∀ value ∈ stage, value ∉ found)
    (closed : ∀ value ∈ found, ∀ other, successor value other → other ∈ found)
    (inside : ∀ value ∈ stage, value ∈ pool.family.carrier) :
    Walking successor pool.family.carrier pool.mapTx.keys.length stage found where
  disjoint := disjoint
  closed := fun value seen other follows => .inl (closed value seen other follows)
  inside := inside
  enough := (Finset.card_le_card Finset.sdiff_subset).trans (toFinset_card_le _)

variable {pool : CTxMemPool} (childrenOk : pool.ChildrenOk)
include childrenOk

/-- The descendants of an entry join a set closed under descendants. -/
theorem calculateDescendants_ok {entryit : Uint256} (present : entryit ∈ pool.family.carrier) {found : SetEntries}
    (closed : ∀ value ∈ found, ∀ child, pool.Spends child value → child ∈ found) :
    ∃ reached, pool.calculateDescendants entryit found = .ok reached ∧
      ∀ other, other ∈ reached ↔ other ∈ found ∨ pool.family.Reaches other entryit := by
  have within : ∀ value ∈ pool.family.carrier, ∀ child, pool.Spends child value → child ∈ pool.family.carrier :=
    fun value _ child spends => (pool.family.inside child value spends).1
  by_cases known : entryit ∈ found
  · have walking := @walking_of_closed pool (fun value child => pool.Spends child value) .empty found
      forall_mem_empty closed
      forall_mem_empty
    obtain ⟨reached, walked, isReached⟩ := walk_reaches hashBefore MempoolError.diverged childrenOk within walking
    rw [calculateDescendants, if_pos (OrderedSet.contains_iff.mpr known)]
    refine ⟨reached, walked, fun other => ?_⟩
    rw [isReached]
    constructor
    · intro either
      rcases either with seen | ⟨start, staged, -⟩
      · exact .inl seen
      · exact absurd staged (OrderedSet.not_mem_empty start)
    · intro either
      rcases either with seen | path
      · exact .inl seen
      · left
        induction path using ReflTransGen.head_induction_on with
        | refl => exact known
        | head step _ ih => exact closed _ ih _ step
  · have member (value : Uint256) : value ∈ OrderedSet.empty.insert hashBefore entryit ↔ value = entryit := by
      rw [OrderedSet.mem_insert, or_iff_left (OrderedSet.not_mem_empty value)]
    have walking := @walking_of_closed pool (fun value child => pool.Spends child value)
      (OrderedSet.empty.insert hashBefore entryit) found
      (fun value staged => (member value).mp staged ▸ known) closed
      (fun value staged => (member value).mp staged ▸ present)
    obtain ⟨reached, walked, isReached⟩ := walk_reaches hashBefore MempoolError.diverged childrenOk within walking
    rw [calculateDescendants, if_neg (by simpa using known)]
    refine ⟨reached, walked, fun other => ?_⟩
    have swapped : ReflTransGen (fun value child => pool.Spends child value) entryit other ↔
        pool.family.Reaches other entryit := reflTransGen_swap
    rw [isReached, ← swapped]
    constructor
    · intro either
      rcases either with seen | ⟨start, staged, path⟩
      · exact .inl seen
      · exact .inr ((member start).mp staged ▸ path)
    · intro either
      rcases either with seen | path
      · exact .inl seen
      · exact .inr ⟨entryit, (member entryit).mpr rfl, path⟩

/-- All but the entry itself are its proper descendants. -/
theorem calculateDescendants_erase {entryit : Uint256} (present : entryit ∈ pool.family.carrier) :
    ∃ reached, pool.calculateDescendants entryit .empty = .ok reached ∧
      ∀ other, other ∈ (reached.erase entryit).elements ↔ other ≠ entryit ∧ pool.family.Reaches other entryit := by
  obtain ⟨reached, calculated, isReached⟩ := calculateDescendants_ok childrenOk present forall_mem_empty
  refine ⟨reached, calculated, fun other => ?_⟩
  rw [← mem_def, mem_erase, isReached, or_iff_right (not_mem_empty other)]

variable {entries : List Uint256} (present : ∀ entryit ∈ entries, entryit ∈ pool.family.carrier)
include present

theorem foldlM_calculateDescendants {found : SetEntries}
    (closed : ∀ value ∈ found, ∀ child, pool.Spends child value → child ∈ found) :
    ∃ reached, entries.foldlM (fun found entryit => pool.calculateDescendants entryit found) found = .ok reached ∧
      ∀ other, other ∈ reached ↔ other ∈ found ∨ ∃ entryit ∈ entries, pool.family.Reaches other entryit := by
  induction entries generalizing found with
  | nil => exact ⟨found, rfl, by simp⟩
  | cons entryit rest ih =>
    obtain ⟨first, calculated, isFirst⟩ := calculateDescendants_ok childrenOk (present entryit mem_cons_self) closed
    have closedFirst : ∀ value ∈ first, ∀ child, pool.Spends child value → child ∈ first := by
      intro value seen child spends
      rw [isFirst] at seen ⊢
      rcases seen with seen | path
      · exact .inl (closed value seen child spends)
      · exact .inr (.head spends path)
    obtain ⟨reached, folded, isReached⟩ :=
      ih (fun other member => present other (mem_cons_of_mem _ member)) closedFirst
    refine ⟨reached, ?_, fun other => ?_⟩
    · rw [foldlM_cons, calculated]
      exact folded
    · rw [isReached, isFirst]
      simp only [mem_cons, exists_eq_or_imp, or_assoc]

/-- The descendants of a list's entries, with themselves. -/
theorem calculateAllDescendants_ok : ∃ reached, pool.calculateAllDescendants entries = .ok reached ∧
      ∀ other, other ∈ reached ↔ ∃ entryit ∈ entries, pool.family.Reaches other entryit := by
  obtain ⟨reached, folded, isReached⟩ := @foldlM_calculateDescendants pool childrenOk entries present .empty
    forall_mem_empty
  refine ⟨reached, folded, fun other => ?_⟩
  rw [isReached, or_iff_right (not_mem_empty other)]

end CTxMemPool

section Ancestors

variable {env : PoolEnv} {pool : CTxMemPool}

theorem stageParents_unlimited (setAncestors : SetEntries) (parents : List Uint256) (parentHashes : SetEntries) :
    stageParents nNoLimit setAncestors parents parentHashes =
      .ok (stageNew hashBefore setAncestors parents parentHashes) := by
  induction parents generalizing parentHashes with
  | nil => rfl
  | cons phash rest ih =>
    rw [stageNew, foldl_cons, ← stageNew, ← ih]
    rfl

section Unfold

variable {limits : Limits} {entrySize fuel : Nat} {parentHashes setAncestors : SetEntries}
  {total : Int} {stageit : Uint256} {rest : List Uint256}

theorem ancestorsLoop_nil (empty : parentHashes.elements = []) :
    ancestorsLoop env pool limits entrySize fuel parentHashes setAncestors total = .ok (.ok setAncestors) := by
  unfold ancestorsLoop
  rw [empty]

theorem ancestorsLoop_succ (staged : parentHashes.elements = stageit :: rest) {ancestor : CTxMemPoolEntry}
    (found : pool.mapTx.lookup stageit = some ancestor) {parents : SetEntries}
    (answered : pool.getMemPoolParents stageit = .ok parents) :
    ancestorsLoop env pool limits entrySize (fuel + 1) parentHashes setAncestors total =
      match checkAncestor limits stageit ancestor entrySize (total + ancestor.getTxSize env) with
      | .error failure => .ok (.error failure)
      | .ok () =>
        match stageParents limits (setAncestors.insert hashBefore stageit) parents.elements
          (parentHashes.erase stageit) with
        | .error failure => .ok (.error failure)
        | .ok later => ancestorsLoop env pool limits entrySize fuel later (setAncestors.insert hashBefore stageit)
            (total + ancestor.getTxSize env) := by
  conv_lhs => unfold ancestorsLoop
  rw [staged]
  dsimp only
  rw [dereference_ok found, answered]
  rfl

end Unfold

/-- Without limits the loop over ancestors is a plain walk. -/
theorem ancestorsLoop_unlimited (linked : ∀ it parents, pool.getMemPoolParents it = .ok parents →
      ∃ entry, pool.mapTx.lookup it = some entry)
    {entrySize fuel : Nat} {parentHashes setAncestors reached : SetEntries} {total : Int}
    (walked : walk hashBefore pool.getMemPoolParents .diverged fuel parentHashes setAncestors = .ok reached) :
    ancestorsLoop env pool nNoLimit entrySize fuel parentHashes setAncestors total = .ok (.ok reached) := by
  fun_induction walk hashBefore pool.getMemPoolParents .diverged fuel parentHashes setAncestors generalizing total with
  | case1 fuel stage found staged =>
    cases walked
    exact ancestorsLoop_nil staged
  | case2 => cases walked
  | case3 stage _ stageit rest staged fuel _ =>
    rename_i ih
    obtain ⟨parents, answered, walked⟩ := bind_eq_ok.mp walked
    obtain ⟨entry, found⟩ := linked stageit parents answered
    rw [ancestorsLoop_succ staged found answered, stageParents_unlimited]
    exact ih parents walked

/-- The parents of an entry are given, so its proper ancestors are found. -/
theorem ancestorsFrom_ok (parentsOk : pool.ParentsOk) (linked : ∀ it parents,
      pool.getMemPoolParents it = .ok parents → ∃ entry, pool.mapTx.lookup it = some entry)
    (entry : CTxMemPoolEntry) {parentHashes : SetEntries}
    (inside : ∀ parent ∈ parentHashes, parent ∈ pool.family.carrier) :
    ∃ reached, ancestorsFrom env pool nNoLimit entry parentHashes = .ok (.ok reached) ∧
      ∀ other, other ∈ reached ↔ ∃ parent ∈ parentHashes, pool.family.Reaches parent other := by
  have within : ∀ value ∈ pool.family.carrier, ∀ parent, pool.Spends value parent → parent ∈ pool.family.carrier :=
    fun value _ parent spends => (pool.family.inside value parent spends).2
  have walking := @walking_of_closed pool pool.Spends parentHashes .empty
    (fun value _ => not_mem_empty value)
    forall_mem_empty inside
  obtain ⟨reached, walked, isReached⟩ := walk_reaches hashBefore MempoolError.diverged parentsOk within walking
  refine ⟨reached, ancestorsLoop_unlimited linked walked, fun other => ?_⟩
  rw [isReached, or_iff_right (not_mem_empty other)]
  rfl

theorem ancestorsInPool_ok (parentsOk : pool.ParentsOk) (linked : ∀ it parents,
      pool.getMemPoolParents it = .ok parents → ∃ entry, pool.mapTx.lookup it = some entry)
    {it : Uint256} {entry : CTxMemPoolEntry} (found : pool.mapTx.lookup it = some entry)
    (keyed : env.hashes.getHash entry.tx = it) : ∃ reached, ancestorsInPool env pool it = .ok reached ∧
      ∀ other, other ∈ reached ↔ TransGen pool.Spends it other := by
  obtain ⟨parents, answered, isParents⟩ := parentsOk it (mem_family.mpr ⟨entry, found⟩)
  obtain ⟨reached, calculated, isReached⟩ := @ancestorsFrom_ok env pool parentsOk linked entry parents
    (fun parent member => (pool.family.inside it parent ((isParents parent).mp member)).2)
  refine ⟨reached, ?_, fun other => ?_⟩
  · rw [ancestorsInPool, dereference_ok found]
    simp only [calculateMemPoolAncestors, keyed, answered, bind, Except.bind, calculated]
    rfl
  · rw [isReached, TransGen.head'_iff]
    simp only [isParents]
    rfl

end Ancestors

end Straks.Mempool
