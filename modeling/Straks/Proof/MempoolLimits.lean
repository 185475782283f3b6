import Straks.Proof.MempoolTotals

namespace Straks.Mempool
open Relation Success Worklist Run CTxMemPoolEntry CTxMemPool Finset OrderedSet Prod LimitedCall

theorem exceeds_mono {smaller larger : Int} {limit : Option Nat} (le : smaller ≤ larger)
    (within : exceeds larger limit = false) : exceeds smaller limit = false := by
  cases limit with
  | none => rfl
  | some limit =>
    have below : larger ≤ limit := not_lt.mp (of_decide_eq_false within)
    exact decide_eq_false (not_lt.mpr (le.trans below))

section Search

variable {env : PoolEnv} {pool : CTxMemPool} {limits : Limits}

variable {entrySize : Nat} {totalSizeWithAncestors : Int} {setAncestors parentHashes : SetEntries}

theorem checkAncestor_ok {stageit : Uint256} {ancestor : CTxMemPoolEntry}
    (passed : checkAncestor limits stageit ancestor entrySize totalSizeWithAncestors = .ok ()) :
    exceeds (ancestor.nSizeWithDescendants + entrySize) limits.limitDescendantSize = false ∧
      exceeds (ancestor.nCountWithDescendants + 1) limits.limitDescendantCount = false ∧
      exceeds totalSizeWithAncestors limits.limitAncestorSize = false := by
  grind [checkAncestor]

/-- The search stages what one without limits does, and keeps the ancestor limit. -/
theorem stageParents_ok {staged : SetEntries} {parents : List Uint256}
    (passed : stageParents limits setAncestors parents parentHashes = .ok staged)
    (within : exceeds (parentHashes.size + setAncestors.size + 1) limits.limitAncestorCount = false) :
    staged = stageNew hashBefore setAncestors parents parentHashes ∧
      exceeds (staged.size + setAncestors.size + 1) limits.limitAncestorCount = false := by
  induction parents generalizing parentHashes with
  | nil =>
    cases passed
    exact ⟨rfl, within⟩
  | cons phash rest ih =>
    grind [stageParents, stageNew]

theorem searchForParents_ok {vin : List CTxIn} {start found : SetEntries}
    (passed : searchForParents pool limits vin start = .ok found)
    (within : start.elements ≠ [] → exceeds (start.size + 1) limits.limitAncestorCount = false) :
    (∀ hash, hash ∈ found ↔ hash ∈ start ∨ hash ∈ vin.map (fun txin => txin.prevout.hash) ∧ pool.exists hash = true) ∧
      (found.elements ≠ [] → exceeds (found.size + 1) limits.limitAncestorCount = false) := by
  induction vin generalizing start with
  | nil =>
    cases passed
    exact ⟨fun hash => by simp, within⟩
  | cons txin rest ih =>
    rw [searchForParents] at passed
    by_cases known : pool.exists txin.prevout.hash = true
    · rw [if_pos known] at passed
      dsimp only at passed
      split at passed
      · cases passed
      rename_i kept
      grind [OrderedSet.mem_insert]
    · grind

/-- What the loop over ancestors has checked so far. -/
structure Checking (env : PoolEnv) (pool : CTxMemPool) (limits : Limits) (entrySize : Nat)
    (parentHashes setAncestors : SetEntries) (totalSizeWithAncestors : Int) : Prop where
  disjoint : ∀ hash ∈ parentHashes, hash ∉ setAncestors
  total : totalSizeWithAncestors = entrySize + ∑ hash ∈ setAncestors.toFinset, (pool.weight env hash).1.2.1
  size : setAncestors.elements ≠ [] → exceeds totalSizeWithAncestors limits.limitAncestorSize = false
  count : parentHashes.elements ≠ [] ∨ setAncestors.elements ≠ [] →
    exceeds (parentHashes.size + setAncestors.size + 1) limits.limitAncestorCount = false
  descendants : ∀ hash ∈ setAncestors, ∀ entry, pool.mapTx.lookup hash = some entry →
    exceeds (entry.nSizeWithDescendants + entrySize) limits.limitDescendantSize = false ∧
      exceeds (entry.nCountWithDescendants + 1) limits.limitDescendantCount = false

/-- One turn of the loop that hits no limit. -/
theorem Checking.step {staged : SetEntries}
    (checking : Checking env pool limits entrySize parentHashes setAncestors totalSizeWithAncestors) {stageit : Uint256}
    (member : stageit ∈ parentHashes) {ancestor : CTxMemPoolEntry} (found : pool.mapTx.lookup stageit = some ancestor)
    {parents : List Uint256}
    (passed : checkAncestor limits stageit ancestor entrySize (totalSizeWithAncestors + ancestor.getTxSize env) = .ok ())
    (stages : stageParents limits (setAncestors.insert hashBefore stageit) parents (parentHashes.erase stageit) = .ok staged)
    : staged = stageNew hashBefore (setAncestors.insert hashBefore stageit) parents (parentHashes.erase stageit) ∧
      Checking env pool limits entrySize staged (setAncestors.insert hashBefore stageit)
        (totalSizeWithAncestors + ancestor.getTxSize env) := by
  have fresh := checking.disjoint stageit member
  obtain ⟨size, count, total⟩ := checkAncestor_ok passed
  have grown : (setAncestors.insert hashBefore stageit).size = setAncestors.size + 1 := OrderedSet.size_insert fresh
  have shrunk : (parentHashes.erase stageit).size + 1 = parentHashes.size := OrderedSet.size_erase member
  have nonempty : parentHashes.elements ≠ [] := List.ne_nil_of_mem member
  have same : ((parentHashes.erase stageit).size : Int) + (setAncestors.insert hashBefore stageit).size + 1 =
      parentHashes.size + setAncestors.size + 1 := by
    omega
  have within := checking.count (.inl nonempty)
  rw [← same] at within
  obtain ⟨isStaged, counted⟩ := stageParents_ok stages within
  refine ⟨isStaged, ?_, ?_, fun _ => total, fun _ => counted, ?_⟩
  · intro hash listed
    rw [isStaged, mem_stageNew, OrderedSet.mem_erase] at listed
    rcases listed with ⟨apart, before⟩ | ⟨-, unseen⟩
    · simp [apart, checking.disjoint hash before]
    · exact unseen
  · have own : (pool.weight env stageit).1.2.1 = ancestor.getTxSize env := by
      rw [weight_of_lookup found]
      rfl
    rw [OrderedSet.toFinset_insert, sum_insert fresh, own, checking.total]
    ring
  · intro hash listed entry foundEntry
    rcases OrderedSet.mem_insert.mp listed with rfl | before
    · rw [found] at foundEntry
      cases foundEntry
      exact ⟨size, count⟩
    · exact checking.descendants hash before entry foundEntry

/-- With limits the loop finds the same, or hits a limit. -/
theorem ancestorsLoop_checked
    (linked : ∀ it parents, pool.getMemPoolParents it = .ok parents → ∃ entry, pool.mapTx.lookup it = some entry)
    {fuel : Nat} {reached : SetEntries}
    (walked : walk hashBefore pool.getMemPoolParents .diverged fuel parentHashes setAncestors = .ok reached)
    (checking : Checking env pool limits entrySize parentHashes setAncestors totalSizeWithAncestors) :
    ∃ result, ancestorsLoop env pool limits entrySize fuel parentHashes setAncestors totalSizeWithAncestors = .ok result ∧
      ∀ found, result = .ok found → found = reached ∧
        ∃ rest total, rest.elements = [] ∧ Checking env pool limits entrySize rest found total := by
  fun_induction walk hashBefore pool.getMemPoolParents .diverged fuel parentHashes setAncestors
    generalizing totalSizeWithAncestors with
  | case1 fuel stage ancestors staged =>
    cases walked
    exact ⟨.ok reached, ancestorsLoop_nil staged, by grind⟩
  | case2 => cases walked
  | case3 stage ancestors stageit rest staged fuel setAncestors =>
    obtain ⟨parents, answered, walked⟩ := bind_eq_ok.mp walked
    obtain ⟨ancestor, found⟩ := linked stageit parents answered
    have member : stageit ∈ stage := by
      grind [OrderedSet.mem_def]
    rw [ancestorsLoop_succ staged found answered]
    cases passed : checkAncestor limits stageit ancestor entrySize
        (totalSizeWithAncestors + ancestor.getTxSize env) with
    | error failure => exact ⟨.error failure, rfl, fun _ impossible => by cases impossible⟩
    | ok =>
      cases stages : stageParents limits (ancestors.insert hashBefore stageit) parents.elements
          (stage.erase stageit) with
      | error failure => exact ⟨.error failure, rfl, fun _ impossible => by cases impossible⟩
      | ok later =>
        obtain ⟨isLater, checkingLater⟩ := checking.step member found passed stages
        grind

end Search

/-- The set is that of the ancestors in the pool. -/
def IsAncestors (pool : CTxMemPool) (tx : CTransaction) (setAncestors : SetEntries) : Prop :=
  ∀ hash, hash ∈ setAncestors ↔
    ∃ parent ∈ spentHashes tx, parent ∈ pool.family.carrier ∧ pool.family.Reaches parent hash

section Admit

variable {env : PoolEnv} {pool : CTxMemPool} {limits : Limits}

/-- The ancestors of a new transaction are found, and keep the limits, if none is hit. -/
theorem PoolOk.calculateMemPoolAncestors (ok : PoolOk env pool) (limits : Limits) (entry : CTxMemPoolEntry) :
    ∃ result, Mempool.calculateMemPoolAncestors env pool limits entry true = .ok result ∧
      ∀ setAncestors, result = .ok setAncestors → IsAncestors pool entry.tx setAncestors ∧
        ∃ rest total, rest.elements = [] ∧
          Checking env pool limits (entry.getTxSize env) rest setAncestors total := by
  rw [Mempool.calculateMemPoolAncestors]
  cases searched : searchForParents pool limits entry.tx.vin .empty with
  | error failure => exact ⟨.error failure, rfl, fun _ impossible => by cases impossible⟩
  | ok parentHashes =>
    obtain ⟨isParents, counted⟩ := searchForParents_ok searched fun nonempty => absurd rfl nonempty
    have inside : ∀ parent ∈ parentHashes, parent ∈ pool.family.carrier := by
      intro parent listed
      have present := ((isParents parent).mp listed).resolve_left (not_mem_empty parent)
      exact mem_family.mpr (exists_iff.mp present.2)
    have within : ∀ value ∈ pool.family.carrier, ∀ parent, pool.Spends value parent → parent ∈ pool.family.carrier :=
      fun value _ parent spends => (pool.family.inside value parent spends).2
    have walking := @walking_of_closed pool pool.Spends parentHashes .empty
      (fun value _ => not_mem_empty value)
      forall_mem_empty inside
    obtain ⟨reached, walked, isReached⟩ :=
      walk_reaches hashBefore MempoolError.diverged ok.links.parentsOk within walking
    have checking : Checking env pool limits (entry.getTxSize env) parentHashes .empty (entry.getTxSize env) := by
      refine ⟨fun hash _ => not_mem_empty hash, ?_, fun nonempty => absurd rfl nonempty, ?_, ?_⟩
      · exact (add_zero _).symm
      · intro nonempty
        exact counted (nonempty.resolve_right fun nonempty => nonempty rfl)
      · exact forall_mem_empty
    obtain ⟨result, looped, isResult⟩ := ancestorsLoop_checked ok.links.linked walked checking
    refine ⟨result, looped, fun setAncestors isOk => ?_⟩
    obtain ⟨isReachedSet, checked⟩ := isResult setAncestors isOk
    refine ⟨fun hash => ?_, checked⟩
    rw [isReachedSet, isReached, or_iff_right (not_mem_empty hash)]
    constructor
    · intro path
      obtain ⟨parent, listed, reaches⟩ := path
      have present := ((isParents parent).mp listed).resolve_left (not_mem_empty parent)
      exact ⟨parent, present.1, inside parent listed, reaches⟩
    · intro path
      obtain ⟨parent, input, member, reaches⟩ := path
      exact ⟨parent, (isParents parent).mpr (.inr ⟨input, exists_iff.mpr (mem_family.mp member)⟩), reaches⟩

/-- Totals over ancestors and descendants keep the four limits. -/
def TotalsWithin (limits : Limits) (ancestors : Totals × Int) (descendants : Totals) : Prop :=
  exceeds ancestors.1.1 limits.limitAncestorCount = false ∧ exceeds ancestors.1.2.1 limits.limitAncestorSize = false ∧
    exceeds descendants.1 limits.limitDescendantCount = false ∧
    exceeds descendants.2.1 limits.limitDescendantSize = false

instance (limits : Limits) (ancestors : Totals × Int) (descendants : Totals) :
    Decidable (TotalsWithin limits ancestors descendants) :=
  inferInstanceAs (Decidable (_ ∧ _ ∧ _ ∧ _))

theorem TotalsWithin.mono {ancestors ancestors' : Totals × Int} {descendants descendants' : Totals}
    (within : TotalsWithin limits ancestors' descendants') (ancestorCount : ancestors.1.1 ≤ ancestors'.1.1)
    (ancestorSize : ancestors.1.2.1 ≤ ancestors'.1.2.1) (descendantCount : descendants.1 ≤ descendants'.1)
    (descendantSize : descendants.2.1 ≤ descendants'.2.1) : TotalsWithin limits ancestors descendants :=
  ⟨exceeds_mono ancestorCount within.1, exceeds_mono ancestorSize within.2.1, exceeds_mono descendantCount within.2.2.1,
    exceeds_mono descendantSize within.2.2.2⟩

/-- No entry exceeds the limits, itself included. -/
def WithinLimits (limits : Limits) (pool : CTxMemPool) : Prop :=
  ∀ hash entry, pool.mapTx.lookup hash = some entry → TotalsWithin limits entry.ancestorTotals entry.descendantTotals

theorem PoolOk.within_iff (ok : PoolOk env pool) : WithinLimits limits pool ↔
    ∀ hash ∈ pool.family.carrier, TotalsWithin limits (ancestorsTotal env pool hash) (descendantsTotal env pool hash) := by
  constructor
  · intro within hash member
    obtain ⟨entry, found⟩ := mem_family.mp member
    have totals := ok.totals hash entry found
    rw [← totals.1, ← totals.2]
    exact within hash entry found
  · intro within hash entry found
    have totals := ok.totals hash entry found
    simp_all

theorem sum_weight_mono {smaller larger : Finset Uint256} (sub : smaller ⊆ larger) (inside : larger ⊆ pool.family.carrier) :
    (∑ hash ∈ smaller, (pool.weight env hash).1).1 ≤ (∑ hash ∈ larger, (pool.weight env hash).1).1 ∧
      (∑ hash ∈ smaller, (pool.weight env hash).1).2.1 ≤ (∑ hash ∈ larger, (pool.weight env hash).1).2.1 := by
  constructor
  · rw [fst_sum, fst_sum]
    apply sum_le_sum_of_subset_of_nonneg sub
    grind [weight_count]
  · rw [snd_sum, fst_sum, snd_sum, fst_sum]
    exact sum_le_sum_of_subset_of_nonneg sub fun hash listed _ => (weight_size (inside listed)).le

/-- Entries that stay when others leave keep the limits. -/
theorem Left.within {later : CTxMemPool} {stage : SetEntries} {ancestors : Uint256 → Totals × Int} (ok : PoolOk env pool)
    (left : Left env pool stage ancestors later) (within : WithinLimits limits pool)
    (fewer : ∀ hash ∈ pool.family.carrier, (ancestors hash).1.1 ≤ (ancestorsTotal env pool hash).1.1 ∧
      (ancestors hash).1.2.1 ≤ (ancestorsTotal env pool hash).1.2.1) : WithinLimits limits later := by
  intro hash entry found
  have member : hash ∈ pool.family.carrier := (left.mem_iff.mp (mem_family.mpr ⟨entry, found⟩)).1
  have totals := left.totals hash entry found
  rw [totals.1, totals.2]
  have descendants := @sum_weight_mono env pool (pool.family.down hash \ stage.toFinset) _ sdiff_subset
    Family.down_subset
  exact (ok.within_iff.mp within hash member).mono (fewer hash member).1 (fewer hash member).2 descendants.1
    descendants.2

end Admit

/-- A new transaction has no child or conflict in the pool, a removed set contains its descendants, and the parents of
a confirmed transaction are confirmed. -/
def LimitsCalled (env : PoolEnv) (pool : CTxMemPool) : LimitedCall → Prop
  | .accept tx _ _ _ => ∀ setAncestors, IsAncestors pool tx setAncestors → Joins env pool tx setAncestors
  | .removeStaged stage => (∀ hash ∈ stage, hash ∈ pool.family.carrier) ∧
      ∀ child parent, pool.Spends child parent → parent ∈ stage → child ∈ stage
  | .removeConfirmed hash => hash ∈ pool.family.carrier ∧ ∀ parent, ¬ pool.Spends hash parent

/-- A new transaction has a parent in the pool or keeps the limits on its own, and its signature operations with its
ancestors' fit into an `int`. -/
def OwnFits (env : PoolEnv) (limits : Limits) (pool : CTxMemPool) : LimitedCall → Prop
  | .accept tx nFee nTime sigOpCost =>
    ((∃ parent ∈ spentHashes tx, parent ∈ pool.family.carrier) ∨
      TotalsWithin limits ((new env tx nFee nTime sigOpCost).own env) ((new env tx nFee nTime sigOpCost).own env).1) ∧
    ∀ setAncestors, IsAncestors pool tx setAncestors →
      sigOpCost + ∑ hash ∈ setAncestors.toFinset, valueOf pool sigOpsOf hash < 2 ^ 31
  | .removeStaged _ | .removeConfirmed _ => True

section Run

variable {env : PoolEnv} {limits : Limits} {pool : CTxMemPool}

theorem sum_weight_count {set : Finset Uint256} (inside : set ⊆ pool.family.carrier) :
    (∑ hash ∈ set, pool.weight env hash).1.1 = set.card := by
  grind [fst_sum, card_eq_sum_ones, Nat.cast_sum, sum_congr, weight_count]

section Admitted

variable {entrySize : Nat} {setAncestors rest : SetEntries} {total : Int}
  (checking : Checking env pool limits entrySize rest setAncestors total)
include checking

/-- With an ancestor in the pool, the ancestor totals have been compared with the limits. -/
theorem Checking.ancestors (nonempty : setAncestors.elements ≠ []) {own : Totals × Int} (count : own.1.1 = 1)
    (size : own.1.2.1 = entrySize) (finished : rest.elements = [])
    (inside : ∀ hash ∈ setAncestors, hash ∈ pool.family.carrier) :
    exceeds (own + ∑ hash ∈ setAncestors.toFinset, pool.weight env hash).1.1 limits.limitAncestorCount = false ∧
      exceeds (own + ∑ hash ∈ setAncestors.toFinset, pool.weight env hash).1.2.1 limits.limitAncestorSize = false := by
  have counts := @sum_weight_count env pool setAncestors.toFinset inside
  have sizes : (∑ hash ∈ setAncestors.toFinset, pool.weight env hash).1.2.1 =
      ∑ hash ∈ setAncestors.toFinset, (pool.weight env hash).1.2.1 := by
    rw [fst_sum, snd_sum, fst_sum]
  have noRest : rest.size = 0 := by
    grind [OrderedSet.size]
  constructor
  · have counted := checking.count (.inr nonempty)
    simp_all [add_comm]
  · rw [fst_add, snd_add, fst_add, sizes, size, ← checking.total]
    exact checking.size nonempty

/-- The descendant totals of an ancestor leave room. -/
theorem Checking.room (ok : PoolOk env pool) {hash : Uint256} (listed : hash ∈ setAncestors)
    (member : hash ∈ pool.family.carrier) :
    exceeds ((descendantsTotal env pool hash).1 + 1) limits.limitDescendantCount = false ∧
      exceeds ((descendantsTotal env pool hash).2.1 + entrySize) limits.limitDescendantSize = false := by
  obtain ⟨entry, found⟩ := mem_family.mp member
  obtain ⟨size, count⟩ := checking.descendants hash listed entry found
  rw [← (ok.totals hash entry found).2]
  exact ⟨count, size⟩

end Admitted

/-- A checked transaction and its ancestors keep the limits. -/
theorem PoolOk.admitted (ok : PoolOk env pool) (within : WithinLimits limits pool) {tx : CTransaction} {nFee : CAmount}
    {nTime : Int} {sigOpCost : Nat} {setAncestors rest : SetEntries} {total : Int}
    (addable : Addable env pool tx sigOpCost setAncestors)
    (own : (∃ parent ∈ spentHashes tx, parent ∈ pool.family.carrier) ∨
      TotalsWithin limits ((new env tx nFee nTime sigOpCost).own env) ((new env tx nFee nTime sigOpCost).own env).1)
    (finished : rest.elements = [])
    (checking : Checking env pool limits ((new env tx nFee nTime sigOpCost).getTxSize env) rest setAncestors total)
    {later : CTxMemPool} (okLater : PoolOk env later)
    (added : Added env pool (addedEntry env pool tx nFee nTime sigOpCost) later) : WithinLimits limits later := by
  have sameTx : (addedEntry env pool tx nFee nTime sigOpCost).tx = tx := rfl
  have inside : ∀ hash ∈ setAncestors, hash ∈ pool.family.carrier := fun hash listed => addable.ancestors_mem listed
  rw [okLater.within_iff]
  intro hash member
  by_cases same : hash = env.hashes.getHash tx
  · rw [same, addable.ancestorsTotal_added sameTx added.gains, addable.descendantsTotal_added sameTx added.gains]
    cases listed : setAncestors.elements with
    | nil =>
      have orphan : ¬ ∃ parent ∈ spentHashes tx, parent ∈ pool.family.carrier := by
        intro present
        obtain ⟨parent, input, memberParent⟩ := present
        have inSet : parent ∈ setAncestors := (addable.ancestors parent).mpr ⟨parent, input, memberParent, .refl⟩
        grind [OrderedSet.mem_def]
      rw [OrderedSet.sum_toFinset, listed]
      exact own.resolve_left orphan
    | cons ancestor others =>
      have nonempty : setAncestors.elements ≠ [] := by
        grind
      have inSet : ancestor ∈ setAncestors := by
        grind [OrderedSet.mem_def]
      obtain ⟨count, size⟩ := @Checking.ancestors _ _ _ _ _ _ _ checking nonempty
        ((addedEntry env pool tx nFee nTime sigOpCost).own env) rfl rfl finished inside
      obtain ⟨roomCount, roomSize⟩ := checking.room ok inSet (inside ancestor inSet)
      obtain ⟨positiveCount, positiveSize⟩ := @descendantsTotal_pos env pool ancestor (inside ancestor inSet)
      refine ⟨count, size, exceeds_mono ?_ roomCount, exceeds_mono ?_ roomSize⟩
      · exact le_add_of_nonneg_left positiveCount.le
      · exact le_add_of_nonneg_left positiveSize.le
  · have old := (added.gains.mem_iff.mp member).resolve_left same
    have before := ok.within_iff.mp within hash old
    rw [addable.ancestorsTotal_old sameTx added.gains old, addable.descendantsTotal_old sameTx added.gains old, shifted]
    split
    · rename_i listed
      obtain ⟨roomCount, roomSize⟩ := checking.room ok listed old
      exact ⟨before.1, before.2.1, roomCount, roomSize⟩
    · exact before

theorem PoolOk.limited_apply (ok : PoolOk env pool) (within : WithinLimits limits pool) {call : LimitedCall}
    (called : LimitsCalled env pool call) (fits : OwnFits env limits pool call) :
    ∃ later, call.apply env limits pool = .ok later ∧ PoolOk env later ∧ WithinLimits limits later := by
  cases call with
  | accept tx nFee nTime sigOpCost =>
    obtain ⟨result, calculated, isResult⟩ := ok.calculateMemPoolAncestors limits (new env tx nFee nTime sigOpCost)
    cases result with
    | error failure =>
      refine ⟨pool, ?_, ok, within⟩
      rw [LimitedCall.apply, calculated]
      rfl
    | ok setAncestors =>
      obtain ⟨isAncestors, rest, total, finished, checking⟩ := isResult setAncestors rfl
      have addable : Addable env pool tx sigOpCost setAncestors :=
        addable_of_fit (called setAncestors isAncestors) (fits.2 setAncestors isAncestors)
      obtain ⟨later, addedLater, okLater, added⟩ :=
        @PoolOk.addUnchecked env pool tx nFee nTime sigOpCost setAncestors ok addable
      refine ⟨later, ?_, okLater, ok.admitted within addable fits.1 finished checking okLater added⟩
      rw [LimitedCall.apply, calculated]
      exact addedLater
  | removeStaged stage =>
    obtain ⟨later, removed, linked, left⟩ := ok.toLinkedOk.removeStaged called.1 called.2
    refine ⟨later, removed, left.poolOk linked fun hash entry _ => ok.deltas hash entry, left.within ok within ?_⟩
    exact fun hash _ => ⟨le_rfl, le_rfl⟩
  | removeConfirmed hash =>
    obtain ⟨later, removed, linked, left⟩ := ok.toLinkedOk.removeRoot called.1 called.2
    refine ⟨later, removed, left.poolOk linked fun hash entry _ => ok.deltas hash entry, left.within ok within ?_⟩
    intro other _
    rw [ancestorsWithout]
    split
    · exact ⟨le_rfl, le_rfl⟩
    · have fewer := @sum_weight_mono env pool ((pool.family.up other).erase hash) _ (erase_subset _ _)
        Family.up_subset
      rw [ancestorsTotal, fst_sum (s := (pool.family.up other).erase hash), fst_sum (s := pool.family.up other)]
      exact fewer

end Run

/-- One transaction, at most one descendant, and the size of three small ones. -/
def smallLimits : Limits := ⟨some 2, some 1000, some 2, some 1000⟩

theorem withinLimits_empty (limits : Limits) : WithinLimits limits .empty := by
  intro hash entry found
  cases found

theorem isAncestors_empty {tx : CTransaction} {setAncestors : SetEntries} (isAncestors : IsAncestors .empty tx setAncestors) :
    setAncestors.elements = [] := by
  apply List.eq_nil_iff_forall_not_mem.mpr
  intro hash listed
  obtain ⟨parent, -, member, -⟩ := (isAncestors hash).mp listed
  obtain ⟨entry, found⟩ := mem_family.mp member
  cases found

/-- A transaction not spending itself can join an empty pool. -/
theorem joins_empty {env : PoolEnv} {tx : CTransaction} (notOwnChild : env.hashes.getHash tx ∉ spentHashes tx)
    {setAncestors : SetEntries} (isAncestors : IsAncestors .empty tx setAncestors) :
    Joins env .empty tx setAncestors where
  fresh := AList.lookup_empty _
  noChild := by
    intro hash entry found
    cases found
  notOwnChild := notOwnChild
  noConflict := fun prevout _ => AList.lookup_empty prevout
  ancestors := isAncestors

end Straks.Mempool
