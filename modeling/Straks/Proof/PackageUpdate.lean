import Straks.Construction.Miner.BlockAssembler
import Straks.Proof.MempoolInvariant

namespace Straks.Miner

open Chain Mempool Loop Success CTxMemPool CTxMemPoolEntry List OrderedSet Prod

section Update

variable {env : PoolEnv} {pool : CTxMemPool}

/-- What an included ancestor does to a modified entry. -/
def included (env : PoolEnv) (entry : CTxMemPoolEntry) (current : Option CTxMemPoolModifiedEntry)
    (it : CTxMemPoolEntry) : CTxMemPoolModifiedEntry :=
  match current with
  | none => (CTxMemPoolModifiedEntry.new entry).exclude env it
  | some e => updateForParentInclusion env it e

theorem updateDescendant_eq (it : CTxMemPoolEntry) (modified : ModifiedSet) {desc : Uint256} {entry : CTxMemPoolEntry}
    (found : pool.mapTx.lookup desc = some entry) : updateDescendant env pool it modified desc =
      .ok (modified.insert desc (included env entry (modified.lookup desc) it)) := by
  rw [updateDescendant]
  cases current : modified.lookup desc with
  | none =>
    simp only [dereference_ok found, bind, Except.bind, included]
    rfl
  | some e => rfl

/-- The loop over the descendants of one included transaction. -/
theorem foldlM_updateDescendant (it : CTxMemPoolEntry) {list : List Uint256} (nodup : list.Nodup)
    (present : ∀ desc ∈ list, desc ∈ pool.family.carrier) (modified : ModifiedSet) :
    ∃ updated, list.foldlM (updateDescendant env pool it) modified = .ok updated ∧
      (∀ hash ∉ list, updated.lookup hash = modified.lookup hash) ∧
      ∀ hash ∈ list, ∀ entry, pool.mapTx.lookup hash = some entry →
        updated.lookup hash = some (included env entry (modified.lookup hash) it) := by
  induction list generalizing modified with
  | nil => exact ⟨modified, rfl, fun _ _ => rfl, forall_mem_nil _⟩
  | cons desc rest ih =>
    obtain ⟨fresh, nodup⟩ := nodup_cons.mp nodup
    obtain ⟨entry, found⟩ := mem_family.mp (present desc mem_cons_self)
    have unchanged : ∀ hash ≠ desc, (modified.insert desc (included env entry (modified.lookup desc) it)).lookup hash =
        modified.lookup hash := fun hash apart => AList.lookup_insert_ne apart
    obtain ⟨updated, folded, outside, inside⟩ := ih nodup
      (fun other member => present other (mem_cons_of_mem _ member))
      (modified.insert desc (included env entry (modified.lookup desc) it))
    refine ⟨updated, ?_, ?_, ?_⟩
    · rw [foldlM_cons, updateDescendant_eq it modified found]
      exact folded
    · intro hash absent
      rw [mem_cons, not_or] at absent
      rw [outside hash absent.2, unchanged hash absent.1]
    · intro hash member other foundOther
      rcases mem_cons.mp member with rfl | later
      · rw [outside hash fresh, AList.lookup_insert, Option.some.inj (found.symm.trans foundOther)]
      · rw [inside hash later other foundOther, unchanged hash fun same => fresh (same ▸ later)]

open Classical in
/-- The listed entries that are ancestors of a transaction. -/
noncomputable def ancestorsAmong (pool : CTxMemPool) (list : List Uint256) (hash : Uint256) : List CTxMemPoolEntry :=
  (list.filter fun it => pool.family.Reaches hash it).filterMap fun it => pool.mapTx.lookup it

theorem ancestorsAmong_cons_of_reaches {it hash : Uint256} {rest : List Uint256} {entry : CTxMemPoolEntry}
    (reaches : pool.family.Reaches hash it) (found : pool.mapTx.lookup it = some entry) :
    ancestorsAmong pool (it :: rest) hash = entry :: ancestorsAmong pool rest hash := by
  rw [ancestorsAmong, filter_cons_of_pos (by simpa using reaches), filterMap_cons, found]
  rfl

theorem ancestorsAmong_cons_of_not {it hash : Uint256} {rest : List Uint256} (apart : ¬ pool.family.Reaches hash it) :
    ancestorsAmong pool (it :: rest) hash = ancestorsAmong pool rest hash := by
  rw [ancestorsAmong, filter_cons_of_neg (by simpa using apart)]
  rfl

/-- The effect of included transactions on the modified set. -/
structure Updated (env : PoolEnv) (pool : CTxMemPool) (list : List Uint256) (alreadyAdded : SetEntries)
    (modified after : ModifiedSet) : Prop where
  kept : ∀ hash, hash ∈ alreadyAdded ∨ hash ∉ pool.family.carrier → after.lookup hash = modified.lookup hash
  changed : ∀ hash entry, pool.mapTx.lookup hash = some entry → hash ∉ alreadyAdded →
    after.lookup hash = (ancestorsAmong pool list hash).foldl (fun current it => some (included env entry current it))
      (modified.lookup hash)

variable (consistent : LinkedOk env pool) {alreadyAdded : SetEntries}
include consistent

/-- An included transaction changes its other descendants' entries. -/
theorem updateDescendants_ok (modified : ModifiedSet) {it : Uint256} {parent : CTxMemPoolEntry}
    (found : pool.mapTx.lookup it = some parent) :
    ∃ updated, updateDescendants env pool alreadyAdded modified it = .ok updated ∧
      (∀ hash, ¬ (pool.family.Reaches hash it ∧ hash ∉ alreadyAdded) → updated.lookup hash = modified.lookup hash) ∧
      ∀ hash, pool.family.Reaches hash it → hash ∉ alreadyAdded → ∀ entry, pool.mapTx.lookup hash = some entry →
        updated.lookup hash = some (included env entry (modified.lookup hash) parent) := by
  obtain ⟨descendants, calculated, isDescendants⟩ := @calculateDescendants_ok pool consistent.links.childrenOk it
    (mem_family.mpr ⟨parent, found⟩) .empty forall_mem_empty
  have listed (hash : Uint256) : hash ∈ descendants.elements.filter (fun desc => !alreadyAdded.contains desc) ↔
      pool.family.Reaches hash it ∧ hash ∉ alreadyAdded := by
    rw [mem_filter, ← mem_def, isDescendants, or_iff_right (not_mem_empty hash), Bool.not_eq_true', contains_eq_false]
  have present : ∀ desc ∈ descendants.elements.filter (fun desc => !alreadyAdded.contains desc),
      desc ∈ pool.family.carrier := by
    intro desc member
    exact ((listed desc).mp member).1.child_mem (mem_family.mpr ⟨parent, found⟩)
  obtain ⟨updated, folded, outside, inside⟩ :=
    @foldlM_updateDescendant env pool parent _ (descendants.nodup.filter _) present modified
  refine ⟨updated, ?_, ?_, ?_⟩
  · rw [updateDescendants, calculated]
    simp only [bind, Except.bind, dereference_ok found]
    exact folded
  · intro hash other
    exact outside hash fun member => other ((listed hash).mp member)
  · intro hash reaches apart entry foundEntry
    exact inside hash ((listed hash).mpr ⟨reaches, apart⟩) entry foundEntry

/-- The included ancestors act on each modified entry in turn. -/
theorem updatePackages_ok {list : List Uint256} (present : ∀ it ∈ list, it ∈ pool.family.carrier)
    (modified : ModifiedSet) : ∃ after, list.foldlM (updateDescendants env pool alreadyAdded) modified = .ok after ∧
      Updated env pool list alreadyAdded modified after := by
  induction list generalizing modified with
  | nil => exact ⟨modified, rfl, fun _ _ => rfl, fun _ _ _ _ => rfl⟩
  | cons it rest ih =>
    obtain ⟨parent, found⟩ := mem_family.mp (present it mem_cons_self)
    obtain ⟨first, updates, outside, inside⟩ := @updateDescendants_ok env pool consistent alreadyAdded modified it _ found
    obtain ⟨after, folded, updated⟩ := ih (fun other member => present other (mem_cons_of_mem _ member)) first
    refine ⟨after, ?_, ?_, ?_⟩
    · rw [foldlM_cons, updates]
      exact folded
    · intro hash either
      rw [updated.kept hash either]
      apply outside
      intro both
      rcases either with member | absent
      · exact both.2 member
      · exact absent (both.1.child_mem (mem_family.mpr ⟨parent, found⟩))
    · intro hash entry foundEntry apart
      rw [updated.changed hash entry foundEntry apart]
      by_cases reaches : pool.family.Reaches hash it
      · rw [ancestorsAmong_cons_of_reaches reaches found, foldl_cons, inside hash reaches apart entry foundEntry]
      · rw [ancestorsAmong_cons_of_not reaches, outside hash fun both => reaches both.1]

theorem updatePackagesForAdded_ok (present : ∀ it ∈ alreadyAdded, it ∈ pool.family.carrier) (modified : ModifiedSet) :
    ∃ after, updatePackagesForAdded env pool alreadyAdded modified = .ok after ∧
      Updated env pool alreadyAdded.elements alreadyAdded modified after :=
  updatePackages_ok consistent present modified

end Update

section Sums

variable {env : PoolEnv} {pool : CTxMemPool}

/-- The part of some totals a modified entry keeps. -/
def package (totals : Totals × Int) : CTxMemPoolModifiedEntry := ⟨totals.1.2.1, totals.1.2.2, totals.2⟩

theorem exists_package (e : CTxMemPoolModifiedEntry) : ∃ totals, e = package totals :=
  ⟨((0, e.nSizeWithAncestors, e.nModFeesWithAncestors), e.nSigOpCostWithAncestors), rfl⟩

/-- The fee deltas left when only plain fees are taken out. -/
def leftover (list : List CTxMemPoolEntry) : Totals × Int := ((0, 0, (list.map feeDelta).sum), 0)

variable (entry it : CTxMemPoolEntry)

theorem included_none : included env entry none it = package (entry.ancestorTotals - it.own env) := rfl

theorem included_some (totals : Totals × Int) :
    included env entry (some (package totals)) it = package (totals - it.own env + leftover [it]) := by
  simp [included, updateForParentInclusion, package, own, leftover, getModifiedFee]
  ring

theorem leftover_cons (it : CTxMemPoolEntry) (list : List CTxMemPoolEntry) :
    leftover (it :: list) = leftover [it] + leftover list := by
  simp [leftover]

/-- Transactions are taken out of an entry in turn. -/
theorem foldl_included_some (entry : CTxMemPoolEntry) (list : List CTxMemPoolEntry) (totals : Totals × Int) :
    list.foldl (fun current it => some (included env entry current it)) (some (package totals)) =
      some (package (totals - (list.map (own env)).sum + leftover list)) := by
  induction list generalizing totals with
  | nil =>
    have nothing : leftover [] = 0 := rfl
    rw [nothing, map_nil, sum_nil, sub_zero, add_zero]
    rfl
  | cons it rest ih =>
    rw [foldl_cons, included_some, ih, leftover_cons it rest, map_cons, sum_cons]
    congr 2
    abel

/-- The first transaction leaves the pool's totals with its modified fee. -/
theorem foldl_included_none (rest : List CTxMemPoolEntry) :
    (it :: rest).foldl (fun current it => some (included env entry current it)) none =
      some (package (entry.ancestorTotals - ((it :: rest).map (own env)).sum + leftover rest)) := by
  rw [foldl_cons, included_none, foldl_included_some, map_cons, sum_cons]
  congr 2
  abel

/-- The totals over the included ancestors of a transaction. -/
theorem sum_ancestorsAmong {alreadyAdded : SetEntries} (present : ∀ it ∈ alreadyAdded, it ∈ pool.family.carrier)
    (hash : Uint256) : ((ancestorsAmong pool alreadyAdded.elements hash).map (own env)).sum =
      ∑ it ∈ pool.family.up hash ∩ alreadyAdded.toFinset, pool.weight env it := by
  classical
  have listed : ∀ list : List Uint256, (∀ it ∈ list, it ∈ pool.family.carrier) →
      ((ancestorsAmong pool list hash).map (own env)).sum =
        ((list.filter fun it => pool.family.Reaches hash it).map (pool.weight env)).sum := by
    intro list inside
    induction list with
    | nil => rfl
    | cons it rest ih =>
      obtain ⟨entry, found⟩ := mem_family.mp (inside it mem_cons_self)
      have later := ih fun other member => inside other (mem_cons_of_mem _ member)
      by_cases reaches : pool.family.Reaches hash it
      · rw [ancestorsAmong_cons_of_reaches reaches found, filter_cons_of_pos (by simpa using reaches),
          map_cons, sum_cons, map_cons, sum_cons, later, weight_of_lookup found]
      · rw [ancestorsAmong_cons_of_not reaches, filter_cons_of_neg (by simpa using reaches), later]
  have same : pool.family.up hash ∩ alreadyAdded.toFinset =
      OrderedSet.toFinset ⟨alreadyAdded.elements.filter fun it => pool.family.Reaches hash it,
        alreadyAdded.nodup.filter _⟩ := by
    ext it
    rw [Finset.mem_inter, Family.mem_up, OrderedSet.mem_toFinset, OrderedSet.mem_toFinset, OrderedSet.mem_def,
      OrderedSet.mem_def, mem_filter, decide_eq_true_iff]
    constructor
    · exact fun both => ⟨both.2, both.1.2⟩
    · exact fun both => ⟨⟨present it both.1, both.2⟩, both.1⟩
  rw [listed alreadyAdded.elements present, same, OrderedSet.sum_toFinset]

theorem ancestorsAmong_eq_nil {list : List Uint256} {hash : Uint256}
    (apart : ∀ it ∈ list, ¬ pool.family.Reaches hash it) : ancestorsAmong pool list hash = [] := by
  induction list with
  | nil => rfl
  | cons it rest ih =>
    rw [ancestorsAmong_cons_of_not (apart it mem_cons_self)]
    exact ih fun other member => apart other (mem_cons_of_mem _ member)

theorem ancestorsAmong_ne_nil {list : List Uint256} (present : ∀ it ∈ list, it ∈ pool.family.carrier)
    {it hash : Uint256} (member : it ∈ list) (reaches : pool.family.Reaches hash it) :
    ancestorsAmong pool list hash ≠ [] := by
  obtain ⟨entry, found⟩ := mem_family.mp (present it member)
  apply ne_nil_of_mem
  rw [ancestorsAmong, mem_filterMap]
  exact ⟨it, mem_filter.mpr ⟨member, by simpa using reaches⟩, found⟩

end Sums

section Lookup

variable {env : PoolEnv} {pool : CTxMemPool} {alreadyAdded : SetEntries} {modified after : ModifiedSet}
  (updated : Updated env pool alreadyAdded.elements alreadyAdded modified after)
  (present : ∀ it ∈ alreadyAdded, it ∈ pool.family.carrier) {hash : Uint256} {entry : CTxMemPoolEntry}
  (found : pool.mapTx.lookup hash = some entry) (apart : hash ∉ alreadyAdded)
include updated present found apart

/-- An entry loses the included ancestors, but for fee deltas. -/
theorem Updated.lookup_some {totals : Totals × Int} (current : modified.lookup hash = some (package totals)) :
    after.lookup hash = some (package (totals - ∑ it ∈ pool.family.up hash ∩ alreadyAdded.toFinset, pool.weight env it +
      leftover (ancestorsAmong pool alreadyAdded.elements hash))) := by
  rw [updated.changed hash entry found apart, current, foldl_included_some, sum_ancestorsAmong present]

/-- A new modified entry holds the pool's totals without included ancestors. -/
theorem Updated.lookup_new (current : modified.lookup hash = none) {it : Uint256} (member : it ∈ alreadyAdded)
    (reaches : pool.family.Reaches hash it) : after.lookup hash = some (package (entry.ancestorTotals -
      ∑ it ∈ pool.family.up hash ∩ alreadyAdded.toFinset, pool.weight env it +
      leftover (ancestorsAmong pool alreadyAdded.elements hash).tail)) := by
  have sums := @sum_ancestorsAmong env pool alreadyAdded present hash
  have among := ancestorsAmong_ne_nil present member reaches
  rw [updated.changed hash entry found apart, current]
  cases isAmong : ancestorsAmong pool alreadyAdded.elements hash with
  | nil => exact absurd isAmong among
  | cons first rest =>
    rw [isAmong] at sums
    rw [foldl_included_none, sums, tail_cons]

omit present in
/-- Without an included ancestor there is no new entry. -/
theorem Updated.lookup_none (current : modified.lookup hash = none)
    (unrelated : ∀ it ∈ alreadyAdded, ¬ pool.family.Reaches hash it) : after.lookup hash = none := by
  rw [updated.changed hash entry found apart, current, ancestorsAmong_eq_nil unrelated]
  rfl

end Lookup

/-- The totals over a transaction and ancestors outside a set. -/
noncomputable def outstanding (env : PoolEnv) (pool : CTxMemPool) (inBlock : Finset Uint256) (hash : Uint256) :
    Totals × Int :=
  ∑ other ∈ pool.family.up hash \ inBlock, pool.weight env other

/-- Every modified entry is for a pool transaction outside a set. -/
def KeysOk (pool : CTxMemPool) (inBlock : Finset Uint256) (modified : ModifiedSet) : Prop :=
  ∀ hash e, modified.lookup hash = some e → hash ∈ pool.family.carrier ∧ hash ∉ inBlock

/-- No modified entry falls short of its package's size and operations. -/
def Large (env : PoolEnv) (pool : CTxMemPool) (inBlock : Finset Uint256) (modified : ModifiedSet) : Prop :=
  ∀ hash e, modified.lookup hash = some e → (outstanding env pool inBlock hash).1.2.1 ≤ e.nSizeWithAncestors ∧
    (outstanding env pool inBlock hash).2 ≤ e.nSigOpCostWithAncestors

section Invariants

variable {env : PoolEnv} {pool : CTxMemPool} {inBlock : Finset Uint256} {alreadyAdded : SetEntries}

/-- What is outstanding loses the included ancestors. -/
theorem outstanding_union (apart : ∀ it ∈ alreadyAdded, it ∉ inBlock) (hash : Uint256) :
    outstanding env pool (inBlock ∪ alreadyAdded.toFinset) hash = outstanding env pool inBlock hash -
      ∑ it ∈ pool.family.up hash ∩ alreadyAdded.toFinset, pool.weight env it := by
  have parts : pool.family.up hash \ inBlock =
      (pool.family.up hash \ (inBlock ∪ alreadyAdded.toFinset)) ∪ (pool.family.up hash ∩ alreadyAdded.toFinset) := by
    ext it
    simp only [Finset.mem_union, Finset.mem_sdiff, Finset.mem_inter, mem_toFinset]
    tauto
  have disjoint : Disjoint (pool.family.up hash \ (inBlock ∪ alreadyAdded.toFinset))
      (pool.family.up hash ∩ alreadyAdded.toFinset) := by
    rw [Finset.disjoint_left]
    intro it outside inside
    exact (Finset.mem_sdiff.mp outside).2 (Finset.mem_union_right _ (Finset.mem_inter.mp inside).2)
  rw [outstanding, outstanding, parts, Finset.sum_union disjoint, add_sub_cancel_right]

variable {modified after : ModifiedSet} (updated : Updated env pool alreadyAdded.elements alreadyAdded modified after)
  (absent : ∀ it ∈ alreadyAdded, modified.lookup it = none)
include updated absent

/-- Where an entry after the update comes from. -/
theorem Updated.origin (keys : KeysOk pool inBlock modified) {hash : Uint256} {e : CTxMemPoolModifiedEntry}
    (lookup : after.lookup hash = some e) : ∃ entry, pool.mapTx.lookup hash = some entry ∧ hash ∉ alreadyAdded ∧
      ((∃ totals, modified.lookup hash = some (package totals)) ∨
        modified.lookup hash = none ∧ ∃ it ∈ alreadyAdded, pool.family.Reaches hash it) := by
  have apart : hash ∉ alreadyAdded := by
    intro member
    rw [updated.kept hash (.inl member), absent hash member] at lookup
    cases lookup
  have member : hash ∈ pool.family.carrier := by
    by_contra stray
    rw [updated.kept hash (.inr stray)] at lookup
    exact stray (keys hash e lookup).1
  obtain ⟨entry, found⟩ := mem_family.mp member
  refine ⟨entry, found, apart, ?_⟩
  cases current : modified.lookup hash with
  | some old =>
    obtain ⟨totals, isOld⟩ := exists_package old
    exact .inl ⟨totals, congrArg some isOld⟩
  | none =>
    refine .inr ⟨rfl, ?_⟩
    by_contra unrelated
    rw [updated.lookup_none found apart current fun it added reaches => unrelated ⟨it, added, reaches⟩] at lookup
    cases lookup

theorem Updated.keysOk (keys : KeysOk pool inBlock modified) (apart : ∀ it ∈ alreadyAdded, it ∉ inBlock)
    (closed : ∀ hash ∈ inBlock, ∀ other, pool.family.Reaches hash other → other ∈ inBlock) :
    KeysOk pool (inBlock ∪ alreadyAdded.toFinset) after := by
  intro hash e lookup
  obtain ⟨entry, found, outside, origin⟩ := updated.origin absent keys lookup
  refine ⟨mem_family.mpr ⟨entry, found⟩, ?_⟩
  intro member
  rcases Finset.mem_union.mp member with old | added
  · rcases origin with ⟨totals, current⟩ | ⟨-, it, added, reaches⟩
    · exact (keys hash _ current).2 old
    · exact apart it added (closed hash old it reaches)
  · exact outside added

theorem Updated.large (consistent : LinkedOk env pool) (present : ∀ it ∈ alreadyAdded, it ∈ pool.family.carrier)
    (keys : KeysOk pool inBlock modified) (apart : ∀ it ∈ alreadyAdded, it ∉ inBlock)
    (large : Large env pool inBlock modified) : Large env pool (inBlock ∪ alreadyAdded.toFinset) after := by
  intro hash e lookup
  rw [outstanding_union apart]
  obtain ⟨entry, found, outside, origin⟩ := updated.origin absent keys lookup
  rcases origin with ⟨totals, current⟩ | ⟨current, it, added, reaches⟩
  · have before : (outstanding env pool inBlock hash).1.2.1 ≤ totals.1.2.1 ∧
        (outstanding env pool inBlock hash).2 ≤ totals.2 := large hash _ current
    rw [updated.lookup_some present found outside current] at lookup
    cases lookup
    simp only [package, leftover, fst_sub, snd_sub, fst_add, snd_add, add_zero]
    constructor
    · exact Int.sub_le_sub_right before.1 _
    · exact Int.sub_le_sub_right before.2 _
  · have size : (outstanding env pool inBlock hash).1.2.1 ≤ (ancestorsTotal env pool hash).1.2.1 :=
      sum_size_mono Finset.sdiff_subset
    have sigOps : (outstanding env pool inBlock hash).2 ≤ (ancestorsTotal env pool hash).2 :=
      sum_sigOps_mono Finset.sdiff_subset
    rw [updated.lookup_new present found outside current added reaches, (consistent.totals hash entry found).1] at lookup
    cases lookup
    simp only [package, leftover, fst_sub, snd_sub, fst_add, snd_add, add_zero]
    constructor
    · exact Int.sub_le_sub_right size _
    · exact Int.sub_le_sub_right sigOps _

end Invariants

end Straks.Miner
