import Straks.Proof.BlockSelection

namespace Straks.Miner

open Chain Mempool Loop Success Relation CTxMemPool CTxMemPoolEntry Finset Prod

variable (env : PoolEnv) (pool : CTxMemPool)

/-- A modified entry holds the sums of a transaction and its ancestors outside of the block. -/
structure EntryExact (inBlock : Finset Uint256) (hash : Uint256)
    (e : CTxMemPoolModifiedEntry) : Prop where
  size : e.nSizeWithAncestors = ∑ other ∈ pool.family.up hash \ inBlock, valueOf pool (Mempool.sizeOf env) other
  modFees : e.nModFeesWithAncestors = ∑ other ∈ pool.family.up hash \ inBlock, valueOf pool getModifiedFee other
  sigOps : e.nSigOpCostWithAncestors = ∑ other ∈ pool.family.up hash \ inBlock, valueOf pool sigOpsOf other

/-- All modified entries are exact, and the block's descendants that have not failed have one. -/
structure ModifiedExact (state : PackageState) : Prop where
  entries : ∀ hash e, state.mapModifiedTx.lookup hash = some e →
    EntryExact env pool state.assembler.inBlock.toFinset hash e
  complete : ∀ hash ∈ state.assembler.inBlock, ∀ desc, pool.family.Reaches desc hash →
    desc ∉ state.assembler.inBlock → desc ∉ state.failedTx → desc ∈ state.mapModifiedTx

/-- What included transactions leave in the totals of a descendant: the fee deltas of those taken out with their plain
fees, all of them if there is an entry and else all but the first. -/
noncomputable def leftoverFee (modified : ModifiedSet) (package : SetEntries) (desc : Uint256) : Int :=
  (((ancestorsAmong pool package.elements desc).drop (if desc ∈ modified then 0 else 1)).map feeDelta).sum

/-- A package does no harm to the modified entries: no fee delta is left over for a descendant, and a descendant
without entry has no other ancestor in the block. -/
def Harmless (inBlock : Finset Uint256) (modified : ModifiedSet) (package : SetEntries) : Prop :=
  ∀ desc, desc ∉ inBlock → desc ∉ package → (∃ it ∈ package, pool.family.Reaches desc it) →
    leftoverFee pool modified package desc = 0 ∧
      (desc ∉ modified → ∀ hash ∈ inBlock, ¬ pool.family.Reaches desc hash)

section Exact

variable {env : PoolEnv} {pool : CTxMemPool} {inBlock : Finset Uint256} {hash : Uint256}

theorem outstanding_components (hash : Uint256) : outstanding env pool inBlock hash =
    ((∑ other ∈ pool.family.up hash \ inBlock, valueOf pool (fun _ => 1) other,
      ∑ other ∈ pool.family.up hash \ inBlock, valueOf pool (Mempool.sizeOf env) other,
      ∑ other ∈ pool.family.up hash \ inBlock, valueOf pool getModifiedFee other),
      ∑ other ∈ pool.family.up hash \ inBlock, valueOf pool sigOpsOf other) := by
  rw [outstanding]
  simp only [weight_components]
  ext <;> simp [fst_sum, snd_sum]

theorem entryExact_iff (e : CTxMemPoolModifiedEntry) :
    EntryExact env pool inBlock hash e ↔ e = package (outstanding env pool inBlock hash) := by
  rw [outstanding_components, package]
  constructor
  · intro exact
    cases e
    simp only [CTxMemPoolModifiedEntry.mk.injEq]
    exact ⟨exact.size, exact.modFees, exact.sigOps⟩
  · intro same
    rw [same]
    exact ⟨rfl, rfl, rfl⟩

theorem package_add_leftover (totals : Totals × Int) (list : List CTxMemPoolEntry) :
    package (totals + leftover list) = package totals ↔ (list.map feeDelta).sum = 0 := by
  simp [package, leftover]

/-- Only without ancestors in the block are all totals outstanding. -/
theorem outstanding_size_eq_iff : (outstanding env pool inBlock hash).1.2.1 = (ancestorsTotal env pool hash).1.2.1 ↔
    ∀ other ∈ inBlock, ¬ (other ∈ pool.family.carrier ∧ pool.family.Reaches hash other) := by
  have split := sum_inter_add_sum_sdiff (pool.family.up hash) inBlock fun other => (pool.weight env other).1.2.1
  rw [outstanding, ancestorsTotal, fst_sum, snd_sum, fst_sum, fst_sum, snd_sum, fst_sum,
    ← split, eq_comm, add_eq_right, sum_eq_zero_iff_of_nonneg fun other _ => weight_size_nonneg other]
  constructor
  · intro zero other member above
    have positive := @weight_size env pool other above.1
    rw [zero other (mem_inter.mpr ⟨Family.mem_up.mpr above, member⟩)] at positive
    exact lt_irrefl _ positive
  · intro unrelated other both
    obtain ⟨above, member⟩ := mem_inter.mp both
    exact absurd (Family.mem_up.mp above) (unrelated other member)

theorem outstanding_of_unrelated (unrelated : ∀ other ∈ inBlock, ¬ pool.family.Reaches hash other) :
    outstanding env pool inBlock hash = ancestorsTotal env pool hash := by
  rw [outstanding, ancestorsTotal, sdiff_eq_self_of_disjoint]
  rw [disjoint_right]
  intro other member above
  exact unrelated other member (Family.mem_up.mp above).2

end Exact

section Update

variable {env : PoolEnv} {pool : CTxMemPool} {inBlock : Finset Uint256} {alreadyAdded : SetEntries}
  {modified after : ModifiedSet} (updated : Updated env pool alreadyAdded.elements alreadyAdded modified after)
  (consistent : LinkedOk env pool) (present : ∀ it ∈ alreadyAdded, it ∈ pool.family.carrier)
  (apart : ∀ it ∈ alreadyAdded, it ∉ inBlock) {hash : Uint256} {entry : CTxMemPoolEntry}
  (found : pool.mapTx.lookup hash = some entry) (outside : hash ∉ alreadyAdded)
include updated consistent present apart found outside

/-- An entry is exact if no fee delta is left over and, when it is new, no other ancestor is in the block. -/
theorem Updated.entry_exact_iff (inside : ∀ other ∈ inBlock, other ∈ pool.family.carrier)
    (exact : ∀ e, modified.lookup hash = some e → EntryExact env pool inBlock hash e)
    (reason : hash ∈ modified ∨ ∃ it ∈ alreadyAdded, pool.family.Reaches hash it) :
    ∃ changed, after.lookup hash = some changed ∧ (EntryExact env pool (inBlock ∪ alreadyAdded.toFinset) hash changed ↔
      leftoverFee pool modified alreadyAdded hash = 0 ∧
        (hash ∉ modified → ∀ other ∈ inBlock, ¬ pool.family.Reaches hash other)) := by
  cases current : modified.lookup hash with
  | some e =>
    have member : hash ∈ modified := mem_iff_lookup.mpr ⟨e, current⟩
    rw [(entryExact_iff e).mp (exact e current)] at current
    refine ⟨_, updated.lookup_some present found outside current, ?_⟩
    rw [entryExact_iff, outstanding_union apart, package_add_leftover, leftoverFee, if_pos member, List.drop_zero]
    exact (and_iff_left fun missing => absurd member missing).symm
  | none =>
    have absent : hash ∉ modified := by
      rw [mem_iff_lookup, current]
      simp
    obtain ⟨it, added, reaches⟩ := reason.resolve_left absent
    refine ⟨_, updated.lookup_new present found outside current added reaches, ?_⟩
    rw [entryExact_iff, outstanding_union apart, (consistent.totals hash entry found).1, leftoverFee, if_neg absent,
      List.drop_one]
    constructor
    · intro same
      have size := congrArg CTxMemPoolModifiedEntry.nSizeWithAncestors same
      have unrelated : ∀ other ∈ inBlock, ¬ pool.family.Reaches hash other := by
        have sizes : (outstanding env pool inBlock hash).1.2.1 = (ancestorsTotal env pool hash).1.2.1 := by
          simp only [package, leftover, fst_sub, snd_sub, fst_add, snd_add, add_zero] at size
          exact (sub_left_injective size).symm
        intro other member above
        exact outstanding_size_eq_iff.mp sizes other member ⟨inside other member, above⟩
      rw [outstanding_of_unrelated unrelated, package_add_leftover] at same
      exact ⟨same, fun _ => unrelated⟩
    · intro both
      rw [outstanding_of_unrelated (both.2 absent), package_add_leftover]
      exact both.1

end Update

section Step

variable {env : PoolEnv} {pool : CTxMemPool} {inBlock : Finset Uint256} {alreadyAdded : SetEntries}
  {modified after : ModifiedSet}

/-- An update leaves entries exact exactly when harmless. -/
theorem Updated.exact_iff (updated : Updated env pool alreadyAdded.elements alreadyAdded modified after)
    (consistent : LinkedOk env pool) (present : ∀ it ∈ alreadyAdded, it ∈ pool.family.carrier)
    (apart : ∀ it ∈ alreadyAdded, it ∉ inBlock) (absent : ∀ it ∈ alreadyAdded, modified.lookup it = none)
    (keys : KeysOk pool inBlock modified) (inside : ∀ other ∈ inBlock, other ∈ pool.family.carrier)
    (closed : ∀ hash ∈ inBlock, ∀ other, pool.family.Reaches hash other → other ∈ inBlock)
    (exact : ∀ hash e, modified.lookup hash = some e → EntryExact env pool inBlock hash e) :
    (∀ hash e, after.lookup hash = some e → EntryExact env pool (inBlock ∪ alreadyAdded.toFinset) hash e) ↔
      Harmless pool inBlock modified alreadyAdded := by
  constructor
  · intro exactAfter desc unselected outside above
    obtain ⟨it, added, reaches⟩ := above
    obtain ⟨entry, found⟩ := mem_family.mp (reaches.child_mem (present it added))
    obtain ⟨changed, lookup, iff⟩ := updated.entry_exact_iff consistent present apart found outside inside (exact desc)
      (.inr ⟨it, added, reaches⟩)
    exact iff.mp (exactAfter desc changed lookup)
  · intro harmless hash e lookup
    obtain ⟨-, unselected⟩ := updated.keysOk absent keys apart closed hash e lookup
    rw [mem_union, not_or] at unselected
    obtain ⟨entry, found, outside, origin⟩ := updated.origin absent keys lookup
    have reason : hash ∈ modified ∨ ∃ it ∈ alreadyAdded, pool.family.Reaches hash it := by
      rcases origin with ⟨totals, current⟩ | ⟨-, related⟩
      · exact .inl (mem_iff_lookup.mpr ⟨_, current⟩)
      · exact .inr related
    obtain ⟨changed, isChanged, iff⟩ := updated.entry_exact_iff consistent present apart found outside inside (exact hash)
      reason
    have same : e = changed := Option.some.inj (lookup.symm.trans isChanged)
    rw [same]
    apply iff.mpr
    by_cases related : ∃ it ∈ alreadyAdded, pool.family.Reaches hash it
    · exact harmless hash unselected.1 outside related
    · refine ⟨?_, fun missing => absurd (reason.resolve_right related) missing⟩
      rw [leftoverFee, ancestorsAmong_eq_nil fun it added reaches => related ⟨it, added, reaches⟩]
      simp

end Step

/-- The turn puts this package into the block. -/
def Adds (order : ScoreOrder) (config : AssemblerConfig) (state : PackageState)
    (package : SetEntries) : Prop :=
  ∃ iter fUsingModified modit mi, Considers pool order state iter fUsingModified modit mi ∧
    examinePackage env pool config state.assembler iter modit = .ok (.accepted package)

section Turn

variable {env : PoolEnv} {pool : CTxMemPool} {order : ScoreOrder} {config : AssemblerConfig} {state : PackageState}
  {iter : Uint256} {fUsingModified : Bool} {modit : CTxMemPoolModifiedEntry} {mi : List Uint256}

section

variable (considers : Considers pool order state iter fUsingModified modit mi)
include considers

/-- A turn considers one transaction. -/
theorem Considers.unique {iter' : Uint256} {fUsingModified' : Bool} {modit' : CTxMemPoolModifiedEntry}
    {mi' : List Uint256} (other : Considers pool order state iter' fUsingModified' modit' mi') :
    iter = iter' ∧ modit = modit' := by
  cases considers with
  | fromModified chosen found =>
    cases other with
    | fromModified chosen' found' =>
      cases chosen.symm.trans chosen'
      exact ⟨rfl, Option.some.inj (found.symm.trans found')⟩
    | fromMapTx chosen' => cases chosen.symm.trans chosen'
  | fromMapTx chosen next fresh found =>
    cases other with
    | fromModified chosen' => cases chosen.symm.trans chosen'
    | fromMapTx chosen' next' fresh' found' =>
      cases chosen.symm.trans chosen'
      rw [Option.some.inj (found.symm.trans found')]
      exact ⟨rfl, rfl⟩

theorem Considers.choose_ne : choose pool order state ≠ .ok .none ∧ choose pool order state ≠ .ok .skip := by
  cases considers with
  | fromModified chosen =>
    rw [chosen]
    simp
  | fromMapTx chosen =>
    rw [chosen]
    simp

/-- Only the accepted package is added. -/
theorem Considers.adds_iff {package : SetEntries} : Adds env pool order config state package ↔
      examinePackage env pool config state.assembler iter modit = .ok (.accepted package) := by
  constructor
  · intro adds
    obtain ⟨iter', fUsingModified', modit', mi', considers', examined⟩ := adds
    obtain ⟨same, sameEntry⟩ := considers.unique considers'
    rw [same, sameEntry]
    exact examined
  · exact fun examined => ⟨iter, fUsingModified, modit, mi, considers, examined⟩

end

/-- Erasing the package does not affect the others. -/
theorem harmless_erased {inBlock : Finset Uint256} {package : SetEntries} {modified erased : ModifiedSet}
    (erases : Erased (sortForBlock pool package) modified erased) :
    Harmless pool inBlock erased package ↔ Harmless pool inBlock modified package := by
  apply forall_congr'
  intro desc
  apply imp_congr_right
  intro _
  apply imp_congr_right
  intro outside
  have same : desc ∈ erased ↔ desc ∈ modified := by
    rw [mem_iff_lookup, mem_iff_lookup, (erases desc).2 fun listed => outside (mem_sortForBlock.mp listed)]
  simp only [leftoverFee, same]

/-- A failed transaction is remembered; the others keep their entries. -/
theorem ModifiedExact.fail (exact : ModifiedExact env pool state) (iter : Uint256) (fUsingModified : Bool) :
    ModifiedExact env pool (state.fail iter fUsingModified) := by
  cases fUsingModified with
  | false => exact exact
  | true =>
    constructor
    · exact fun hash e lookup => exact.entries hash e (@fail_lookup_some state iter true hash e lookup)
    · intro hash member desc reaches unselected remembered
      have unfailed : desc ∉ state.failedTx.insert hashBefore iter := remembered
      rw [OrderedSet.mem_insert, not_or] at unfailed
      change desc ∈ state.mapModifiedTx.erase iter
      rw [AList.mem_erase]
      exact ⟨unfailed.1, exact.complete hash member desc reaches unselected unfailed.2⟩

/-- After an update a transaction has an entry if it had one or an included ancestor. -/
theorem Updated.mem_after {alreadyAdded : SetEntries} {modified after : ModifiedSet}
    (updated : Updated env pool alreadyAdded.elements alreadyAdded modified after)
    (present : ∀ it ∈ alreadyAdded, it ∈ pool.family.carrier) {desc : Uint256} (member : desc ∈ pool.family.carrier)
    (outside : desc ∉ alreadyAdded) (reason : desc ∈ modified ∨ ∃ it ∈ alreadyAdded, pool.family.Reaches desc it) :
    desc ∈ after := by
  obtain ⟨entry, found⟩ := mem_family.mp member
  cases current : modified.lookup desc with
  | some e =>
    obtain ⟨totals, isOld⟩ := exists_package e
    rw [isOld] at current
    exact mem_iff_lookup.mpr ⟨_, updated.lookup_some present found outside current⟩
  | none =>
    rcases reason with old | ⟨it, added, reaches⟩
    · obtain ⟨e, lookup⟩ := mem_iff_lookup.mp old
      rw [current] at lookup
      cases lookup
    · exact mem_iff_lookup.mpr ⟨_, updated.lookup_new present found outside current added reaches⟩

/-- A turn keeps the entries exact if and only if its package is harmless. -/
theorem Outcome.exact_iff (consistent : LinkedOk env pool) (packages : Packages env pool state)
    (exact : ModifiedExact env pool state) {next : Turn PackageState} (outcome : Outcome env pool order config state next) :
    ModifiedExact env pool next.state ↔ ∀ package, Adds env pool order config state package →
      Harmless pool state.assembler.inBlock.toFinset state.mapModifiedTx package := by
  cases outcome with
  | finished chosen =>
    apply iff_of_true exact
    intro package adds
    obtain ⟨_, _, _, _, considers, -⟩ := adds
    exact absurd chosen considers.choose_ne.1
  | skipped chosen =>
    apply iff_of_true ⟨exact.entries, exact.complete⟩
    intro package adds
    obtain ⟨_, _, _, _, considers, -⟩ := adds
    exact absurd chosen considers.choose_ne.2
  | rejected considers examined =>
    apply iff_of_true ⟨exact.entries, exact.complete⟩
    intro package adds
    cases examined.symm.trans (considers.adds_iff.mp adds)
  | @failed iter fUsingModified modit mi considers verdict examined refused _ _ left =>
    constructor
    · intro _ package adds
      exact absurd (Except.ok.inj (examined.symm.trans (considers.adds_iff.mp adds))) (refused package)
    · intro _
      have before : ModifiedExact env pool { state with mi } := ⟨exact.entries, exact.complete⟩
      have after := before.fail iter fUsingModified
      rw [left]
      exact ⟨after.entries, after.complete⟩
  | @added iter fUsingModified modit mi considers package examined fits isPackage assembler extended erased after erases
      updated =>
      have member := (considers.unselected packages).1
      have present : ∀ it ∈ package, it ∈ pool.family.carrier := fun it listed => (isPackage.fresh member listed).1
      have apart : ∀ it ∈ package, it ∉ state.assembler.inBlock.toFinset := fun it listed => (isPackage.fresh member listed).2
      have absent : ∀ it ∈ package, erased.lookup it = none := fun it listed => (erases it).1 (mem_sortForBlock.mpr listed)
      have exactly := updated.exact_iff consistent present apart absent
        (fun hash e lookup => packages.keys hash e (erases.lookup_some lookup))
        (fun other inside => packages.selected.inside inside)
        (fun hash inside other reaches => packages.selected.closed inside reaches)
        (fun hash e lookup => exact.entries hash e (erases.lookup_some lookup))
      rw [← extended.toFinset, harmless_erased erases] at exactly
      have complete : ∀ hash ∈ assembler.inBlock, ∀ desc, pool.family.Reaches desc hash → desc ∉ assembler.inBlock →
          desc ∉ state.failedTx → desc ∈ after := by
        intro hash selected desc reaches unselected unfailed
        rw [extended.members, mem_sortForBlock, not_or] at unselected
        rw [extended.members, mem_sortForBlock] at selected
        rcases selected with old | new
        · have kept : desc ∈ erased := by
            have entry := exact.complete hash old desc reaches unselected.1 unfailed
            rw [mem_iff_lookup] at entry ⊢
            rw [(erases desc).2 fun listed => unselected.2 (mem_sortForBlock.mp listed)]
            exact entry
          exact updated.mem_after present (reaches.child_mem (packages.selected.inside old)) unselected.2 (.inl kept)
        · exact updated.mem_after present (reaches.child_mem (present hash new)) unselected.2 (.inr ⟨hash, new, reaches⟩)
      constructor
      · intro exactAfter other adds
        cases examined.symm.trans (considers.adds_iff.mp adds)
        exact exactly.mp exactAfter.entries
      · intro harmless
        exact ⟨exactly.mpr (harmless package (considers.adds_iff.mpr examined)), complete⟩

/-- The entries are exact at first if and only if the priority part is harmless. -/
theorem startPackages_exact_iff (consistent : LinkedOk env pool) {assembler : BlockAssembler} {start : PackageState}
    (selected : Selected pool assembler) (started : startPackages env pool order assembler = .ok start) :
    ModifiedExact env pool start ↔ Harmless pool ∅ ∅ assembler.inBlock := by
  obtain ⟨other, startedOther, packages, isAssembler, isFailed, -, updated⟩ :=
    startPackages_ok consistent order selected
  cases started.symm.trans startedOther
  have present : ∀ it ∈ assembler.inBlock, it ∈ pool.family.carrier := fun it member => selected.inside member
  have exactly := @Updated.exact_iff env pool ∅ _ _ _ updated consistent present (fun _ _ => notMem_empty _)
    (fun it _ => lookup_empty it) (by
      intro hash e lookup
      cases lookup) (by simp) (by simp) (by
      intro hash e lookup
      cases lookup)
  rw [← exactly]
  constructor
  · intro exact hash e lookup
    have entry := exact.entries hash e lookup
    rw [isAssembler] at entry
    exact entry
  · intro exact
    constructor
    · rw [isAssembler]
      exact exact
    · rw [isAssembler]
      intro hash member desc reaches unselected _
      exact updated.mem_after present (reaches.child_mem (present hash member)) unselected (.inr ⟨hash, member, reaches⟩)

end Turn

section Run

variable {env : PoolEnv} {pool : CTxMemPool} {order : ScoreOrder} {config : AssemblerConfig}

/-- Every state the loop goes through fits the pool. -/
theorem reached_packages (consistent : LinkedOk env pool) {start state : PackageState} (packages : Packages env pool start)
    (reached : Reached (packageTurn env pool order config) (fun _ => True) start state) : Packages env pool state := by
  apply reached.invariant packages
  intro state next packages _ turns
  obtain ⟨other, turnsOther, outcome⟩ := @packageTurn_outcome env pool order config state consistent packages
  cases turns.symm.trans turnsOther
  exact outcome.packages consistent packages

end Run

/-- The entry of the child with both parents in the block, its fee, pool and block. -/
def childEntry : Except MempoolError (Option CTxMemPoolModifiedEntry × Int × List Uint256 × List Uint256) := do
  let pool ← poolAfter lockTimeEnv twoParents
  let start ← startPackages lockTimeEnv pool hashOrder .resetBlock
  let one ← packageTurn lockTimeEnv pool hashOrder packageConfig start
  let two ← packageTurn lockTimeEnv pool hashOrder packageConfig one.state
  return (two.state.mapModifiedTx.lookup 3, valueOf pool getModifiedFee 3, pool.mapTx.keys, two.state.assembler.inBlock.elements)

theorem childEntry_eq : childEntry = .ok (some ⟨101, 150, 4⟩, 100, [3, 2, 1], [1, 2]) := by decide +kernel

end Straks.Miner
