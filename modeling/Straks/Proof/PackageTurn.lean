import Straks.Proof.PackageStep

namespace Straks.Miner

open Chain Mempool Loop Success Relation CTxMemPool CTxMemPoolEntry List OrderedSet

/-- The listed transactions are erased from the modified set. -/
def Erased (list : List Uint256) (before after : ModifiedSet) : Prop :=
  ∀ hash, (hash ∈ list → after.lookup hash = none) ∧ (hash ∉ list → after.lookup hash = before.lookup hash)

theorem addPackage_ok {pool : CTxMemPool} (config : AssemblerConfig) {sortedEntries : List Uint256}
    (present : ∀ it ∈ sortedEntries, it ∈ pool.family.carrier) (state : PackageState) :
    ∃ assembler mapModifiedTx, addPackage pool config state sortedEntries = .ok { state with assembler, mapModifiedTx } ∧
      Extended pool sortedEntries state.assembler assembler ∧
      Erased sortedEntries state.mapModifiedTx mapModifiedTx := by
  induction sortedEntries generalizing state with
  | nil =>
    refine ⟨state.assembler, state.mapModifiedTx, rfl, .nil _, ?_⟩
    intro hash
    exact ⟨fun listed => absurd listed not_mem_nil, fun _ => rfl⟩
  | cons it rest ih =>
    obtain ⟨entry, found⟩ := mem_family.mp (present it mem_cons_self)
    have first := Extended.add config.fNeedSizeAccounting state.assembler found
    obtain ⟨assembler, mapModifiedTx, added, extended, erased⟩ :=
      ih (fun other member => present other (mem_cons_of_mem _ member))
        { state with
          assembler := state.assembler.add config.fNeedSizeAccounting it entry
          mapModifiedTx := state.mapModifiedTx.erase it }
    refine ⟨assembler, mapModifiedTx, ?_, first.trans extended, ?_⟩
    · rw [addPackage, foldlM_cons, addToBlock, dereference_ok found]
      exact added
    · intro hash
      rw [mem_cons]
      constructor
      · intro listed
        by_cases later : hash ∈ rest
        · exact (erased hash).1 later
        · rw [(erased hash).2 later, lookup_erase_eq, if_pos (listed.resolve_right later)]
      · intro absent
        rw [not_or] at absent
        rw [(erased hash).2 absent.2, lookup_erase_eq, if_neg absent.1]

/-- A transaction a turn considers, its known package and the rest of the order. -/
inductive Considers (pool : CTxMemPool) (order : ScoreOrder) (state : PackageState) :
    Uint256 → Bool → CTxMemPoolModifiedEntry → List Uint256 → Prop
  | fromModified {iter : Uint256} {modit : CTxMemPoolModifiedEntry}
      (chosen : choose pool order state = .ok (.fromModified iter))
      (found : state.mapModifiedTx.lookup iter = some modit) : Considers pool order state iter true modit state.mi
  | fromMapTx {iter : Uint256} {entry : CTxMemPoolEntry} {rest : List Uint256}
      (chosen : choose pool order state = .ok (.fromMapTx iter)) (next : state.mi = iter :: rest)
      (fresh : skipMapTxEntry state iter = false) (found : pool.mapTx.lookup iter = some entry) :
      Considers pool order state iter false (.new entry) rest

/-- The transactions that go in together with one. -/
def IsPackage (pool : CTxMemPool) (assembler : BlockAssembler) (iter : Uint256) (package : SetEntries) : Prop :=
  ∀ hash, hash ∈ package ↔ pool.family.Reaches iter hash ∧ hash ∉ assembler.inBlock

/-- What a turn of the loop over the packages can do. -/
inductive Outcome (env : PoolEnv) (pool : CTxMemPool) (order : ScoreOrder) (config : AssemblerConfig)
    (state : PackageState) : Turn PackageState → Prop
  | finished (chosen : choose pool order state = .ok .none) : Outcome env pool order config state (.stop state)
  | skipped (chosen : choose pool order state = .ok .skip) {it : Uint256} {rest : List Uint256}
      (next : state.mi = it :: rest) : Outcome env pool order config state (.again { state with mi := rest })
  | rejected {iter : Uint256} {fUsingModified : Bool} {modit : CTxMemPoolModifiedEntry} {mi : List Uint256}
      (considers : Considers pool order state iter fUsingModified modit mi)
      (examined : examinePackage env pool config state.assembler iter modit = .ok .lowFee) :
      Outcome env pool order config state (.stop { state with mi })
  | failed {iter : Uint256} {fUsingModified : Bool} {modit : CTxMemPoolModifiedEntry} {mi : List Uint256}
      (considers : Considers pool order state iter fUsingModified modit mi) {verdict : Verdict}
      (examined : examinePackage env pool config state.assembler iter modit = .ok verdict)
      (refused : ∀ package, verdict ≠ .accepted package) {next : Turn PackageState} {nConsecutiveFailed : Nat}
      (left : next.state = { PackageState.fail { state with mi } iter fUsingModified with nConsecutiveFailed }) :
      Outcome env pool order config state next
  | added {iter : Uint256} {fUsingModified : Bool} {modit : CTxMemPoolModifiedEntry} {mi : List Uint256}
      (considers : Considers pool order state iter fUsingModified modit mi) {package : SetEntries}
      (examined : examinePackage env pool config state.assembler iter modit = .ok (.accepted package))
      (fits : testPackage config state.assembler modit.nSizeWithAncestors modit.nSigOpCostWithAncestors = true)
      (isPackage : IsPackage pool state.assembler iter package) {assembler : BlockAssembler}
      (extended : Extended pool (sortForBlock pool package) state.assembler assembler) {erased after : ModifiedSet}
      (erases : Erased (sortForBlock pool package) state.mapModifiedTx erased)
      (updated : Updated env pool package.elements package erased after) :
      Outcome env pool order config state
        (.again { state with assembler, mapModifiedTx := after, mi, nConsecutiveFailed := 0 })

/-- The loop's state fits the pool; known packages never fall short. -/
structure Packages (env : PoolEnv) (pool : CTxMemPool) (state : PackageState) : Prop where
  selected : Selected pool state.assembler
  keys : KeysOk pool state.assembler.inBlock.toFinset state.mapModifiedTx
  large : Large env pool state.assembler.inBlock.toFinset state.mapModifiedTx
  rest : ∀ hash ∈ state.mi, hash ∈ pool.family.carrier

section Turn

variable {env : PoolEnv} {pool : CTxMemPool} {order : ScoreOrder} {config : AssemblerConfig} {state : PackageState}
  {iter : Uint256} {fUsingModified : Bool} {modit : CTxMemPoolModifiedEntry} {mi : List Uint256}

theorem Considers.unselected (packages : Packages env pool state)
    (considers : Considers pool order state iter fUsingModified modit mi) :
    iter ∈ pool.family.carrier ∧ iter ∉ state.assembler.inBlock := by
  cases considers with
  | fromModified _ found => exact packages.keys iter modit found
  | fromMapTx _ _ fresh found =>
    refine ⟨mem_family.mpr ⟨_, found⟩, ?_⟩
    simp only [skipMapTxEntry, Bool.or_eq_false_iff] at fresh
    exact contains_eq_false.mp fresh.1.2

/-- What is known of a considered package does not fall short of it. -/
theorem Considers.large (consistent : LinkedOk env pool) (packages : Packages env pool state)
    (considers : Considers pool order state iter fUsingModified modit mi) :
    (outstanding env pool state.assembler.inBlock.toFinset iter).1.2.1 ≤ modit.nSizeWithAncestors ∧
      (outstanding env pool state.assembler.inBlock.toFinset iter).2 ≤ modit.nSigOpCostWithAncestors := by
  cases considers with
  | fromModified _ found => exact packages.large iter modit found
  | @fromMapTx entry _ _ _ _ found =>
    have totals := (consistent.totals iter entry found).1
    have size : entry.nSizeWithAncestors = (ancestorsTotal env pool iter).1.2.1 :=
      congrArg (fun totals : Totals × Int => totals.1.2.1) totals
    have sigOps : entry.nSigOpCostWithAncestors = (ancestorsTotal env pool iter).2 := congrArg Prod.snd totals
    constructor
    · change _ ≤ entry.nSizeWithAncestors
      rw [size]
      exact sum_size_mono Finset.sdiff_subset
    · change _ ≤ entry.nSigOpCostWithAncestors
      rw [sigOps]
      exact sum_sigOps_mono Finset.sdiff_subset

theorem getFee_ok (rate : CAmount) {size : Int} (nonneg : 0 ≤ size) : ∃ fee, getFee rate size = .ok fee := by
  rw [getFee, if_neg (not_lt.mpr nonneg)]
  exact ⟨_, rfl⟩

/-- The package of a transaction: itself and its ancestors outside the block. -/
theorem isPackage_of_ancestors {assembler : BlockAssembler} {ancestors : SetEntries}
    (unselected : iter ∉ assembler.inBlock)
    (isAncestors : ∀ other, other ∈ ancestors ↔ TransGen pool.Spends iter other) :
    IsPackage pool assembler iter ((onlyUnconfirmed assembler ancestors).insert hashBefore iter) := by
  intro hash
  have filtered : hash ∈ onlyUnconfirmed assembler ancestors ↔ TransGen pool.Spends iter hash ∧ hash ∉ assembler.inBlock := by
    rw [mem_def, onlyUnconfirmed, mem_filter, ← mem_def, isAncestors, Bool.not_eq_true', contains_eq_false]
  rw [mem_insert, filtered]
  constructor
  · intro either
    rcases either with rfl | above
    · exact ⟨.refl, unselected⟩
    · exact ⟨above.1.to_reflTransGen, above.2⟩
  · intro both
    rcases reflTransGen_iff_eq_or_transGen.mp both.1 with same | above
    · exact .inl same
    · exact .inr ⟨above, both.2⟩

/-- What each verdict says about a package. -/
inductive Judges (pool : CTxMemPool) (config : AssemblerConfig) (assembler : BlockAssembler) (iter : Uint256)
    (modit : CTxMemPoolModifiedEntry) : Verdict → Prop
  | lowFee : Judges pool config assembler iter modit .lowFee
  | full : Judges pool config assembler iter modit .full
  | unfit : Judges pool config assembler iter modit .unfit
  | accepted {package : SetEntries}
      (fits : testPackage config assembler modit.nSizeWithAncestors modit.nSigOpCostWithAncestors = true)
      (isPackage : IsPackage pool assembler iter package) : Judges pool config assembler iter modit (.accepted package)

theorem examinePackage_ok (consistent : LinkedOk env pool) (config : AssemblerConfig) {assembler : BlockAssembler}
    (member : iter ∈ pool.family.carrier) (unselected : iter ∉ assembler.inBlock)
    (nonneg : 0 ≤ modit.nSizeWithAncestors) :
    ∃ verdict, examinePackage env pool config assembler iter modit = .ok verdict ∧
      Judges pool config assembler iter modit verdict := by
  obtain ⟨entry, found⟩ := mem_family.mp member
  obtain ⟨fee, isFee⟩ := getFee_ok config.blockMinFeeRate nonneg
  obtain ⟨ancestors, calculated, isAncestors⟩ := @ancestorsInPool_ok env pool consistent.links.parentsOk
    consistent.links.linked iter entry found (consistent.keyed iter entry found)
  have isPackage := isPackage_of_ancestors unselected isAncestors
  obtain ⟨entries, mapped, -⟩ := @mapM_dereference env pool
    ((onlyUnconfirmed assembler ancestors).insert hashBefore iter).elements
    (fun it listed => mem_family.mp (((isPackage it).mp listed).1.mem member))
  rw [examinePackage, isFee]
  simp only [bind, Except.bind]
  split
  · exact ⟨_, rfl, .lowFee⟩
  · split
    · exact ⟨_, rfl, .full⟩
    · rename_i fits
      rw [calculated]
      simp only
      rw [mapped]
      simp only
      split
      · exact ⟨_, rfl, .unfit⟩
      · exact ⟨_, rfl, .accepted (by simpa using fits) isPackage⟩

theorem tryPackage_outcome (consistent : LinkedOk env pool) (packages : Packages env pool state)
    (considers : Considers pool order state iter fUsingModified modit mi) :
    ∃ next, tryPackage env pool config { state with mi } iter fUsingModified modit = .ok next ∧
      Outcome env pool order config state next := by
  obtain ⟨member, unselected⟩ := considers.unselected packages
  have nonneg : 0 ≤ modit.nSizeWithAncestors := (sum_size_nonneg _).trans (considers.large consistent packages).1
  obtain ⟨verdict, examined, judges⟩ := examinePackage_ok consistent config member unselected nonneg
  rw [tryPackage, examined]
  simp only [bind, Except.bind]
  cases judges with
  | lowFee => exact ⟨_, rfl, .rejected considers examined⟩
  | full =>
    have refused : ∀ package, Verdict.full ≠ .accepted package := by simp
    dsimp only
    split
    · exact ⟨_, rfl, .failed considers examined refused rfl⟩
    · exact ⟨_, rfl, .failed considers examined refused rfl⟩
  | unfit =>
    have refused : ∀ package, Verdict.unfit ≠ .accepted package := by simp
    exact ⟨_, rfl, .failed considers examined refused rfl⟩
  | @accepted package fits isPackage =>
    have present : ∀ it ∈ package, it ∈ pool.family.carrier :=
      fun it listed => ((isPackage it).mp listed).1.mem member
    obtain ⟨assembler, erased, added, extended, erases⟩ := @addPackage_ok pool config (sortForBlock pool package)
      (fun it listed => present it (mem_sortForBlock.mp listed)) { state with mi, nConsecutiveFailed := 0 }
    obtain ⟨after, updates, updated⟩ := updatePackagesForAdded_ok consistent present erased
    dsimp only
    rw [added]
    dsimp only
    rw [updates]
    exact ⟨_, rfl, .added considers examined fits isPackage extended erases updated⟩

/-- What a choice says about the state. -/
inductive Chooses (state : PackageState) : Choice → Prop
  | none : Chooses state .none
  | skip {it : Uint256} {rest : List Uint256} (next : state.mi = it :: rest) : Chooses state .skip
  | fromModified {iter : Uint256} {modit : CTxMemPoolModifiedEntry}
      (found : state.mapModifiedTx.lookup iter = some modit) : Chooses state (.fromModified iter)
  | fromMapTx {iter : Uint256} {rest : List Uint256} (next : state.mi = iter :: rest)
      (fresh : skipMapTxEntry state iter = false) : Chooses state (.fromMapTx iter)

theorem choose_ok (packages : Packages env pool state) :
    ∃ choice, choose pool order state = .ok choice ∧ Chooses state choice := by
  rw [choose]
  cases next : state.mi with
  | nil =>
    cases isBest : order.best state.mapModifiedTx with
    | none => exact ⟨_, rfl, .none⟩
    | some iter =>
      obtain ⟨modit, found⟩ := mem_iff_lookup.mp (order.best_mem _ _ isBest)
      exact ⟨_, rfl, .fromModified found⟩
  | cons it rest =>
    dsimp only
    by_cases stale : skipMapTxEntry state it = true
    · rw [if_pos stale]
      exact ⟨_, rfl, .skip next⟩
    · have fresh : skipMapTxEntry state it = false := by simpa using stale
      rw [if_neg stale]
      cases isBest : order.best state.mapModifiedTx with
      | none => exact ⟨_, rfl, .fromMapTx next fresh⟩
      | some iter =>
        obtain ⟨entry, foundEntry⟩ := mem_family.mp (packages.rest it (next ▸ mem_cons_self))
        obtain ⟨modit, found⟩ := mem_iff_lookup.mp (order.best_mem _ _ isBest)
        simp only [dereference_ok foundEntry, found, bind, Except.bind]
        split
        · exact ⟨_, rfl, .fromModified found⟩
        · exact ⟨_, rfl, .fromMapTx next fresh⟩

/-- Every turn succeeds, with one of the outcomes. -/
theorem packageTurn_outcome (consistent : LinkedOk env pool) (packages : Packages env pool state) :
    ∃ next, packageTurn env pool order config state = .ok next ∧ Outcome env pool order config state next := by
  obtain ⟨choice, chooses, meaning⟩ := @choose_ok env pool order state packages
  rw [packageTurn, chooses]
  simp only [bind, Except.bind]
  cases meaning with
  | none => exact ⟨_, rfl, .finished chooses⟩
  | skip next =>
    refine ⟨_, rfl, ?_⟩
    have isRest := congrArg List.tail next
    rw [isRest]
    exact .skipped chooses next
  | @fromModified iter modit found =>
    have considers : Considers pool order state iter true modit state.mi := .fromModified chooses found
    have unselected := (considers.unselected packages).2
    simp only [contains_eq_false.mpr unselected, found, Bool.false_eq_true, if_false]
    exact tryPackage_outcome consistent packages considers
  | @fromMapTx iter rest next fresh =>
    obtain ⟨entry, found⟩ := mem_family.mp (packages.rest iter (next ▸ mem_cons_self))
    have considers : Considers pool order state iter false (.new entry) rest := .fromMapTx chooses next fresh found
    have unselected := (considers.unselected packages).2
    have isRest : state.mi.tail = rest := congrArg List.tail next
    simp only [contains_eq_false.mpr unselected, dereference_ok found, isRest, Bool.false_eq_true, if_false]
    exact tryPackage_outcome consistent packages considers

end Turn

section Kept

variable {env : PoolEnv} {pool : CTxMemPool} {order : ScoreOrder} {config : AssemblerConfig} {state : PackageState}

variable {iter : Uint256}

theorem IsPackage.fresh {package : SetEntries} (isPackage : IsPackage pool state.assembler iter package)
    (member : iter ∈ pool.family.carrier) {hash : Uint256} (listed : hash ∈ package) :
    hash ∈ pool.family.carrier ∧ hash ∉ state.assembler.inBlock := by
  have both := (isPackage hash).mp listed
  exact ⟨both.1.mem member, both.2⟩

theorem Extended.toFinset {package : SetEntries} {before after : BlockAssembler}
    (extended : Extended pool (sortForBlock pool package) before after) :
    after.inBlock.toFinset = before.inBlock.toFinset ∪ package.toFinset := by
  ext hash
  rw [Finset.mem_union, mem_toFinset, mem_toFinset, mem_toFinset, extended.members, mem_sortForBlock]

/-- Erased entries leave what the others say. -/
theorem Erased.lookup_some {list : List Uint256} {before after : ModifiedSet} (erased : Erased list before after)
    {hash : Uint256} {e : CTxMemPoolModifiedEntry} (lookup : after.lookup hash = some e) :
    before.lookup hash = some e := by
  by_cases listed : hash ∈ list
  · rw [(erased hash).1 listed] at lookup
    cases lookup
  · rw [← (erased hash).2 listed]
    exact lookup

theorem fail_lookup_some {fUsingModified : Bool} {hash : Uint256} {e : CTxMemPoolModifiedEntry}
    (lookup : (state.fail iter fUsingModified).mapModifiedTx.lookup hash = some e) :
    state.mapModifiedTx.lookup hash = some e := by
  cases fUsingModified with
  | false => exact lookup
  | true =>
    have erased : (state.mapModifiedTx.erase iter).lookup hash = some e := lookup
    rw [lookup_erase_eq] at erased
    split_ifs at erased
    exact erased

theorem Considers.rest {fUsingModified : Bool} {modit : CTxMemPoolModifiedEntry} {mi : List Uint256}
    (considers : Considers pool order state iter fUsingModified modit mi) {hash : Uint256} (listed : hash ∈ mi) :
    hash ∈ state.mi := by
  cases considers with
  | fromModified => exact listed
  | fromMapTx _ next =>
    rw [next]
    exact mem_cons_of_mem _ listed

theorem fail_assembler (iter : Uint256) (fUsingModified : Bool) :
    (state.fail iter fUsingModified).assembler = state.assembler := by
  cases fUsingModified with
  | false => rfl
  | true => rfl

theorem fail_mi (iter : Uint256) (fUsingModified : Bool) : (state.fail iter fUsingModified).mi = state.mi := by
  cases fUsingModified with
  | false => rfl
  | true => rfl

/-- Every turn keeps the state fitting the pool. -/
theorem Outcome.packages (consistent : LinkedOk env pool) (packages : Packages env pool state) {next : Turn PackageState}
    (outcome : Outcome env pool order config state next) : Packages env pool next.state := by
  cases outcome with
  | finished => exact packages
  | skipped _ isNext =>
    refine ⟨packages.selected, packages.keys, packages.large, ?_⟩
    intro hash listed
    exact packages.rest hash (isNext ▸ mem_cons_of_mem _ listed)
  | rejected considers _ =>
    exact ⟨packages.selected, packages.keys, packages.large, fun hash listed => packages.rest hash (considers.rest listed)⟩
  | @failed iter fUsingModified modit mi considers _ _ _ _ _ left =>
    have lookups := @fail_lookup_some { state with mi } iter fUsingModified
    rw [left]
    constructor
    · rw [fail_assembler]
      exact packages.selected
    · rw [fail_assembler]
      exact fun hash e lookup => packages.keys hash e (lookups lookup)
    · rw [fail_assembler]
      exact fun hash e lookup => packages.large hash e (lookups lookup)
    · rw [fail_mi]
      exact fun hash listed => packages.rest hash (considers.rest listed)
  | @added iter fUsingModified modit mi considers package examined fits isPackage assembler extended erased after erases
      updated =>
      have member := (considers.unselected packages).1
      have absent : ∀ it ∈ package, erased.lookup it = none := fun it listed => (erases it).1 (mem_sortForBlock.mpr listed)
      have apart : ∀ it ∈ package, it ∉ state.assembler.inBlock.toFinset := fun it listed => (isPackage.fresh member listed).2
      have keys : KeysOk pool state.assembler.inBlock.toFinset erased :=
        fun hash e lookup => packages.keys hash e (erases.lookup_some lookup)
      constructor
      · apply extended.selected consistent packages.selected
        · exact fun hash listed => isPackage.fresh member listed
        · intro child listed parent spends
          have above : pool.family.Reaches iter parent := ((isPackage child).mp listed).1.tail spends
          rw [isPackage parent]
          tauto
      · change KeysOk pool assembler.inBlock.toFinset after
        rw [extended.toFinset]
        exact updated.keysOk absent keys apart fun hash inside other reaches => packages.selected.closed inside reaches
      · change Large env pool assembler.inBlock.toFinset after
        rw [extended.toFinset]
        apply updated.large absent consistent (fun it listed => (isPackage.fresh member listed).1) keys apart
        exact fun hash e lookup => packages.large hash e (erases.lookup_some lookup)
      · exact fun hash listed => packages.rest hash (considers.rest listed)

end Kept

end Straks.Miner
