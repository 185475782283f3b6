import Straks.Proof.MempoolInsertion
import Straks.Proof.MempoolRemoval

namespace Straks.Mempool
open Relation Success CTxMemPoolEntry CTxMemPool List OrderedSet

/-- Entries leave the pool and none comes in. -/
structure Shrinks (pool later : CTxMemPool) : Prop where
  carrier : later.family.carrier ⊆ pool.family.carrier
  spends : ∀ child parent, later.Spends child parent → pool.Spends child parent

namespace Shrinks

theorem refl (pool : CTxMemPool) : Shrinks pool pool := ⟨Finset.Subset.refl _, fun _ _ spends => spends⟩

theorem trans {first second third : CTxMemPool} (left : Shrinks first second) (right : Shrinks second third) :
    Shrinks first third where
  carrier := right.carrier.trans left.carrier
  spends child parent spends := left.spends child parent (right.spends child parent spends)

end Shrinks

theorem Left.shrinks {env : PoolEnv} {pool later : CTxMemPool} {stage : SetEntries}
    {ancestors : Uint256 → Totals × Int} (left : Left env pool stage ancestors later) : Shrinks pool later := by
  constructor
  · intro hash member
    exact (left.mem_iff.mp member).1
  · intro child parent spends
    have removed := iff_of_eq (congrFun (congrFun (congrArg Family.parent left.family) child) parent)
    exact (removed.mp spends).1

section Operations

variable {env : PoolEnv} {pool : CTxMemPool}

/-- Some entries leave with all their descendants. -/
theorem LinkedOk.removeDescendants (ok : LinkedOk env pool) {entries : List Uint256}
    (inside : ∀ entryit ∈ entries, entryit ∈ pool.family.carrier) :
    ∃ stage later, pool.calculateAllDescendants entries = .ok stage ∧
      Mempool.removeStaged env pool stage false = .ok later ∧ LinkedOk env later ∧
      Left env pool stage (ancestorsTotal env pool) later ∧
      ∀ hash, hash ∈ stage ↔ ∃ entryit ∈ entries, pool.family.Reaches hash entryit := by
  obtain ⟨stage, calculated, isStage⟩ := calculateAllDescendants_ok ok.links.childrenOk inside
  have insideStage : ∀ hash ∈ stage, hash ∈ pool.family.carrier := by
    intro hash listed
    obtain ⟨entryit, start, reaches⟩ := (isStage hash).mp listed
    exact reaches.child_mem (inside entryit start)
  have closed : ∀ child parent, pool.Spends child parent → parent ∈ stage → child ∈ stage := by
    intro child parent spends listed
    obtain ⟨entryit, start, reaches⟩ := (isStage parent).mp listed
    exact (isStage child).mpr ⟨entryit, start, .head spends reaches⟩
  obtain ⟨later, removed, linked, left⟩ := ok.removeStaged insideStage closed
  exact ⟨stage, later, calculated, removed, linked, left, isStage⟩

theorem PoolOk.removeDescendants (ok : PoolOk env pool) {entries : List Uint256}
    (inside : ∀ entryit ∈ entries, entryit ∈ pool.family.carrier) :
    ∃ stage later, pool.calculateAllDescendants entries = .ok stage ∧
      Mempool.removeStaged env pool stage false = .ok later ∧ PoolOk env later ∧ Shrinks pool later := by
  obtain ⟨stage, later, calculated, removed, linked, left, -⟩ := ok.toLinkedOk.removeDescendants inside
  exact ⟨stage, later, calculated, removed, left.poolOk linked fun hash entry _ => ok.deltas hash entry, left.shrinks⟩

theorem BooksOk.insertSpender_ok (books : BooksOk env pool) (origTx : CTransaction) {txToRemove : SetEntries}
    (inside : ∀ hash ∈ txToRemove, hash ∈ pool.family.carrier) (i : Nat) :
    ∃ set, insertSpender env pool origTx txToRemove i = .ok set ∧ ∀ hash ∈ set, hash ∈ pool.family.carrier := by
  rw [insertSpender]
  cases spent : pool.mapNextTx.lookup ⟨env.hashes.getHash origTx, UInt32.ofNat i⟩ with
  | none => exact ⟨txToRemove, rfl, inside⟩
  | some next =>
    obtain ⟨hash, entry, found, isTx, -⟩ := (books.next _ next).mp spent
    have keyed : env.hashes.getHash next = hash := by
      rw [← isTx]
      exact books.keyed hash entry found
    have known : pool.exists (env.hashes.getHash next) = true := exists_iff.mpr ⟨entry, keyed ▸ found⟩
    dsimp only
    rw [if_pos known]
    refine ⟨_, rfl, ?_⟩
    intro other listed
    rcases mem_insert.mp listed with same | before
    · rw [same]
      exact mem_family.mpr (exists_iff.mp known)
    · exact inside other before

/-- The entries spending from a transaction are found. -/
theorem BooksOk.spendersOf_ok (books : BooksOk env pool) (origTx : CTransaction) :
    ∃ set, spendersOf env pool origTx = .ok set ∧ ∀ hash ∈ set, hash ∈ pool.family.carrier := by
  have each (list : List Nat) (start : SetEntries) (inside : ∀ hash ∈ start, hash ∈ pool.family.carrier) :
      ∃ set, list.foldlM (insertSpender env pool origTx) start = .ok set ∧
        ∀ hash ∈ set, hash ∈ pool.family.carrier := by
    induction list generalizing start with
    | nil => exact ⟨start, rfl, inside⟩
    | cons i rest ih =>
      obtain ⟨next, inserted, insideNext⟩ := books.insertSpender_ok origTx inside i
      rw [foldlM_cons, inserted]
      exact ih next insideNext
  exact each (List.range origTx.vout.length) .empty forall_mem_empty

/-- A transaction leaves with all its descendants, in the pool itself or not. -/
theorem LinkedOk.removeRecursive (ok : LinkedOk env pool) (origTx : CTransaction) :
    ∃ stage later, Mempool.removeRecursive env pool origTx = .ok later ∧ LinkedOk env later ∧
      Left env pool stage (ancestorsTotal env pool) later ∧
      (env.hashes.getHash origTx ∈ pool.family.carrier → env.hashes.getHash origTx ∈ stage) := by
  rw [Mempool.removeRecursive]
  by_cases known : pool.exists (env.hashes.getHash origTx) = true
  · have member : env.hashes.getHash origTx ∈ pool.family.carrier := mem_family.mpr (exists_iff.mp known)
    obtain ⟨stage, later, calculated, removed, linked, left, isStage⟩ :=
      @LinkedOk.removeDescendants env pool ok (single (env.hashes.getHash origTx)).elements (by
        intro hash listed
        rw [mem_single.mp listed]
        exact member)
    refine ⟨stage, later, ?_, linked, left, fun _ => ?_⟩
    · rw [if_pos known]
      simp only [bind, Except.bind]
      rw [single] at calculated
      rw [calculated]
      exact removed
    · exact (isStage _).mpr ⟨_, mem_single.mpr rfl, .refl⟩
  · obtain ⟨set, found, inside⟩ := ok.spendersOf_ok origTx
    obtain ⟨stage, later, calculated, removed, linked, left, -⟩ := ok.removeDescendants inside
    refine ⟨stage, later, ?_, linked, left, fun member => ?_⟩
    · rw [if_neg known, found]
      simp only [bind, Except.bind, calculated]
      exact removed
    · exact absurd (exists_iff.mpr (mem_family.mp member)) known

theorem PoolOk.removeRecursive (ok : PoolOk env pool) (origTx : CTransaction) :
    ∃ later, Mempool.removeRecursive env pool origTx = .ok later ∧ PoolOk env later ∧ Shrinks pool later := by
  obtain ⟨stage, later, removed, linked, left, -⟩ := ok.toLinkedOk.removeRecursive origTx
  exact ⟨later, removed, left.poolOk linked fun hash entry _ => ok.deltas hash entry, left.shrinks⟩

theorem LinkedOk.clearPrioritisation (ok : LinkedOk env pool) (hash : Uint256) :
    LinkedOk env (Mempool.clearPrioritisation pool hash) :=
  ⟨⟨ok.keyed, ok.next, ⟨ok.slots.slot, ok.slots.entry⟩, ok.total⟩, ok.acyclic,
    ⟨ok.links.keys, ok.links.parents, ok.links.children⟩, ok.totals, ok.bounded⟩

/-- The fee delta of an absent transaction is forgotten. -/
theorem PoolOk.clearPrioritisation (ok : PoolOk env pool) {hash : Uint256} (gone : hash ∉ pool.family.carrier) :
    PoolOk env (Mempool.clearPrioritisation pool hash) where
  toLinkedOk := ok.toLinkedOk.clearPrioritisation hash
  deltas := by
    intro other entry found
    have apart : other ≠ hash := fun same => gone (mem_family.mpr ⟨entry, same ▸ found⟩)
    rw [Mempool.clearPrioritisation, lookup_erase_eq, if_neg apart]
    exact ok.deltas other entry found

/-- The conflict with an input leaves, and its fee delta is forgotten. -/
theorem PoolOk.removeConflict (ok : PoolOk env pool) (tx : CTransaction) (txin : CTxIn) :
    ∃ later, Mempool.removeConflict env tx pool txin = .ok later ∧ PoolOk env later ∧ Shrinks pool later := by
  rw [Mempool.removeConflict]
  cases spent : pool.mapNextTx.lookup txin.prevout with
  | none => exact ⟨pool, rfl, ok, .refl pool⟩
  | some txConflict =>
    dsimp only
    split
    · obtain ⟨hash, conflicting, found, isTx, -⟩ := (ok.next _ txConflict).mp spent
      have keyed : env.hashes.getHash txConflict = hash := by
        rw [← isTx]
        exact ok.keyed hash conflicting found
      obtain ⟨stage, later, removed, linked, left, leaves⟩ :=
        (ok.toLinkedOk.clearPrioritisation (env.hashes.getHash txConflict)).removeRecursive txConflict
      have listed := leaves (mem_family.mpr ⟨conflicting, keyed ▸ found⟩)
      refine ⟨later, removed, ?_, left.shrinks.carrier, left.shrinks.spends⟩
      apply left.poolOk linked
      intro other entry kept foundEntry
      have apart : other ≠ env.hashes.getHash txConflict := fun same => kept (same ▸ listed)
      rw [Mempool.clearPrioritisation, lookup_erase_eq, if_neg apart]
      exact ok.deltas other entry foundEntry
    · exact ⟨pool, rfl, ok, .refl pool⟩

/-- A loop of removals keeps a consistent pool. -/
theorem foldlM_shrinks {Item : Type} {remove : CTxMemPool → Item → Except MempoolError CTxMemPool}
    (each : ∀ pool item, PoolOk env pool → ∃ later, remove pool item = .ok later ∧ PoolOk env later ∧ Shrinks pool later)
    (ok : PoolOk env pool) (items : List Item) :
    ∃ later, items.foldlM remove pool = .ok later ∧ PoolOk env later ∧ Shrinks pool later := by
  induction items generalizing pool with
  | nil => exact ⟨pool, rfl, ok, .refl pool⟩
  | cons item rest ih =>
    obtain ⟨middle, removed, okMiddle, first⟩ := each pool item ok
    obtain ⟨later, folded, okLater, second⟩ := ih okMiddle
    refine ⟨later, ?_, okLater, first.trans second⟩
    rw [foldlM_cons, removed]
    exact folded

theorem PoolOk.removeConflicts (ok : PoolOk env pool) (tx : CTransaction) :
    ∃ later, Mempool.removeConflicts env pool tx = .ok later ∧ PoolOk env later ∧ Shrinks pool later :=
  foldlM_shrinks (fun _ txin okPool => okPool.removeConflict tx txin) ok tx.vin

/-- A block contains a transaction's unconfirmed parents before it. -/
def ParentsFirst (env : PoolEnv) (pool : CTxMemPool) (vtx : List CTransaction) : Prop :=
  ∀ before tx after, vtx = before ++ tx :: after → ∀ parent, pool.Spends (env.hashes.getHash tx) parent →
    ∃ earlier ∈ before, env.hashes.getHash earlier = parent

/-- A confirmed transaction without parents leaves alone, its conflicts with their descendants. -/
theorem PoolOk.removeConfirmed (ok : PoolOk env pool) {tx : CTransaction}
    (orphan : ∀ parent, ¬ pool.Spends (env.hashes.getHash tx) parent) :
    ∃ later, Mempool.removeConfirmed env pool tx = .ok later ∧ PoolOk env later ∧ Shrinks pool later ∧
      env.hashes.getHash tx ∉ later.family.carrier := by
  have own : ∃ middle, (if pool.exists (env.hashes.getHash tx) = true
        then removeStaged env pool (single (env.hashes.getHash tx)) true else .ok pool) = .ok middle ∧
      PoolOk env middle ∧ Shrinks pool middle ∧ env.hashes.getHash tx ∉ middle.family.carrier := by
    by_cases known : pool.exists (env.hashes.getHash tx) = true
    · obtain ⟨middle, removed, linked, left⟩ :=
        ok.toLinkedOk.removeRoot (mem_family.mpr (exists_iff.mp known)) orphan
      rw [if_pos known]
      refine ⟨middle, removed, left.poolOk linked fun hash entry _ => ok.deltas hash entry, left.shrinks, ?_⟩
      exact fun member => (left.mem_iff.mp member).2 (mem_single.mpr rfl)
    · rw [if_neg known]
      exact ⟨pool, rfl, ok, .refl pool, fun member => known (exists_iff.mpr (mem_family.mp member))⟩
  obtain ⟨middle, removed, okMiddle, first, gone⟩ := own
  obtain ⟨later, conflicts, okLater, second⟩ := okMiddle.removeConflicts tx
  have goneLater : env.hashes.getHash tx ∉ later.family.carrier := fun member => gone (second.carrier member)
  refine ⟨Mempool.clearPrioritisation later (env.hashes.getHash tx), ?_, okLater.clearPrioritisation goneLater, ?_,
    goneLater⟩
  · rw [single] at removed
    by_cases known : pool.exists (env.hashes.getHash tx) = true
    · rw [if_pos known] at removed
      simp only [Mempool.removeConfirmed, known, if_true, removed, bind, Except.bind, conflicts]
    · rw [if_neg known] at removed
      cases removed
      simp only [Mempool.removeConfirmed, known, Bool.false_eq_true, if_false, bind, Except.bind, conflicts]
  · exact ⟨(first.trans second).carrier, (first.trans second).spends⟩

theorem PoolOk.removeForBlock (ok : PoolOk env pool) {vtx : List CTransaction} (parentsFirst : ParentsFirst env pool vtx) :
    ∃ later, Mempool.removeForBlock env pool vtx = .ok later ∧ PoolOk env later ∧ Shrinks pool later := by
  rw [Mempool.removeForBlock]
  induction vtx generalizing pool with
  | nil => exact ⟨pool, rfl, ok, .refl pool⟩
  | cons tx rest ih =>
    obtain ⟨middle, removed, okMiddle, first, gone⟩ := @PoolOk.removeConfirmed env pool ok tx (by
      intro parent spends
      obtain ⟨earlier, listed, -⟩ := parentsFirst [] tx rest rfl parent spends
      cases listed)
    have parentsFirstMiddle : ParentsFirst env middle rest := by
      intro before other after split parent spends
      obtain ⟨earlier, listed, isParent⟩ := parentsFirst (tx :: before) other after (by rw [split]; rfl) parent
        (first.spends _ _ spends)
      rcases mem_cons.mp listed with same | listed
      · rw [same] at isParent
        rw [← isParent] at spends
        exact absurd (middle.family.inside _ _ spends).2 gone
      · exact ⟨earlier, listed, isParent⟩
    obtain ⟨later, folded, okLater, second⟩ := ih okMiddle parentsFirstMiddle
    refine ⟨later, ?_, okLater, first.trans second⟩
    rw [foldlM_cons, removed]
    exact folded

theorem entriesWith_inside (test : CTxMemPoolEntry → Bool) :
    ∀ hash ∈ (entriesWith pool test).elements, hash ∈ pool.family.carrier := by
  intro hash listed
  rw [← mem_def, entriesWith, mem_insertAll, or_iff_left (not_mem_empty hash)] at listed
  rw [CTxMemPool.family, List.mem_toFinset]
  exact (mem_filter.mp listed).1

theorem PoolOk.removeForReorg (ok : PoolOk env pool) (noLongerValid : CTxMemPoolEntry → Bool) :
    ∃ later, Mempool.removeForReorg env pool noLongerValid = .ok later ∧ PoolOk env later ∧ Shrinks pool later := by
  obtain ⟨stage, later, calculated, removed, okLater, shrinks⟩ :=
    ok.removeDescendants (entriesWith_inside noLongerValid)
  refine ⟨later, ?_, okLater, shrinks⟩
  rw [Mempool.removeForReorg, calculated]
  exact removed

theorem PoolOk.expire (ok : PoolOk env pool) (time : Int) :
    ∃ later count, Mempool.expire env pool time = .ok (later, count) ∧ PoolOk env later ∧ Shrinks pool later := by
  obtain ⟨stage, later, calculated, removed, okLater, shrinks⟩ :=
    ok.removeDescendants (entriesWith_inside fun entry => decide (entry.nTime < time))
  refine ⟨later, stage.size, ?_, okLater, shrinks⟩
  rw [Mempool.expire, calculated]
  simp only [bind, Except.bind, removed]

/-- The entry with the lowest score is one of the pool. -/
theorem firstByScore_mem {score : CTxMemPoolEntry → CTxMemPoolEntry → Bool} {it : Uint256}
    (first : firstByScore pool score = some it) : it ∈ pool.family.carrier := by
  have each (list : List Uint256) (best : Option Uint256)
      (inside : ∀ hash, best = some hash ∨ hash ∈ list → hash ∈ pool.family.carrier) {last : Uint256}
      (folded : list.foldl (lowerScore pool score) best = some last) :
      last ∈ pool.family.carrier := by
    induction list generalizing best with
    | nil => exact inside last (.inl folded)
    | cons hash rest ih =>
      refine ih _ ?_ folded
      intro other either
      rcases either with chosen | later
      · cases best with
        | none => exact inside other (.inr (Option.some.inj chosen ▸ mem_cons_self))
        | some leader =>
          dsimp only [lowerScore] at chosen
          split at chosen
          · exact inside other (.inr (Option.some.inj chosen ▸ mem_cons_self))
          · exact inside other (.inl chosen)
      · exact inside other (.inr (mem_cons_of_mem _ later))
  apply each pool.mapTx.keys none _ first
  intro hash either
  rcases either with impossible | listed
  · cases impossible
  · rw [CTxMemPool.family, List.mem_toFinset]
    exact listed

end Operations

end Straks.Mempool
