import Straks.Proof.MempoolOperations

namespace Straks.Mempool
open Relation Success CTxMemPoolEntry CTxMemPool List

/-- An entry spends from a transaction, in the pool or not. -/
def CTxMemPool.SpendsFrom (pool : CTxMemPool) (hash source : Uint256) : Prop :=
  ∃ entry, pool.mapTx.lookup hash = some entry ∧ source ∈ spentHashes entry.tx

/-- A transaction that left spent from the source, and none that stays does. -/
def Released (pool later : CTxMemPool) (source : Uint256) : Prop :=
  (∃ hash ∈ pool.family.carrier, hash ∉ later.family.carrier ∧ pool.SpendsFrom hash source) ∧
    ∀ hash, ¬ later.SpendsFrom hash source

/-- Entries have left with descendants, and reported sources are unspent. -/
structure Trimmed (pool later : CTxMemPool) (reported : List Uint256) : Prop extends Shrinks pool later where
  kept : ∀ hash ∈ later.family.carrier, ∀ source, later.SpendsFrom hash source ↔ pool.SpendsFrom hash source
  closed : ∀ child parent, pool.Spends child parent → child ∈ later.family.carrier → parent ∈ later.family.carrier
  sound : ∀ source ∈ reported, source ∉ later.family.carrier ∧ Released pool later source
  complete : ∀ source, source ∉ pool.family.carrier → Released pool later source → source ∈ reported

section Trim

variable {env : PoolEnv} {pool mid later : CTxMemPool} {first second : List Uint256}

theorem CTxMemPool.SpendsFrom.mem {hash source : Uint256} (spends : pool.SpendsFrom hash source) :
    hash ∈ pool.family.carrier := by
  obtain ⟨entry, found, -⟩ := spends
  exact mem_family.mpr ⟨entry, found⟩

theorem Trimmed.refl (pool : CTxMemPool) : Trimmed pool pool [] where
  toShrinks := .refl pool
  kept _ _ _ := Iff.rfl
  closed child parent spends _ := (pool.family.inside child parent spends).2
  sound source listed := by cases listed
  complete source _ released := by
    obtain ⟨⟨hash, member, gone, -⟩, -⟩ := released
    exact absurd member gone

theorem Trimmed.trans (left : Trimmed pool mid first) (right : Trimmed mid later second) :
    Trimmed pool later (first ++ second) where
  toShrinks := left.toShrinks.trans right.toShrinks
  kept hash member source := by rw [right.kept hash member, left.kept hash (right.carrier member)]
  closed child parent spends member := by
    have inMid := left.closed child parent spends (right.carrier member)
    obtain ⟨entry, found, spent⟩ := (left.kept child (right.carrier member) parent).mpr spends.2
    exact right.closed child parent ⟨AList.lookup_isSome.mp (by
      obtain ⟨other, there⟩ := mem_family.mp inMid
      rw [there]
      rfl), entry, found, spent⟩ member
  sound source listed := by
    rcases mem_append.mp listed with early | late
    · obtain ⟨outside, ⟨hash, member, gone, spends⟩, unspent⟩ := left.sound source early
      refine ⟨fun inside => outside (right.carrier inside), ⟨hash, member, fun inside => gone (right.carrier inside), spends⟩, ?_⟩
      intro other spendsLater
      exact unspent other ((right.kept other spendsLater.mem source).mp spendsLater)
    · obtain ⟨outside, ⟨hash, member, gone, spends⟩, unspent⟩ := right.sound source late
      exact ⟨outside, ⟨hash, left.carrier member, gone, (left.kept hash member source).mp spends⟩, unspent⟩
  complete source outside released := by
    obtain ⟨⟨hash, member, gone, spends⟩, unspent⟩ := released
    rw [mem_append]
    -- the last spender leaves in the first part or in the second one
    by_cases spent : ∃ other, mid.SpendsFrom other source
    · obtain ⟨other, spendsMid⟩ := spent
      refine .inr (right.complete source (fun inside => outside (left.carrier inside)) ⟨⟨other, spendsMid.mem, ?_, spendsMid⟩, unspent⟩)
      exact fun stays => unspent other ((right.kept other stays source).mpr spendsMid)
    · rw [not_exists] at spent
      refine .inl (left.complete source outside ⟨⟨hash, member, ?_, spends⟩, spent⟩)
      exact fun stays => spent hash ((left.kept hash stays source).mpr spends)

theorem mem_noSpendsRemaining (books : BooksOk env pool) {tx : CTransaction} {source : Uint256} :
    source ∈ noSpendsRemaining pool tx ↔
      source ∈ spentHashes tx ∧ source ∉ pool.family.carrier ∧ ∀ hash, ¬ pool.SpendsFrom hash source := by
  have absent : (!pool.exists source) = true ↔ source ∉ pool.family.carrier := by
    rw [mem_family, ← exists_iff]
    simp
  have unspent : (pool.mapNextTx.keys.any fun prevout => prevout.hash == source) = true ↔
      ∃ hash, pool.SpendsFrom hash source := by
    rw [any_eq_true]
    constructor
    · rintro ⟨prevout, listed, same⟩
      obtain ⟨tx, found⟩ := Option.isSome_iff_exists.mp (AList.lookup_isSome.mpr listed)
      obtain ⟨hash, entry, there, rfl, spent⟩ := (books.next prevout tx).mp found
      obtain ⟨txin, input, rfl⟩ := mem_map.mp spent
      exact ⟨hash, entry, there, mem_map.mpr ⟨txin, input, by simpa using same⟩⟩
    · rintro ⟨hash, entry, found, spent⟩
      obtain ⟨txin, input, rfl⟩ := mem_map.mp spent
      have listed := (books.next txin.prevout entry.tx).mpr ⟨hash, entry, found, rfl, mem_map_of_mem input⟩
      exact ⟨txin.prevout, AList.lookup_isSome.mp (by rw [listed]; rfl), by simp⟩
  rw [noSpendsRemaining, mem_filter, Bool.and_eq_true, absent, Bool.not_eq_true', Bool.eq_false_iff, Ne, unspent,
    not_exists]
  rfl

theorem mem_mapM_dereference {list : List Uint256} {entries : List CTxMemPoolEntry}
    (read : list.mapM pool.dereference = .ok entries) {entry : CTxMemPoolEntry} :
    entry ∈ entries ↔ ∃ it ∈ list, pool.mapTx.lookup it = some entry := by
  induction list generalizing entries with
  | nil =>
    cases read
    simp
  | cons it rest ih =>
    rw [mapM_cons] at read
    obtain ⟨head, looked, others⟩ := bind_eq_ok.mp read
    obtain ⟨tail, mapped, same⟩ := bind_eq_ok.mp others
    cases same
    have found : pool.mapTx.lookup it = some head := by
      rw [dereference] at looked
      split at looked
      · cases looked
        assumption
      · cases looked
    simp [ih mapped, found, eq_comm]

/-- One turn takes out the first entry with its descendants and reports sources. -/
theorem Left.trimmed {stage : SetEntries} {ancestors : Uint256 → Totals × Int} (left : Left env pool stage ancestors later)
    (inside : ∀ hash ∈ stage, hash ∈ pool.family.carrier)
    (downward : ∀ child parent, pool.Spends child parent → parent ∈ stage → child ∈ stage) {txn : List CTxMemPoolEntry}
    (read : stage.elements.mapM pool.dereference = .ok txn) :
    Trimmed pool later (txn.flatMap fun entry => noSpendsRemaining later entry.tx) where
  toShrinks := left.shrinks
  kept hash member source := by
    obtain ⟨entry, found⟩ := mem_family.mp member
    obtain ⟨-, before, foundBefore, cores⟩ := left.lookup found
    simp only [SpendsFrom, found, foundBefore, Option.some.injEq, exists_eq_left', tx_congr cores]
  closed child parent spends member :=
    left.mem_iff.mpr ⟨(pool.family.inside child parent spends).2,
      fun listed => (left.mem_iff.mp member).2 (downward child parent spends listed)⟩
  sound source listed := by
    obtain ⟨entry, member, reported⟩ := mem_flatMap.mp listed
    obtain ⟨hash, inStage, found⟩ := (mem_mapM_dereference read).mp member
    obtain ⟨spent, outside, unspent⟩ := (mem_noSpendsRemaining left.books).mp reported
    exact ⟨outside, ⟨hash, inside hash inStage, fun stays => (left.mem_iff.mp stays).2 inStage, entry, found, spent⟩, unspent⟩
  complete source outside released := by
    obtain ⟨⟨hash, member, gone, entry, found, spent⟩, unspent⟩ := released
    have inStage : hash ∈ stage := by
      by_contra absent
      exact gone (left.mem_iff.mpr ⟨member, absent⟩)
    refine mem_flatMap.mpr ⟨entry, (mem_mapM_dereference read).mpr ⟨hash, inStage, found⟩, ?_⟩
    exact (mem_noSpendsRemaining left.books).mpr ⟨spent, fun stays => outside (left.shrinks.carrier stays), unspent⟩

theorem keys_of_firstByScore {score : CTxMemPoolEntry → CTxMemPoolEntry → Bool}
    (first : firstByScore pool score = none) : pool.mapTx.keys = [] := by
  have found (list : List Uint256) (leader : Uint256) :
      list.foldl (lowerScore pool score) (some leader) ≠ none := by
    induction list generalizing leader with
    | nil => simp
    | cons hash rest ih =>
      rw [foldl_cons, lowerScore]
      split <;> exact ih _
  unfold firstByScore at first
  cases keys : pool.mapTx.keys with
  | nil => rfl
  | cons hash rest =>
    rw [keys] at first
    exact absurd first (found rest hash)

/-- Each turn removes an entry, so their number is enough fuel. -/
theorem PoolOk.trimLoop (ok : PoolOk env pool) (usage : CTxMemPool → Nat)
    (score : CTxMemPoolEntry → CTxMemPoolEntry → Bool) (sizelimit : Nat) {fuel : Nat}
    (enough : pool.family.carrier.card ≤ fuel) (pvNoSpendsRemaining : List Uint256) :
    ∃ later reported, Mempool.trimLoop env usage score sizelimit fuel pool
        pvNoSpendsRemaining = .ok (later, pvNoSpendsRemaining ++ reported) ∧ PoolOk env later ∧ Trimmed pool later reported ∧
      (later.mapTx.keys = [] ∨ usage later ≤ sizelimit) := by
  fun_induction Mempool.trimLoop env usage score sizelimit fuel pool pvNoSpendsRemaining with
  | case1 fuel pool _ _ first => exact ⟨pool, [], by simp, ok, .refl pool, .inl (keys_of_firstByScore first)⟩
  | case2 pool _ _ it first =>
    have positive := Finset.card_pos.mpr ⟨it, firstByScore_mem first⟩
    omega
  | case3 pool pvNoSpendsRemaining _ it first fuel ih =>
    have member := firstByScore_mem first
    obtain ⟨stage, mid, calculated, removed, linked, left, isStage⟩ :=
      @LinkedOk.removeDescendants env pool ok.toLinkedOk [it] (by
        intro hash listed
        rw [mem_singleton.mp listed]
        exact member)
    simp only [mem_singleton, exists_eq_left] at isStage
    have okMid : PoolOk env mid := left.poolOk linked fun hash entry _ => ok.deltas hash entry
    have smaller : mid.family.carrier.card < pool.family.carrier.card := by
      apply Finset.card_lt_card
      refine ⟨left.shrinks.carrier, fun all => ?_⟩
      exact (left.mem_iff.mp (all member)).2 ((isStage it).mpr .refl)
    have calculatedOne : pool.calculateDescendants it .empty = .ok stage := by
      rw [calculateAllDescendants, foldlM_cons] at calculated
      obtain ⟨only, answered, isOnly⟩ := bind_eq_ok.mp calculated
      rw [answered]
      exact isOnly
    have inside (hash : Uint256) (inStage : hash ∈ stage) : hash ∈ pool.family.carrier :=
      Family.Reaches.child_mem ((isStage hash).mp inStage) member
    obtain ⟨txn, read, -⟩ := @mapM_dereference env pool stage.elements fun hash inStage =>
      mem_family.mp (inside hash inStage)
    have turn := left.trimmed inside (by
      intro child parent spends listed
      exact (isStage child).mpr (.head spends ((isStage parent).mp listed))) read
    obtain ⟨later, reported, trimmed, okLater, rest, stops⟩ := ih txn mid okMid (by omega)
    refine ⟨later, _, ?_, okLater, turn.trans rest, stops⟩
    simp only [calculatedOne, read, removed, bind, Except.bind]
    rw [trimmed, append_assoc]
  | case4 fuel pool _ _ => exact ⟨pool, [], by simp, ok, .refl pool, .inr (by omega)⟩

theorem PoolOk.trimToSize (ok : PoolOk env pool) (usage : CTxMemPool → Nat)
    (score : CTxMemPoolEntry → CTxMemPoolEntry → Bool) (sizelimit : Nat) :
    ∃ later reported, Mempool.trimToSize env usage score pool sizelimit =
        .ok (later, reported) ∧ PoolOk env later ∧ Trimmed pool later reported ∧
      (later.mapTx.keys = [] ∨ usage later ≤ sizelimit) :=
  ok.trimLoop usage score sizelimit (toFinset_card_le _) []

end Trim

end Straks.Mempool
