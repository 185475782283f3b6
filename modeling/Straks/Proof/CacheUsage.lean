import Mathlib.Data.BitVec
import Straks.Proof.CacheRefinement

namespace Straks.Coins
open Success List CCoinsViewCache

/-- The usage of all entries, in the counter's arithmetic. -/
def CCoinsViewCache.coinsUsage (cache : CCoinsViewCache) : BitVec 64 :=
  (cache.cacheCoins.entries.map fun entry => entry.2.coins.dynamicMemoryUsage).sum

def CCoinsViewCache.Counted (cache : CCoinsViewCache) : Prop := cache.cachedCoinsUsage = cache.coinsUsage

def Stack.Counted (stack : Stack) : Prop := ∀ cache ∈ stack.layers, cache.Counted

section Usage

variable {cache closed parent written : CCoinsViewCache} {base layers : List CCoinsViewCache} {db later : CCoinsViewDB}
  {txid : Uint256} {entry : CCoinsCacheEntry} {answer : Answer}

theorem coinsUsage_erase : (cache.erase txid).coinsUsage = cache.coinsUsage - cache.usageAt txid := by
  have split (list : List (Sigma fun _ : Uint256 => CCoinsCacheEntry)) :
      ((list.kerase txid).map fun entry => entry.2.coins.dynamicMemoryUsage).sum +
          (list.dlookup txid).elim 0 (fun entry => entry.coins.dynamicMemoryUsage) =
        (list.map fun entry => entry.2.coins.dynamicMemoryUsage).sum := by
    induction list with
    | nil => simp
    | cons entry rest ih =>
      obtain ⟨key, value⟩ := entry
      by_cases same : txid = key
      · subst same
        simp [add_comm]
      · simp [same, ← ih, add_assoc]
  exact eq_sub_of_add_eq (split cache.cacheCoins.entries)

theorem coinsUsage_insert : (cache.insert txid entry).coinsUsage =
    cache.coinsUsage - cache.usageAt txid + entry.coins.dynamicMemoryUsage := by
  rw [← coinsUsage_erase, add_comm]
  exact sum_cons

theorem CCoinsViewCache.Counted.erase (counted : cache.Counted) :
    ((cache.erase txid).recount (cache.usageAt txid) 0).Counted := by
  change cache.cachedCoinsUsage - cache.usageAt txid + 0 = (cache.erase txid).coinsUsage
  rw [coinsUsage_erase, counted, add_zero]

theorem CCoinsViewCache.Counted.insert (counted : cache.Counted) :
    ((cache.insert txid entry).recount (cache.usageAt txid) entry.coins.dynamicMemoryUsage).Counted := by
  change cache.cachedCoinsUsage - _ + _ = (cache.insert txid entry).coinsUsage
  rw [coinsUsage_insert, counted]

theorem usageAt_of_none (absent : cache.cacheCoins.lookup txid = none) : cache.usageAt txid = 0 := by
  simp [usageAt, absent]

theorem usageAt_of_some (present : cache.cacheCoins.lookup txid = some entry) :
    cache.usageAt txid = entry.coins.dynamicMemoryUsage := by
  simp [usageAt, present]

theorem fetchCoins_counted (counted : ∀ cache ∈ layers, cache.Counted) :
    ∀ cache ∈ (fetchCoins db txid layers).2, cache.Counted := by
  induction layers with
  | nil => simp [fetchCoins]
  | cons cache base ih =>
    obtain ⟨here, below⟩ := forall_mem_cons.mp counted
    have fetched := ih below
    rw [fetchCoins]
    split
    · exact counted
    · rename_i absent
      split <;> rename_i result <;> rw [result] at fetched
      · exact forall_mem_cons.mpr ⟨here, fetched⟩
      · exact forall_mem_cons.mpr ⟨usageAt_of_none absent ▸ here.insert, fetched⟩

/-- The counter stays right exactly when the modifier got the usage of the replaced entry. -/
theorem endModify_counted {usage : BitVec 64} (counted : cache.Counted)
    (ended : endModify { cache with hasModifier := true } txid usage entry = .ok closed) :
    closed.Counted ↔ usage = cache.usageAt txid := by
  cases ended
  split
  · change cache.cachedCoinsUsage - usage + 0 = (cache.erase txid).coinsUsage ↔ _
    rw [coinsUsage_erase, counted, add_zero, sub_right_inj]
  · change cache.cachedCoinsUsage - usage + _ = (cache.insert txid _).coinsUsage ↔ _
    rw [coinsUsage_insert, counted, add_left_inj, sub_right_inj]

theorem beginModify_opened (opened : cache.beginModify = .ok closed) : closed = { cache with hasModifier := true } := by
  unfold beginModify at opened
  split at opened <;> cases opened
  rfl

theorem entryToModify_counted (below : ∀ other ∈ base, other.Counted) :
    ∀ other ∈ (entryToModify db cache base txid).2, other.Counted := by
  have fetched := @fetchCoins_counted base db txid below
  rw [entryToModify]
  split
  · exact below
  · split <;> rename_i result <;> rwa [result] at fetched

theorem modifyCoins_counted {modification : CCoins → CCoins} (counted : ∀ other ∈ cache :: base, other.Counted)
    (modified : modifyCoins db cache base txid modification = .ok layers) : ∀ other ∈ layers, other.Counted := by
  obtain ⟨here, below⟩ := forall_mem_cons.mp counted
  obtain ⟨opened, begun, rest⟩ := bind_eq_ok.mp modified
  rw [beginModify_opened begun] at rest
  obtain ⟨closed, ended, same⟩ := bind_eq_ok.mp rest
  cases same
  exact forall_mem_cons.mpr ⟨(endModify_counted here ended).mpr rfl, entryToModify_counted below⟩

theorem modifyNewCoins_counted {coinbase : Bool} {modification : CCoins → CCoins}
    (counted : ∀ other ∈ cache :: base, other.Counted)
    (modified : modifyNewCoins cache base txid coinbase modification = .ok layers) :
    (∀ other ∈ layers, other.Counted) ↔ cache.usageAt txid = 0 := by
  obtain ⟨here, below⟩ := forall_mem_cons.mp counted
  obtain ⟨opened, begun, rest⟩ := bind_eq_ok.mp modified
  rw [beginModify_opened begun] at rest
  dsimp only at rest
  split_ifs at rest
  obtain ⟨closed, ended, same⟩ := bind_eq_ok.mp rest
  cases same
  rw [forall_mem_cons, and_iff_left below, endModify_counted here ended, eq_comm]

theorem write_counted (counted : parent.Counted) (wrote : parent.write txid entry = .ok written) : written.Counted := by
  unfold CCoinsViewCache.write at wrote
  split at wrote
  · split at wrote
    · rename_i absent
      split at wrote <;> cases wrote
      · exact counted
      · exact usageAt_of_none absent ▸ counted.insert
    · rename_i ours present
      split at wrote
      · cases wrote
      · split at wrote <;> cases wrote
        · exact usageAt_of_some present ▸ counted.erase
        · exact usageAt_of_some present ▸ counted.insert
  · cases wrote
    exact counted

theorem writeAll_counted {entries : List (Sigma fun _ : Uint256 => CCoinsCacheEntry)} (counted : parent.Counted)
    (wrote : writeAll entries parent = .ok written) : written.Counted := by
  induction entries generalizing parent with
  | nil =>
    cases wrote
    exact counted
  | cons entry rest ih =>
    obtain ⟨middle, first, others⟩ := bind_eq_ok.mp wrote
    exact ih (write_counted counted first) others

theorem flush_counted (counted : ∀ other ∈ cache :: base, other.Counted) (flushed : flush db cache base = .ok (layers, later)) :
    ∀ other ∈ layers, other.Counted := by
  have emptied : CCoinsViewCache.Counted { cache with cacheCoins := ∅, cachedCoinsUsage := 0 } := rfl
  cases base with
  | nil =>
    cases flushed
    exact forall_mem_cons.mpr ⟨emptied, by simp⟩
  | cons parent rest =>
    obtain ⟨parentCounted, restCounted⟩ := forall_mem_cons.mp (forall_mem_cons.mp counted).2
    obtain ⟨changed, wrote, same⟩ := bind_eq_ok.mp flushed
    cases same
    unfold batchWrite at wrote
    split_ifs at wrote
    obtain ⟨written, all, same⟩ := bind_eq_ok.mp wrote
    cases same
    have writtenCounted := writeAll_counted parentCounted all
    exact forall_mem_cons.mpr ⟨emptied, forall_mem_cons.mpr ⟨writtenCounted, restCounted⟩⟩

theorem uncache_counted (counted : cache.Counted) : (cache.uncache txid).Counted := by
  rw [CCoinsViewCache.uncache]
  split
  · rename_i entry present
    split
    · exact usageAt_of_some present ▸ counted.erase
    · exact counted
  · exact counted

/-- A call that makes new coins finds no entry in use. -/
def CacheCall.ReplacesNothing (cache : CCoinsViewCache) : CacheCall → Prop
  | .modifyNewCoins txid _ _ => cache.usageAt txid = 0
  | _ => True

theorem callLayer_counted {call : CacheCall} (counted : ∀ other ∈ cache :: base, other.Counted)
    (called : callLayer db cache base call = .ok (layers, later, answer)) :
    (∀ other ∈ layers, other.Counted) ↔ call.ReplacesNothing cache := by
  cases call with
  | getCoins txid | accessCoins txid =>
    cases called
    exact iff_of_true (fetchCoins_counted counted) trivial
  | haveCoins txid =>
    cases called
    have fetched := @fetchCoins_counted _ db txid counted
    refine iff_of_true ?_ trivial
    rw [haveCoins]
    split <;> rename_i result <;> rwa [result] at fetched
  | modifyCoins txid modification =>
    obtain ⟨changed, modified, same⟩ := bind_eq_ok.mp called
    cases same
    exact iff_of_true (modifyCoins_counted counted modified) trivial
  | modifyNewCoins txid coinbase modification =>
    obtain ⟨changed, modified, same⟩ := bind_eq_ok.mp called
    cases same
    exact modifyNewCoins_counted counted modified
  | setBestBlock hashBlock =>
    cases called
    obtain ⟨here, below⟩ := forall_mem_cons.mp counted
    exact iff_of_true (forall_mem_cons.mpr ⟨here, below⟩) trivial
  | uncache hash =>
    cases called
    obtain ⟨here, below⟩ := forall_mem_cons.mp counted
    exact iff_of_true (forall_mem_cons.mpr ⟨uncache_counted here, below⟩) trivial
  | flush =>
    obtain ⟨changed, flushed, same⟩ := bind_eq_ok.mp called
    cases same
    exact iff_of_true (flush_counted counted flushed) trivial

end Usage

/-- The counters are right now and after each successful call. -/
def Stack.CountedAlong : Stack → List StackCall → Prop
  | stack, [] => stack.Counted
  | stack, call :: calls =>
    stack.Counted ∧ ∀ next answer, stack.step call = .ok (next, answer) → next.CountedAlong calls

/-- No successful call makes new coins over an entry in use. -/
def Stack.ReplacesNothing : Stack → List StackCall → Prop
  | _, [] => True
  | stack, call :: calls => ∀ next answer, stack.step call = .ok (next, answer) →
    (∀ cache ∈ stack.layers[call.depth]?, call.call.ReplacesNothing cache) ∧ next.ReplacesNothing calls

theorem Stack.step_counted {stack next : Stack} {call : StackCall} {answer : Answer} (counted : stack.Counted)
    (stepped : stack.step call = .ok (next, answer)) :
    next.Counted ↔ ∀ cache ∈ stack.layers[call.depth]?, call.call.ReplacesNothing cache := by
  have parts := take_append_drop call.depth stack.layers
  unfold Stack.Counted at counted
  rw [← parts, forall_mem_append] at counted
  rw [← head?_drop]
  unfold Stack.step at stepped
  split at stepped
  · rename_i none
    cases stepped
    rw [none]
    refine iff_of_true ?_ (by simp)
    rw [Stack.Counted, ← parts, forall_mem_append]
    exact counted
  · rename_i cache base below
    obtain ⟨⟨layers, db, given⟩, called, same⟩ := bind_eq_ok.mp stepped
    cases same
    rw [below] at counted ⊢
    simp only [Stack.Counted, forall_mem_append, and_iff_right counted.1, head?_cons, Option.mem_some_iff, forall_eq']
    exact callLayer_counted counted.2 called

theorem Stack.countedAlong_iff {stack : Stack} (counted : stack.Counted) (calls : List StackCall) :
    stack.CountedAlong calls ↔ stack.ReplacesNothing calls := by
  induction calls generalizing stack with
  | nil => exact iff_of_true counted trivial
  | cons call calls ih =>
    have starts {next : Stack} (along : next.CountedAlong calls) : next.Counted := by
      cases calls with
      | nil => exact along
      | cons _ _ => exact along.1
    rw [Stack.CountedAlong, and_iff_right counted]
    refine forall₃_congr fun next answer stepped => ?_
    rw [← step_counted counted stepped]
    exact ⟨fun along => ⟨starts along, (ih (starts along)).mp along⟩, fun both => (ih both.1).mpr both.2⟩

/-- Over every number of caches, every database and every sequence of calls, the counters stay right exactly as long
as `ModifyNewCoins` replaces no entry in use. -/
theorem Stack.counters_right_iff (layers : Nat) (db : CCoinsViewDB) (calls : List StackCall) :
    (Stack.new layers db).CountedAlong calls ↔ (Stack.new layers db).ReplacesNothing calls := by
  apply Stack.countedAlong_iff
  intro cache listed
  rw [eq_of_mem_replicate listed]
  rfl

/-- A coinbase replaces an unspent one of its id, whose memory stays counted. -/
theorem Stack.counter_drifts : ∃ final answers cache, (Stack.new 1 emptyDB).run
      [⟨0, .modifyNewCoins 7 true fun _ => oneCoin⟩, ⟨0, .modifyNewCoins 7 true fun _ => oneCoin⟩] = .ok (final, answers) ∧
    final.layers = [cache] ∧ cache.coinsUsage = 64 ∧ cache.cachedCoinsUsage = 128 := by
  refine ⟨_, _, _, rfl, rfl, ?_, ?_⟩ <;> decide

end Straks.Coins
