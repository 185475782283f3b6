import Straks.Construction.Coins.CacheStack
import Straks.Library.Overlay
import Straks.Library.Success

namespace Straks.Coins
open Overlay Success List Function CCoinsViewCache CCoins Stack AList Option

/-- The plain map of unspent outputs a view stands for. -/
abbrev UnspentMap := PlainMap Uint256 CCoins

/-- A cache overrides the view below at its entries. -/
def CCoinsViewCache.layer (cache : CCoinsViewCache) : Layer Uint256 CCoins :=
  fun txid => (cache.cacheCoins.lookup txid).map fun entry => entry.coins.unspent

def CCoinsViewDB.contents (db : CCoinsViewDB) : UnspentMap := db.getCoins

/-- The map that layers show over a database or view. -/
def shown (layers : List CCoinsViewCache) (below : UnspentMap) : UnspentMap :=
  view (layers.map CCoinsViewCache.layer) below

variable (below : UnspentMap)

/-- By its flags an entry promises what is below it. -/
structure EntryOk (txid : Uint256) (entry : CCoinsCacheEntry) : Prop where
  clean : entry.coins.Clean
  freshBelow : entry.fresh = true → below txid = none
  copied : entry.dirty = false → entry.coins.unspent = below txid

structure CacheOk (cache : CCoinsViewCache) : Prop where
  noModifier : cache.hasModifier = false
  entries : ∀ txid entry, cache.cacheCoins.lookup txid = some entry → EntryOk below txid entry

/-- Every layer keeps its promises about the view below it. -/
def LayersOk (below : UnspentMap) : List CCoinsViewCache → Prop
  | [] => True
  | cache :: base => CacheOk (shown base below) cache ∧ LayersOk below base

@[simp] theorem shown_cons (cache : CCoinsViewCache) (base : List CCoinsViewCache) (below : UnspentMap) :
    shown (cache :: base) below = overlay cache.layer (shown base below) := rfl

variable {cache parent : CCoinsViewCache} {below : UnspentMap} {txid : Uint256} {db : CCoinsViewDB}
  {base layers changed : List CCoinsViewCache} {entry : CCoinsCacheEntry} {views : Views Uint256 CCoins}

theorem layer_of_none (absent : cache.cacheCoins.lookup txid = none) : cache.layer txid = none := by
  simp [CCoinsViewCache.layer, absent]

theorem layer_of_some (present : cache.cacheCoins.lookup txid = some entry) :
    cache.layer txid = some entry.coins.unspent := by
  simp [CCoinsViewCache.layer, present]

@[simp] theorem layer_recount (cache : CCoinsViewCache) (old new : BitVec 64) :
    (cache.recount old new).layer = cache.layer := rfl

/-- A stored entry overrides what the view below shows. -/
theorem overlay_insert (cache : CCoinsViewCache) (txid : Uint256) (entry : CCoinsCacheEntry) (below : UnspentMap) :
    overlay (cache.insert txid entry).layer below = update (overlay cache.layer below) txid entry.coins.unspent := by
  grind [lookup_insert, overlay, CCoinsViewCache.layer, CCoinsViewCache.insert, lookup_insert_ne]

/-- A forgotten entry gives way to what the view below shows. -/
theorem overlay_erase (cache : CCoinsViewCache) (txid : Uint256) (below : UnspentMap) :
    overlay (cache.erase txid).layer below = update (overlay cache.layer below) txid (below txid) := by
  grind [lookup_erase, overlay, CCoinsViewCache.layer, CCoinsViewCache.erase, lookup_erase_ne]

theorem CacheOk.insert (cacheOk : CacheOk below cache) (entryOk : EntryOk below txid entry) :
    CacheOk below (cache.insert txid entry) := by
  refine ⟨cacheOk.noModifier, ?_⟩
  intro other found present
  by_cases same : other = txid
  · subst same
    rw [CCoinsViewCache.insert, lookup_insert] at present
    cases present
    exact entryOk
  · rw [CCoinsViewCache.insert, lookup_insert_ne same] at present
    exact cacheOk.entries other found present

theorem CacheOk.recount (cacheOk : CacheOk below cache) (old new : BitVec 64) :
    CacheOk below (cache.recount old new) := ⟨cacheOk.noModifier, cacheOk.entries⟩

theorem CacheOk.erase (cacheOk : CacheOk below cache) (txid : Uint256) : CacheOk below (cache.erase txid) := by
  refine ⟨cacheOk.noModifier, ?_⟩
  intro other found present
  by_cases same : other = txid
  · subst same
    rw [CCoinsViewCache.erase, lookup_erase] at present
    cases present
  · rw [CCoinsViewCache.erase, lookup_erase_ne same] at present
    exact cacheOk.entries other found present

/-- Layers above a write keep their promises when none has an entry for it. -/
theorem LayersOk.update_below (value : Option CCoins) (layersOk : LayersOk below layers)
    (absent : ∀ cache ∈ layers, cache.cacheCoins.lookup txid = none) : LayersOk (update below txid value) layers := by
  induction layers with
  | nil => trivial
  | cons cache base ih =>
    obtain ⟨cacheOk, baseOk⟩ := layersOk
    have absentBelow : ∀ other ∈ base, other.cacheCoins.lookup txid = none :=
      fun other member => absent other (mem_cons_of_mem cache member)
    have layersAbsent : ∀ layer ∈ base.map CCoinsViewCache.layer, layer txid = none := by
      simp_all [layer_of_none]
    refine ⟨⟨cacheOk.noModifier, ?_⟩, ih baseOk absentBelow⟩
    intro other entry present
    have apart : other ≠ txid := by
      grind
    have entryOk := cacheOk.entries other entry present
    have unchanged : shown base (update below txid value) other = shown base below other := by
      simp_all [shown, view_update_below]
    exact ⟨entryOk.clean, fun fresh => unchanged.trans (entryOk.freshBelow fresh),
      fun copy => (entryOk.copied copy).trans unchanged.symm⟩

variable {upper : List CCoinsViewCache} {coins : CCoins} {modification : CCoins → CCoins} {value : Option CCoins}
  {entries : List (Sigma fun _ : Uint256 => CCoinsCacheEntry)} {stack : Stack}

theorem layersOk_append {lower : List CCoinsViewCache} :
    LayersOk below (upper ++ lower) ↔ LayersOk (shown lower below) upper ∧ LayersOk below lower := by
  induction upper with
  | nil => simp [LayersOk]
  | cons cache base ih =>
    simp_all [shown, LayersOk, and_assoc]

/-- Every level of the changed layers shows the same map. -/
structure SameViews (below : UnspentMap) (layers changed : List CCoinsViewCache) : Prop where
  length : changed.length = layers.length
  views : ∀ level, shown (changed.drop level) below = shown (layers.drop level) below

theorem SameViews.refl (below : UnspentMap) (layers : List CCoinsViewCache) : SameViews below layers layers :=
  ⟨rfl, fun _ => rfl⟩

theorem SameViews.top (same : SameViews below layers changed) : shown changed below = shown layers below := same.views 0

theorem SameViews.cons {changedBase : List CCoinsViewCache} {changedCache : CCoinsViewCache}
    (same : SameViews below base changedBase)
    (top : overlay changedCache.layer (shown base below) = overlay cache.layer (shown base below)) :
    SameViews below (cache :: base) (changedCache :: changedBase) := by
  refine ⟨congrArg (· + 1) same.length, ?_⟩
  intro level
  cases level with
  | zero => rw [drop_zero, drop_zero, shown_cons, shown_cons, same.top, top]
  | succ level => exact same.views level

theorem SameViews.shows (same : SameViews below layers changed)
    (shows : Shows (layers.map CCoinsViewCache.layer) below views) :
    Shows (changed.map CCoinsViewCache.layer) below views := by
  intro level within
  rw [length_map, same.length] at within
  have old := shows level (by rwa [length_map])
  rw [← map_drop] at old ⊢
  exact (same.views level).trans old

/-- A read finds what the view shows and changes no view. -/
structure Fetched (db : CCoinsViewDB) (txid : Uint256) (layers : List CCoinsViewCache)
    (result : Option CCoins × List CCoinsViewCache) : Prop where
  answer : result.1.bind CCoins.unspent = shown layers db.contents txid
  clean : ∀ coins, result.1 = some coins → coins.Clean
  same : SameViews db.contents layers result.2
  layersOk : LayersOk db.contents result.2

/-- A copy of what is shown below keeps its flags' promises. -/
theorem EntryOk.copy (clean : coins.Clean) (same : coins.unspent = below txid) :
    EntryOk below txid ⟨coins, false, coins.isPruned⟩ :=
  ⟨clean, fun pruned => same.symm.trans (unspent_of_pruned pruned), fun _ => same⟩

theorem fetchCoins_fetched (db : CCoinsViewDB) (txid : Uint256) (layersOk : LayersOk db.contents layers) :
    Fetched db txid layers (fetchCoins db txid layers) := by
  induction layers with
  | nil =>
    refine ⟨db.getCoins_bind_unspent txid, ?_, .refl _ _, trivial⟩
    intro coins stored
    exact (db.unspent txid coins stored).2
  | cons cache base ih =>
    obtain ⟨cacheOk, baseOk⟩ := layersOk
    have fetched := ih baseOk
    rw [fetchCoins]
    split
    · rename_i entry present
      refine ⟨?_, ?_, .refl _ _, cacheOk, baseOk⟩
      · exact (overlay_of_some _ (layer_of_some present)).symm
      · intro coins found
        cases found
        exact (cacheOk.entries txid entry present).clean
    · rename_i absent
      have through : shown (cache :: base) db.contents txid = shown base db.contents txid :=
        overlay_of_none _ (layer_of_none absent)
      split
      · rename_i changed nothing
        rw [nothing] at fetched
        refine ⟨fetched.answer.trans through.symm, (fun _ found => nomatch found), fetched.same.cons rfl, ?_, ?_⟩
        · exact fetched.same.top ▸ cacheOk
        · exact fetched.layersOk
      · rename_i coins changed something
        rw [something] at fetched
        have clean : coins.Clean := fetched.clean coins rfl
        have answer : coins.unspent = shown base db.contents txid := fetched.answer
        refine ⟨answer.trans through.symm, fetched.clean, fetched.same.cons ?_, ?_, fetched.layersOk⟩
        · rw [layer_recount, overlay_insert, update_eq_self_iff]
          exact answer.trans through.symm
        · rw [fetched.same.top]
          exact (cacheOk.insert (.copy clean answer)).recount _ _

/-- `HaveCoins` tells whether anything is left to spend. -/
theorem haveCoins_fetched (db : CCoinsViewDB) (txid : Uint256) (layersOk : LayersOk db.contents layers) :
    (haveCoins db txid layers).1 = (shown layers db.contents txid).isSome ∧
      (haveCoins db txid layers).2 = (fetchCoins db txid layers).2 := by
  have fetched := fetchCoins_fetched db txid layersOk
  rw [haveCoins, ← fetched.answer]
  split
  · rename_i changed nothing
    rw [nothing]
    exact ⟨rfl, rfl⟩
  · rename_i coins changed something
    rw [something] at fetched ⊢
    have pruned := (fetched.clean coins rfl).isPruned_iff
    refine ⟨?_, rfl⟩
    rw [Bool.eq_iff_iff]
    simp [← pruned, isSome_iff_ne_none]

/-- Ending a modification stores the cleaned-up entry, or forgets it where nothing is below. -/
theorem endModify_ok (txid : Uint256) (usage : BitVec 64) (entry : CCoinsCacheEntry) (cacheOk : CacheOk below cache)
    (dirty : entry.dirty = true) (freshBelow : entry.fresh = true → below txid = none) :
    ∃ closed, endModify { cache with hasModifier := true } txid usage entry = .ok closed ∧
      CacheOk below closed ∧
      overlay closed.layer below =
        update (overlay cache.layer below) txid entry.coins.cleanup.unspent := by
  have restored : { cache with hasModifier := false } = cache := by
    rw [← cacheOk.noModifier]
  refine ⟨_, rfl, ?_⟩
  simp only [restored]
  split
  · rename_i forgotten
    obtain ⟨fresh, pruned⟩ := (Bool.and_eq_true _ _).mp forgotten
    refine ⟨(cacheOk.erase txid).recount _ _, ?_⟩
    rw [layer_recount, overlay_erase, freshBelow fresh, unspent_of_pruned pruned]
  · refine ⟨CacheOk.recount (cacheOk.insert ?_) _ _, overlay_insert _ _ _ _⟩
    exact ⟨entry.coins.cleanup_clean, freshBelow, fun clean => absurd (dirty.symm.trans clean) (by decide)⟩

/-- The entry modified offers what the layer shows. -/
theorem entryToModify_ok (db : CCoinsViewDB) (txid : Uint256) (layersOk : LayersOk db.contents (cache :: base)) :
    (entryToModify db cache base txid).1.coins.unspent = shown (cache :: base) db.contents txid ∧
      ((entryToModify db cache base txid).1.fresh = true → shown base db.contents txid = none) ∧
      SameViews db.contents base (entryToModify db cache base txid).2 ∧
      LayersOk db.contents (entryToModify db cache base txid).2 := by
  obtain ⟨cacheOk, baseOk⟩ := layersOk
  have fetched := fetchCoins_fetched db txid baseOk
  rw [entryToModify]
  split
  · rename_i entry present
    refine ⟨?_, (cacheOk.entries txid entry present).freshBelow, .refl _ _, baseOk⟩
    exact (overlay_of_some _ (layer_of_some present)).symm
  · rename_i absent
    have through : shown (cache :: base) db.contents txid = shown base db.contents txid :=
      overlay_of_none _ (layer_of_none absent)
    split
    · rename_i changed nothing
      rw [nothing] at fetched
      have empty : shown base db.contents txid = none := fetched.answer.symm
      exact ⟨(through.trans empty).symm, fun _ => empty, fetched.same, fetched.layersOk⟩
    · rename_i coins changed something
      rw [something] at fetched
      have answer : coins.unspent = shown base db.contents txid := fetched.answer
      refine ⟨answer.trans through.symm, ?_, fetched.same, fetched.layersOk⟩
      exact fun pruned => answer.symm.trans (unspent_of_pruned pruned)

/-- A modification gives equal coins on equal coins, whatever a spent entry once was. -/
def Respectful (modification : CCoins → CCoins) : Prop :=
  ∀ left right, left.same right = true → (modification left).same (modification right) = true

/-- Spending an output leaves a fully spent entry as it is. -/
theorem spend_respectful (nPos : Nat) : Respectful fun coins => (coins.spend nPos).2 := by
  have kept : ∀ coins : CCoins, coins.isPruned = true → (coins.spend nPos).2 = coins := by
    intro coins pruned
    have unavailable : coins.isAvailable nPos = false := by
      rw [isAvailable]
      split
      · rename_i txout found
        have null := all_eq_true.mp pruned txout (mem_of_getElem? found)
        rw [null]
        rfl
      · rfl
    rw [CCoins.spend, unavailable]
    rfl
  intro left right same
  show (left.spend nPos).2.same (right.spend nPos).2 = true
  rcases (Bool.or_eq_true _ _).mp same with bothPruned | equal
  · obtain ⟨leftPruned, rightPruned⟩ := (Bool.and_eq_true _ _).mp bothPruned
    rw [kept left leftPruned, kept right rightPruned]
    exact same
  · rw [of_decide_eq_true equal, same_iff]

/-- The written value, computed from what the layer shows. -/
def modified (modification : CCoins → CCoins) (current : Option CCoins) : Option CCoins :=
  (modification (current.getD CCoins.clear)).cleanup.unspent

theorem modified_of_unspent (respectful : Respectful modification) {current : Option CCoins}
    (same : coins.unspent = current) : (modification coins).cleanup.unspent = modified modification current := by
  have start : coins.unspent = (current.getD CCoins.clear).unspent := by
    subst same
    cases pruned : coins.isPruned with
    | true => rw [unspent_of_pruned pruned, getD_none, clear_unspent]
    | false =>
      rw [unspent_of_unpruned pruned, getD_some, unspent_of_unpruned pruned]
  exact cleanup_unspent_congr (same_iff.mp (respectful _ _ (same_iff.mpr start)))

theorem beginModify_ok (cacheOk : CacheOk below cache) :
    cache.beginModify = .ok { cache with hasModifier := true } := by
  simp [beginModify, cacheOk.noModifier]

/-- What a write leaves: the layer shows the new value, the views below the old. -/
structure Written (db : CCoinsViewDB) (cache : CCoinsViewCache) (base : List CCoinsViewCache) (txid : Uint256)
    (value : Option CCoins) (layers : List CCoinsViewCache) : Prop where
  layersOk : LayersOk db.contents layers
  length : layers.length = (cache :: base).length
  shows : ∀ views, Shows ((cache :: base).map CCoinsViewCache.layer) db.contents views →
    Shows (layers.map CCoinsViewCache.layer) db.contents ((Effect.write txid value).apply 0 views)

theorem written_of_overlay {closed : CCoinsViewCache} {value : Option CCoins}
    (closedOk : CacheOk (shown base db.contents) closed) (changedOk : LayersOk db.contents changed)
    (same : SameViews db.contents base changed)
    (top : overlay closed.layer (shown base db.contents) = update (shown (cache :: base) db.contents) txid value) :
    Written db cache base txid value (closed :: changed) := by
  refine ⟨⟨same.top ▸ closedOk, changedOk⟩, congrArg (· + 1) same.length, ?_⟩
  intro views shows
  obtain ⟨oldTop, rest⟩ := shows_cons_iff.mp shows
  refine shows_cons_iff.mpr ⟨?_, same.shows rest⟩
  have here : overlay closed.layer (shown changed db.contents) =
      update (views 0) txid value := by
    rw [same.top, top, ← oldTop]
    rfl
  exact here

theorem modifyCoins_written (txid : Uint256) (respectful : Respectful modification)
    (layersOk : LayersOk db.contents (cache :: base)) :
    ∃ layers, modifyCoins db cache base txid modification = .ok layers ∧
      Written db cache base txid (modified modification (shown (cache :: base) db.contents txid)) layers := by
  obtain ⟨start, freshBelow, same, changedOk⟩ := entryToModify_ok db txid layersOk
  obtain ⟨cacheOk, _⟩ := layersOk
  obtain ⟨closed, ended, closedOk, top⟩ := endModify_ok txid (cache.usageAt txid)
    { (entryToModify db cache base txid).1 with
      coins := modification (entryToModify db cache base txid).1.coins, dirty := true } cacheOk rfl freshBelow
  refine ⟨closed :: (entryToModify db cache base txid).2, ?_, written_of_overlay closedOk changedOk same ?_⟩
  · rw [modifyCoins, beginModify_ok cacheOk]
    exact bind_eq_ok.mpr ⟨_, rfl, bind_eq_ok.mpr ⟨closed, ended, rfl⟩⟩
  · rw [top, modified_of_unspent respectful start]
    rfl

/-- `ModifyNewCoins` works for a coinbase, or where nothing is shown to spend. -/
theorem modifyNewCoins_written (txid : Uint256) {coinbase : Bool} (modification : CCoins → CCoins)
    (layersOk : LayersOk db.contents (cache :: base))
    (absent : coinbase = false → shown (cache :: base) db.contents txid = none) :
    ∃ layers, modifyNewCoins cache base txid coinbase modification = .ok layers ∧
      Written db cache base txid (modified modification none) layers := by
  obtain ⟨cacheOk, baseOk⟩ := layersOk
  -- the entry found or made at this layer, whose flags tell about the view below
  have entryPruned : coinbase = false → (newEntry cache txid).coins.isPruned = true := by
    intro ordinary
    rw [newEntry]
    cases present : cache.cacheCoins.lookup txid with
    | none => rfl
    | some entry =>
      simp_all [overlay_of_some, layer_of_some]
  have freshBelow : ((newEntry cache txid).fresh || (!coinbase && !(newEntry cache txid).dirty)) = true →
      shown base db.contents txid = none := by
    intro fresh
    cases present : cache.cacheCoins.lookup txid with
    | none =>
      simp_all [newEntry, overlay_of_none, layer_of_none]
    | some entry =>
      have entryOk := cacheOk.entries txid entry present
      simp only [newEntry, present, getD_some, Bool.or_eq_true, Bool.and_eq_true, Bool.not_eq_true'] at fresh
      rcases fresh with fresh | ⟨ordinary, copied⟩
      · exact entryOk.freshBelow fresh
      · have pruned := entryPruned ordinary
        rw [newEntry, present] at pruned
        exact (entryOk.copied copied).symm.trans (unspent_of_pruned pruned)
  obtain ⟨closed, ended, closedOk, top⟩ := endModify_ok txid 0
    ⟨modification CCoins.clear, true, (newEntry cache txid).fresh || (!coinbase && !(newEntry cache txid).dirty)⟩
    cacheOk rfl freshBelow
  refine ⟨closed :: base, ?_, written_of_overlay closedOk baseOk (.refl _ _) top⟩
  have allowed : ¬ (!coinbase && !(newEntry cache txid).coins.isPruned) = true := by
    cases coinbase with
    | true => simp
    | false => simp [entryPruned rfl]
  rw [modifyNewCoins, beginModify_ok cacheOk]
  refine bind_eq_ok.mpr ⟨_, rfl, ?_⟩
  rw [if_neg allowed]
  exact bind_eq_ok.mpr ⟨closed, ended, rfl⟩

/-- An entry of a batch writes its value without an error. -/
theorem write_ok (parentOk : CacheOk below parent) (entryOk : EntryOk (overlay parent.layer below) txid entry) :
    ∃ written, parent.write txid entry = .ok written ∧ CacheOk below written ∧
      overlay written.layer below = update (overlay parent.layer below) txid entry.coins.unspent := by
  rw [CCoinsViewCache.write]
  split
  · have notCopied : ∀ fresh, (fresh = true → below txid = none) → EntryOk below txid ⟨entry.coins, true, fresh⟩ :=
      fun fresh freshBelow => ⟨entryOk.clean, freshBelow, fun copied => nomatch copied⟩
    split
    · rename_i absent
      have through : overlay parent.layer below txid = below txid := overlay_of_none _ (layer_of_none absent)
      split
      · rename_i ignored
        obtain ⟨fresh, pruned⟩ := (Bool.and_eq_true _ _).mp ignored
        refine ⟨parent, rfl, parentOk, ?_⟩
        rw [unspent_of_pruned pruned, ← entryOk.freshBelow fresh, update_eq_self]
      · refine ⟨_, rfl, (parentOk.insert (notCopied _ ?_)).recount _ _, ?_⟩
        rotate_left
        · rw [layer_recount, overlay_insert]
        exact fun fresh => through.symm.trans (entryOk.freshBelow fresh)
    · rename_i ours present
      have shows : overlay parent.layer below txid = ours.coins.unspent := overlay_of_some _ (layer_of_some present)
      have oursOk := parentOk.entries txid ours present
      have applied : ¬ (entry.fresh && !ours.coins.isPruned) = true := by
        intro misapplied
        obtain ⟨fresh, unpruned⟩ := (Bool.and_eq_true _ _).mp misapplied
        rw [entryOk.freshBelow fresh] at shows
        rw [unspent_eq_none.mp shows.symm] at unpruned
        cases unpruned
      rw [if_neg applied]
      split
      · rename_i forgotten
        obtain ⟨fresh, pruned⟩ := (Bool.and_eq_true _ _).mp forgotten
        refine ⟨_, rfl, (parentOk.erase txid).recount _ _, ?_⟩
        rw [layer_recount, overlay_erase, oursOk.freshBelow fresh, unspent_of_pruned pruned]
      · refine ⟨_, rfl, (parentOk.insert (notCopied _ oursOk.freshBelow)).recount _ _, ?_⟩
        rw [layer_recount, overlay_insert]
  · rename_i clean
    refine ⟨parent, rfl, parentOk, ?_⟩
    rw [entryOk.copied (by simpa using clean), update_eq_self]

/-- What the entries of a cache offer to a spender. -/
abbrev offered (entry : CCoinsCacheEntry) : Option CCoins := entry.coins.unspent

/-- The promises of a batch's other entries outlive the write of the first. -/
theorem entriesOk_rest {map : UnspentMap} {first : Sigma fun _ : Uint256 => CCoinsCacheEntry}
    (unused : first.1 ∉ entries.keys) (entriesOk : ∀ entry ∈ first :: entries, EntryOk map entry.1 entry.2) :
    ∀ entry ∈ entries, EntryOk (update map first.1 value) entry.1 entry.2 := by
  intro entry member
  have apart : entry.1 ≠ first.1 := fun same => unused (same ▸ mem_keys_of_mem member)
  have unchanged : update map first.1 value entry.1 = map entry.1 := update_of_ne apart _ _
  have entryOk := entriesOk entry (mem_cons_of_mem first member)
  exact ⟨entryOk.clean, fun fresh => unchanged.trans (entryOk.freshBelow fresh),
    fun copied => (entryOk.copied copied).trans unchanged.symm⟩

/-- A whole batch writes its entries without an error. -/
theorem writeAll_ok (distinct : entries.NodupKeys) (parentOk : CacheOk below parent)
    (entriesOk : ∀ entry ∈ entries, EntryOk (overlay parent.layer below) entry.1 entry.2) :
    ∃ written, writeAll entries parent = .ok written ∧ CacheOk below written ∧
      overlay written.layer below = Overlay.writeAll offered entries (overlay parent.layer below) := by
  induction entries generalizing parent with
  | nil => exact ⟨parent, rfl, parentOk, rfl⟩
  | cons entry rest ih =>
    obtain ⟨unused, restDistinct⟩ := nodupKeys_cons.mp distinct
    obtain ⟨middle, first, middleOk, middleShows⟩ := write_ok parentOk (entriesOk entry mem_cons_self)
    obtain ⟨written, last, writtenOk, writtenShows⟩ :=
      ih restDistinct middleOk (middleShows ▸ entriesOk_rest unused entriesOk)
    refine ⟨written, bind_eq_ok.mpr ⟨middle, first, last⟩, writtenOk, ?_⟩
    rw [writtenShows, middleShows]
    rfl

/-- One entry of a batch writes its value into the database. -/
theorem CCoinsViewDB.write_contents (entryOk : EntryOk db.contents txid entry) :
    (db.write txid entry).contents = update db.contents txid entry.coins.unspent := by
  have clean : entry.coins.cleanup = entry.coins := entryOk.clean
  have stored := db.getCoins_store txid entry.coins
  rw [clean] at stored
  rw [CCoinsViewDB.write]
  split
  · exact stored
  · rename_i copied
    rw [entryOk.copied (by simpa using copied), update_eq_self]

theorem CCoinsViewDB.foldl_write_contents (distinct : entries.NodupKeys)
    (entriesOk : ∀ entry ∈ entries, EntryOk db.contents entry.1 entry.2) :
    (entries.foldl (fun db entry => db.write entry.1 entry.2) db).contents =
      Overlay.writeAll offered entries db.contents := by
  induction entries generalizing db with
  | nil => rfl
  | cons entry rest ih =>
    obtain ⟨unused, restDistinct⟩ := nodupKeys_cons.mp distinct
    have first := db.write_contents (entriesOk entry mem_cons_self)
    rw [foldl_cons, ih restDistinct (first ▸ entriesOk_rest unused entriesOk), first]
    rfl

/-- The entries of a cache keep their promises, one by one. -/
theorem CacheOk.listed (cacheOk : CacheOk below cache) :
    ∀ entry ∈ cache.cacheCoins.entries, EntryOk below entry.1 entry.2 :=
  fun entry member => cacheOk.entries entry.1 entry.2 (mem_lookup_iff.mpr member)

/-- Writing all entries of a cache gives the map seen through it. -/
theorem writeAll_cacheCoins (cache : CCoinsViewCache) (map : UnspentMap) :
    Overlay.writeAll offered cache.cacheCoins.entries map = overlay cache.layer map :=
  writeAll_eq_overlay offered cache.cacheCoins.nodupKeys map

theorem CCoinsViewDB.batchWrite_contents (cacheOk : CacheOk db.contents cache) (hashBlock : Uint256) :
    (db.batchWrite cache.cacheCoins hashBlock).contents = overlay cache.layer db.contents := by
  have written := CCoinsViewDB.foldl_write_contents cache.cacheCoins.nodupKeys cacheOk.listed
  rw [writeAll_cacheCoins] at written
  rw [CCoinsViewDB.batchWrite, ← written]
  split <;> rfl

theorem batchWrite_ok (parentOk : CacheOk below parent) (cacheOk : CacheOk (overlay parent.layer below) cache)
    (hashBlockIn : Uint256) :
    ∃ written, parent.batchWrite cache.cacheCoins hashBlockIn = .ok written ∧ CacheOk below written ∧
      overlay written.layer below = overlay cache.layer (overlay parent.layer below) := by
  obtain ⟨written, success, writtenOk, shows⟩ := writeAll_ok cache.cacheCoins.nodupKeys parentOk cacheOk.listed
  rw [writeAll_cacheCoins] at shows
  refine ⟨{ written with hashBlock := hashBlockIn }, ?_, ⟨writtenOk.noModifier, writtenOk.entries⟩, shows⟩
  rw [batchWrite, parentOk.noModifier]
  exact bind_eq_ok.mpr ⟨written, success, rfl⟩

theorem CacheOk.emptied (cacheOk : CacheOk below cache) (other : UnspentMap) :
    CacheOk other { cache with cacheCoins := ∅, cachedCoinsUsage := 0 } :=
  ⟨cacheOk.noModifier, fun _ _ present => nomatch present⟩

/-- A flush moves what the layer shows one level down. -/
theorem flush_ok (layersOk : LayersOk db.contents (cache :: base)) :
    ∃ layers written, flush db cache base = .ok (layers, written) ∧ LayersOk written.contents layers ∧
      layers.length = (cache :: base).length ∧
      ∀ views, Shows ((cache :: base).map CCoinsViewCache.layer) db.contents views →
        Shows (layers.map CCoinsViewCache.layer) written.contents (Effect.flush.apply 0 views) := by
  obtain ⟨cacheOk, baseOk⟩ := layersOk
  cases base with
  | nil =>
    have contents := db.batchWrite_contents cacheOk cache.hashBlock
    refine ⟨_, _, rfl, ⟨cacheOk.emptied _, trivial⟩, rfl, ?_⟩
    intro views shows
    have top : overlay cache.layer db.contents = views 0 := shows.top
    refine shows_cons_iff.mpr ⟨?_, ?_⟩
    · exact contents.trans top
    · intro level within
      obtain rfl : level = 0 := Nat.le_zero.mp within
      exact contents.trans top
  | cons parent rest =>
    obtain ⟨parentOk, restOk⟩ := baseOk
    obtain ⟨written, success, writtenOk, contents⟩ := batchWrite_ok parentOk cacheOk cache.hashBlock
    refine ⟨_, db, bind_eq_ok.mpr ⟨written, success, rfl⟩, ⟨cacheOk.emptied _, writtenOk, restOk⟩, rfl, ?_⟩
    intro views shows
    obtain ⟨top, below⟩ := shows_cons_iff.mp shows
    obtain ⟨_, deeper⟩ := shows_cons_iff.mp below
    have moved : overlay written.layer (shown rest db.contents) = views 0 := contents.trans top
    exact shows_cons_iff.mpr ⟨moved, shows_cons_iff.mpr ⟨moved, deeper⟩⟩

/-- An entry that is a mere copy can leave unnoticed. -/
theorem uncache_ok (cacheOk : CacheOk below cache) (hash : Uint256) :
    CacheOk below (cache.uncache hash) ∧ overlay (cache.uncache hash).layer below = overlay cache.layer below := by
  rw [CCoinsViewCache.uncache]
  split
  · rename_i entry present
    split
    · rename_i unflagged
      have copied : entry.dirty = false := by simpa using (Bool.and_eq_true _ _).mp unflagged |>.1
      refine ⟨(cacheOk.erase hash).recount _ _, ?_⟩
      rw [layer_recount, overlay_erase, update_eq_self_iff, ← (cacheOk.entries hash entry present).copied copied]
      exact (overlay_of_some below (layer_of_some present)).symm
    · exact ⟨cacheOk, rfl⟩
  · exact ⟨cacheOk, rfl⟩

/-- What a call does and answers at a level showing a plain map. -/
def plainCall (current : UnspentMap) : CacheCall → Effect Uint256 CCoins × Answer
  | .getCoins txid | .accessCoins txid => (.keep, .coins (current txid))
  | .haveCoins txid => (.keep, .have (current txid).isSome)
  | .modifyCoins txid modification => (.write txid (modified modification (current txid)), .done)
  | .modifyNewCoins txid _ modification => (.write txid (modified modification none), .done)
  | .setBestBlock _ | .uncache _ => (.keep, .done)
  | .flush => (.flush, .done)

def plainStep (views : Views Uint256 CCoins) (call : StackCall) : Views Uint256 CCoins × Answer :=
  let outcome := plainCall (views call.depth) call.call
  (outcome.1.apply call.depth views, outcome.2)

/-- The calls on a stack of plain maps. -/
def plainRun : Views Uint256 CCoins → List StackCall → Views Uint256 CCoins × List Answer
  | views, [] => (views, [])
  | views, call :: calls =>
    let first := plainStep views call
    let rest := plainRun first.1 calls
    (rest.1, first.2 :: rest.2)

/-- No layer above the depth has an entry for the transaction. -/
def Stack.NotCachedAbove (stack : Stack) (depth : Nat) (txid : Uint256) : Prop :=
  ∀ cache ∈ stack.layers.take depth, cache.cacheCoins.lookup txid = none

instance (stack : Stack) (depth : Nat) (txid : Uint256) : Decidable (stack.NotCachedAbove depth txid) :=
  inferInstanceAs (Decidable (∀ cache ∈ stack.layers.take depth, cache.cacheCoins.lookup txid = none))

/-- A write goes to a transaction without an entry in the layers above, a modification does not look at what a fully
spent entry once was, and outputs that are not a coinbase's are new to the layer. -/
def Stack.Permits (stack : Stack) (call : StackCall) : Prop :=
  call.depth < stack.layers.length ∧
    match call.call with
    | .modifyCoins txid modification => stack.NotCachedAbove call.depth txid ∧ Respectful modification
    | .modifyNewCoins txid coinbase _ => stack.NotCachedAbove call.depth txid ∧
        (coinbase = false →
          (fetchCoins stack.db txid (stack.layers.drop call.depth)).1.bind CCoins.unspent = none)
    | _ => True

/-- Every call is permitted in the state it meets. -/
def Stack.PermitsAll : Stack → List StackCall → Prop
  | _, [] => True
  | stack, call :: calls => stack.Permits call ∧
      match stack.step call with
      | .ok (next, _) => next.PermitsAll calls
      | .error _ => True

/-- The stack keeps its promises and shows these plain maps. -/
structure Stack.Refines (stack : Stack) (views : Views Uint256 CCoins) : Prop where
  layersOk : LayersOk stack.db.contents stack.layers
  shows : Shows (stack.layers.map CCoinsViewCache.layer) stack.db.contents views

/-- A permitted call on the topmost layer does as the plain maps do. -/
theorem callLayer_refines {call : CacheCall} (layersOk : LayersOk db.contents (cache :: base))
    (respectful : ∀ txid modification, call = .modifyCoins txid modification → Respectful modification)
    (absent : ∀ txid modification, call = .modifyNewCoins txid false modification → shown (cache :: base) db.contents txid = none)
    : ∃ layers written answer, callLayer db cache base call = .ok (layers, written, answer) ∧
      LayersOk written.contents layers ∧ layers.length = (cache :: base).length ∧
      answer = (plainCall (shown (cache :: base) db.contents) call).2 ∧
      ∀ views, Shows ((cache :: base).map CCoinsViewCache.layer) db.contents views →
        Shows (layers.map CCoinsViewCache.layer) written.contents
          ((plainCall (shown (cache :: base) db.contents) call).1.apply 0 views) := by
  cases call with
  | getCoins txid | accessCoins txid =>
    have fetched := fetchCoins_fetched db txid layersOk
    exact ⟨_, _, _, rfl, fetched.layersOk, fetched.same.length, congrArg Answer.coins fetched.answer,
      fun _ => fetched.same.shows⟩
  | haveCoins txid =>
    have fetched := fetchCoins_fetched db txid layersOk
    obtain ⟨answer, layers⟩ := haveCoins_fetched db txid layersOk
    rw [callLayer, layers]
    exact ⟨_, _, _, rfl, fetched.layersOk, fetched.same.length, congrArg Answer.have answer,
      fun _ => fetched.same.shows⟩
  | modifyCoins txid modification =>
    obtain ⟨layers, success, written⟩ := modifyCoins_written txid (respectful txid modification rfl) layersOk
    exact ⟨layers, db, .done, bind_eq_ok.mpr ⟨layers, success, rfl⟩, written.layersOk, written.length,
      rfl, written.shows⟩
  | modifyNewCoins txid coinbase modification =>
    have new : coinbase = false → shown (cache :: base) db.contents txid = none := by
      intro ordinary
      subst ordinary
      exact absent txid modification rfl
    obtain ⟨layers, success, written⟩ := modifyNewCoins_written txid modification layersOk new
    exact ⟨layers, db, .done, bind_eq_ok.mpr ⟨layers, success, rfl⟩, written.layersOk, written.length,
      rfl, written.shows⟩
  | setBestBlock hashBlock =>
    obtain ⟨cacheOk, baseOk⟩ := layersOk
    exact ⟨_, _, _, rfl, ⟨⟨cacheOk.noModifier, cacheOk.entries⟩, baseOk⟩, rfl, rfl, fun _ shows => shows⟩
  | uncache hash =>
    obtain ⟨cacheOk, baseOk⟩ := layersOk
    obtain ⟨kept, top⟩ := uncache_ok cacheOk hash
    exact ⟨_, _, _, rfl, ⟨kept, baseOk⟩, rfl, rfl, fun _ => ((SameViews.refl _ base).cons top).shows⟩
  | flush =>
    obtain ⟨layers, written, success, writtenOk, length, shows⟩ := flush_ok layersOk
    exact ⟨layers, written, .done, bind_eq_ok.mpr ⟨(layers, written), success, rfl⟩, writtenOk, length, rfl, shows⟩

/-- The layers above keep their promises after a call below them. -/
theorem LayersOk.above {current : UnspentMap} {effect : Effect Uint256 CCoins} (upperOk : LayersOk current upper)
    (top : current = views 0)
    (absent : ∀ txid value, effect = .write txid value → ∀ cache ∈ upper, cache.cacheCoins.lookup txid = none) :
    LayersOk (effect.apply 0 views 0) upper := by
  subst top
  cases effect with
  | keep => exact upperOk
  | write txid value =>
    have written := upperOk.update_below value (absent txid value rfl)
    simpa [Effect.apply] using written
  | flush => simpa [Effect.apply] using upperOk

/-- A permitted call on a stack does as the plain maps do. -/
theorem Stack.step_refines {call : StackCall} (refines : stack.Refines views) (permitted : stack.Permits call) :
    ∃ next answer, stack.step call = .ok (next, answer) ∧ answer = (plainStep views call).2 ∧
      next.Refines (plainStep views call).1 ∧ next.layers.length = stack.layers.length := by
  obtain ⟨depth, call⟩ := call
  obtain ⟨within, allowed⟩ := permitted
  have upperLength : (stack.layers.take depth).length = depth := by
    rw [length_take, Nat.min_eq_left (Nat.le_of_lt within)]
  obtain ⟨cache, base, lower⟩ : ∃ cache base, stack.layers.drop depth = cache :: base :=
    ⟨_, _, drop_eq_getElem_cons within⟩
  have parts : stack.layers = stack.layers.take depth ++ cache :: base := by
    rw [← lower, take_append_drop]
  have layersOk := refines.layersOk
  have shows := refines.shows
  rw [parts] at layersOk shows
  rw [map_append] at shows
  obtain ⟨upperOk, lowerOk⟩ := layersOk_append.mp layersOk
  obtain ⟨-, lowerShows⟩ := shows_append_iff.mp shows
  -- the level of the call shows what the plain machine has there
  have here : shown (cache :: base) stack.db.contents = views depth := by
    have top := lowerShows.top
    rw [length_map, upperLength] at top
    exact top
  have respectful : ∀ txid modification, call = .modifyCoins txid modification → Respectful modification := by
    rintro txid modification rfl
    exact allowed.2
  have new : ∀ txid modification, call = .modifyNewCoins txid false modification →
      shown (cache :: base) stack.db.contents txid = none := by
    rintro txid modification rfl
    have fetched := fetchCoins_fetched stack.db txid lowerOk
    rw [← fetched.answer, ← lower]
    exact allowed.2 rfl
  have absent : ∀ txid value, (plainCall (views depth) call).1 = .write txid value →
      stack.NotCachedAbove depth txid := by
    intro txid value writes
    cases call with
    | modifyCoins => cases writes; exact allowed.1
    | modifyNewCoins => cases writes; exact allowed.1
    | _ => cases writes
  have layersAbsent : ∀ txid value, (plainCall (views depth) call).1 = .write txid value →
      ∀ layer ∈ (stack.layers.take depth).map CCoinsViewCache.layer, layer txid = none := by
    intro txid value writes layer member
    obtain ⟨upper, upperMember, rfl⟩ := mem_map.mp member
    exact layer_of_none (absent txid value writes upper upperMember)
  obtain ⟨layers, written, answer, success, writtenOk, length, answered, changed⟩ :=
    callLayer_refines lowerOk respectful new
  rw [here] at answered changed upperOk
  have lowerChanged := changed _ lowerShows
  have lifted := shows.lift layersAbsent lowerChanged
  rw [length_map, upperLength] at lowerChanged lifted
  refine ⟨⟨stack.layers.take depth ++ layers, written⟩, answer, ?_, answered, ⟨?_, ?_⟩, ?_⟩
  · rw [Stack.step, lower]
    exact bind_eq_ok.mpr ⟨(layers, written, answer), success, rfl⟩
  · refine layersOk_append.mpr ⟨?_, writtenOk⟩
    have top : shown layers written.contents = _ := lowerChanged.top
    rw [top]
    exact upperOk.above rfl absent
  · rw [map_append]
    exact lifted
  · rw [length_append, length, ← length_append, ← parts]

/-- Permitted calls never fail and do as the plain maps do. -/
theorem Stack.run_refines {calls : List StackCall} (refines : stack.Refines views) (permitted : stack.PermitsAll calls)
    : ∃ final answers, stack.run calls = .ok (final, answers) ∧ answers = (plainRun views calls).2 ∧
      final.Refines (plainRun views calls).1 ∧ final.layers.length = stack.layers.length := by
  induction calls generalizing stack views with
  | nil => exact ⟨stack, [], rfl, rfl, refines, rfl⟩
  | cons call calls ih =>
    obtain ⟨first, later⟩ := permitted
    obtain ⟨next, answer, success, answered, nextRefines, nextLength⟩ := step_refines refines first
    rw [success] at later
    obtain ⟨final, answers, rest, restAnswered, finalRefines, finalLength⟩ := ih nextRefines later
    refine ⟨final, answer :: answers, ?_, ?_, finalRefines, finalLength.trans nextLength⟩
    · exact bind_eq_ok.mpr ⟨(next, answer), success, bind_eq_ok.mpr ⟨(final, answers), rest, rfl⟩⟩
    · rw [answered, restAnswered]
      rfl

theorem Stack.new_refines (layers : Nat) (db : CCoinsViewDB) :
    (Stack.new layers db).Refines fun _ => db.contents := by
  induction layers with
  | zero =>
    refine ⟨trivial, ?_⟩
    intro level _
    simp [Stack.new]
  | succ layers ih =>
    refine ⟨⟨⟨rfl, fun _ _ present => nomatch present⟩, ih.layersOk⟩, shows_cons_iff.mpr ⟨?_, ih.shows⟩⟩
    exact ih.shows.top

/-- A database without any record. -/
def emptyDB : CCoinsViewDB := ⟨UtxoSet.empty, 0⟩

/-- One unspent output of a version five transaction. -/
def oneCoin : CCoins := ⟨false, [⟨50, []⟩], 10, 5⟩

/-- A database with one record. -/
def oneCoinDB : CCoinsViewDB where
  coins := AList.singleton 7 oneCoin
  bestBlock := 0
  unspent := by
    intro txid entry stored
    have listed : (⟨txid, entry⟩ : Sigma fun _ : Uint256 => CCoins) ∈ (AList.singleton 7 oneCoin).entries :=
      mem_lookup_iff.mp stored
    cases mem_singleton.mp listed
    decide

/-- Flushes of the caches one below the other. -/
def flushes (start count : Nat) : List StackCall := (range' start count).map fun depth => ⟨depth, .flush⟩

/-- Flushes carry what a level shows down to the last level. -/
theorem Stack.flushes_carry (start count : Nat) (refines : stack.Refines views)
    (within : start + count ≤ stack.layers.length) :
    ∃ flushed done later, stack.run (flushes start count) = .ok (flushed, done) ∧ flushed.Refines later ∧
      later (start + count) = views start ∧ flushed.layers.length = stack.layers.length := by
  induction count generalizing start stack views with
  | zero => exact ⟨stack, [], views, rfl, refines, rfl, rfl⟩
  | succ count ih =>
    have permitted : stack.Permits ⟨start, .flush⟩ := ⟨by change start < _; omega, trivial⟩
    obtain ⟨next, answer, success, _, nextRefines, length⟩ := step_refines refines permitted
    obtain ⟨flushed, done, later, ran, laterRefines, bottom, same⟩ := ih (start + 1) nextRefines (by omega)
    rw [Nat.add_assoc, Nat.add_comm 1] at bottom
    refine ⟨flushed, answer :: done, later, ?_, laterRefines, bottom.trans (update_self _ _ _), same.trans length⟩
    exact bind_eq_ok.mpr ⟨(next, answer), success, bind_eq_ok.mpr ⟨(flushed, done), ran, rfl⟩⟩

end Straks.Coins
