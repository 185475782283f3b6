import Mathlib.Data.List.Sigma

namespace Straks.Overlay

open List Function

variable {Key Value : Type}

/-- A plain map has a value for some keys. -/
abbrev PlainMap (Key Value : Type) := Key → Option Value

/-- A layer overrides the map below at some keys, also with an absence. -/
abbrev Layer (Key Value : Type) := Key → Option (Option Value)

def overlay (layer : Layer Key Value) (below : PlainMap Key Value) : PlainMap Key Value :=
  fun key => (layer key).getD (below key)

/-- The map seen through the layers, topmost first. -/
def view (layers : List (Layer Key Value)) (below : PlainMap Key Value) : PlainMap Key Value :=
  layers.foldr overlay below

variable (below : PlainMap Key Value)

@[simp] theorem view_nil : view [] below = below := rfl

@[simp] theorem view_cons (layer : Layer Key Value) (layers : List (Layer Key Value))
    (below : PlainMap Key Value) : view (layer :: layers) below = overlay layer (view layers below) := rfl

@[simp] theorem view_append (upper lower : List (Layer Key Value)) (below : PlainMap Key Value) :
    view (upper ++ lower) below = view upper (view lower below) :=
  foldr_append

variable {layer : Layer Key Value} {key : Key}

theorem overlay_of_none (absent : layer key = none) : overlay layer below key = below key := by
  simp [overlay, absent]

theorem overlay_of_some {value : Option Value} (present : layer key = some value) :
    overlay layer below key = value := by
  simp [overlay, present]

variable [DecidableEq Key]

/-- A write below a layer without that key is seen through it. -/
theorem overlay_update_below (value : Option Value) (absent : layer key = none) :
    overlay layer (update below key value) = update (overlay layer below) key value := by
  funext other
  by_cases same : other = key
  · rw [same, overlay_of_none _ absent, update_self, update_self]
  · rw [update_of_ne same, overlay, overlay, update_of_ne same]

variable {layers : List (Layer Key Value)}

theorem view_update_below (value : Option Value) (absent : ∀ layer ∈ layers, layer key = none) :
    view layers (update below key value) = update (view layers below) key value := by
  induction layers with
  | nil => rfl
  | cons layer layers ih =>
    have absentHere : layer key = none := absent layer mem_cons_self
    have absentBelow : ∀ other ∈ layers, other key = none :=
      fun other member => absent other (mem_cons_of_mem layer member)
    rw [view_cons, ih absentBelow, overlay_update_below _ _ absentHere]
    rfl

/-- The entries of a table written one after another. -/
def writeAll {Entry : Type} (value : Entry → Option Value) (entries : List (Sigma fun _ : Key => Entry))
    (map : PlainMap Key Value) : PlainMap Key Value :=
  entries.foldl (fun map entry => update map entry.1 (value entry.2)) map

/-- Writing a table's entries gives the map seen through the table. -/
theorem writeAll_eq_overlay {Entry : Type} (value : Entry → Option Value)
    {entries : List (Sigma fun _ : Key => Entry)} (distinct : entries.NodupKeys) (map : PlainMap Key Value) :
    writeAll value entries map = overlay (fun key => (entries.dlookup key).map value) map := by
  induction entries generalizing map with
  | nil => rfl
  | cons entry rest ih =>
    obtain ⟨key, content⟩ := entry
    obtain ⟨unused, restDistinct⟩ := nodupKeys_cons.mp distinct
    have absent : (rest.dlookup key).map value = none := by
      rw [dlookup_eq_none.mpr unused]
      rfl
    have step : writeAll value (⟨key, content⟩ :: rest) map =
        writeAll value rest (update map key (value content)) := rfl
    have through : overlay (fun key => (rest.dlookup key).map value) (update map key (value content)) =
        update (overlay (fun key => (rest.dlookup key).map value) map) key (value content) :=
      overlay_update_below _ _ absent
    rw [step, ih restDistinct, through]
    funext other
    by_cases same : other = key
    · subst same
      simp [overlay]
    · rw [update_of_ne same]
      simp [overlay, dlookup_cons_ne rest ⟨key, content⟩ same]

/-- What each level of a stack shows, the top level first. -/
abbrev Views (Key Value : Type) := Nat → PlainMap Key Value

/-- What an operation at one level of plain maps does. -/
inductive Effect (Key Value : Type) where
  | keep
  | write (key : Key) (value : Option Value)
  | flush

/-- A write reaches its level and those above; a flush copies a level down. -/
def Effect.apply (effect : Effect Key Value) (level : Nat) (views : Views Key Value) : Views Key Value :=
  match effect with
  | .keep => views
  | .write key value => fun other => if other ≤ level then update (views other) key value else views other
  | .flush => update views (level + 1) (views level)

/-- The stack of layers over the bottom map shows these views. -/
def Shows (layers : List (Layer Key Value)) (below : PlainMap Key Value) (views : Views Key Value) : Prop :=
  ∀ level ≤ layers.length, view (layers.drop level) below = views level

omit [DecidableEq Key] in
theorem Shows.top {below : PlainMap Key Value} {views : Views Key Value} (shows : Shows layers below views) :
    view layers below = views 0 := shows 0 (Nat.zero_le _)

omit [DecidableEq Key] in
theorem shows_cons_iff {below : PlainMap Key Value} {views : Views Key Value} : Shows (layer :: layers) below views ↔
      overlay layer (view layers below) = views 0 ∧ Shows layers below (fun level => views (level + 1)) := by
  constructor
  · intro shows
    refine ⟨shows.top, ?_⟩
    intro level within
    exact shows (level + 1) (Nat.succ_le_succ within)
  · rintro ⟨top, rest⟩ level within
    cases level with
    | zero => exact top
    | succ level => exact rest level (Nat.le_of_succ_le_succ within)

omit [DecidableEq Key] in
theorem shows_append_iff {upper lower : List (Layer Key Value)} {below : PlainMap Key Value}
    {views : Views Key Value} : Shows (upper ++ lower) below views ↔
      Shows upper (view lower below) views ∧ Shows lower below (fun level => views (upper.length + level)) := by
  induction upper generalizing views with
  | nil =>
    simp only [nil_append, length_nil, Nat.zero_add]
    constructor
    · intro shows
      refine ⟨?_, shows⟩
      intro level within
      obtain rfl : level = 0 := Nat.le_zero.mp within
      exact shows.top
    · exact And.right
  | cons layer upper ih =>
    rw [cons_append, shows_cons_iff, shows_cons_iff, ih, view_append, and_assoc]
    simp only [length_cons, Nat.add_right_comm upper.length 1, Nat.add_assoc]

/-- An operation right for the lower part of a stack is right for the whole, if no layer above overrides a written
key. -/
theorem Shows.lift {upper lower changed : List (Layer Key Value)} {below changedBelow : PlainMap Key Value}
    {views : Views Key Value} {effect : Effect Key Value} (shows : Shows (upper ++ lower) below views)
    (absent : ∀ key value, effect = .write key value → ∀ layer ∈ upper, layer key = none)
    (lowerShows : Shows changed changedBelow (effect.apply 0 fun level => views (upper.length + level))) :
    Shows (upper ++ changed) changedBelow (effect.apply upper.length views) := by
  obtain ⟨upperShows, oldLower⟩ := shows_append_iff.mp shows
  have oldTop : view lower below = views upper.length := oldLower.top
  have newTop := lowerShows.top
  rw [shows_append_iff]
  cases effect with
  | keep =>
    have sameTop : view changed changedBelow = view lower below := newTop.trans oldTop.symm
    exact ⟨sameTop ▸ upperShows, lowerShows⟩
  | write key value =>
    constructor
    · intro level within
      have suffixAbsent : ∀ layer ∈ upper.drop level, layer key = none :=
        fun layer member => absent key value rfl layer (mem_of_mem_drop member)
      have topUpdated : view changed changedBelow = update (view lower below) key value := by
        rw [newTop, oldTop]
        simp [Effect.apply]
      rw [topUpdated, view_update_below _ _ suffixAbsent, upperShows level within]
      simp [Effect.apply, within]
    · intro level within
      rw [lowerShows level within]
      by_cases zero : level = 0
      · simp [Effect.apply, zero]
      · have notTop : ¬ level ≤ 0 := by omega
        have deeper : ¬ upper.length + level ≤ upper.length := by omega
        simp only [Effect.apply, if_neg notTop, if_neg deeper]
  | flush =>
    have sameTop : view changed changedBelow = view lower below := by
      rw [newTop, oldTop]
      simp [Effect.apply]
    constructor
    · intro level within
      have other : level ≠ upper.length + 1 := by omega
      rw [sameTop, upperShows level within]
      simp [Effect.apply, other]
    · intro level within
      rw [lowerShows level within]
      by_cases one : level = 1
      · simp [Effect.apply, one]
      · simp [Effect.apply, one]

end Straks.Overlay
