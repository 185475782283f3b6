import Straks.Library.Success
import Mathlib.Data.List.Induction

namespace Straks.Run
open Success List

variable {State Event : Type} (step : State → Event → State) (start : State)

/-- The state after the events have been handled in order. -/
def run (events : List Event) : State :=
  events.foldl step start

@[simp] theorem run_nil : run step start [] = start := rfl

@[simp] theorem run_concat (events : List Event)
    (event : Event) : run step start (events ++ [event]) = step (run step start events) event := by
  simp [run]

variable {event : Event} {step : State → Event → State} {start : State} {same : Event → Event → Prop}
  {history : List Event}

/-- What history and state satisfy holds after every run, when it holds at the start and each event extends it. -/
theorem run_history (holds : List Event → State → Prop) (initial : holds [] start)
    (extend : ∀ history event, holds history (run step start history) → holds (history ++ [event]) (step (run step start history) event))
    (events : List Event) : holds events (run step start events) := by
  induction events using List.reverseRecOn with
  | nil => exact initial
  | append_singleton history event ih =>
    rw [run_concat]
    exact extend history event ih

@[simp] theorem run_cons (event : Event) (rest : List Event) :
    run step start (event :: rest) = run step (step start event) rest := rfl

/-- Each event of a run meets a condition on the state in which it is handled. -/
def Throughout (step : State → Event → State) (meets : State → Event → Prop) : State → List Event → Prop
  | _, [] => True
  | state, event :: rest => meets state event ∧ Throughout step meets (step state event) rest

instance instDecidableThroughout (step : State → Event → State) (meets : State → Event → Prop)
    [decide : ∀ state event, Decidable (meets state event)] (start : State) (events : List Event) :
    Decidable (Throughout step meets start events) :=
  match events with
  | [] => .isTrue trivial
  | event :: rest =>
    match decide start event, instDecidableThroughout step meets (step start event) rest with
    | .isTrue now, .isTrue later => .isTrue ⟨now, later⟩
    | .isFalse now, _ => .isFalse fun whole => now whole.1
    | _, .isFalse later => .isFalse fun whole => later whole.2

theorem throughout_append {meets : State → Event → Prop} {before after : List Event} :
    Throughout step meets start (before ++ after) ↔
      Throughout step meets start before ∧ Throughout step meets (run step start before) after := by
  induction before generalizing start with
  | nil => simp [Throughout]
  | cons event rest ih => simp [Throughout, ih, and_assoc]

/-- The invariant holds after every run meeting a condition, when the steps keep it. -/
theorem run_throughout {meets : State → Event → Prop} {invariant : State → Prop}
    (steps : ∀ state event, invariant state → meets state event → invariant (step state event))
    (initial : invariant start) {events : List Event} (throughout : Throughout step meets start events) :
    invariant (run step start events) := by
  induction events generalizing start with
  | nil => exact initial
  | cons event rest ih => exact ih (steps start event initial throughout.1) throughout.2

/-- The first event of a history that is of its kind. -/
def FirstOf (same : Event → Event → Prop) (history : List Event) (event : Event) : Prop :=
  ∃ before after, history = before ++ event :: after ∧ ∀ earlier ∈ before, ¬ same earlier event

theorem FirstOf.mem (first : FirstOf same history event) : event ∈ history := by
  obtain ⟨before, after, rfl, -⟩ := first
  simp

theorem FirstOf.head (same : Event → Event → Prop) (event : Event) (rest : List Event) :
    FirstOf same (event :: rest) event :=
  ⟨[], rest, rfl, by simp⟩

/-- Unless it is the head, the first event of its kind is not preceded by it. -/
theorem FirstOf.eq_head {head : Event} {rest : List Event} (first : FirstOf same (head :: rest) event)
    (kind : same head event) : event = head := by
  obtain ⟨before, after, split, earlier⟩ := first
  cases before with
  | nil => exact (List.cons.inj split).1.symm
  | cons start later =>
    obtain ⟨rfl, -⟩ := List.cons.inj split
    exact absurd kind (earlier head mem_cons_self)

theorem firstOf_concat {last : Event} : FirstOf same (history ++ [last]) event ↔
      FirstOf same history event ∨ event = last ∧ ∀ earlier ∈ history, ¬ same earlier event := by
  constructor
  · rintro ⟨before, after, split, earlier⟩
    rcases eq_nil_or_concat after with rfl | ⟨rest, final, rfl⟩
    · obtain ⟨rfl, same⟩ := append_inj' split rfl
      exact .inr ⟨(List.cons.inj same).1.symm, earlier⟩
    · rw [concat_eq_append, ← cons_append, ← append_assoc] at split
      exact .inl ⟨before, rest, (append_inj' split rfl).1, earlier⟩
  · rintro (⟨before, after, rfl, earlier⟩ | ⟨rfl, earlier⟩)
    · exact ⟨before, after ++ [last], by simp, earlier⟩
    · exact ⟨history, [], rfl, earlier⟩

/-- When an event has occurred, there was a first one. -/
theorem exists_firstOf (same : Event → Event → Prop)
    (transitive : ∀ {first second third : Event}, same first second → same second third → same first third)
    (member : event ∈ history) (reflexive : same event event) :
    ∃ first, FirstOf same history first ∧ same first event := by
  induction history with
  | nil => cases member
  | cons head rest ih =>
    by_cases kind : same head event
    · exact ⟨head, FirstOf.head same head rest, kind⟩
    · have later : event ∈ rest := by
        rcases mem_cons.mp member with rfl | later
        · exact absurd reflexive kind
        · exact later
      obtain ⟨first, ⟨before, after, rfl, earlier⟩, same'⟩ := ih later
      refine ⟨first, ⟨head :: before, after, rfl, ?_⟩, same'⟩
      rw [forall_mem_cons]
      exact ⟨fun precedes => kind (transitive precedes same'), earlier⟩

section Failing

variable {Error : Type}

/-- The events are handled in order until one fails. -/
def runUntil (step : State → Event → Except Error State) (start : State) (events : List Event) : Except Error State :=
  events.foldlM step start

/-- Each event of a run meets a condition on the state in which it is handled. -/
def Along (step : State → Event → Except Error State) (meets : State → Event → Prop) : State → List Event → Prop
  | _, [] => True
  | state, event :: rest =>
    meets state event ∧ ∀ later, step state event = .ok later → Along step meets later rest

variable {step : State → Event → Except Error State} {meets : State → Event → Prop}

theorem along_of_forall (always : ∀ state event, meets state event) (start : State) (events : List Event) :
    Along step meets start events := by
  induction events generalizing start with
  | nil => trivial
  | cons event rest ih => exact ⟨always start event, fun later _ => ih later⟩

/-- A run along a condition fails only in allowed ways and ends in the invariant. -/
theorem runUntil_ends {allowed : Error → Prop} {invariant : State → Prop}
    (steps : ∀ state event, invariant state → meets state event → Ends (step state event) allowed invariant)
    {start : State} (initial : invariant start) {events : List Event} (along : Along step meets start events) :
    Ends (runUntil step start events) allowed invariant := by
  induction events generalizing start with
  | nil => exact .ok initial
  | cons event rest ih =>
    apply Ends.bind_eq (steps start event initial along.1)
    intro later stepped holds
    exact ih holds (along.2 later stepped)

/-- The invariant holds along a condition when the steps keep it. -/
theorem runUntil_ensures {invariant : State → Prop}
    (steps : ∀ state event, invariant state → meets state event → Ensures (step state event) invariant)
    {start last : State} (initial : invariant start) {events : List Event} (along : Along step meets start events)
    (ran : runUntil step start events = .ok last) : invariant last := by
  have ends := runUntil_ends (fun state event holds condition => .of_ensures (steps state event holds condition))
    initial along
  rw [ran] at ends
  exact ends

/-- When every step succeeds in the invariant, so does the run. -/
theorem runUntil_total {invariant : State → Prop}
    (steps : ∀ state event, invariant state → meets state event → ∃ later, step state event = .ok later ∧ invariant later)
    {start : State} (initial : invariant start) {events : List Event} (along : Along step meets start events) :
    ∃ last, runUntil step start events = .ok last ∧ invariant last := by
  induction events generalizing start with
  | nil => exact ⟨start, rfl, initial⟩
  | cons event rest ih =>
    obtain ⟨later, stepped, holds⟩ := steps start event initial along.1
    obtain ⟨last, ran, ends⟩ := ih holds (along.2 later stepped)
    exact ⟨last, bind_eq_ok.mpr ⟨later, stepped, ran⟩, ends⟩

end Failing

end Straks.Run
