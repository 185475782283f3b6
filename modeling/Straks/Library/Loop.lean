import Mathlib.Order.Basic

namespace Straks.Loop

/-- A turn of a loop asks for another one or ends the loop. -/
inductive Turn (State : Type) where
  | again (state : State)
  | stop (state : State)

/-- The state a turn leaves behind. -/
def Turn.state {State : Type} : Turn State → State
  | .again state => state
  | .stop state => state

variable {Error State : Type}

/-- The turns of a loop; the last error stands for more turns than expected. -/
def iterate (turn : State → Except Error (Turn State)) (diverged : Error) : Nat → State → Except Error State
  | 0, _ => .error diverged
  | fuel + 1, state => do
    match ← turn state with
    | .again next => iterate turn diverged fuel next
    | .stop last => .ok last

/-- A turn succeeds, gets closer to the end, and ends in the postcondition. -/
structure Proceeds (turn : State → Except Error (Turn State)) (invariant post : State → Prop) (measure : State → Nat)
    (state : State) (next : Turn State) : Prop where
  succeeds : turn state = .ok next
  again : ∀ later, next = .again later → invariant later ∧ measure later < measure state
  stop : ∀ last, next = .stop last → post last

variable {turn : State → Except Error (Turn State)}

/-- A loop whose turns proceed ends in the postcondition. -/
theorem iterate_ok {invariant post : State → Prop} (measure : State → Nat)
    (turns : ∀ state, invariant state → ∃ next, Proceeds turn invariant post measure state next) (diverged : Error)
    {fuel : Nat} {start : State} (initial : invariant start) (enough : measure start < fuel) :
    ∃ last, iterate turn diverged fuel start = .ok last ∧ post last := by
  induction fuel generalizing start with
  | zero => exact absurd enough (Nat.not_lt_zero _)
  | succ fuel ih =>
    obtain ⟨next, succeeds, again, stop⟩ := turns start initial
    simp only [iterate, succeeds, bind, Except.bind]
    cases next with
    | again later =>
      obtain ⟨holds, closer⟩ := again later rfl
      exact ih holds (by omega)
    | stop last => exact ⟨last, rfl, stop last rfl⟩

/-- The states of a loop while each turn meets a condition. -/
inductive Reached (turn : State → Except Error (Turn State)) (meets : State → Prop) (start : State) : State → Prop
  | start : Reached turn meets start start
  | turn {state : State} {next : Turn State} (reached : Reached turn meets start state) (condition : meets state)
      (succeeds : turn state = .ok next) : Reached turn meets start next.state

/-- What holds at the start and is kept by each turn holds in every state. -/
theorem Reached.invariant {meets invariant : State → Prop} {start state : State}
    (reached : Reached turn meets start state) (initial : invariant start)
    (turns : ∀ state next, invariant state → meets state → turn state = .ok next → invariant next.state) :
    invariant state := by
  induction reached with
  | start => exact initial
  | turn _ condition succeeds ih => exact turns _ _ ih condition succeeds

end Straks.Loop
