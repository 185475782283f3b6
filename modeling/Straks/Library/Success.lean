import Mathlib.Data.List.Basic

namespace Straks.Success

variable {Error Value Result : Type}

/-- When the strict computation succeeds, the loose one succeeds with the same value. -/
def Refines (strict loose : Except Error Value) : Prop :=
  ∀ value, strict = .ok value → loose = .ok value

theorem Refines.refl (computation : Except Error Value) : Refines computation computation :=
  fun _ success => success

theorem Refines.error (error : Error) (loose : Except Error Value) : Refines (.error error) loose :=
  fun _ success => nomatch success

variable {first computation : Except Error Value} {next : Value → Except Error Result} {post : Value → Prop}

theorem bind_eq_ok {result : Result} :
    (first >>= next) = .ok result ↔ ∃ value, first = .ok value ∧ next value = .ok result := by
  cases first with
  | error error =>
    constructor
    · exact fun success => nomatch success
    · rintro ⟨_, impossible, _⟩
      exact nomatch impossible
  | ok value =>
    constructor
    · exact fun success => ⟨value, rfl, success⟩
    · rintro ⟨_, same, success⟩
      cases same
      exact success

variable {value : Value} {strict loose : Except Error Value}

theorem guard_eq_ok {test : Prop} [Decidable test] {error : Error} :
    (if test then .error error else computation) = .ok value ↔ ¬test ∧ computation = .ok value := by
  by_cases failed : test <;> simp [failed]

theorem ok_of_toOption (found : computation.toOption = some value) : computation = .ok value := by
  cases computation with
  | error failure => cases found
  | ok other => exact congrArg Except.ok (Option.some.inj found)

/-- Sequenced computations refine each other step by step. -/
theorem Refines.bind {strictNext looseNext : Value → Except Error Result} (first : Refines strict loose)
    (next : ∀ value, Refines (strictNext value) (looseNext value)) :
    Refines (strict >>= strictNext) (loose >>= looseNext) := by
  intro result success
  rcases bind_eq_ok.mp success with ⟨value, strictValue, strictResult⟩
  exact bind_eq_ok.mpr ⟨value, first value strictValue, next value result strictResult⟩

/-- A test that fails less often refines, whatever the errors. -/
theorem Refines.guard {strictTest looseTest : Prop} [Decidable strictTest] [Decidable looseTest]
    {strictError looseError : Error} (weaker : looseTest → strictTest) (rest : Refines strict loose) :
    Refines (if strictTest then .error strictError else strict) (if looseTest then .error looseError else loose) := by
  by_cases test : strictTest
  · rw [if_pos test]
    exact .error _ _
  · rw [if_neg test, if_neg fun loosely => test (weaker loosely)]
    exact rest

/-- Both branches of a shared test refine. -/
theorem Refines.branch {test : Prop} [Decidable test]
    {strictYes strictNo looseYes looseNo : Except Error Value} (yes : test → Refines strictYes looseYes)
    (no : ¬ test → Refines strictNo looseNo) :
    Refines (if test then strictYes else strictNo) (if test then looseYes else looseNo) := by
  by_cases holds : test
  · rw [if_pos holds, if_pos holds]
    exact yes holds
  · rw [if_neg holds, if_neg holds]
    exact no holds

/-- If the computation succeeds, its value meets the postcondition. -/
def Ensures (computation : Except Error Value) (post : Value → Prop) : Prop :=
  ∀ value, computation = .ok value → post value

theorem Ensures.ok (holds : post value) : Ensures (.ok value : Except Error Value) post := by
  intro result success
  cases success
  exact holds

theorem Ensures.error (error : Error) (post : Value → Prop) : Ensures (.error error) post :=
  fun _ success => nomatch success

theorem Ensures.bind {middle : Value → Prop} {post : Result → Prop} (start : Ensures first middle)
    (continues : ∀ value, middle value → Ensures (next value) post) : Ensures (first >>= next) post := by
  intro result success
  rcases bind_eq_ok.mp success with ⟨value, firstValue, nextResult⟩
  exact continues value (start value firstValue) result nextResult

/-- The first computation's value does not matter. -/
theorem Ensures.then {post : Result → Prop} (continues : ∀ value, Ensures (next value) post) :
    Ensures (first >>= next) post :=
  .bind (fun _ _ => trivial) fun value (_ : True) => continues value

theorem Ensures.mono {next : Value → Prop} (ensures : Ensures computation post)
    (values : ∀ value, post value → next value) : Ensures computation next :=
  fun value success => values value (ensures value success)

theorem Ensures.map {convert : Value → Result} {post : Result → Prop}
    (ensures : Ensures computation fun value => post (convert value)) : Ensures (convert <$> computation) post := by
  cases computation with
  | error error => exact .error error post
  | ok value => exact .ok (ensures value rfl)

/-- A loop keeps what each of its steps keeps. -/
theorem Ensures.foldlM {Item : Type} {step : Value → Item → Except Error Value} {invariant : Value → Prop}
    (steps : ∀ value item, invariant value → Ensures (step value item) invariant) {start : Value}
    (initial : invariant start) (items : List Item) : Ensures (items.foldlM step start) invariant := by
  induction items generalizing start with
  | nil => exact .ok initial
  | cons item rest ih =>
    exact .bind (steps start item initial) fun _ holds => ih holds

/-- Ends in the postcondition or fails with an allowed error. -/
def Ends (computation : Except Error Value) (allowed : Error → Prop) (post : Value → Prop) : Prop :=
  match computation with
  | .ok value => post value
  | .error error => allowed error

section Ends

variable {allowed : Error → Prop}

variable {post : Value → Prop} {first computation : Except Error Value} {next : Value → Except Error Result}

theorem Ends.ok {value : Value} (holds : post value) : Ends (.ok value : Except Error Value) allowed post := holds

theorem Ends.error {error : Error} (holds : allowed error) : Ends (.error error) allowed post := holds

theorem Ends.of_ensures (ensures : Ensures computation post) : Ends computation (fun _ => True) post := by
  cases computation with
  | error error => trivial
  | ok value => exact ensures value rfl

theorem Ends.mono {weaker : Error → Prop} {next : Value → Prop} (ends : Ends computation allowed post)
    (errors : ∀ error, allowed error → weaker error) (values : ∀ value, post value → next value) :
    Ends computation weaker next := by
  cases computation with
  | error error => exact errors error ends
  | ok value => exact values value ends

theorem Ends.bind_eq {middle : Value → Prop} {post : Result → Prop} (start : Ends first allowed middle)
    (continues : ∀ value, first = .ok value → middle value → Ends (next value) allowed post) :
    Ends (first >>= next) allowed post := by
  cases first with
  | error error => exact start
  | ok value => exact continues value rfl start

theorem Ends.bind {middle : Value → Prop} {post : Result → Prop} (start : Ends first allowed middle)
    (continues : ∀ value, middle value → Ends (next value) allowed post) : Ends (first >>= next) allowed post :=
  start.bind_eq fun value _ => continues value

/-- When the first computation ends well, the whole depends on what follows. -/
theorem Ends.bind_iff {post : Result → Prop} (start : Ends first allowed fun _ => True) :
    Ends (first >>= next) allowed post ↔ ∀ value, first = .ok value → Ends (next value) allowed post := by
  constructor
  · intro ends value success
    rw [success] at ends
    exact ends
  · exact fun continues => start.bind_eq fun value success _ => continues value success

/-- When what follows ends well, the whole depends on the first computation. -/
theorem Ends.bind_iff_first {post : Result → Prop} (continues : ∀ value, Ends (next value) allowed post) :
    Ends (first >>= next) allowed post ↔ Ends first allowed fun _ => True := by
  cases first with
  | error error => exact Iff.rfl
  | ok value => exact iff_of_true (continues value) trivial

theorem Ends.map {convert : Value → Result} {post : Result → Prop}
    (ends : Ends computation allowed fun value => post (convert value)) :
    Ends (computation.map convert) allowed post := by
  cases computation with
  | error error => exact ends
  | ok value => exact ends

theorem Ends.branch {test : Prop} [Decidable test] {yes no : Except Error Value}
    (whenYes : test → Ends yes allowed post) (whenNo : ¬ test → Ends no allowed post) :
    Ends (if test then yes else no) allowed post := by
  split
  · exact whenYes ‹_›
  · exact whenNo ‹_›

end Ends

end Straks.Success
