import Mathlib.Algebra.Order.BigOperators.Group.Finset
import Mathlib.Data.Fintype.BigOperators
import Mathlib.Tactic.Ring
import Straks.Construction.Chain.CheckQueue

namespace Straks.CheckQueue

open List Function Position CCheckQueue

variable {n : Nat} {T : Type}

namespace Position

/-- The thread counts for `nTotal`, `nIdle` and `nTodo`. -/
def active : Position T → Int
  | outside => 0
  | _ => 1

def idle : Position T → Int
  | waiting => 1
  | _ => 0

def pending : Position T → Int
  | working _ nNow _ => nNow
  | _ => 0

/-- The batch has failed nowhere yet, and will not. -/
def Succeeds (check : T → Bool) : Position T → Prop
  | working vChecks _ fOk => fOk = true ∧ ∀ one ∈ vChecks, check one = true
  | _ => True

/-- A batch is never empty. -/
def Sized : Position T → Prop
  | working _ nNow _ => 0 < nNow
  | _ => True

end Position

/-- What holds with that many threads in the critical section, counted as outside. -/
structure Consistent (check : T → Bool) (nBatchSize : Nat) (inside : Int) (system : System n T) : Prop where
  settings : system.queue.fQuit = false ∧ system.queue.nBatchSize = nBatchSize
  total : system.queue.nTotal = ∑ thread, (system.threads thread).active + inside
  idle : system.queue.nIdle = ∑ thread, (system.threads thread).idle
  todo : system.queue.nTodo = system.queue.queue.length + ∑ thread, (system.threads thread).pending
  known : system.queue.nTodo ≤ system.added.length
  sized : ∀ thread, (system.threads thread).Sized
  result : (∀ one ∈ system.added, check one = true) ↔ system.queue.fAllOk = true ∧
    (∀ one ∈ system.queue.queue, check one = true) ∧ ∀ thread, (system.threads thread).Succeeds check

section Steps

variable {check : T → Bool} {system : System n T} {threads : Option (Fin n) → Position T} {thread : Option (Fin n)}
  {position : Position T} {nBatchSize : Nat} {inside : Int}

theorem sum_update (value : Position T → Int) : ∑ other, value (update threads thread position other) =
      ∑ other, value (threads other) - value (threads thread) + value position := by
  rw [Fintype.sum_eq_add_sum_compl thread, Fintype.sum_eq_add_sum_compl thread fun other => value (threads other),
    update_self]
  have others : ∑ other ∈ {thread}ᶜ, value (update threads thread position other) =
      ∑ other ∈ {thread}ᶜ, value (threads other) := by
    refine Finset.sum_congr rfl fun other apart => ?_
    rw [update_of_ne (by simpa using apart)]
  rw [others]
  ring

variable {holds : Position T → Prop} {queue : CCheckQueue T}

theorem forall_update : (∀ other, holds (update threads thread position other)) ↔
      holds position ∧ ∀ other, other ≠ thread → holds (threads other) :=
  forall_update_iff threads fun _ => holds

theorem forall_split (thread : Option (Fin n)) :
    (∀ other, holds (threads other)) ↔ holds (threads thread) ∧ ∀ other, other ≠ thread → holds (threads other) := by
  rw [← forall_update, update_eq_self]

theorem pending_nonneg (position : Position T) : 0 ≤ position.pending := by
  cases position <;> simp [pending]

/-- With nothing to do, the queue is empty and no thread works. -/
theorem Consistent.nothing (consistent : Consistent check nBatchSize inside system) (none : system.queue.nTodo = 0) :
    system.queue.queue = [] ∧ ∀ thread, (system.threads thread).pending = 0 := by
  have nonneg : 0 ≤ ∑ thread, (system.threads thread).pending := Finset.sum_nonneg fun _ _ => pending_nonneg _
  have todo := consistent.todo
  have sum : ∑ thread, (system.threads thread).pending = 0 := by omega
  refine ⟨length_eq_zero_iff.mp (by omega), fun thread => ?_⟩
  exact (Finset.sum_eq_zero_iff_of_nonneg fun _ _ => pending_nonneg _).mp sum thread (Finset.mem_univ thread)

theorem Position.not_working (sized : position.Sized) (done : position.pending = 0) :
    position.active = position.idle ∧ position.Succeeds check := by
  cases position <;> simp_all [Position.Sized, pending, active, idle, Position.Succeeds]

/-- A thread moves, and the queue changes by the difference. -/
theorem Consistent.move {later : Int} (consistent : Consistent check nBatchSize inside system)
    (settings : queue.fQuit = system.queue.fQuit ∧ queue.nBatchSize = system.queue.nBatchSize)
    (total : queue.nTotal - position.active - later = system.queue.nTotal - (system.threads thread).active - inside)
    (idle : queue.nIdle - position.idle = system.queue.nIdle - (system.threads thread).idle)
    (todo : queue.nTodo - queue.queue.length - position.pending = system.queue.nTodo - system.queue.queue.length - (system.threads thread).pending)
    (fewer : queue.nTodo ≤ system.queue.nTodo) (sized : position.Sized)
    (result : (queue.fAllOk = true ∧ (∀ one ∈ queue.queue, check one = true) ∧ position.Succeeds check) ↔ system.queue.fAllOk = true ∧ (∀ one ∈ system.queue.queue, check one = true) ∧ (system.threads thread).Succeeds check)
    : Consistent check nBatchSize later ⟨queue, update system.threads thread position, system.added⟩ := by
  obtain ⟨settings', total', idle', todo', known, sized', result'⟩ := consistent
  rw [forall_split thread] at sized' result'
  refine ⟨settings.1 ▸ settings.2 ▸ settings', ?_, ?_, ?_, by dsimp only; omega, forall_update.mpr ⟨sized, sized'.2⟩, ?_⟩
  · simp only [sum_update]
    omega
  · simp only [sum_update]
    omega
  · simp only [sum_update]
    omega
  · rw [forall_update]
    tauto

/-- A thread that takes the lock enters the critical section. -/
theorem Consistent.lock (consistent : Consistent check nBatchSize 0 system)
    (ready : ∀ first rest nNow fOk, system.threads thread ≠ .working (first :: rest) nNow fOk) :
    Consistent check nBatchSize 1 { system with
      queue := system.queue.lock (system.threads thread), threads := update system.threads thread .outside } := by
  apply consistent.move <;> cases place : system.threads thread with
  | outside | waiting =>
    simp [CCheckQueue.lock, Position.active, Position.idle, Position.pending, Position.Sized, Position.Succeeds]
  | working vChecks nNow fOk =>
    cases vChecks with
    | cons first rest => exact absurd place (ready first rest nNow fOk)
    | nil =>
      simp [CCheckQueue.lock, Position.active, Position.idle, Position.pending, Position.Sized, Position.Succeeds,
        sub_right_comm, and_comm, and_assoc, and_left_comm]

/-- Between two uses nothing is queued and no thread works. -/
theorem Consistent.rests (consistent : Consistent check nBatchSize 0 system) (none : system.added = []) :
    system.queue.isIdle = true ∧ system.queue.queue = [] ∧ ∀ thread, (system.threads thread).pending = 0 := by
  have nonneg : 0 ≤ ∑ thread, (system.threads thread).pending := Finset.sum_nonneg fun _ _ => pending_nonneg _
  have known := consistent.known
  have todo := consistent.todo
  rw [none, length_nil] at known
  have done : system.queue.nTodo = 0 := by omega
  obtain ⟨empty, idle⟩ := consistent.nothing done
  have allOk := (consistent.result.mp (by simp [none])).1
  have counts : ∑ thread, (system.threads thread).active = ∑ thread, (system.threads thread).idle :=
    Finset.sum_congr rfl fun thread _ =>
      (@not_working _ check _ (consistent.sized thread) (idle thread)).1
  refine ⟨?_, empty, idle⟩
  simp [isIdle, done, allOk, consistent.total, consistent.idle, counts]

/-- What the critical section does with the thread inside it. -/
theorem Consistent.next (consistent : Consistent check nBatchSize 1 system) (outside : system.threads thread = .outside)
    {fMaster : Bool} {returned : Option Bool} (passed : system.queue.next fMaster = (queue, position, returned)) :
    Consistent check nBatchSize 0
        ⟨queue, update system.threads thread position, if returned.isSome then [] else system.added⟩ ∧
      ∀ result, returned = some result → fMaster = true ∧ (result = true ↔ ∀ one ∈ system.added, check one = true) := by
  unfold CCheckQueue.next at passed
  split at passed
  · rename_i empty
    rw [List.isEmpty_iff] at empty
    split at passed
    · rename_i ends
      have master : fMaster = true ∧ system.queue.nTodo = 0 := by simpa [consistent.settings.1] using ends
      obtain ⟨-, idlers⟩ := consistent.nothing master.2
      have succeed (other : Option (Fin n)) : (system.threads other).Succeeds check :=
        (Position.not_working (consistent.sized other) (idlers other)).2
      cases passed
      rw [← outside, update_eq_self]
      refine ⟨⟨consistent.settings, ?_, consistent.idle, consistent.todo, ?_, consistent.sized, ?_⟩, ?_⟩
      · simp [consistent.total]
      · simp [master.2]
      · simp [empty, master.1, succeed]
      · simp [consistent.result, empty, succeed, master.1]
    · cases passed
      refine ⟨consistent.move ⟨rfl, rfl⟩ ?_ ?_ ?_ le_rfl trivial ?_, by simp⟩ <;>
        simp [outside, Position.active, Position.idle, Position.pending, Position.Succeeds]
  · rename_i some
    cases passed
    have positive := length_pos_iff.mpr (isEmpty_iff.not.mp some)
    have share := Int.ediv_le_self (system.queue.nTotal + system.queue.nIdle + 1)
      (Int.natCast_nonneg system.queue.queue.length)
    generalize batch : max 1 (min system.queue.nBatchSize
      (system.queue.queue.length / (system.queue.nTotal + system.queue.nIdle + 1)).toNat) = nNow
    have bounds : 0 < nNow ∧ nNow ≤ system.queue.queue.length := by omega
    have parts : (∀ one ∈ system.queue.queue, check one = true) ↔
        (∀ one ∈ system.queue.queue.take nNow, check one = true) ∧
          ∀ one ∈ system.queue.queue.drop nNow, check one = true := by
      rw [← forall_mem_append, take_append_drop]
    refine ⟨consistent.move ⟨rfl, rfl⟩ ?_ ?_ ?_ le_rfl bounds.1 ?_, by simp⟩
    · simp [outside, Position.active]
    · simp [outside, Position.idle]
    · simp only [outside, Position.pending, length_drop]
      omega
    · rw [outside]
      simp only [Position.Succeeds]
      tauto

/-- An action returns the conjunction of all checks since `Wait`. -/
theorem Consistent.act (consistent : Consistent check nBatchSize 0 system) (action : Action n T) :
    Consistent check nBatchSize 0 (system.act check action).1 ∧ ∀ result, (system.act check action).2 = some result →
      (result = true ↔ ∀ one ∈ system.added, check one = true) ∧ (system.act check action).1.added = [] := by
  cases action with
  | add vChecks =>
    simp only [System.act]
    split
    · obtain ⟨settings, total, idle, todo, known, sized, result⟩ := consistent
      refine ⟨⟨settings, total, idle, ?_, ?_, sized, ?_⟩, by simp⟩
      · simp only [add, length_append, length_reverse]
        omega
      · simp only [add, length_append]
        omega
      · simp only [add, forall_mem_append, mem_reverse, result]
        tauto
    · exact ⟨consistent, by simp⟩
  | evaluate thread =>
    simp only [System.act]
    split
    · rename_i first rest nNow fOk place
      have sized := consistent.sized thread
      rw [place] at sized
      refine ⟨consistent.move ⟨rfl, rfl⟩ ?_ ?_ ?_ le_rfl sized ?_, by simp⟩ <;> rw [place]
      · rfl
      · rfl
      · rfl
      · simp only [Position.Succeeds, Bool.and_eq_true, forall_mem_cons, and_assoc]
    · exact ⟨consistent, by simp⟩
  | lock thread =>
    simp only [System.act]
    split
    · exact ⟨consistent, by simp⟩
    · rename_i ready
      generalize passed : (system.queue.lock (system.threads thread)).next thread.isNone = result
      obtain ⟨queue, position, returned⟩ := result
      obtain ⟨later, returns⟩ := (consistent.lock ready).next (update_self ..) passed
      rw [update_idem] at later
      -- without a request to quit only the master returns
      have same : (if thread.isNone then returned else none) = returned := by
        cases returned with
        | none => simp
        | some result => simp [(returns result rfl).1]
      simp only [System.enter, passed, same]
      exact ⟨later, fun result isResult => ⟨(returns result isResult).2, by simp [isResult]⟩⟩

end Steps

theorem eq_new {queue : CCheckQueue T} {nBatchSize : Nat} (isIdle : queue.isIdle = true) (empty : queue.queue = [])
    (settings : queue.fQuit = false ∧ queue.nBatchSize = nBatchSize) :
    queue = { CCheckQueue.new nBatchSize with nTotal := queue.nTotal, nIdle := queue.nTotal } := by
  cases queue
  simp_all [CCheckQueue.isIdle, CCheckQueue.new]

theorem run_consistent (check : T → Bool) (nBatchSize : Nat) (actions : List (Action n T)) :
    Consistent check nBatchSize 0 (System.run check nBatchSize actions) := by
  refine Run.run_history (fun _ system => Consistent check nBatchSize 0 system) ?_
    (fun _ action consistent => (consistent.act action).1) actions
  constructor <;> simp [System.new, new, active, idle, pending, Position.Sized,
    Position.Succeeds]

/-- For every number of threads, batch size, outcome of the checks and interleaving, the queue is idle when no checks
were added since the last `Wait`. A `Wait` returns whether all of them succeed, and leaves the queue idle. -/
theorem wait_correct (n : Nat) (T : Type) (check : T → Bool) (nBatchSize : Nat) (actions : List (Action n T)) :
    let system := System.run check nBatchSize actions
    (system.added = [] → system.queue.isIdle = true) ∧
    ∀ action result, (system.act check action).2 = some result →
      let later := (system.act check action).1
      (result = true ↔ ∀ one ∈ system.added, check one = true) ∧ later.added = [] ∧
      (∀ thread vChecks nNow fOk, later.threads thread ≠ .working vChecks nNow fOk) ∧ later.queue.isIdle = true ∧
      later.queue = { new nBatchSize with nTotal := later.queue.nTotal, nIdle := later.queue.nTotal } := by
  have consistent := run_consistent check nBatchSize actions
  refine ⟨fun none => (consistent.rests none).1, fun action result returned => ?_⟩
  obtain ⟨later, returns⟩ := consistent.act action
  obtain ⟨correct, none⟩ := returns result returned
  obtain ⟨isIdle, empty, pending⟩ := later.rests none
  refine ⟨correct, none, ?_, isIdle, ?_⟩
  · intro thread vChecks nNow fOk place
    have sized := later.sized thread
    have done := pending thread
    rw [place] at sized done
    simp only [Position.Sized, Position.pending] at sized done
    omega
  · exact eq_new isIdle empty later.settings

/-- A worker takes one of two checks, the master the failing one. -/
theorem wait_returns_false : ∃ later, (System.run (n := 1) (fun one => one) 1 [.lock (some 0), .add [true, false], .lock none,
    .lock (some 0), .evaluate none, .lock none, .evaluate (some 0), .lock (some 0)]).act (fun one => one) (.lock none) =
      (later, some false) ∧ later.queue.isIdle = true := by
  refine ⟨_, rfl, ?_⟩
  exact ((wait_correct 1 Bool (fun one => one) 1 [.lock (some 0), .add [true, false], .lock none, .lock (some 0),
    .evaluate none, .lock none, .evaluate (some 0), .lock (some 0)]).2 (.lock none) false rfl).2.2.2.1

end Straks.CheckQueue
