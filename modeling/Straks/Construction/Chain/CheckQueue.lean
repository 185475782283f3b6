import Straks.Library.Run

namespace Straks.CheckQueue

structure CCheckQueue (T : Type) where
  /-- The back of the vector comes first. -/
  queue : List T
  nIdle : Int
  nTotal : Int
  fAllOk : Bool
  nTodo : Int
  fQuit : Bool
  nBatchSize : Nat

/-- Where a thread without the lock is: outside `Loop`, waiting, or at work on a batch with the checks left and the
result so far. -/
inductive Position (T : Type) where
  | outside
  | waiting
  | working (vChecks : List T) (nNow : Nat) (fOk : Bool)

namespace CCheckQueue

variable {T : Type} (queue : CCheckQueue T)

def new (nBatchSizeIn : Nat) : CCheckQueue T := ⟨[], 0, 0, true, 0, false, nBatchSizeIn⟩

def isIdle : Bool := queue.nTotal == queue.nIdle && queue.nTodo == 0 && queue.fAllOk

def add (vChecks : List T) : CCheckQueue T :=
  { queue with queue := vChecks.reverse ++ queue.queue, nTodo := queue.nTodo + vChecks.length }

/-- The critical section of `Loop` after the test for an empty queue: a result, a wait, or a batch. -/
def next (fMaster : Bool) : CCheckQueue T × Position T × Option Bool :=
  if queue.queue.isEmpty then
    if (fMaster || queue.fQuit) && queue.nTodo == 0 then
      ({ queue with nTotal := queue.nTotal - 1, fAllOk := fMaster || queue.fAllOk }, .outside, some queue.fAllOk)
    else ({ queue with nIdle := queue.nIdle + 1 }, .waiting, none)
  else
    let nNow := max 1 (min queue.nBatchSize (queue.queue.length / (queue.nTotal + queue.nIdle + 1)).toNat)
    ({ queue with queue := queue.queue.drop nNow }, .working (queue.queue.take nNow) nNow queue.fAllOk, none)

/-- A thread takes the lock: it enters, wakes up, or hands in a batch. -/
def lock : Position T → CCheckQueue T
  | .outside => { queue with nTotal := queue.nTotal + 1 }
  | .waiting => { queue with nIdle := queue.nIdle - 1 }
  | .working _ nNow fOk => { queue with fAllOk := queue.fAllOk && fOk, nTodo := queue.nTodo - nNow }

end CCheckQueue

/-- The queue with its threads, `none` being the master, and the checks since the last `Wait`. -/
structure System (n : Nat) (T : Type) where
  queue : CCheckQueue T
  threads : Option (Fin n) → Position T
  added : List T

/-- The master adds checks, or a thread evaluates one or goes through the critical section. -/
inductive Action (n : Nat) (T : Type) where
  | add (vChecks : List T)
  | evaluate (thread : Option (Fin n))
  | lock (thread : Option (Fin n))

namespace System

variable {n : Nat} {T : Type}

def new (nBatchSize : Nat) : System n T := ⟨.new nBatchSize, fun _ => .outside, []⟩

/-- A thread passes the critical section, with what `Wait` returns to the master. -/
def enter (system : System n T) (thread : Option (Fin n)) : System n T × Option Bool :=
  let passed := (system.queue.lock (system.threads thread)).next thread.isNone
  let returned := if thread.isNone then passed.2.2 else none
  (⟨passed.1, Function.update system.threads thread passed.2.1, if returned.isSome then [] else system.added⟩, returned)

/-- An action impossible where its thread stands does nothing. -/
def act (check : T → Bool) (system : System n T) : Action n T → System n T × Option Bool
  | .add vChecks =>
    match system.threads none with
    | .outside => ({ system with queue := system.queue.add vChecks, added := vChecks ++ system.added }, none)
    | _ => (system, none)
  | .evaluate thread =>
    match system.threads thread with
    | .working (first :: rest) nNow fOk =>
      ({ system with threads := Function.update system.threads thread (.working rest nNow (fOk && check first)) }, none)
    | _ => (system, none)
  | .lock thread =>
    match system.threads thread with
    | .working (_ :: _) _ _ => (system, none)
    | _ => system.enter thread

def run (check : T → Bool) (nBatchSize : Nat) (actions : List (Action n T)) : System n T :=
  Run.run (fun system action => (system.act check action).1) (.new nBatchSize) actions

end System

end Straks.CheckQueue
