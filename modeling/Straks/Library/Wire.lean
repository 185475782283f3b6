import Straks.Library.Success

namespace Straks.Wire

open Success List

/-- A reader takes a value off the front of a stream, or fails. -/
abbrev Reader (Error : Type) := StateT (List UInt8) (Except Error)

variable {Error Value Result : Type}

/-- That many bytes off the front of the stream. -/
def takeBytes (exhausted : Error) (count : Nat) : Reader Error (List UInt8) :=
  fun stream => if stream.length < count then .error exhausted else .ok (stream.take count, stream.drop count)

/-- That many values, one after another. -/
def readItems (read : Reader Error Value) : Nat → Reader Error (List Value)
  | 0 => pure []
  | count + 1 => do
    let item ← read
    let items ← readItems read count
    return item :: items

variable (read : Reader Error Value)

/-- The reader takes these bytes off every stream. -/
def Reads (bytes : List UInt8) (value : Value) : Prop :=
  ∀ rest, read.run (bytes ++ rest) = .ok (value, rest)

/-- When the reader succeeds, its bytes and value satisfy the postcondition. -/
def Consumes (post : List UInt8 → Value → Prop) : Prop :=
  ∀ stream value rest, read.run stream = .ok (value, rest) → ∃ bytes, stream = bytes ++ rest ∧ post bytes value

/-- The reader accepts exactly what is written for fitting values. -/
structure Encodes (write : Value → List UInt8) (fits : Value → Prop) : Prop where
  reads : ∀ value, fits value → Reads read (write value) value
  consumes : Consumes read fun bytes value => bytes = write value ∧ fits value

section Reads

variable {read : Reader Error Value} {next : Value → Reader Error Result} {bytes more : List UInt8} {value : Value}
  {result : Result}

theorem Reads.pure (value : Value) : Reads (pure value : Reader Error Value) [] value := fun _ => rfl

variable (first : Reads read bytes value)
include first

/-- After its bytes a sequence goes on with the rest. -/
theorem Reads.run_bind (rest : List UInt8) : (read >>= next).run (bytes ++ rest) = (next value).run rest := by
  rw [StateT.run_bind, first]
  rfl

theorem Reads.bind (second : Reads (next value) more result) : Reads (read >>= next) (bytes ++ more) result := by
  intro rest
  rw [append_assoc, first.run_bind]
  exact second rest

/-- The last read of a sequence and its computed value. -/
theorem Reads.last {convert : Value → Result} : Reads (do return convert (← read)) bytes (convert value) := by
  intro rest
  rw [first.run_bind]
  rfl

end Reads

section Consumes

variable {read : Reader Error Value} {next : Value → Reader Error Result}

variable {post : List UInt8 → Value → Prop}

theorem Consumes.pure {value : Value} (holds : post [] value) : Consumes (pure value : Reader Error Value) post := by
  intro stream result rest success
  cases success
  exact ⟨[], rfl, holds⟩

theorem Consumes.throw (error : Error) (post : List UInt8 → Value → Prop) :
    Consumes (throw error : Reader Error Value) post := by
  intro stream value rest success
  cases success

/-- A computation that does not touch the stream. -/
theorem Consumes.lift {computation : Except Error Value} (holds : ∀ value, computation = .ok value → post [] value) :
    Consumes (liftM computation : Reader Error Value) post := by
  intro stream value rest success
  cases computed : computation with
  | error error =>
    rw [computed] at success
    cases success
  | ok result =>
    rw [computed] at success
    cases success
    exact ⟨[], rfl, holds _ computed⟩

theorem Consumes.bind {middle : List UInt8 → Value → Prop} {post : List UInt8 → Result → Prop}
    (first : Consumes read middle)
    (second : ∀ bytes value, middle bytes value → Consumes (next value) fun more => post (bytes ++ more)) :
    Consumes (read >>= next) post := by
  intro stream result rest success
  rw [StateT.run_bind, bind_eq_ok] at success
  obtain ⟨⟨value, left⟩, firstRead, secondRead⟩ := success
  obtain ⟨bytes, rfl, holds⟩ := first stream value left firstRead
  obtain ⟨more, rfl, ends⟩ := second bytes value holds left result rest secondRead
  exact ⟨bytes ++ more, (append_assoc _ _ _).symm, ends⟩

theorem Consumes.mono {weaker : List UInt8 → Value → Prop} (consumes : Consumes read post)
    (weakens : ∀ bytes value, post bytes value → weaker bytes value) : Consumes read weaker := by
  intro stream value rest success
  obtain ⟨bytes, split, holds⟩ := consumes stream value rest success
  exact ⟨bytes, split, weakens bytes value holds⟩

theorem Consumes.last {convert : Value → Result} {post : List UInt8 → Result → Prop}
    (first : Consumes read fun bytes value => post bytes (convert value)) :
    Consumes (do return convert (← read)) post := by
  apply first.bind
  intro bytes value holds
  apply Consumes.pure
  rwa [append_nil]

theorem Consumes.branch {test : Prop} [Decidable test] {yes no : Reader Error Value}
    (whenYes : test → Consumes yes post) (whenNo : ¬ test → Consumes no post) :
    Consumes (if test then yes else no) post := by
  split
  · exact whenYes ‹_›
  · exact whenNo ‹_›

end Consumes

theorem takeBytes_encodes (exhausted : Error) (count : Nat) :
    Encodes (takeBytes exhausted count) id fun bytes => bytes.length = count where
  reads bytes length rest := by
    subst length
    simp [takeBytes, StateT.run]
  consumes := by
    intro stream value rest success
    simp only [takeBytes, StateT.run] at success
    split_ifs at success
    cases success
    refine ⟨stream.take count, (take_append_drop count stream).symm, rfl, ?_⟩
    rw [length_take]
    omega

theorem readItems_reads {read : Reader Error Value} {write : Value → List UInt8} {items : List Value}
    (each : ∀ item ∈ items, Reads read (write item) item) :
    Reads (readItems read items.length) (items.flatMap write) items := by
  induction items with
  | nil => exact Reads.pure []
  | cons item rest ih =>
    rw [forall_mem_cons] at each
    exact each.1.bind (Reads.last (ih each.2))

theorem readItems_consumes {read : Reader Error Value} {write : Value → List UInt8} {fits : Value → Prop}
    (each : Consumes read fun bytes value => bytes = write value ∧ fits value) (count : Nat) :
    Consumes (readItems read count) fun bytes items =>
      bytes = items.flatMap write ∧ items.length = count ∧ ∀ item ∈ items, fits item := by
  induction count with
  | zero => exact Consumes.pure ⟨rfl, rfl, by simp⟩
  | succ count ih =>
    apply each.bind
    rintro _ item ⟨rfl, itemFits⟩
    apply Consumes.last
    apply ih.mono
    rintro _ items ⟨rfl, length, fit⟩
    rw [forall_mem_cons]
    exact ⟨flatMap_cons.symm, by rw [length_cons, length], itemFits, fit⟩

end Straks.Wire
