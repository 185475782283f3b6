import Mathlib.Data.Multiset.Basic
import Mathlib.Order.Lattice

namespace Straks.Latest

/-- Messages name a register and a time, and some are valid. -/
structure Channel (Name Message Time : Type) where
  name : Message → Name
  time : Message → Time
  valid : Message → Prop

variable {Name Message Time : Type}

/-- The message is a valid one for the register. -/
def Channel.Offers (channel : Channel Name Message Time) (messages : Multiset Message) (name : Name)
    (message : Message) : Prop :=
  message ∈ messages ∧ channel.valid message ∧ channel.name message = name

theorem Channel.offers_cons {channel : Channel Name Message Time} {messages : Multiset Message} {name : Name}
    {head message : Message} : channel.Offers (head ::ₘ messages) name message ↔
      channel.Offers messages name message ∨ message = head ∧ channel.valid head ∧ channel.name head = name := by
  rw [Offers, Multiset.mem_cons]
  constructor
  · rintro ⟨rfl | member, valid, named⟩
    · exact .inr ⟨rfl, valid, named⟩
    · exact .inl ⟨member, valid, named⟩
  · rintro (⟨member, valid, named⟩ | ⟨rfl, valid, named⟩)
    · exact ⟨.inr member, valid, named⟩
    · exact ⟨.inl rfl, valid, named⟩

variable [LinearOrder Time] (channel : Channel Name Message Time) (messages : Multiset Message)

/-- None of the valid messages for the register is later. -/
def Channel.IsLatest (name : Name) (message : Message) : Prop :=
  channel.Offers messages name message ∧
    ∀ other, channel.Offers messages name other → channel.time other ≤ channel.time message

/-- Valid messages for one register and time are equal. -/
def Channel.Distinct : Prop :=
  ∀ name first second, channel.Offers messages name first → channel.Offers messages name second →
    channel.time first = channel.time second → first = second

/-- Each register holds the latest of its valid messages, if any. -/
structure Channel.Holds (registers : Name → Option Message) : Prop where
  latest : ∀ name message, registers name = some message → channel.IsLatest messages name message
  empty : ∀ name, registers name = none → ∀ message, ¬ channel.Offers messages name message

/-- A message is stored when valid and later than what its register holds, else nothing changes. -/
structure Channel.Takes (before : Name → Option Message) (message : Message) (after : Name → Option Message) :
    Prop where
  others : ∀ name, name ≠ channel.name message → after name = before name
  fresh : channel.valid message →
    (∀ held, before (channel.name message) = some held → channel.time held < channel.time message) →
      after (channel.name message) = some message
  stale : ∀ held, before (channel.name message) = some held → channel.time message ≤ channel.time held →
    after (channel.name message) = before (channel.name message)
  invalid : ¬ channel.valid message → after (channel.name message) = before (channel.name message)

variable {channel} {messages : Multiset Message} {name : Name} {head : Message}

theorem Channel.IsLatest.unique {first second : Message} (distinct : channel.Distinct messages)
    (left : channel.IsLatest messages name first) (right : channel.IsLatest messages name second) :
    first = second := by
  have earlier := left.2 second right.1
  have later := right.2 first left.1
  exact distinct name first second left.1 right.1 (le_antisymm later earlier)

variable {registers before after : Name → Option Message}

/-- A valid later message becomes the register's latest. -/
theorem Channel.Holds.isLatest_head (holds : channel.Holds messages registers) (valid : channel.valid head)
    (newer : ∀ held, registers (channel.name head) = some held → channel.time held < channel.time head) :
    channel.IsLatest (head ::ₘ messages) (channel.name head) head := by
  refine ⟨offers_cons.mpr (.inr ⟨rfl, valid, rfl⟩), fun other offered => ?_⟩
  rcases offers_cons.mp offered with offered | ⟨rfl, -, -⟩
  · cases held : registers (channel.name head) with
    | none => exact absurd offered (holds.empty _ held other)
    | some holder =>
      have bounded := (holds.latest _ _ held).2 other offered
      exact le_of_lt (lt_of_le_of_lt bounded (newer holder held))
  · exact le_rfl

/-- An unchanged register keeps the latest message when no later one was offered. -/
theorem Channel.Holds.kept (holds : channel.Holds messages before) (same : after name = before name)
    (bounded : channel.valid head → channel.name head = name → ∃ held, before name = some held ∧ channel.time head ≤ channel.time held)
    : (∀ message, after name = some message → channel.IsLatest (head ::ₘ messages) name message) ∧
      (after name = none → ∀ message, ¬ channel.Offers (head ::ₘ messages) name message) := by
  rw [same]
  constructor
  · intro message held
    have latest := holds.latest name message held
    refine ⟨offers_cons.mpr (.inl latest.1), fun other offered => ?_⟩
    rcases offers_cons.mp offered with offered | ⟨rfl, valid, named⟩
    · exact latest.2 other offered
    · obtain ⟨holder, same, later⟩ := bounded valid named
      rw [held] at same
      cases same
      exact later
  · intro empty message offered
    rcases offers_cons.mp offered with offered | ⟨rfl, valid, named⟩
    · exact holds.empty name empty message offered
    · obtain ⟨holder, held, -⟩ := bounded valid named
      rw [empty] at held
      exact absurd held.symm (Option.some_ne_none holder)

theorem Channel.Holds.takes (holds : channel.Holds messages before) (taken : channel.Takes before head after) :
    channel.Holds (head ::ₘ messages) after := by
  have each : ∀ name,
      (∀ message, after name = some message → channel.IsLatest (head ::ₘ messages) name message) ∧
        (after name = none → ∀ message, ¬ channel.Offers (head ::ₘ messages) name message) := by
    intro name
    by_cases named : name = channel.name head
    · subst named
      by_cases valid : channel.valid head
      · by_cases newer : ∀ held, before (channel.name head) = some held → channel.time held < channel.time head
        · have stored := taken.fresh valid newer
          rw [stored]
          constructor
          · intro message same
            cases same
            exact holds.isLatest_head valid newer
          · exact fun empty => absurd empty (Option.some_ne_none head)
        · push Not at newer
          obtain ⟨held, same, later⟩ := newer
          exact holds.kept (taken.stale held same later) fun _ _ => ⟨held, same, later⟩
      · exact holds.kept (taken.invalid valid) fun valid' => absurd valid' valid
    · exact holds.kept (taken.others name named) fun _ same => absurd same.symm named
  exact ⟨fun name => (each name).1, fun name => (each name).2⟩

theorem Channel.holds_empty : channel.Holds 0 fun _ => none :=
  ⟨fun _ _ held => absurd held.symm (Option.some_ne_none _), fun _ _ _ offered => Multiset.notMem_zero _ offered.1⟩

/-- A register depends on the messages, not their order. -/
theorem Channel.Holds.iff_isLatest (holds : channel.Holds messages registers) (distinct : channel.Distinct messages)
    (name : Name) (message : Message) : registers name = some message ↔ channel.IsLatest messages name message := by
  constructor
  · exact holds.latest name message
  · intro latest
    cases held : registers name with
    | none => exact absurd latest.1 (holds.empty name held message)
    | some holder => rw [latest.unique distinct (holds.latest name holder held)]

end Straks.Latest
