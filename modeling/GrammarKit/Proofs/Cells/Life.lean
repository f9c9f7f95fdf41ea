import GrammarKit.Proofs.Store

/-! # The lives of cells

What can become of the cell of a lazy parser, from the moment that it is handed out, and what it
holds then. A cell with a factory is waiting for its first use. A use calls the factory; if the call
comes to an end without a value the cell waits again, and if it comes to an end with a value, the
cell has its definition. A cell without a factory waits for a definition to be given. A definition
is the end of it, apart from the message that it was made.
-/

namespace GrammarKit

/-- What has become of a cell, and what it holds. -/
inductive Cell.Life : List CellEvent → Cell → Prop where
  | made (factory : Option Value) : Life [.made factory] ⟨factory, none⟩
  | given {events : List CellEvent} (p : Parser) :
    Life events ⟨none, none⟩ → Life (events ++ [.defined p]) ⟨none, some p⟩
  | failed {events : List CellEvent} {f : Value} :
    Life events ⟨some f, none⟩ → Life (events ++ [.called, .failed]) ⟨some f, none⟩
  | resolved {events : List CellEvent} {f : Value} (p : Parser) :
    Life events ⟨some f, none⟩ →
      Life (events ++ [.called, .returned, .defined p]) ⟨some f, some p⟩
  | told {events : List CellEvent} {f : Value} (p : Parser) :
    Life events ⟨some f, none⟩ →
      Life (events ++ [.called, .returned, .defined p, .told]) ⟨some f, some p⟩

/-- Whether an event is the end of a call with a value. -/
def CellEvent.isReturned : CellEvent → Bool
  | .returned => true
  | _ => false

/-- Whether an event is the beginning of a call. -/
def CellEvent.isCalled : CellEvent → Bool
  | .called => true
  | _ => false

/-- Whether an event is a definition. -/
def CellEvent.isDefined : CellEvent → Bool
  | .defined _ => true
  | _ => false

/-- Whether the last thing that became of a cell is the definition that its factory has made. -/
def CellEvent.Untold (events : List CellEvent) : Prop :=
  ∃ before p, events = before ++ [.returned, .defined p]

namespace Cell.Life

variable {events : List CellEvent} {cell : Cell}

/-- Nothing but a factory is there as long as there is no definition. -/
theorem eq_made (life : Life events ⟨none, none⟩) : events = [.made none] := by
  cases life
  rfl

/-- Factories return at most once, and do so to define the cell. -/
theorem countP_returned (life : Life events cell) :
    events.countP CellEvent.isReturned =
      if cell.factory.isSome && cell.definition.isSome then 1 else 0 := by
  induction life with
  | made factory => cases factory <;> rfl
  | given _ _ ih | failed _ ih | resolved _ _ ih | told _ _ ih =>
    rw [List.countP_append, ih]
    rfl

/-- A cell is defined at most once. -/
theorem countP_defined (life : Life events cell) :
    events.countP CellEvent.isDefined = if cell.definition.isSome then 1 else 0 := by
  induction life with
  | made _ => rfl
  | given _ _ ih | failed _ ih | resolved _ _ ih | told _ _ ih =>
    rw [List.countP_append, ih]
    rfl

/-- A life is at rest: nothing is running at the end of it. -/
theorem ne_called (life : Life events cell) (before : List CellEvent) :
    events ≠ before ++ [.called] := by
  intro same
  have last := congrArg List.getLast? same
  cases life <;> simp at last

end Cell.Life

namespace Store

variable {s t : Store} {address other : Nat} {event : CellEvent}

/-- What became of the cell at an address, oldest first. -/
def eventsOf (s : Store) (address : Nat) : List CellEvent :=
  (s.history.toList.filter fun entry => entry.1 == address).map (·.2)

/-- Whether no factory has used its own cell while it was running: no call of a factory begins
before the one before has come to an end. -/
def Orderly (s : Store) : Prop := ∀ address, ¬[CellEvent.called, .called] <:+: s.eventsOf address

/-- Whether the factory of a cell is running. -/
def Running (s : Store) (address : Nat) : Prop :=
  ∃ before f, s.eventsOf address = before ++ [.called] ∧ Cell.Life before ⟨some f, none⟩ ∧
    s.cellAt address = ⟨some f, none⟩

/-- Whether every cell has its life, unless its factory is running. -/
structure Lively (s : Store) : Prop where
  life : ∀ address, address < s.cells.size →
    Cell.Life (s.eventsOf address) (s.cellAt address) ∨ s.Running address
  nothing : ∀ address, s.cells.size ≤ address → s.eventsOf address = []

theorem eventsOf_note (s : Store) (address other : Nat) (event : CellEvent) :
    (s.note address event).eventsOf other =
      if address = other then s.eventsOf other ++ [event] else s.eventsOf other := by
  simp only [eventsOf, note, Array.toList_push, List.filter_append, List.map_append]
  by_cases same : address = other
  · simp [same]
  · simp [same]

@[simp] theorem eventsOf_note_self (s : Store) (address : Nat) (event : CellEvent) :
    (s.note address event).eventsOf address = s.eventsOf address ++ [event] := by
  rw [eventsOf_note, if_pos rfl]

theorem eventsOf_note_of_ne (s : Store) (different : address ≠ other) (event : CellEvent) :
    (s.note address event).eventsOf other = s.eventsOf other := by
  rw [eventsOf_note, if_neg different]

/-- What became of a cell is not forgotten. -/
theorem eventsOf_mono (grows : s.history.toList <+: t.history.toList) (address : Nat) :
    s.eventsOf address <+: t.eventsOf address :=
  (grows.filter _).map _

theorem Orderly.of_later (orderly : t.Orderly) (grows : s.history.toList <+: t.history.toList) :
    s.Orderly :=
  fun address twice => orderly address (twice.trans (eventsOf_mono grows address).isInfix)

/-- A factory that is running is not called again in an orderly run. -/
theorem Orderly.not_running (orderly : (s.note address .called).Orderly) :
    ¬s.Running address := by
  rintro ⟨before, f, events, -, -⟩
  refine orderly address ⟨before, [], ?_⟩
  rw [eventsOf_note_self, events]
  simp

/-- Where one factory is called, and no more than once, no factory uses its own cell. -/
theorem Orderly.of_countP (once : s.history.toList.countP (fun e => e.2.isCalled) ≤ 1) :
    s.Orderly := by
  intro address twice
  have called : [CellEvent.called, .called].countP CellEvent.isCalled ≤
      (s.eventsOf address).countP CellEvent.isCalled := twice.sublist.countP_le
  rw [eventsOf, List.countP_map] at called
  have fewer := (List.filter_sublist (p := fun entry => entry.1 == address)
    (l := s.history.toList)).countP_le (p := CellEvent.isCalled ∘ (·.2))
  have two : [CellEvent.called, .called].countP CellEvent.isCalled = 2 := rfl
  have all : s.history.toList.countP (CellEvent.isCalled ∘ (·.2)) ≤ 1 := once
  omega

end Store

end GrammarKit
