import GrammarKit.Answer
import GrammarKit.Error
import GrammarKit.Runtime

/-!
# The store and evaluations

The mutable part of a session: the lists of derivations that have been handed out, the cells of
the lazy parsers, the global variables, and what was traced. An evaluation reads and changes the
store, and ends with a value or with a reason to stop; what it did to the store is kept in either
case. With the lists goes what the runtime decides, which nothing changes.

The store also keeps a history of what became of the cells. It is an auxiliary variable: every
evaluation adds to it and none reads it. Another one are the objects that hold derivations before
they have an address, which only evaluations by reference tell apart.
-/

namespace GrammarKit

/-- The definition of a lazy parser and of all its copies, or the function that makes it. -/
structure Cell where
  factory : Option Value
  definition : Option Parser

/-- What becomes of a cell. -/
inductive CellEvent where
  /-- It is handed out, with the function that makes its definition, if there is one. -/
  | made (factory : Option Value)
  /-- Its factory is called. -/
  | called
  /-- The call has come to an end, but without a value. -/
  | failed
  /-- The call has come to an end, with a value. -/
  | returned
  /-- It gets its definition. -/
  | defined (definition : Parser)
  /-- A debug message tells that its factory has made the definition. -/
  | told

/-- The lists of derivations that are known by an address, and the runtime that they exist in. -/
structure Results where
  lists : Array (List Derivation) := #[]
  runtime : Runtime := {}

/-- The objects that hold derivations, most of which never get an address. -/
structure Objects where
  /-- What each object holds. -/
  held : Results := {}
  /-- The addresses of result lists, each with the object behind it. -/
  behind : List (Nat × Nat) := []

/-- The mutable state of a session. -/
structure Store where
  results : Results
  cells : Array Cell
  globals : Scope
  /-- What was traced, oldest first. -/
  trace : Array Answer
  /-- Whether debug messages are recorded. -/
  debug : Bool
  /-- What became of which cell, oldest first. -/
  history : Array (Nat × CellEvent) := #[]
  /-- What evaluations by reference keep apart. All others leave it as it is. -/
  objects : Objects := {}

/-- An evaluation. -/
abbrev Eval := EStateM Stop Store

instance : MonadLift (Except Error) (Except Stop) where
  monadLift
    | .ok a => .ok a
    | .error e => .error (.error e)

instance : MonadLift (Except Stop) Eval where
  monadLift
    | .ok a => pure a
    | .error stop => throw stop

/-- Gives up with an error. -/
def raise {α : Type} (e : Error) : Eval α := throw (.error e)

namespace Results

variable (results : Results)

/-- How many lists there are. -/
def size : Nat := results.lists.size

/-- The derivations at an address. -/
def read (address : Nat) : List Derivation := results.lists.getD address []

/-- One more list. -/
def push (ds : List Derivation) : Results := { results with lists := results.lists.push ds }

/-- The lists with other derivations at an address, if there are any. -/
def write (address : Nat) (ds : List Derivation) : Results :=
  { results with lists := results.lists.setIfInBounds address ds }

/-- Several more lists. -/
def append (more : Array (List Derivation)) : Results :=
  { results with lists := results.lists ++ more }

instance : HAppend Results (Array (List Derivation)) Results := ⟨append⟩

/-- The same lists where numbers of any size have a text. -/
def unlimited : Results := { results with runtime := results.runtime.unlimited }

end Results

namespace Store

/-- The cell at an address. -/
def cellAt (s : Store) (address : Nat) : Cell := s.cells.getD address ⟨none, none⟩

/-- The lists of derivations. -/
def readResults : Eval Results := return (← get).results

/-- Hands out a new list of derivations. -/
def newResult (ds : List Derivation) : Eval Value :=
  modifyGet fun s => (.result s.results.size, { s with results := s.results.push ds })

/-- Replaces the derivations at an address. -/
def setResult (address : Nat) (ds : List Derivation) : Eval Unit :=
  modify fun s => { s with results := s.results.write address ds }

/-- Notes what became of the cell at an address. -/
def note (address : Nat) (event : CellEvent) (s : Store) : Store :=
  { s with history := s.history.push (address, event) }

/-- The store with one more cell, which has no definition. -/
def addCell (factory : Option Value) (s : Store) : Store :=
  { s with cells := s.cells.push ⟨factory, none⟩ }.note s.cells.size (.made factory)

/-- Hands out a new cell, without a definition. -/
def newCell (factory : Option Value) : Eval Nat :=
  modifyGet fun s => (s.cells.size, s.addCell factory)

/-- Reads the cell at an address. -/
def readCell (address : Nat) : Eval Cell := return (← get).cellAt address

/-- The store in which the cell at an address, if there is one, has its definition. -/
def settle (address : Nat) (definition : Parser) (s : Store) : Store :=
  if address < s.cells.size then
    { s with
      cells := s.cells.modify address fun c => { c with definition := some definition } }.note
      address (.defined definition)
  else s

/-- Gives the cell at an address its definition. -/
def defineCell (address : Nat) (definition : Parser) : Eval Unit :=
  modify (settle address definition)

/-- Runs the call of the factory of the cell at an address. -/
def supply {α : Type} (address : Nat) (call : Eval α) : Eval α := fun s =>
  match call (s.note address .called) with
  | .ok a s => .ok a (s.note address .returned)
  | .error stop s => .error stop (s.note address .failed)

/-- Appends an entry to the trace. -/
def record (entry : Answer) : Eval Unit :=
  modify fun s => { s with trace := s.trace.push entry }

/-- Runs an evaluation while debug messages are recorded. -/
def withDebug {α : Type} (action : Eval α) : Eval α := fun s =>
  let before := s.debug
  match action { s with debug := true } with
  | .ok a s => .ok a { s with debug := before }
  | .error stop s => .error stop { s with debug := before }

end Store

end GrammarKit
