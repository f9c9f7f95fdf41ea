import GrammarKit.Evaluation.Interpreter

/-!
# Sessions

A session evaluates terms one after the other. What a step binds, appends or defines is there for
the steps after it, also when they come after a step that failed; the trace is that of one step. A
session begins after the grammar of arithmetic expressions has been made.
-/

namespace GrammarKit

/-- A term to evaluate, and the global variable that its value is bound to, if any. -/
structure Step where
  term : Term
  binding : Option String

/-- How a step ended: with a value, or with a reason to stop. -/
structure Outcome where
  answer : Except Stop Answer
  /-- What was traced, oldest first. -/
  trace : Array Answer

namespace Session

/-- Binds a value to a global variable. -/
def bindGlobal (name : Option String) (v : Value) : Eval Unit :=
  match name with
  | none => pure ()
  | some name => modify fun s => { s with globals := (name, v) :: s.globals }

/-- Evaluates a step and takes the snapshot of its value. -/
def evaluate (ev : Evaluator) (step : Step) : Eval Answer := do
  let v ← ev.eval [] step.term
  bindGlobal step.binding v
  ev.snapshot v

/-- Runs a step, with an empty trace. -/
def runStep (ev : Evaluator) (step : Step) (store : Store) : Outcome × Store :=
  match evaluate ev step { store with trace := #[] } with
  | .ok answer store => (⟨.ok answer, store.trace⟩, store)
  | .error stop store => (⟨.error stop, store.trace⟩, store)

/-- Runs steps in order; gives how they ended, and the store that they leave. -/
def runSteps (ev : Evaluator) : List Step → Store → List Outcome × Store
  | [], store => ([], store)
  | step :: steps, store =>
    let (outcome, store) := runStep ev step store
    let (outcomes, store) := runSteps ev steps store
    (outcome :: outcomes, store)

/-- Runs a session from the beginning. -/
def run (fuel : Nat) (steps : List Step) : List Outcome :=
  (runSteps (evaluator fuel) steps Store.started).1

/-- Parses an input with the parser that a term gives. -/
def parse (fuel : Nat) (grammar : Term) (input : Datum) : Outcome :=
  (runStep (evaluator fuel) ⟨.apply (.method .parse) [grammar, .literal input], none⟩
    Store.started).1

end Session

end GrammarKit
