import GrammarKit.Store
import GrammarKit.Value.Arithmetic

/-!
# Evaluators

Parsing, calling functions and evaluating terms refer to one another without end. Each of them is
defined once, as one step that leaves the steps within it to an `Evaluator`; the interpreter then
supplies each evaluator with the one of the next lower depth.
-/

namespace GrammarKit

/-- What a step uses for the steps within it: parsing, calling a function and evaluating a term,
to a depth of `fuel`. -/
structure Evaluator where
  fuel : Nat
  parse : Parser → Value → Eval (List Derivation)
  call : Value → List Value → Eval Value
  eval : Scope → Term → Eval Value

namespace Evaluator

/-- The evaluator without any depth left. -/
def exhausted : Evaluator where
  fuel := 0
  parse _ _ := throw .outOfFuel
  call _ _ := throw .outOfFuel
  eval _ _ := throw .outOfFuel

variable (ev : Evaluator)

/-- Whether a value counts as true. -/
def truth (v : Value) : Eval Bool := return Value.truth (← Store.readResults) v

/-- The text of a value. -/
def display (v : Value) : Eval (List Char) := do Value.display (← Store.readResults) ev.fuel v

/-- The text of a value in a debug message, where numbers of any size are written out. -/
def describe (v : Value) : Eval (List Char) := do
  Value.display (← Store.readResults).unlimited ev.fuel v

/-- Whether two values are equal. -/
def equal (a b : Value) : Eval Bool := do Value.equal (← Store.readResults) ev.fuel a b

/-- The sum of two values. The sum of two result lists is a new one. -/
def add (a b : Value) : Eval Value := do
  match a, b with
  | .result x, .result y =>
    let results ← Store.readResults
    Store.newResult (results.read x ++ results.read y)
  | .result _, _ => raise .noAttribute
  | a, b => a.add b

/-- Records a debug message. -/
def log (message : List Char) : Eval Unit := Store.record (.text message)

end Evaluator

end GrammarKit
