import GrammarKit.Evaluation.Operator
import GrammarKit.Evaluation.Snapshot

/-!
# The interpreter

The meaning of terms, and the evaluator of every depth.
-/

namespace GrammarKit

namespace Evaluator

variable (ev : Evaluator)

/-- The value of a variable: the innermost local one of that name, or else the global one. -/
def lookUp (scope : Scope) (name : String) : Eval Value := do
  match scope.lookup name with
  | some v => return v
  | none =>
    match (← get).globals.lookup name with
    | some v => return v
    | none => raise (.unbound name)

/-- Evaluates terms in order. -/
def evalAll (scope : Scope) : List Term → Eval (List Value)
  | [] => return []
  | t :: ts => do
    let v ← ev.eval scope t
    return v :: (← evalAll scope ts)

/-- Evaluates the defaults of parameters in order. -/
def evalParameters (scope : Scope) : List (Parameter Term) → Eval (List (Parameter Value))
  | [] => return []
  | ⟨name, kind, none⟩ :: ps => do
    return ⟨name, kind, none⟩ :: (← evalParameters scope ps)
  | ⟨name, kind, some t⟩ :: ps => do
    let v ← ev.eval scope t
    return ⟨name, kind, some v⟩ :: (← evalParameters scope ps)

/-- Applies an operation to the values of its arguments. -/
def applyOperation (operation : Operation) (arguments : List Value) : Eval Value :=
  match operation with
  | .make m => ev.make m arguments
  | .method m => ev.applyMethod m arguments
  | .operator o => ev.applyOperator o arguments

/-- The value of a term. -/
def meaning (scope : Scope) (t : Term) : Eval Value := do
  match t with
  | .literal d => return .ofDatum d
  | .variable name => lookUp scope name
  | .function parameters body =>
    let parameters ← ev.evalParameters scope parameters
    return .function (.closure parameters body scope)
  | .primitive p => return .function (.primitive p)
  | .kind k => return .kind k
  | .condition test whenTrue whenFalse =>
    if ← truth (← ev.eval scope test) then ev.eval scope whenTrue else ev.eval scope whenFalse
  | .trace term after =>
    let v ← ev.eval scope term
    Store.record (← ev.snapshot v)
    match after with
    | none => return v
    | some t => ev.eval scope t
  | .logged term => Store.withDebug (ev.eval scope term)
  | .apply operation arguments => ev.applyOperation operation (← ev.evalAll scope arguments)

end Evaluator

/-- The evaluator of a depth. -/
def evaluator : Nat → Evaluator
  | 0 => Evaluator.exhausted
  | fuel + 1 =>
    { fuel := fuel
      parse := fun p input s => (evaluator fuel).use p input s
      call := fun f arguments s => (evaluator fuel).apply f arguments s
      eval := fun scope t s => (evaluator fuel).meaning scope t s }

end GrammarKit
