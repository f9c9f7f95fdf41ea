import GrammarKit.Evaluation.Basic

/-!
# Snapshots of values

What is reported of a value, at the moment it is reported. Values may nest through the store, so
the depth of a snapshot is bounded by a fuel.
-/

namespace GrammarKit

namespace Value

/-- The snapshot of a value, given the snapshots and the texts of what it holds. -/
def snapshotWith (inner : Value → Except Stop Answer) (shown : Value → Except Stop (List Char))
    (store : Store) : Value → Except Stop Answer
  | .missing => return .missing
  | .none => return .none
  | .bool b => return .bool b
  | .int n => return .int n
  | .float x => return .float x
  | .text cs => return .text cs
  | .bytes bs => return .bytes bs
  | .list vs => return .list (← vs.mapM inner)
  | .tuple vs => return .tuple (← vs.mapM inner)
  | .derivation v r => return .derivation (← inner v) (← inner r)
  | .strategy s => return .strategy s
  | .kind k => return .kind k
  | .result a => do
    let row (d : Derivation) : Except Stop (Answer × Answer) := do
      return (← inner d.value, ← inner d.remainder)
    return .result (← (store.results.read a).mapM row)
  | .cell a => return .cell (store.cellAt a).definition.isSome
  | .parser p => return .parser (← shown (.parser p))
  | .function (.closure _ _ _) => return .written
  | .function (.primitive p) => return .primitive p
  | .function _ => return .wrapped

/-- The snapshot of a value, to the given depth. -/
def snapshot (store : Store) : Nat → Value → Except Stop Answer
  | 0 => snapshotWith (fun _ => .error .outOfFuel) (display store.results.unlimited 0) store
  | fuel + 1 => snapshotWith (snapshot store fuel) (display store.results.unlimited fuel) store

end Value

/-- The snapshot of a value. -/
def Evaluator.snapshot (ev : Evaluator) (v : Value) : Eval Answer := do
  Value.snapshot (← get) ev.fuel v

end GrammarKit
