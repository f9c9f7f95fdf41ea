import GrammarKit.Evaluation.Process

/-!
# Making things

The operations that make parsers, result lists and cells from their arguments, with the arguments
that may be left out.
-/

namespace GrammarKit

namespace Evaluator

variable (ev : Evaluator)

/-- A value whose methods are those of parsers. -/
def receiver : Value → Eval Parser
  | .parser p => return p
  | _ => raise .noAttribute

/-- A new cell, with the function that makes its definition, if there is one. -/
def makeCell (factory : Value) : Eval Nat := Store.newCell factory.toOption

/-- An operator table from pairs of a matcher and a value. -/
def makeOperations (table : Parser) : List Value → Eval Parser
  | [] => return table
  | pair :: pairs => do
    let (matcher, value) ← Value.unpair (← Store.readResults) pair
    let matcher ← receiver matcher
    makeOperations (table.orElse [.parser (matcher.step (.constant value))]) pairs

/-- A parser for one item inside or outside a set. -/
def makeOneOf (members : Value) (inside : Bool) : Eval Parser := do
  let members ← members.items (← Store.readResults)
  if Value.allHashable members then return Parser.oneOf members inside else raise .wrongKind

/-- A new list of derivations from a collection of pairs. -/
def makeResult (pairs : Value) : Eval Value := do
  let results ← Store.readResults
  let pairs ← pairs.items results
  let ds ← (pairs.mapM (Value.toDerivation results) : Except Error _)
  Store.newResult ds

/-- A parser for a literal sequence, shown as such. -/
def makeLiteral (expected : Value) : Eval Parser := do
  let p ← Parser.item.startsWith (← Store.readResults) expected (.bool false)
  return p.named (Parser.nameAround "literal" (← ev.display expected))

/-- Makes what an operation asks for. -/
def make (m : Maker) (arguments : List Value) : Eval Value := do
  match m, arguments with
  | .result, [] => return .parser (Parser.result .missing)
  | .result, [v] => return .parser (Parser.result v)
  | .zero, [] => return .parser Parser.zero
  | .item, [] => return .parser Parser.item
  | .lazy, [] => return .parser (.ofShape (.lazy (← makeCell .none)))
  | .lazy, [factory] => return .parser (.ofShape (.lazy (← makeCell factory)))
  | .lazyCell, [] => return .cell (← makeCell .none)
  | .lazyCell, [factory] => return .cell (← makeCell factory)
  | .lazyOver, [.cell address] => return .parser (.ofShape (.lazy address))
  | .lazyOver, [.none] => return .parser (.ofShape (.lazy (← makeCell .none)))
  | .lazyOver, [v] => return .parser (.ofShape (.lazyOver v))
  | .operations, pairs => return .parser (← makeOperations Parser.zero pairs)
  | .asParser, [v] => return .parser (Parser.asParser v)
  | .asStrategy, [v] => return .strategy (Strategy.ofHint v)
  | .accumulator, [v] => return (Strategy.ofHint v).empty
  | .accumulator, [v, .none] => return (Strategy.ofHint v).empty
  | .accumulator, [_, hint] => return (Strategy.ofHint hint).empty
  | .toList, [v] => return .list v.toList
  | .adaptCallback, [callback, limit] => callback.adapt limit
  | .bind, [p, next] => return .parser ((Parser.ofValue p).bind next (.bool false))
  | .bind, [p, next, always] => return .parser ((Parser.ofValue p).bind next always)
  | .negation, [p] => return .parser (Parser.ofValue p).negate
  | .choice, ps => return .parser (.ofShape (.choice (ps.map Parser.asParser)))
  | .many, [p] => return .parser ((Parser.ofValue p).many .text)
  | .many, [p, accumulate] => return .parser (.ofShape (.many (.ofValue p) accumulate))
  | .resultList, [] => Store.newResult []
  | .resultList, [pairs] => makeResult pairs
  | .derivation, [v, r] => return .derivation v r
  | .char, [v] => return .parser (Parser.char v (← ev.display v))
  | .oneOf, [members] => return .parser (← makeOneOf members true)
  | .noneOf, [members] => return .parser (← makeOneOf members false)
  | .literal, [expected] => return .parser (← ev.makeLiteral expected)
  | .token, [p] => return .parser (← receiver p).token
  | .whitespace, [] => return .parser Parser.whitespace
  | .letter, [] => return .parser Parser.letter
  | .digit, [] => return .parser Parser.digit
  | .identifier, [] => return .parser Parser.identifier
  | .integer, [] => return .parser Parser.integer
  | .addOp, [] => return .parser Parser.addOp
  | .mulOp, [] => return .parser Parser.mulOp
  | .powOp, [] => return .parser Parser.powOp
  | .expression, [] => return .parser Parser.expression
  | .splits, sizes => return .parser (.ofShape (.splits sizes))
  | .emit, pairs => return .parser (.ofShape (.emit pairs))
  | .missing, [] => return .missing
  | .strategy s, [] => return .strategy s
  | .alphabet a, [] => return .list a.values
  | _, _ => raise .wrongKind

end Evaluator

end GrammarKit
