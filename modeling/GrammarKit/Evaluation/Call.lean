import GrammarKit.Callback.Signature
import GrammarKit.Evaluation.Basic
import GrammarKit.Grammar.Arithmetic

/-!
# Calling functions

What a function gives for its arguments. The steps of the library's combinators take one argument,
the value of the parser they follow, and mostly give the parser to go on with.
-/

namespace GrammarKit

namespace Evaluator

variable (ev : Evaluator)

/-- Whether one of `members` equals `v`, which has to be something that a set can hold. -/
def isMember (v : Value) (members : List Value) : Eval Bool := do
  if v.hashable then Value.anyEqual (← Store.readResults) ev.fuel v members
  else raise .wrongKind

/-- A place for a parser that has to hold one. -/
def actual (p : Parser) : Eval Parser :=
  if p.isForeign then raise .noAttribute else pure p

/-- Applies an operator to `x` and its operand. -/
def foldStep (x pair : Value) : Eval Value := do
  let (f, y) ← Value.unpair (← Store.readResults) pair
  ev.call f [x, y]

/-- Folds operators and operands onto `x` from the left. -/
def foldLeft (x : Value) : List Value → Eval Value
  | [] => return x
  | pair :: pairs => do foldLeft (← ev.foldStep x pair) pairs

/-- Folds the derivations of a result list onto `x`, from the `i`-th one on, also those that are
appended meanwhile. -/
def foldResult (address : Nat) : Nat → Nat → Value → Eval Value
  | 0, _, _ => throw .outOfFuel
  | fuel + 1, i, x => do
    match ((← Store.readResults).read address)[i]? with
    | none => return x
    | some d => foldResult address fuel (i + 1) (← ev.foldStep x d.toValue)

/-- An item of a pair. -/
def itemOf (pair : Value) (i : Int) : Eval Value := do
  pair.index (← Store.readResults) (.int i)

/-- Applies operators from the last one on, each to the operand before it and to what the ones
after it gave; `x` is the operand before the first one. The pairs of an operator and the operand
after it come in reverse order. -/
def foldRight (x gathered : Value) : List Value → Eval Value
  | [] => return gathered
  | pair :: before => do
    let f ← itemOf pair 0
    let y ←
      match before with
      | [] => pure x
      | previous :: _ => itemOf previous 1
    foldRight x (← ev.call f [y, gathered]) before

/-- Folds operators and operands onto the first operand. -/
def foldOperands (rightmost : Bool) (x steps : Value) : Eval Value := do
  if rightmost then
    if ← truth steps then
      match (← steps.items (← Store.readResults)).reverse with
      | [] => return x
      | last :: before => ev.foldRight x (← itemOf last 1) (last :: before)
    else return x
  else
    match steps with
    | .result address => ev.foldResult address ev.fuel 0 x
    | steps => ev.foldLeft x (← steps.items (← Store.readResults))

/-- Joins the first item of a match with the others. -/
def joinSpelled (expected head tail : Value) : Eval Value := do
  match expected with
  | .text _ => add head tail
  | _ => return .list (head :: (← tail.items (← Store.readResults)))

/-- What the match of a literal sequence gives: the match, if a part is enough or if it is the
whole sequence. -/
def finishSpelled (expected allowShort matched : Value) : Eval Value := do
  if ← truth allowShort then return matched
  match expected with
  | .text _ =>
    if ← ev.equal matched expected then return expected else return .parser Parser.zero
  | _ =>
    let whole := Value.list (← expected.items (← Store.readResults))
    if ← ev.equal matched whole then return matched else return .parser Parser.zero

/-- Applies a step of the library's combinators to a value. -/
def applyStep (f : Callback) (v : Value) : Eval Value := do
  match f with
  | .composed first second => ev.call second [← ev.call first [v]]
  | .test condition =>
    if ← truth (← ev.call condition [v]) then return v else return .parser Parser.zero
  | .equals expected => return .bool (← ev.equal v expected)
  | .oneOf members inside => return .bool ((← ev.isMember v members) == inside)
  | .constant value => return value
  | .spellRest base expected allowShort =>
    let results ← Store.readResults
    let rest ← expected.slice results (.int 1) .none .none
    let others ← base.spell results rest allowShort
    return .parser (others.bind (.function (.spellJoin expected allowShort v)) (.bool true))
  | .spellJoin expected allowShort head =>
    ev.finishSpelled expected allowShort (← joinSpelled expected head v)
  | .listRest following =>
    return .parser ((following.manyOrNone .missing .sequence).step (.listJoin v))
  | .listJoin head => (Value.list head.toList).add v
  | .body body right => return .parser (body.step (.close right))
  | .close right => return .parser ((← actual right).step (.constant v))
  | .operands operand operator rightmost =>
    let pairs := operand.operatorPairs (← actual operator)
    return .parser (pairs.step (.fold rightmost v))
  | .fold rightmost first => ev.foldOperands rightmost first v
  | .operand operand => return .parser (operand.step (.pair v))
  | .pair operator => return .parser (Parser.result (.tuple [operator, v]))
  | .skipSpace => return .parser (Parser.whitespace.step (.constant v))
  | .wordRest => return .parser (Parser.wordTail v)
  | .wordJoin head => add head v
  | .digits => return .parser (Parser.digits v)
  | .signed sign =>
    let negative ← ev.equal sign (.text ['-'])
    let n ← v.toInteger (← Store.readResults).runtime
    if negative then n.negate else return n
  | .closure _ _ _ | .primitive _ | .adapted _ _ => raise .wrongKind

/-- Applies a function to arguments. -/
def applyCallback (f : Callback) (arguments : List Value) : Eval Value := do
  match f with
  | .closure parameters body scope =>
    let locals ← bindParameters parameters arguments
    ev.eval (locals ++ scope) body
  | .primitive p =>
    match p, arguments with
    | .add, [a, b] => add a b
    | p, arguments => Value.applyPrimitive (← Store.readResults) ev.fuel p arguments
  | .adapted callback count =>
    match ← (Value.tuple arguments).slice (← Store.readResults) .none count .none with
    | .tuple taken => ev.call callback taken
    | _ => raise .wrongKind
  | f =>
    match arguments with
    | [v] => ev.applyStep f v
    | _ => raise .wrongKind

/-- Applies a value to arguments. -/
def apply (f : Value) (arguments : List Value) : Eval Value := do
  match f with
  | .function callback => ev.applyCallback callback arguments
  | .kind k => Value.construct (← Store.readResults) ev.fuel k arguments
  | _ => raise .wrongKind

end Evaluator

end GrammarKit
