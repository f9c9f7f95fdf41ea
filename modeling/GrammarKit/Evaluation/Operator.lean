import GrammarKit.Evaluation.Method

/-!
# Operators

The operations on values of many kinds: comparison, arithmetic, items and slices, conversion to
text, attributes, and calls.
-/

namespace GrammarKit

namespace Evaluator

variable (ev : Evaluator)

/-- Reads an attribute. -/
def readAttribute (a : Attribute) (v : Value) : Eval Value := do
  match a, v with
  | .value, .derivation value _ => return value
  | .remainder, .derivation _ remainder => return remainder
  | .value, .strategy s => return .ofString s.word
  | .name, .strategy s => return .ofString s.label
  | .parser, .cell address =>
    return ((← Store.readCell address).definition.map Value.parser).getD .none
  | .name, .parser p => return .ofOption p.name
  | .mapping, .parser p => return .ofOption p.mapping
  | a, .parser p =>
    match a, p.shape with
    | .value, .unit value => return value
    | .parser, .negation q => return q.toValue
    | .parser, .bind q _ _ => return q.toValue
    | .next, .bind _ next _ => return next
    | .always, .bind _ _ always => return always
    | .alternatives, .choice ps => return .tuple (ps.map Parser.toValue)
    | .parser, .many q _ => return q.toValue
    | .accumulate, .many _ accumulate => return accumulate
    | .cell, .lazy address => return .cell address
    | .cell, .lazyOver cell => return cell
    | _, _ => raise .noAttribute
  | _, _ => raise .noAttribute

/-- A letter of the ASCII alphabet as a capital one. -/
def capital (c : Char) : Char := c.toUpper

/-- Applies an operator. -/
def applyOperator (o : Operator) (arguments : List Value) : Eval Value := do
  match o, arguments with
  | .equal, [a, b] => return .bool (← ev.equal a b)
  | .notEqual, [a, b] => return .bool !(← ev.equal a b)
  | .less, [a, b] => return .bool (← Value.less (← Store.readResults) ev.fuel a b)
  | .add, [a, b] => add a b
  | .subtract, [a, b] => a.subtract b
  | .multiply, [a, b] => a.multiply b
  | .negate, [v] => v.negate
  | .not, [v] => return .bool !(← truth v)
  | .truth, [v] => return .bool (← truth v)
  | .length, [v] => return .int (← v.length (← Store.readResults))
  | .contains, [v, container] =>
    return .bool (← Value.contains (← Store.readResults) ev.fuel v container)
  | .hashable, [v] => if v.hashable then return .bool true else raise .wrongKind
  | .display, [v] => return .text (← ev.display v)
  | .kindName, [v] => return .ofString v.kindName
  | .upper, [.text cs] => return .text (cs.map capital)
  | .upper, [_] => raise .noAttribute
  | .list, vs => return .list vs
  | .tuple, vs => return .tuple vs
  | .call, f :: vs => ev.call f vs
  | .fail, [v] => raise (.raised (← Value.toText (← Store.readResults) ev.fuel v))
  | .index, [v, key] => v.index (← Store.readResults) key
  | .slice, [v] => v.slice (← Store.readResults) .none .none .none
  | .slice, [v, start] => v.slice (← Store.readResults) start .none .none
  | .slice, [v, start, stop] => v.slice (← Store.readResults) start stop .none
  | .slice, [v, start, stop, step] => v.slice (← Store.readResults) start stop step
  | .entries, [v] => return .list (← v.items (← Store.readResults))
  | .attributeOf a, [v] => readAttribute a v
  | _, _ => raise .wrongKind

end Evaluator

end GrammarKit
