import GrammarKit.Number.Layout
import GrammarKit.Text.Quoted
import GrammarKit.Value.Sequence

/-!
# How values are shown

The text of a value, as it appears in the display of parsers and in debug messages. A parser is
shown by its name, which has to be a text, or else by how it is built. The runtime may refuse to
write out a number of many digits.

Values may nest through the store, so the depth of what is shown is bounded by a fuel.
-/

namespace GrammarKit

/-- The name of a parser's variant. -/
def Shape.label : Shape → String
  | .unit _ => "Unit"
  | .zero => "Zero"
  | .item => "Item"
  | .negation _ => "Negation"
  | .bind _ _ _ => "Bind"
  | .choice _ => "Choice"
  | .many _ _ => "Many"
  | .lazy _ | .lazyOver _ => "Lazy"
  | .splits _ => "Splits"
  | .emit _ => "Emit"
  | .foreign _ => "Parser"

/-- Puts `separator` between texts. -/
def joinTexts (separator : List Char) (texts : List (List Char)) : List Char :=
  List.intercalate separator texts

namespace Value

/-- The kind of a function that is written in a term: these are objects of a class of their own,
which the terms are given their meaning with. -/
def writtenKind : String := "Fn"

/-- The name of a value's kind. -/
def kindName : Value → String
  | .missing => "_Missing"
  | .none => "NoneType"
  | .bool _ => "bool"
  | .int _ => "int"
  | .float _ => "float"
  | .text _ => "str"
  | .bytes _ => "bytes"
  | .list _ => "list"
  | .tuple _ => "tuple"
  | .derivation _ _ => "Derivation"
  | .strategy _ => "Accumulate"
  | .kind _ => "type"
  | .result _ => "Result"
  | .cell _ => "LazyCell"
  | .parser p => p.shape.label
  | .function (.closure _ _ _) => writtenKind
  | .function (.primitive _) => "builtin_function_or_method"
  | .function _ => "function"

/-- The items of a tuple between parentheses; a single one is followed by a comma. -/
def showTuple : List (List Char) → List Char
  | [only] => '(' :: (only ++ [',', ')'])
  | texts => '(' :: (joinTexts [',', ' '] texts ++ [')'])

/-- What a parser does, in terms of the operations that build it. -/
def showShape (inner : Value → Except Stop (List Char)) : Shape → Except Stop (List Char)
  | .unit .missing => return "result()".toList
  | .unit v => return "result(".toList ++ (← inner v) ++ [')']
  | .zero => return "zero()".toList
  | .item => return "item()".toList
  | .negation p => return (← inner p.toValue) ++ ".not_()".toList
  | .bind p _ _ => return (← inner p.toValue) ++ ".then(...)".toList
  | .choice ps =>
    return '(' :: (joinTexts " | ".toList (← ps.mapM fun p => inner p.toValue) ++ [')'])
  | .many p _ => return (← inner p.toValue) ++ ".many()".toList
  | .lazy _ | .lazyOver _ => return "lazy(...)".toList
  | .splits _ => return "Splits()".toList
  | .emit _ => return "Emit()".toList
  | .foreign v => inner v

/-- The text of a whole number, unless it has more digits than are converted. -/
def showInt (runtime : Runtime) (n : Int) : Except Error (List Char) :=
  if runtime.converts (natText n.natAbs).length then .ok (intText n) else .error .notNumeral

theorem showInt_of_digits_eq_none {runtime : Runtime} (unlimited : runtime.digits = Option.none)
    (n : Int) : showInt runtime n = .ok (intText n) :=
  if_pos (runtime.converts_of_digits_eq_none unlimited _)

/-- The text of a value, given the texts of what it holds. -/
def showWith (inner : Value → Except Stop (List Char)) (results : Results) :
    Value → Except Stop (List Char)
  | .missing => return "<missing>".toList
  | .none => return "None".toList
  | .bool b => return (if b then "True" else "False").toList
  | .int n => showInt results.runtime n
  | .float x => return floatText x
  | .text cs => return quoteText cs
  | .bytes bs => return quoteBytes bs
  | .list vs => return '[' :: (joinTexts [',', ' '] (← vs.mapM inner) ++ [']'])
  | .tuple vs => return showTuple (← vs.mapM inner)
  | .derivation v r =>
    return "Derivation(value=".toList ++ (← inner v) ++ ", remainder=".toList ++ (← inner r) ++
      [')']
  | .strategy s =>
    return ("<Accumulate." ++ s.label ++ ": '" ++ s.word ++ "'>").toList
  | .kind k => return ("<class '" ++ k.label ++ "'>").toList
  | .result a => do
    let row (d : Derivation) : Except Stop (List Char) := do
      return showTuple [← inner d.value, ← inner d.remainder]
    return "Result([".toList ++ joinTexts [',', ' '] (← (results.read a).mapM row) ++ [']', ')']
  | .cell _ => return "<LazyCell>".toList
  | .parser (.node shape _ name) =>
    match name with
    | some (.text cs) => return cs
    | some _ => .error (.error .wrongKind)
    | Option.none => showShape inner shape
  | .function (.closure _ _ _) => return "<fn>".toList
  | .function (.primitive p) => return ("<built-in function " ++ p.label ++ ">").toList
  | .function _ => return "<function>".toList

/-- The text of a value, to the given depth. -/
def display (results : Results) : Nat → Value → Except Stop (List Char)
  | 0 => showWith (fun _ => .error .outOfFuel) results
  | fuel + 1 => showWith (display results fuel) results

/-- The text that a value becomes when a text is asked for: a text stays what it is. -/
def toText (results : Results) (fuel : Nat) : Value → Except Stop (List Char)
  | .text cs => return cs
  | .strategy s => return ("Accumulate." ++ s.label).toList
  | v => display results fuel v

end Value

end GrammarKit
