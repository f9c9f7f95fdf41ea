import GrammarKit.Strategy

/-!
# Terms

The language in which grammars and their callbacks are written: literals, variables, functions,
conditionals, tracing, and calls of the operations that the library offers. A term is plain data;
`GrammarKit.Evaluation` gives it its meaning.
-/

namespace GrammarKit

/-- Data that can be written down: scalars and the four kinds of sequences. -/
inductive Datum where
  | none
  | bool (b : Bool)
  | int (n : Int)
  | float (x : Float)
  | text (cs : List Char)
  | bytes (bs : List UInt8)
  | list (items : List Datum)
  | tuple (items : List Datum)

/-- How a parameter is filled. -/
inductive ParameterKind where
  /-- By position or by name. -/
  | standard
  /-- By position only. -/
  | positional
  /-- Takes every further positional argument, as a tuple. -/
  | rest
  /-- By name only. -/
  | named
  /-- Takes every further named argument. -/
  | namedRest
deriving DecidableEq, Repr

/-- A parameter; `default` is what it holds when no argument fills it. -/
structure Parameter (α : Type) where
  name : String
  kind : ParameterKind
  default : Option α

/-- Operations that make something from their arguments alone. -/
inductive Maker where
  | result | zero | item | lazy | operations
  | asParser | asStrategy | accumulator | toList | adaptCallback
  | bind | negation | choice | many | lazyCell | lazyOver | resultList | derivation
  | incomplete
  | char | oneOf | noneOf | literal | token
  | whitespace | letter | digit | identifier | integer
  | addOp | mulOp | powOp | expression
  | splits | emit
  | missing
  | strategy (s : Strategy)
  | alphabet (a : Alphabet)

/-- Operations on a receiver, which is their first argument. -/
inductive Method where
  | andThen | orElse | orNone | negate | satisfy | equals | many | manyOrNone | startsWith
  | sepBy | between | chain | chainRight | trim | map | named | copy | parse | process
  | continuation
  | collect
  | define | resolve
  | push | extend | concat | mapValues | first | complete | values | remainders

/-- What can be read off a parser, a derivation, a strategy or a lazy cell. -/
inductive Attribute where
  | value | alternatives | always | next | parser | accumulate | name | mapping | cell | remainder

/-- Operations on values of many kinds. -/
inductive Operator where
  | equal | notEqual | less | add | subtract | multiply | negate | not | length | truth
  | contains | hashable | display | kindName | upper
  | list | tuple | call | fail | index | slice | entries
  | attributeOf (a : Attribute)

/-- Every operation a term can call. -/
inductive Operation where
  | make (m : Maker)
  | method (m : Method)
  | operator (o : Operator)

/-- The language of grammars and callbacks. -/
inductive Term where
  | literal (d : Datum)
  | variable (name : String)
  | function (parameters : List (Parameter Term)) (body : Term)
  | primitive (p : Primitive)
  | kind (k : Kind)
  | condition (test whenTrue whenFalse : Term)
  /-- Evaluates `term` and records it; the value is that of `after`, where there is one. -/
  | trace (term : Term) (after : Option Term)
  /-- Evaluates `term` while debug messages are recorded. -/
  | logged (term : Term)
  | apply (operation : Operation) (arguments : List Term)

end GrammarKit
