import GrammarKit.Term.Basic

/-!
# Values and parsers

What terms evaluate to. Parsers are values, values occur inside parsers, and the callbacks that
connect them are data too: a function written in a term keeps its body and its scope, and the
steps of the library's own combinators are listed one by one in `Callback`. Mutable things, the
result lists and the cells of lazy parsers, live in the store and are known by their address.
-/

namespace GrammarKit

mutual

/-- A value. -/
inductive Value where
  /-- Stands for an argument that was not supplied. -/
  | missing
  | none
  | bool (b : Bool)
  | int (n : Int)
  | float (x : Float)
  | text (cs : List Char)
  | bytes (bs : List UInt8)
  | list (items : List Value)
  | tuple (items : List Value)
  | derivation (value remainder : Value)
  | strategy (s : Strategy)
  | kind (k : Kind)
  | result (address : Nat)
  | cell (address : Nat)
  | parser (p : Parser)
  | function (f : Callback)

/-- A parser: what it does, a mapping applied to every value it produces, and a name. -/
inductive Parser where
  | node (shape : Shape) (mapping : Option Value) (name : Option Value)

/-- What a parser does with its input. -/
inductive Shape where
  /-- Succeeds with `value`, or with the input itself if `value` is `missing`. -/
  | unit (value : Value)
  /-- Always fails. -/
  | zero
  /-- Consumes one item. -/
  | item
  /-- Succeeds without consuming if `p` fails. -/
  | negation (p : Parser)
  /-- Evaluates `next` after every derivation of `p`; if `p` fails and `always` is true, also on
  the unconsumed input. -/
  | bind (p : Parser) (next : Value) (always : Value)
  /-- The first alternative that succeeds. -/
  | choice (alternatives : List Parser)
  /-- One or more repetitions of `p`. -/
  | many (p : Parser) (accumulate : Value)
  /-- Whatever the cell at `cell` holds when the parser is used. -/
  | lazy (cell : Nat)
  /-- A lazy parser that was given something else for its cell: it can be shown and copied, but it
  cannot be used. -/
  | lazyOver (cell : Value)
  /-- Splits the input at each of `sizes` that fits. -/
  | splits (sizes : List Value)
  /-- Produces `pairs` whatever the input. -/
  | emit (pairs : List Value)
  /-- A value that is no parser, in a place where a parser is expected. -/
  | foreign (value : Value)

/-- Functions. The constructors after `composed` are the continuations and conditions that the
library's combinators create. -/
inductive Callback where
  /-- A function written in a term, with the variables in scope where it was written. -/
  | closure (parameters : List (Parameter Value)) (body : Term) (scope : List (String × Value))
  | primitive (p : Primitive)
  /-- Passes only the first `count` of its arguments to `callback`. -/
  | adapted (callback count : Value)
  /-- Applies `first`, then `second` to what it gave. -/
  | composed (first second : Value)
  /-- The value itself where `condition` holds, else failure. -/
  | test (condition : Value)
  /-- Whether a value equals `expected`. -/
  | equals (expected : Value)
  /-- Whether a value is one of `members`, or, if `inside` is false, is none of them. -/
  | oneOf (members : List Value) (inside : Bool)
  /-- Always `value`. -/
  | constant (value : Value)
  /-- After the first item of `expected`: matches the other ones with `base`. -/
  | spellRest (base : Parser) (expected allowShort : Value)
  /-- Joins the first item with the others and compares with `expected`. -/
  | spellJoin (expected allowShort head : Value)
  /-- After the first element: collects the `following` ones. -/
  | listRest (following : Parser)
  /-- Puts the first element in front of the others. -/
  | listJoin (head : Value)
  /-- After the left delimiter: `body`, then `right`. -/
  | body (body right : Parser)
  /-- After the body: `right`, keeping the body's value. -/
  | close (right : Parser)
  /-- After the first operand: the remaining operators and operands. -/
  | operands (operand operator : Parser) (rightmost : Bool)
  /-- Folds the operators and operands onto the first operand. -/
  | fold (rightmost : Bool) (first : Value)
  /-- After an operator: the operand. -/
  | operand (operand : Parser)
  /-- Pairs an operator with its operand. -/
  | pair (operator : Value)
  /-- Skips whitespace, keeping the value. -/
  | skipSpace
  /-- After the first character of a word: the other ones. -/
  | wordRest
  /-- Adds the other characters of a word to the first. -/
  | wordJoin (head : Value)
  /-- After the sign of an integer: its digits. -/
  | digits
  /-- Reads an integer from its sign and digits. -/
  | signed (sign : Value)

end

/-- One way of consuming an input: the value of the match and the rest of the input. -/
structure Derivation where
  value : Value
  remainder : Value

/-- Variables in scope, innermost first. -/
abbrev Scope := List (String × Value)

instance : Inhabited Value := ⟨.none⟩

instance : Inhabited Parser := ⟨.node .zero none none⟩

namespace Derivation

/-- A derivation as a value. -/
def toValue (d : Derivation) : Value := .derivation d.value d.remainder

end Derivation

namespace Parser

/-- What the parser does. -/
def shape : Parser → Shape
  | .node s _ _ => s

/-- The function applied to every value, if any. -/
def mapping : Parser → Option Value
  | .node _ m _ => m

/-- The name the parser is shown by, if any. -/
def name : Parser → Option Value
  | .node _ _ n => n

/-- A parser of the given shape, without mapping and name. -/
def ofShape (s : Shape) : Parser := .node s none none

/-- What a place for a parser holds after `v` was put there. -/
def ofValue : Value → Parser
  | .parser p => p
  | v => ofShape (.foreign v)

/-- The value that was put in a place for a parser. -/
def toValue : Parser → Value
  | .node (.foreign v) _ _ => v
  | p => .parser p

/-- Whether the parser is lazy, whatever it has for its cell. -/
def isLazy : Parser → Bool
  | .node (.lazy _) _ _ | .node (.lazyOver _) _ _ => true
  | _ => false

/-- Whether the place holds something that is no parser. -/
def isForeign : Parser → Bool
  | .node (.foreign _) _ _ => true
  | _ => false

@[simp] theorem shape_ofShape (s : Shape) : (ofShape s).shape = s := rfl

@[simp] theorem mapping_ofShape (s : Shape) : (ofShape s).mapping = none := rfl

@[simp] theorem name_ofShape (s : Shape) : (ofShape s).name = none := rfl

end Parser

/-- The address of the cell that a definition for `v` goes to: that of a cell, or of the cell of a
lazy parser. -/
def Value.definedCell? : Value → Option Nat
  | .cell address => some address
  | .parser (.node (.lazy address) _ _) => some address
  | .parser (.node (.lazyOver v) _ _) => v.definedCell?
  | _ => Option.none

/-- `none` as absence: the optional value that `v` stands for. -/
def Value.toOption : Value → Option Value
  | .none => Option.none
  | v => some v

/-- The value of an optional value, `none` for absence. -/
def Value.ofOption : Option Value → Value
  | Option.none => .none
  | some v => v

mutual

/-- Written data as a value. -/
def Value.ofDatum : Datum → Value
  | .none => .none
  | .bool b => .bool b
  | .int n => .int n
  | .float x => .float x
  | .text cs => .text cs
  | .bytes bs => .bytes bs
  | .list items => .list (Value.ofData items)
  | .tuple items => .tuple (Value.ofData items)

/-- Written data as values, item by item. -/
def Value.ofData : List Datum → List Value
  | [] => []
  | d :: ds => Value.ofDatum d :: Value.ofData ds

end

end GrammarKit
