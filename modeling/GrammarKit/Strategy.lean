/-!
# Accumulation strategies and named operations

The small enumerations that values and terms share: how a repetition combines what it matched,
the functions a grammar may name, and the kinds of values that double as functions.
-/

namespace GrammarKit

/-- How a repetition combines the values it matched. -/
inductive Strategy where
  /-- Concatenate texts. -/
  | text
  /-- Collect the values into a list, in the order they were consumed. -/
  | sequence
deriving DecidableEq, Repr

namespace Strategy

/-- The name a strategy is shown by. -/
def label : Strategy → String
  | text => "TEXT"
  | sequence => "SEQUENCE"

/-- The word a strategy stands for. -/
def word : Strategy → String
  | text => "text"
  | sequence => "sequence"

end Strategy

/-- Functions that grammars use by name. -/
inductive Primitive where
  | add
  | subtract
  | multiply
  | divide
  | power
  | length
  | magnitude
  | greatest
  | least
deriving DecidableEq, Repr

/-- The name a primitive is shown by. -/
def Primitive.label : Primitive → String
  | add => "add"
  | subtract => "sub"
  | multiply => "mul"
  | divide => "truediv"
  | power => "pow"
  | length => "len"
  | magnitude => "abs"
  | greatest => "max"
  | least => "min"

/-- Kinds of values that may be passed around: called, a kind makes a value of itself; given to a
repetition, it is a hint for its strategy. -/
inductive Kind where
  | text
  | list
  | tuple
  | integer
deriving DecidableEq, Repr

/-- The name a kind is shown by. -/
def Kind.label : Kind → String
  | text => "str"
  | list => "list"
  | tuple => "tuple"
  | integer => "int"

/-- The named sets of characters. -/
inductive Alphabet where
  | whitespace
  | decimal
  | alphabetic
  | alphanumeric
  | signs
deriving DecidableEq, Repr

namespace Alphabet

/-- The members of a set, sorted by code point. -/
def members : Alphabet → List Char
  | whitespace => ['\t', '\n', '\x0c', '\r', ' ']
  | decimal => "0123456789".toList
  | alphabetic => "ABCDEFGHIJKLMNOPQRSTUVWXYZabcdefghijklmnopqrstuvwxyz".toList
  | alphanumeric => "0123456789ABCDEFGHIJKLMNOPQRSTUVWXYZabcdefghijklmnopqrstuvwxyz".toList
  | signs => ['+', '-']

end Alphabet

end GrammarKit
