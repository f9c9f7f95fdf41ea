import GrammarKit.Strategy

/-!
# Answers

What a session reports of a value: a snapshot that no later change of the store can alter. Parsers
are reported by how they are shown, lazy cells by whether they have a definition, and functions by
where they come from.
-/

namespace GrammarKit

/-- A snapshot of a value. -/
inductive Answer where
  | none
  | bool (b : Bool)
  | int (n : Int)
  | float (x : Float)
  | text (cs : List Char)
  | bytes (bs : List UInt8)
  | list (items : List Answer)
  | tuple (items : List Answer)
  | derivation (value remainder : Answer)
  | result (derivations : List (Answer × Answer))
  | parser (display : List Char)
  | strategy (s : Strategy)
  | missing
  | cell (defined : Bool)
  | kind (k : Kind)
  | primitive (p : Primitive)
  /-- A function written in a term. -/
  | written
  /-- A function made by the library. -/
  | wrapped

end GrammarKit
