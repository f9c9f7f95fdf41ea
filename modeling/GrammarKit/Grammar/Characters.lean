import GrammarKit.Parser.Combinators
import GrammarKit.Text.Quoted

/-!
# Characters

Ready-made parsers of single characters, of literal texts, and of the blanks between tokens.
-/

namespace GrammarKit

/-- A string as a value. -/
def Value.ofString (s : String) : Value := .text s.toList

/-- The members of a named set of characters, as texts. -/
def Alphabet.values (a : Alphabet) : List Value := Value.ofChars a.members

namespace Parser

/-- Shown as `head` around the display of what is matched. -/
def nameAround (head : String) (shown : List Char) : Value :=
  .text (head.toList ++ '(' :: (shown ++ [')']))

/-- One item that equals `v`; `shown` is the display of `v`. -/
def char (v : Value) (shown : List Char) : Parser :=
  (item.equals v).named (nameAround "char" shown)

/-- One item that equals a given text. -/
def charText (cs : List Char) : Parser := char (.text cs) (quoteText cs)

/-- Zero or more blanks. -/
def whitespace : Parser :=
  ((oneOf Alphabet.whitespace.values true).manyOrNone .missing .text).named
    (Value.ofString "junk")

/-- `p` and the blanks after it. -/
def token (p : Parser) : Parser := p.step .skipSpace

/-- A letter. -/
def letter : Parser :=
  (oneOf Alphabet.alphabetic.values true).named (Value.ofString "letter")

/-- A decimal digit, as a number. -/
def digit : Parser :=
  ((oneOf Alphabet.decimal.values true).map (.kind .integer)).named (Value.ofString "digit")

end Parser

end GrammarKit
