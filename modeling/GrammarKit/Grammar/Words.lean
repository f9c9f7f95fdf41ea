import GrammarKit.Grammar.Characters

/-!
# Words and numbers

Identifiers, and whole numbers with an optional sign.
-/

namespace GrammarKit.Parser

/-- The characters after the first one of a word, put after `head`. -/
def wordTail (head : Value) : Parser :=
  ((oneOf (.text ['_'] :: Alphabet.alphanumeric.values) true).manyOrNone .missing .text).step
    (.wordJoin head)

/-- A letter or underscore, and any number of letters, digits and underscores after it. -/
def identifier : Parser :=
  ((letter.orElse [.parser (charText ['_'])]).step .wordRest).named (Value.ofString "identifier")

/-- One or more digits, as a number of the given sign. -/
def digits (sign : Value) : Parser :=
  ((oneOf Alphabet.decimal.values true).many .text).step (.signed sign)

/-- A whole number. A sign without digits fails. -/
def integer : Parser :=
  (((oneOf Alphabet.signs.values true).orElse [.text []]).step .digits).named
    (Value.ofString "integer")

end GrammarKit.Parser
