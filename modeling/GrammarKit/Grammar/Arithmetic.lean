import GrammarKit.Grammar.Words

/-!
# Arithmetic

Operator tables, and the grammar of arithmetic expressions: sums of products of powers of whole
numbers and of expressions in parentheses. Powers are folded from the right, everything else from
the left; blanks may follow every token.
-/

namespace GrammarKit

namespace Parser

/-- An operator table: the first matcher that succeeds, with the value paired with it. -/
def operations (pairs : List (Parser × Value)) : Parser :=
  pairs.foldl (fun table pair => table.orElse [.parser (pair.1.step (.constant pair.2))]) zero

/-- An operator sign and the blanks after it. -/
def sign (c : Char) : Parser := token (charText [c])

/-- A named function as a value. -/
def operatorOf (p : Primitive) : Value := .function (.primitive p)

/-- The signs of addition and subtraction. -/
def addOp : Parser :=
  operations [(sign '+', operatorOf .add), (sign '-', operatorOf .subtract)]

/-- The signs of multiplication and division. -/
def mulOp : Parser :=
  operations [(sign '*', operatorOf .multiply), (sign '/', operatorOf .divide)]

/-- The sign of powers. -/
def powOp : Parser := operations [(sign '^', operatorOf .power)]

/-- A number, or `inner` in parentheses. -/
def factor (inner : Parser) : Parser :=
  (token integer).orElse [.parser (inner.between (sign '(') (sign ')'))]

/-- Sums over what stands in parentheses. -/
def arithmetic (inner : Parser) : Parser :=
  let power := (factor inner).chain powOp true .missing
  let term := power.chain mulOp false .missing
  term.chain addOp false .missing

/-- The same as a term: what it is about is the variable `expr`. -/
def arithmeticTerm : Term :=
  let sign (c : Char) : Term := .apply (.make .token) [.apply (.make .char) [.literal (.text [c])]]
  let brackets : Term := .apply (.method .between) [.variable "expr", sign '(', sign ')']
  let factor : Term := .apply (.method .orElse)
    [.apply (.make .token) [.apply (.make .integer) []], brackets]
  let power : Term := .apply (.method .chainRight) [factor, .apply (.make .powOp) []]
  let term : Term := .apply (.method .chain) [power, .apply (.make .mulOp) []]
  .apply (.method .chain) [term, .apply (.make .addOp) []]

/-- The function that makes the grammar of arithmetic expressions. -/
def arithmeticFactory : Value :=
  .function (.closure [⟨"expr", .standard, none⟩] arithmeticTerm [])

/-- The cell for the grammar of arithmetic expressions. -/
def expressionCell : Nat := 0

/-- Arithmetic expressions. The grammar is made on first use, and refers to itself through its
cell. -/
def expression : Parser := ofShape (.lazy expressionCell)

end Parser

/-- The store in which everything begins: the grammar of arithmetic expressions waits to be made. -/
def Store.initial : Store where
  results := {}
  cells := #[⟨some Parser.arithmeticFactory, none⟩]
  globals := []
  trace := #[]
  debug := false
  history := #[(Parser.expressionCell, .made (some Parser.arithmeticFactory))]

/-- The store after arithmetic expressions have been used once, while no debug messages were
recorded. -/
def Store.started : Store where
  results := {}
  cells := #[⟨some Parser.arithmeticFactory, some (Parser.arithmetic Parser.expression)⟩]
  globals := []
  trace := #[]
  debug := false
  history := #[(Parser.expressionCell, .made (some Parser.arithmeticFactory)),
    (Parser.expressionCell, .called), (Parser.expressionCell, .returned),
    (Parser.expressionCell, .defined (Parser.arithmetic Parser.expression))]

/-- The same store, where something else decides what is up to the runtime. -/
def Store.under (runtime : Runtime) (s : Store) : Store :=
  { s with results := { s.results with runtime := runtime } }

end GrammarKit
