import GrammarKit.Value.Sequence

/-!
# Combinators

How parsers are built from parsers. Nothing is parsed here: a combinator arranges its parts, and
what has to wait for a value is a `Callback`.
-/

namespace GrammarKit

namespace Strategy

/-- The strategy that a hint asks for: a strategy, the kind of texts, or a sample value. -/
def ofHint : Value → Strategy
  | .strategy s => s
  | .kind .text => text
  | .text _ => text
  | _ => sequence

/-- What accumulating nothing gives. -/
def empty : Strategy → Value
  | text => .text []
  | sequence => .list []

end Strategy

/-- The items of a list or tuple as a new list, anything else as the only item of one. -/
def Value.toList (v : Value) : List Value :=
  match v with
  | .list vs => vs
  | .tuple vs => vs
  | .derivation w r => [w, r]
  | v => [v]

namespace Parser

mutual

/-- An independent parser of the same definition. Lazy parsers share their cell with their copies,
and a copy of `emit` has no pairs. -/
def copy : Parser → Parser
  | .node shape mapping name => .node (copyShape shape) mapping name

/-- The shape of a copy. -/
def copyShape : Shape → Shape
  | .negation p => .negation (copy p)
  | .bind p next always => .bind (copy p) next always
  | .choice ps => .choice (copyAll ps)
  | .many p accumulate => .many (copy p) accumulate
  | .emit _ => .emit []
  | .unit v => .unit v
  | .zero => .zero
  | .item => .item
  | .lazy cell => .lazy cell
  | .lazyOver cell => .lazyOver cell
  | .splits sizes => .splits sizes
  | .foreign v => .foreign v

/-- Copies of several parsers. -/
def copyAll : List Parser → List Parser
  | [] => []
  | p :: ps => copy p :: copyAll ps

end

/-- Why a value that is no parser cannot be copied. Lists can; their kind itself lacks the list
to copy. -/
def foreignCopyError? : Value → Option Error
  | .list _ => none
  | .kind .list => some .wrongKind
  | _ => some .noAttribute

mutual

/-- Why a parser cannot be copied: the error of the first of its parts that cannot be. -/
def copyError? : Parser → Option Error
  | .node shape _ _ => copyErrorShape? shape

/-- Why a shape cannot be copied. -/
def copyErrorShape? : Shape → Option Error
  | .negation p => copyError? p
  | .bind p _ _ => copyError? p
  | .choice ps => copyErrorAll? ps
  | .many p _ => copyError? p
  | .foreign v => foreignCopyError? v
  | _ => none

/-- Why several parsers cannot be copied. -/
def copyErrorAll? : List Parser → Option Error
  | [] => none
  | p :: ps => (copyError? p).or (copyErrorAll? ps)

end

/-- Always succeeds with `v`, or with the input if `v` is `missing`, without consuming. -/
def result (v : Value) : Parser := ofShape (.unit v)

/-- Always fails. -/
def zero : Parser := ofShape .zero

/-- Consumes one item. -/
def item : Parser := ofShape .item

/-- A parser as it is; anything else as the value that `result` succeeds with. -/
def asParser : Value → Parser
  | .parser p => p
  | v => result v

/-- A copy whose values are passed on to `f`, after an earlier mapping. -/
def map (p : Parser) (f : Value) : Parser :=
  .node p.copy.shape
    (match p.mapping with
      | none => f.toOption
      | some g => some (.function (.composed g f)))
    p.name

/-- A copy that is shown as `name`. -/
def named (p : Parser) (name : Value) : Parser := .node p.copy.shape p.mapping name.toOption

/-- Sequencing: `next` is a parser, a plain value, or a callback that receives the value and the
remainder of each derivation. -/
def bind (p : Parser) (next : Value) (always : Value) : Parser := ofShape (.bind p next always)

/-- Sequencing with a step of the library. -/
def step (p : Parser) (f : Callback) : Parser := p.bind (.function f) (.bool false)

/-- Ordered choice. -/
def orElse (p : Parser) (alternatives : List Value) : Parser :=
  ofShape (.choice (p :: alternatives.map asParser))

/-- Succeeds without consuming where `p` fails. -/
def negate (p : Parser) : Parser := ofShape (.negation p)

/-- Keeps the values for which `condition` holds. -/
def satisfy (p : Parser) (condition : Value) : Parser := p.step (.test condition)

/-- Keeps the values that equal `v`. -/
def equals (p : Parser) (v : Value) : Parser := p.satisfy (.function (.equals v))

/-- One or more repetitions. -/
def many (p : Parser) (s : Strategy) : Parser := ofShape (.many p (.strategy s))

/-- Zero or more repetitions; `empty` replaces what accumulating nothing gives. -/
def manyOrNone (p : Parser) (empty : Value) (s : Strategy) : Parser :=
  (p.many s).orElse [match empty with | .missing => s.empty | v => v]

/-- Matches the items of `expected` one by one with `p`. -/
def spell (results : Results) (p : Parser) (expected allowShort : Value) :
    Except Error Parser := do
  match ← expected.uncons? results with
  | none => return zero
  | some (head, _) => return (p.equals head).step (.spellRest p expected allowShort)

/-- A sequence to be matched item by item, which has to have an item. -/
def startsWith (results : Results) (p : Parser) (expected allowShort : Value) :
    Except Error Parser := do
  if (← expected.length results) = 0 then throw .emptySequence
  spell results p expected allowShort

/-- Elements divided by `separator`, or `empty`. -/
def sepBy (p separator : Parser) (empty : Value) : Parser :=
  let following := separator.bind (.parser p) (.bool false)
  (p.step (.listRest following)).orElse [empty]

/-- `p` between two delimiters. -/
def between (p left right : Parser) : Parser := left.step (.body p right)

/-- Operands joined by operators, folded from the left, or, if `rightmost`, from the right;
`fallback`, if it is not `missing`, is the value where there is no operand. -/
def chain (p operator : Parser) (rightmost : Bool) (fallback : Value) : Parser :=
  let parser := p.step (.operands p operator rightmost)
  match fallback with
  | .missing => parser
  | v => parser.orElse [v]

/-- Pairs of an operator and an operand, as often as they come. -/
def operatorPairs (operand operator : Parser) : Parser :=
  (operator.step (.operand operand)).manyOrNone .missing .sequence

/-- One item that is in the set, or, if `inside` is false, one that is not. -/
def oneOf (members : List Value) (inside : Bool) : Parser :=
  item.satisfy (.function (.oneOf members inside))

end Parser

end GrammarKit
