import GrammarKit.Text.Encoding
import GrammarKit.Text.Numeral
import GrammarKit.Value.Display
import GrammarKit.Value.Equality

/-!
# Arithmetic on values

Addition also joins sequences of one kind, and multiplication repeats a sequence. The functions
that grammars use by name, and the kinds as functions, are defined here.
-/

namespace GrammarKit.Value

/-- Applies an operation on numbers. -/
def onNumbers (operation : Number → Number → Except Error Number) (a b : Value) :
    Except Error Value := do
  return ofNumber (← operation (← a.number) (← b.number))

/-- The sum of two numbers, or two sequences of one kind joined. -/
def add (a b : Value) : Except Error Value :=
  match a, b with
  | .text x, .text y => .ok (.text (x ++ y))
  | .bytes x, .bytes y => .ok (.bytes (x ++ y))
  | .list x, .list y => .ok (.list (x ++ y))
  | a, b =>
    match a.tuple?, b.tuple? with
    | some x, some y => .ok (.tuple (x ++ y))
    | _, _ => onNumbers Number.add a b

def subtract : Value → Value → Except Error Value := onNumbers Number.subtract

def divide : Value → Value → Except Error Value := onNumbers Number.divide

def power : Value → Value → Except Error Value := onNumbers Number.power

/-- The positions that a sequence can have lie below this bound. -/
def positionBound : Int := Int.pow 2 63

/-- There is no room for a sequence of so many items. -/
def roomBound : Int := Int.pow 2 36

/-- `n` copies of a list, one after the other. -/
def repeatList {α : Type} (n : Int) (xs : List α) : Except Error (List α) :=
  if xs.isEmpty then .ok []
  else if roomBound ≤ xs.length * n then .error .noRoom
  else .ok (List.replicate n.toNat xs).flatten

/-- `n` copies of characters or bytes, all of which need to have a position. -/
def repeatText {α : Type} (n : Int) (xs : List α) : Except Error (List α) :=
  if positionBound ≤ xs.length * n then .error .tooLarge else repeatList n xs

/-- Whether a value is a sequence that can be repeated. -/
def repeatable : Value → Bool
  | .text _ | .bytes _ | .list _ | .tuple _ | .derivation _ _ => true
  | _ => false

/-- A sequence joined to itself `n` times. -/
def repeated (n : Int) : Value → Except Error Value
  | .text cs => .text <$> repeatText n cs
  | .bytes bs => .bytes <$> repeatText n bs
  | .list vs => .list <$> repeatList n vs
  | .tuple vs => .tuple <$> repeatList n vs
  | .derivation v r => .tuple <$> repeatList n [v, r]
  | _ => .error .wrongKind

/-- A sequence repeated as often as a whole number says. -/
def repeatBy (v times : Value) : Except Error Value := do
  let n ← position times
  if n < -positionBound ∨ positionBound ≤ n then throw .tooLarge
  v.repeated n

/-- The product of two numbers, or a sequence repeated. -/
def multiply (a b : Value) : Except Error Value :=
  if a.repeatable then repeatBy a b
  else if b.repeatable then repeatBy b a
  else onNumbers Number.multiply a b

/-- The number of the opposite sign. -/
def negate (v : Value) : Except Error Value := do return ofNumber (← v.number).negate

/-- The number without its sign. -/
def magnitude (v : Value) : Except Error Value := do return ofNumber (← v.number).magnitude

/-- The value that comes before all the others, `best` being the first one. -/
def selectBest (before : Value → Value → Except Stop Bool) (best : Value) : List Value →
    Except Stop Value
  | [] => return best
  | v :: vs => do if ← before v best then selectBest before v vs else selectBest before best vs

/-- The first of several values in an order; of a single one, the first of its items. -/
def select (before : Value → Value → Except Stop Bool) (results : Results) (vs : List Value) :
    Except Stop Value := do
  match ← candidates with
  | [] => throw (.error .wrongCount)
  | v :: vs => selectBest before v vs
where
  /-- The values to select from. -/
  candidates : Except Error (List Value) :=
    match vs with
    | [] => .error .wrongKind
    | [v] => items results v
    | vs => .ok vs

/-- Applies a named function. -/
def applyPrimitive (results : Results) (fuel : Nat) (p : Primitive) (arguments : List Value) :
    Except Stop Value := do
  match p, arguments with
  | .add, [a, b] => add a b
  | .subtract, [a, b] => subtract a b
  | .multiply, [a, b] => multiply a b
  | .divide, [a, b] => divide a b
  | .power, [a, b] => power a b
  | .length, [v] => return .int (← length results v)
  | .magnitude, [v] => magnitude v
  | .greatest, vs => select (fun v best => less results fuel best v) results vs
  | .least, vs => select (less results fuel) results vs
  | _, _ => throw (.error .wrongKind)

/-- The characters of a text, or of bytes of ASCII, for reading a numeral. -/
def numeralText? : Value → Option (Except Error (List Char))
  | .text cs => some (.ok cs)
  | .bytes bs =>
    match Malformed.strict.repairAll? (Encoding.ascii.decode bs) with
    | some cs => some (.ok cs)
    | Option.none => some (.error .notNumeral)
  | _ => Option.none

/-- Reads a numeral in a base, unless it has more digits than are converted. -/
def readInteger (runtime : Runtime) (base : Nat) (cs : List Char) : Except Error Value :=
  match readNumeral? base cs with
  | some n =>
    if runtime.converts (convertedDigits base cs) then .ok (.int n) else .error .notNumeral
  | Option.none => .error .notNumeral

/-- The whole number that a number or a numeral stands for. -/
def toInteger (runtime : Runtime) (v : Value) : Except Error Value := do
  match v.numeralText? with
  | some cs => readInteger runtime 10 (← cs)
  | Option.none => return .int (← (← v.number).truncate)

/-- The whole number that a numeral stands for in a base. -/
def toIntegerIn (runtime : Runtime) (base v : Value) : Except Error Value := do
  let b ← position base
  if b ≠ 0 ∧ (b < 2 ∨ 36 < b) then throw .wrongBase
  match v.numeralText? with
  | some cs => readInteger runtime b.toNat (← cs)
  | Option.none => throw .wrongKind

/-- Bytes read as text in the encoding of the given name; `treatment` is the name of what becomes
of malformed bytes. The first name matters where there are bytes, the second one where some of
them are malformed. -/
def decodeText (bs : List UInt8) (encoding treatment : List Char) : Except Error Value := do
  if bs.isEmpty then return .text []
  let some e := Encoding.ofName? encoding | throw .unknownEncoding
  let pieces := e.decode bs
  if let some cs := Malformed.strict.repairAll? pieces then return .text cs
  let some m := Malformed.ofName? treatment | throw .unknownEncoding
  let some cs := m.repairAll? pieces | throw .undecodable
  return .text cs

/-- A value of a kind: the empty one, or the one made of an argument. -/
def construct (results : Results) (fuel : Nat) (k : Kind) (arguments : List Value) :
    Except Stop Value := do
  match k, arguments with
  | .text, [] => return .text []
  | .text, [v] => return .text (← toText results fuel v)
  | .text, [.bytes bs, .text encoding] => decodeText bs encoding "strict".toList
  | .text, [.bytes bs, .text encoding, .text treatment] => decodeText bs encoding treatment
  | .list, [] => return .list []
  | .list, [v] => return .list (← items results v)
  | .tuple, [] => return .tuple []
  | .tuple, [v] => return .tuple (← items results v)
  | .integer, [] => return .int 0
  | .integer, [v] => toInteger results.runtime v
  | .integer, [v, base] => toIntegerIn results.runtime base v
  | _, _ => throw (.error .wrongKind)

end GrammarKit.Value
