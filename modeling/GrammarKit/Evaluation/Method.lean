import GrammarKit.Evaluation.Make

/-!
# Methods

The operations on parsers, lazy cells and result lists. The receiver is checked before the
arguments are: a method that the receiver does not have is an error of its own.
-/

namespace GrammarKit

namespace Evaluator

variable (ev : Evaluator)

/-- A copy of a parser, of which every part has to be one that can be copied. -/
def copyOf (p : Parser) : Eval Parser :=
  match p.copyError? with
  | none => pure p.copy
  | some e => raise e

/-- The values of nested pairs `(last, (previous, … none))`, latest first. -/
def chainValues (results : Results) : Nat → Value → Except Stop (List Value)
  | _, .none => return []
  | 0, _ => .error .outOfFuel
  | fuel + 1, link => do
    let value ← link.index results (.int 0)
    let previous ← link.index results (.int 1)
    return value :: (← chainValues results fuel previous)

/-- Gives a cell without factory and definition its definition. -/
def define (address : Nat) (definition : Value) : Eval Unit := do
  let cell ← Store.readCell address
  if cell.definition.isSome || cell.factory.isSome then raise .alreadyDefined
  Store.defineCell address (Parser.asParser definition)

/-- Passes the values of a result list on to a mapping, also those that are appended meanwhile. -/
def mapResult (mapping : Value) (address : Nat) : Nat → Nat → Eval (List Derivation)
  | 0, _ => throw .outOfFuel
  | fuel + 1, i => do
    match ((← Store.readResults).read address)[i]? with
    | none => return []
    | some d =>
      let value ← ev.call mapping [d.value]
      return ⟨value, d.remainder⟩ :: (← mapResult mapping address fuel (i + 1))

/-- The derivations that left nothing of the input. -/
def completeOnes (results : Results) : List Derivation → Except Error (List Derivation)
  | [] => return []
  | d :: ds => do
    let left ← d.remainder.length results
    let rest ← completeOnes results ds
    return if left = 0 then d :: rest else rest

/-- Methods that every parser has. -/
def parserMethod (p : Parser) (m : Method) (arguments : List Value) : Eval Value := do
  match m, arguments with
  | .andThen, [] | .andThen, [.none] | .andThen, [.none, _] => raise .missingContinuation
  | .andThen, [next] => return .parser (p.bind next (.bool false))
  | .andThen, [next, always] => return .parser (p.bind next always)
  | .orElse, alternatives => return .parser (p.orElse alternatives)
  | .orNone, [] => return .parser (p.orElse [.text []])
  | .orNone, [empty] => return .parser (p.orElse [empty])
  | .negate, [] => return .parser p.negate
  | .satisfy, [condition] => return .parser (p.satisfy condition)
  | .equals, [v] => return .parser (p.equals v)
  | .many, [] => return .parser (p.many .text)
  | .many, [hint] => return .parser (p.many (.ofHint hint))
  | .manyOrNone, [] => return .parser (p.manyOrNone .missing .text)
  | .manyOrNone, [empty] => return .parser (p.manyOrNone empty .text)
  | .manyOrNone, [empty, hint] => return .parser (p.manyOrNone empty (.ofHint hint))
  | .startsWith, [expected] =>
    return .parser (← p.startsWith (← Store.readResults) expected (.bool false))
  | .startsWith, [expected, allowShort] =>
    return .parser (← p.startsWith (← Store.readResults) expected allowShort)
  | .sepBy, [separator] => return .parser (p.sepBy (← receiver separator) (.text []))
  | .sepBy, [separator, empty] => return .parser (p.sepBy (← receiver separator) empty)
  | .between, [left] | .between, [left, .none] =>
    let left ← receiver left
    return .parser (p.between left left)
  | .between, [left, right] => return .parser (p.between (← receiver left) (.ofValue right))
  | .chain, [operator] => return .parser (p.chain (.ofValue operator) false .missing)
  | .chain, [operator, fallback] => return .parser (p.chain (.ofValue operator) false fallback)
  | .chainRight, [operator] => return .parser (p.chain (.ofValue operator) true .missing)
  | .chainRight, [operator, fallback] =>
    return .parser (p.chain (.ofValue operator) true fallback)
  | .trim, [] | .trim, [.none] => return .parser (p.between .whitespace .whitespace)
  | .trim, [junk] =>
    let junk ← receiver junk
    return .parser (p.between junk junk)
  | .map, [f] =>
    let _ ← copyOf p
    return .parser (p.map f)
  | .named, [name] =>
    let _ ← copyOf p
    return .parser (p.named name)
  | .copy, [] => return .parser (← copyOf p)
  | .parse, [input] => Store.newResult (← ev.parse p input)
  | .process, [input] => Store.newResult (← ev.process p input)
  | _, _ => raise .wrongKind

/-- Methods that only some variants of parsers have. -/
def variantMethod (p : Parser) (m : Method) (arguments : List Value) : Eval Value := do
  match p.shape, m with
  | .bind _ next _, .continuation =>
    match arguments with
    | [v, r] => return .parser (← ev.continuation next v r)
    | _ => raise .wrongKind
  | .many _ accumulate, .collect =>
    match arguments with
    | [link] =>
      let values ← chainValues (← Store.readResults) ev.fuel link
      accumulateValues accumulate values.reverse
    | _ => raise .wrongKind
  | .lazy address, .define =>
    match arguments with
    | [definition] =>
      define address definition
      return .parser p
    | _ => raise .wrongKind
  | .lazyOver cell, .define =>
    match arguments with
    | [definition] =>
      match cell.definedCell? with
      | some address =>
        define address definition
        return .parser p
      | none => raise .noAttribute
    | _ => raise .wrongKind
  | .lazy address, .resolve =>
    match arguments with
    | [] => return .parser (← ev.resolve address (.parser p))
    | _ => raise .wrongKind
  | .lazyOver cell, .resolve =>
    match arguments with
    | [] => raise (unresolved cell)
    | _ => raise .wrongKind
  | _, _ => raise .noAttribute

/-- Methods of lazy cells. -/
def cellMethod (address : Nat) (m : Method) (arguments : List Value) : Eval Value := do
  match m, arguments with
  | .define, [definition] =>
    define address definition
    return .none
  | .resolve, [owner] => return .parser (← ev.resolve address owner)
  | .define, _ | .resolve, _ => raise .wrongKind
  | _, _ => raise .noAttribute

/-- Methods of result lists. -/
def resultMethod (address : Nat) (m : Method) (arguments : List Value) : Eval Value := do
  let ds := (← Store.readResults).read address
  match m, arguments with
  | .push, [v, r] =>
    Store.setResult address (ds ++ [⟨v, r⟩])
    return .result address
  | .extend, [.result other] =>
    Store.setResult address (ds ++ (← Store.readResults).read other)
    return .result address
  | .concat, [.result other] => Store.newResult (ds ++ (← Store.readResults).read other)
  | .extend, [_] | .concat, [_] => raise .noAttribute
  | .mapValues, [mapping] => Store.newResult (← ev.mapResult mapping address ev.fuel 0)
  | .first, [] => return (ds.head?.map Derivation.toValue).getD .none
  | .complete, [] => Store.newResult (← completeOnes (← Store.readResults) ds)
  | .values, [] => return .list (ds.map (·.value))
  | .remainders, [] => return .list (ds.map (·.remainder))
  | .push, _ | .extend, _ | .concat, _ | .mapValues, _ | .first, _ | .complete, _
  | .values, _ | .remainders, _ => raise .wrongKind
  | _, _ => raise .noAttribute

/-- Methods of everything else: lists have copies. -/
def foreignMethod (v : Value) (m : Method) (arguments : List Value) : Eval Value := do
  match m with
  | .copy =>
    match Parser.foreignCopyError? v with
    | some e => raise e
    | none => if arguments.isEmpty then return v else raise .wrongKind
  | _ => raise .noAttribute

/-- Whether a method belongs to result lists alone. -/
def isResultMethod : Method → Bool
  | .push | .extend | .concat | .mapValues | .first | .complete | .values | .remainders => true
  | _ => false

/-- Whether only some variants of parsers have a method. -/
def isVariantMethod : Method → Bool
  | .continuation | .collect | .define | .resolve => true
  | _ => false

/-- Applies a method to its receiver, the first argument. -/
def applyMethod (m : Method) (arguments : List Value) : Eval Value := do
  match arguments with
  | .parser p :: rest =>
    if isResultMethod m then raise .noAttribute
    else if isVariantMethod m then ev.variantMethod p m rest
    else ev.parserMethod p m rest
  | .cell address :: rest => ev.cellMethod address m rest
  | .result address :: rest => ev.resultMethod address m rest
  | v :: rest => foreignMethod v m rest
  | [] => raise .wrongKind

end Evaluator

end GrammarKit
