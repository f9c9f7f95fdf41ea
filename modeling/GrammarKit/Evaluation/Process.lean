import GrammarKit.Callback.Signature
import GrammarKit.Evaluation.Call
import GrammarKit.Evaluation.Repetition

/-!
# Parsing

What each parser does with an input: the derivations, in order of priority. Using a parser
evaluates it, passes every value on to its mapping, and, while debug messages are recorded,
brackets all that by a message before and one after.
-/

namespace GrammarKit

namespace Evaluator

variable (ev : Evaluator)

/-- What `next` gives after a value and a remainder: the parser to evaluate there. -/
def continuation (next value remainder : Value) : Eval Parser :=
  if next.isCallable then do
    return Parser.asParser (← ev.call next ([value, remainder].take (next.arity 2)))
  else return Parser.asParser next

/-- The derivations of the continuation after each of `ds`, in order. -/
def continueAll (next : Value) : List Derivation → Eval (List Derivation)
  | [] => return []
  | d :: ds => do
    let p ← ev.continuation next d.value d.remainder
    let found ← ev.parse p d.remainder
    return found ++ (← continueAll next ds)

/-- The derivations of the first of several parsers that succeeds. -/
def firstOf (input : Value) : List Parser → Eval (List Derivation)
  | [] => return []
  | p :: ps => do
    let found ← ev.parse p input
    if found.isEmpty then firstOf input ps else return found

/-- The message after a lazy parser has got its definition from its factory. -/
def logResolved (address : Nat) (owner : Value) : Eval Unit := do
  log ("resolved ".toList ++ (← ev.describe owner))
  modify (Store.note address .told)

/-- The definition of a lazy parser, made on first use; `owner` is what uses it. -/
def resolve (address : Nat) (owner : Value) : Eval Parser := do
  let cell ← Store.readCell address
  match cell.definition with
  | some p => return p
  | none =>
    match cell.factory with
    | none => raise .notDefined
    | some factory =>
      let p := Parser.asParser
        (← Store.supply address (ev.call factory ([owner].take (factory.arity 1))))
      Store.defineCell address p
      if (← get).debug then ev.logResolved address owner
      return p

/-- The error of using a lazy parser over `cell`, which is no cell. Another lazy parser does have a
definition to ask for, but none for a given owner. -/
def unresolved (cell : Value) : Error :=
  match cell with
  | .parser p => if p.isLazy then .wrongKind else .noAttribute
  | _ => .noAttribute

/-- Whether `n` is at most the length of a sequence. -/
def fits (length : Nat) (n : Value) : Except Error Bool := do
  return !(Number.less (.int length) (← n.number))

/-- The splits of an input at the sizes that fit, in order. -/
def splitAt (results : Results) (input : Value) : List Value → Except Error (List Derivation)
  | [] => return []
  | n :: ns => do
    if ← fits (← input.length results) n then
      let d : Derivation :=
        ⟨← input.slice results .none n .none, ← input.slice results n .none .none⟩
      return d :: (← splitAt results input ns)
    else splitAt results input ns

/-- The derivations of a parser on an input, before its mapping is applied. -/
def process (p : Parser) (input : Value) : Eval (List Derivation) := do
  match p.shape with
  | .unit .missing => return [⟨input, input⟩]
  | .unit v => return [⟨v, input⟩]
  | .zero => return []
  | .item =>
    match ← input.uncons? (← Store.readResults) with
    | some (head, rest) => return [⟨head, rest⟩]
    | none => return []
  | .negation q =>
    if (← ev.parse q input).isEmpty then return [⟨input, input⟩] else return []
  | .bind q next always =>
    let found ← ev.parse q input
    if found.isEmpty then
      if ← truth always then ev.parse (← ev.continuation next (.text []) input) input
      else return []
    else ev.continueAll next found
  | .choice alternatives => ev.firstOf input alternatives
  | .many q accumulate => repeatParser (ev.parse q) accumulate ev.fuel input
  | .lazy address => ev.parse (← ev.resolve address (.parser p)) input
  | .lazyOver cell => raise (unresolved cell)
  | .splits sizes => splitAt (← Store.readResults) input sizes
  | .emit pairs =>
    let results ← Store.readResults
    (pairs.mapM (Value.toDerivation results) : Except Error _)
  | .foreign _ => raise .noAttribute

/-- Passes the values of derivations on to a mapping, in order. -/
def mapValues (mapping : Value) : List Derivation → Eval (List Derivation)
  | [] => return []
  | d :: ds => do
    let value ← ev.call mapping [d.value]
    return ⟨value, d.remainder⟩ :: (← mapValues mapping ds)

/-- The message before a parser is evaluated. -/
def logTrying (p : Parser) (input : Value) : Eval Unit := do
  let shown ← ev.describe (.parser p)
  let read ← ev.describe input
  log ("trying ".toList ++ shown ++ " on ".toList ++ read.take 40)

/-- The message after a parser has been evaluated. -/
def logProduced (p : Parser) (count : Nat) : Eval Unit := do
  let shown ← ev.describe (.parser p)
  log (shown ++ " produced ".toList ++ natText count ++ " derivation(s)".toList)

/-- The derivations of a parser on an input, without debug messages about the parser itself. -/
def produce (p : Parser) (input : Value) : Eval (List Derivation) := do
  let found ← ev.process p input
  match p.mapping with
  | none => return found
  | some mapping => ev.mapValues mapping found

/-- The derivations of a parser on an input. -/
def use (p : Parser) (input : Value) : Eval (List Derivation) :=
  if p.isForeign then raise .noAttribute
  else do
    if (← get).debug then
      ev.logTrying p input
      let found ← ev.produce p input
      ev.logProduced p found.length
      return found
    else ev.produce p input

end Evaluator

end GrammarKit
