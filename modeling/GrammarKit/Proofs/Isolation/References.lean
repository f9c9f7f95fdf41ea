import GrammarKit.Proofs.Isolation.Objects

/-! # Evaluations by reference

A parser that is used gives an object, which holds its derivations. It makes the object itself, or
hands the one on that another parser has given: a choice the one of the alternative that succeeds, a
lazy parser the one of its definition, a sequence the one of a continuation that is asked although
the first parser fails, and every parser without a mapping the one that it comes to before mappings.
Objects that are being read may change meanwhile, as may those that are being filled, if somebody
has a reference to them.

Everything else is evaluated as it is by `Evaluator`s, which take lists of derivations for what
parsers give. Operations that give the caller a result list, or change one, do so with objects.
-/

namespace GrammarKit

/-- What a step of an evaluation by reference uses for the steps within it: parsing, which gives an
object, calling a function and evaluating a term, to a depth of `fuel`. -/
structure ByReference where
  fuel : Nat
  parse : Parser → Value → Eval Nat
  call : Value → List Value → Eval Value
  eval : Scope → Term → Eval Value

namespace ByReference

/-- Without any depth left. -/
def exhausted : ByReference where
  fuel := 0
  parse _ _ := throw .outOfFuel
  call _ _ := throw .outOfFuel
  eval _ _ := throw .outOfFuel

variable (ev : ByReference)

/-- The evaluator that reads the objects that it is given at once. -/
def toEvaluator : Evaluator where
  fuel := ev.fuel
  parse p input := do Store.readObject (← ev.parse p input)
  call := ev.call
  eval := ev.eval

/-- Appends what the continuation gives after each derivation of `first`, from the `i`-th one on, to
`out`. Derivations that `first` is extended by meanwhile are included, but if they take more than
the given number of turns it is given up. -/
def continueFrom (next : Value) (first out : Nat) : Nat → Nat → Eval Unit
  | 0, _ => throw .outOfFuel
  | turns + 1, i => do
    match (← Store.readObject first)[i]? with
    | none => return ()
    | some d =>
      let p ← ev.toEvaluator.continuation next d.value d.remainder
      let found ← ev.parse p d.remainder
      Store.extendObject out (← Store.readObject found)
      continueFrom next first out turns (i + 1)

/-- An object for what the continuation gives after each derivation of `first`. -/
def continueAll (next : Value) (first : Nat) : Eval Nat := do
  let out ← Store.newObject []
  ev.continueFrom next first out ((← Store.readObject first).length + 1) 0
  return out

/-- What the first of several parsers that succeeds gives. -/
def firstOf (input : Value) : List Parser → Eval Nat
  | [] => Store.newObject []
  | p :: ps => do
    let found ← ev.parse p input
    if (← Store.readObject found).isEmpty then firstOf input ps else return found

/-- Takes the topmost path of the agenda further until no path is left, and appends what the paths
amount to where they end to `out`. -/
def exploreTo (step : Value → Eval Nat) (finish : List Value → Except Error Value) (out : Nat)
    (budget : Nat) (agenda : List Path) : Eval Unit :=
  match agenda with
  | [] => pure ()
  | path :: rest =>
    if path.height = 0 then do
      let value ← finish path.values.reverse
      Store.extendObject out [⟨value, path.remainder⟩]
      exploreTo step finish out budget rest
    else do
      let found ← Store.readObject (← step path.remainder)
      if found.isEmpty then
        if path.values.isEmpty then exploreTo step finish out budget rest
        else
          let value ← finish path.values.reverse
          Store.extendObject out [⟨value, path.remainder⟩]
          exploreTo step finish out budget rest
      else
        let results ← Store.readResults
        let opened ← path.extendAll results found
        if _low : ∀ p ∈ opened, p.height < path.height then
          exploreTo step finish out budget (opened ++ rest)
        else
          match budget with
          | 0 => throw .outOfFuel
          | budget + 1 => exploreTo step finish out budget (opened ++ rest)
termination_by (budget, agenda)
decreasing_by
  · exact Prod.Lex.right _ (Path.replaces_tail path rest)
  · exact Prod.Lex.right _ (Path.replaces_tail path rest)
  · exact Prod.Lex.right _ (Path.replaces_tail path rest)
  · exact Prod.Lex.right _ ⟨path, rest, opened, rfl, rfl, _low⟩
  · exact Prod.Lex.left _ _ (Nat.lt_succ_self _)

/-- An object for one or more repetitions of a parser on an input. -/
def repeatParser (step : Value → Eval Nat) (accumulate : Value) (budget : Nat) (input : Value) :
    Eval Nat := do
  let out ← Store.newObject []
  let results ← Store.readResults
  exploreTo step (accumulateValues accumulate) out budget [Path.start results input]
  return out

/-- The object of a parser on an input, before its mapping is applied. What consists of no other
parsers has an object of its own. -/
def process (p : Parser) (input : Value) : Eval Nat := do
  match p.shape with
  | .negation q =>
    let found ← ev.parse q input
    if (← Store.readObject found).isEmpty then Store.newObject [⟨input, input⟩]
    else Store.newObject []
  | .bind q next always =>
    let first ← ev.parse q input
    if (← Store.readObject first).isEmpty then
      if ← Evaluator.truth always then
        ev.parse (← ev.toEvaluator.continuation next (.text []) input) input
      else ev.continueAll next first
    else ev.continueAll next first
  | .choice alternatives => ev.firstOf input alternatives
  | .many q accumulate => repeatParser (ev.parse q) accumulate ev.fuel input
  | .lazy address => ev.parse (← ev.toEvaluator.resolve address (.parser p)) input
  | _ => Store.newObject (← ev.toEvaluator.process p input)

/-- Passes the values of the derivations of an object on to a mapping, from the `i`-th one on. What
the object is extended by meanwhile is included as far as there are turns. -/
def mapFrom (mapping : Value) (o : Nat) : Nat → Nat → Eval (List Derivation)
  | 0, _ => throw .outOfFuel
  | turns + 1, i => do
    match (← Store.readObject o)[i]? with
    | none => return []
    | some d =>
      let value ← ev.call mapping [d.value]
      return ⟨value, d.remainder⟩ :: (← mapFrom mapping o turns (i + 1))

/-- The object of a parser on an input, without debug messages about the parser itself. -/
def produce (p : Parser) (input : Value) : Eval Nat := do
  let found ← ev.process p input
  match p.mapping with
  | none => return found
  | some mapping =>
    let turns := (← Store.readObject found).length + 1
    Store.newObject (← ev.mapFrom mapping found turns 0)

/-- The object of a parser on an input. -/
def use (p : Parser) (input : Value) : Eval Nat :=
  if p.isForeign then raise .noAttribute
  else do
    if (← get).debug then
      ev.toEvaluator.logTrying p input
      let found ← ev.produce p input
      ev.toEvaluator.logProduced p (← Store.readObject found).length
      return found
    else ev.produce p input

/-- Applies an operation to the values of its arguments. What a parser gives is handed out as it is,
and what is appended goes to the object that is known by the address. If `append` is false it is
given up where something would be appended. -/
def operation (append : Bool) (o : Operation) (arguments : List Value) : Eval Value :=
  if !append && o.appends arguments then throw .outOfFuel
  else
    match o, arguments with
    | .method .parse, [.parser p, input] => do Store.giveAddress (← ev.parse p input)
    | .method .process, [.parser p, input] => do Store.giveAddress (← ev.process p input)
    | .method .push, [.result address, v, r] => do
      modify fun s => s.appendAt address [⟨v, r⟩]
      return .result address
    | .method .extend, [.result address, .result other] => do
      modify fun s => s.appendAt address (s.results.read other)
      return .result address
    | o, arguments => ev.toEvaluator.applyOperation o arguments

/-- The value of a term. -/
def meaning (append : Bool) (scope : Scope) (t : Term) : Eval Value := do
  match t with
  | .apply o arguments => ev.operation append o (← ev.toEvaluator.evalAll scope arguments)
  | t => ev.toEvaluator.meaning scope t

end ByReference

/-- Evaluation by reference to a depth. If `append` is false, it is given up where something would
be appended to a result list. -/
def byReference (append : Bool) : Nat → ByReference
  | 0 => ByReference.exhausted
  | fuel + 1 =>
    { fuel := fuel
      parse := fun p input s => (byReference append fuel).use p input s
      call := fun f arguments s => (byReference append fuel).toEvaluator.apply f arguments s
      eval := fun scope t s => (byReference append fuel).meaning append scope t s }

end GrammarKit
