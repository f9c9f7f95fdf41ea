import GrammarKit.Value.Equality

/-!
# Parameters and arguments

How many arguments a function requires, how its parameters are filled from the arguments of a
call, and the adaptation of a callback: it receives as many of the leading arguments as it
requires and no more, so that parameters with a default keep it; a callback that takes any number
of arguments receives all of them.
-/

namespace GrammarKit

/-- What can be told about the arguments of a function. -/
inductive Signature where
  /-- Nothing; it is taken to require one. -/
  | unknown
  /-- Any number of arguments. -/
  | any
  /-- So many arguments are required. -/
  | required (count : Nat)
deriving DecidableEq, Repr

/-- Whether a parameter is filled by position and has no default. -/
def Parameter.isRequired {α : Type} (p : Parameter α) : Bool :=
  match p.kind, p.default with
  | .standard, none | .positional, none => true
  | _, _ => false

/-- The signature of a list of parameters. -/
def Signature.ofParameters {α : Type} (parameters : List (Parameter α)) : Signature :=
  if parameters.any (·.kind == .rest) then .any
  else .required (parameters.filter Parameter.isRequired).length

/-- Fills parameters from arguments, in order. A parameter that no argument fills keeps its
default; one without a default, or an argument that no parameter takes, is an error. Arguments
are never named, so a parameter for further named ones holds none. -/
def bindParameters : List (Parameter Value) → List Value → Except Error Scope
  | [], [] => .ok []
  | [], _ :: _ => .error .wrongKind
  | p :: ps, arguments =>
    match p.kind, arguments with
    | .standard, a :: rest | .positional, a :: rest => do
      return (p.name, a) :: (← bindParameters ps rest)
    | .rest, arguments => do
      return (p.name, .tuple arguments) :: (← bindParameters ps [])
    | .namedRest, arguments => do
      return (p.name, .tuple []) :: (← bindParameters ps arguments)
    | _, arguments =>
      match p.default with
      | some d => do return (p.name, d) :: (← bindParameters ps arguments)
      | none => .error .wrongKind

namespace Value

/-- The signature of a function. The steps of the library's own combinators take one argument. -/
def signature : Value → Signature
  | .function (.closure parameters _ _) => .ofParameters parameters
  | .function (.primitive .length) | .function (.primitive .magnitude) => .required 1
  | .function (.primitive .greatest) | .function (.primitive .least) => .unknown
  | .function (.primitive _) => .required 2
  | .function (.adapted _ _) => .any
  | .function _ => .required 1
  | .kind .list | .kind .tuple => .required 0
  | _ => .unknown

/-- Whether a value can be called. -/
def isCallable : Value → Bool
  | .function _ | .kind _ => true
  | _ => false

/-- How many of at most `limit` arguments a function receives. -/
def arity (f : Value) (limit : Nat) : Nat :=
  match f.signature with
  | .unknown => min 1 limit
  | .any => limit
  | .required count => min count limit

/-- The smaller one of a count and a limit, which may be any number. -/
def atMost (limit : Value) (count : Nat) : Except Error Value := do
  if (← limit.number).less (.int count) then return limit else return .int count

/-- How many arguments a function receives, for a limit that is a value. -/
def arityWithin (f limit : Value) : Except Error Value :=
  match f.signature with
  | .unknown => atMost limit 1
  | .any => .ok limit
  | .required count => atMost limit count

/-- The function that passes a callback only the arguments it requires, of at most `limit`. -/
def adapt (callback limit : Value) : Except Error Value := do
  return .function (.adapted callback (← callback.arityWithin limit))

theorem atMost_natCast (limit count : Nat) :
    atMost (.int limit) count = .ok (.int (min count limit : Nat)) := by
  have order : (Number.int limit).less (.int count) = decide (limit < count) := by
    simp only [Number.less, Number.compare?]
    rcases Nat.lt_trichotomy limit count with below | same | above
    · simp [below, Int.compare_eq_lt.2 (Int.ofNat_lt.2 below)]
    · simp [same]
    · simp [Nat.le_of_lt above, Int.compare_eq_gt.2 (Int.ofNat_lt.2 above)]
  by_cases below : limit < count
  · simp [atMost, number, number?, order, below, Nat.min_eq_right (Nat.le_of_lt below), bind,
      Except.bind, pure, Except.pure]
  · simp [atMost, number, number?, order, below, Nat.min_eq_left (Nat.le_of_not_lt below), bind,
      Except.bind, pure, Except.pure]

/-- A whole limit bounds the arity. -/
theorem arityWithin_natCast (f : Value) (limit : Nat) :
    f.arityWithin (.int limit) = .ok (.int (f.arity limit : Nat)) := by
  unfold arityWithin arity
  cases f.signature with
  | unknown => exact atMost_natCast limit 1
  | any => rfl
  | required count => exact atMost_natCast limit count

end Value

end GrammarKit
