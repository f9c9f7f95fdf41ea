import GrammarKit.Number.Basic
import GrammarKit.Value.Sequence

/-!
# Equality and order of values

Numbers are compared exactly, whatever their kinds; a list never equals a tuple; a derivation is
the pair of its value and remainder. A result list equals a list or tuple whose items, taken as
collections, are the pairs of its derivations, and comparing it with a list of anything else is an
error. A parser equals itself and nothing else, and so does a function. Items of collections are
taken to be equal if they are one object, and compared if not.

Values may nest through the store, so the depth of a comparison is bounded by a fuel.
-/

namespace GrammarKit.Value

/-- The number that a value is, truth values counting as one and zero. -/
def number? : Value → Option Number
  | .int n => some (.int n)
  | .bool b => some (.int (if b then 1 else 0))
  | .float x => some (.float x)
  | _ => Option.none

/-- A number as a value. -/
def ofNumber : Number → Value
  | .int n => .int n
  | .float x => .float x

/-- The number that a value is, which it has to be. -/
def number (v : Value) : Except Error Number :=
  match v.number? with
  | some n => .ok n
  | Option.none => .error .wrongKind

/-- The items of a tuple or derivation. -/
def tuple? : Value → Option (List Value)
  | .tuple vs => some vs
  | .derivation v r => some [v, r]
  | _ => Option.none

/-- The items of a list, tuple or derivation. -/
def listOrTuple? : Value → Option (List Value)
  | .list vs => some vs
  | v => v.tuple?

/-- Whether the items of two lists are equal, pair by pair; the first difference settles it, and
only then the lengths. -/
def equalItems (same : Value → Value → Except Stop Bool) : List Value → List Value →
    Except Stop Bool
  | [], [] => return true
  | a :: as, b :: bs => do if ← same a b then equalItems same as bs else return false
  | _, _ => return false

/-- Whether two lists are equal; lists of different lengths are not compared item by item. -/
def equalLists (same : Value → Value → Except Stop Bool) (as bs : List Value) :
    Except Stop Bool :=
  if as.length = bs.length then equalItems same as bs else return false

/-- Whether the derivations of a result list are the pairs in `rows`. -/
def equalRows (same : Value → Value → Except Stop Bool) (results : Results)
    (ds : List Derivation) (rows : List Value) : Except Stop Bool := do
  let rows ← rows.mapM fun row => Value.tuple <$> items results row
  equalLists same (ds.map Derivation.toValue) rows

/-- Whether two functions are one object, as those are that go by the same name. -/
def sameFunction (runtime : Runtime) : Callback → Callback → Bool
  | .primitive p, .primitive q => p == q
  | f, g => runtime.same (.function f) (.function g)

/-- Whether two items are one object or equal. -/
def orSame (results : Results) (equal : Value → Value → Except Stop Bool) (a b : Value) :
    Except Stop Bool :=
  if results.runtime.same a b then return true else equal a b

/-- Where values equal themselves, it does not matter which of them are one object. -/
theorem orSame_of_eq_ok {results : Results} {equal : Value → Value → Except Stop Bool} {a b : Value}
    {h : Bool} (told : equal a b = .ok h) (own : a = b → h = true) :
    orSame results equal a b = .ok h := by
  rw [orSame, told]
  split
  · next same => rw [own (results.runtime.same_iff.mp same).2]; rfl
  · rfl

/-- Equality, given that of the items that the two values hold. -/
def equalWith (same : Value → Value → Except Stop Bool) (results : Results) (a b : Value) :
    Except Stop Bool :=
  match a, b with
  | .missing, .missing => return true
  | .none, .none => return true
  | .text x, .text y => return x == y
  | .bytes x, .bytes y => return x == y
  | .strategy x, .strategy y => return x == y
  | .kind x, .kind y => return x == y
  | .function f, .function g => return sameFunction results.runtime f g
  | .parser p, .parser q => return results.runtime.same (.parser p) (.parser q)
  | .cell x, .cell y => return x == y
  | .list xs, .list ys => equalLists same xs ys
  | .result x, .result y =>
    -- The derivations of one list are the same objects.
    if x = y then return true
    else equalLists same ((results.read x).map Derivation.toValue)
      ((results.read y).map Derivation.toValue)
  | .result x, b =>
    match b.listOrTuple? with
    | some ys => equalRows same results (results.read x) ys
    | Option.none => return false
  | a, .result y =>
    match a.listOrTuple? with
    | some xs => equalRows same results (results.read y) xs
    | Option.none => return false
  | a, b =>
    match a.tuple?, b.tuple? with
    | some xs, some ys => equalItems same xs ys
    | _, _ =>
      match a.number?, b.number? with
      | some m, some n => return m.equal n
      | _, _ => return false

/-- Whether two values are equal, to the given depth. -/
def equal (results : Results) : Nat → Value → Value → Except Stop Bool
  | 0 => equalWith (orSame results fun _ _ => .error .outOfFuel) results
  | fuel + 1 => equalWith (orSame results (equal results fuel)) results

/-- The first pair of items that differ, of two lists. -/
def firstDifference (same : Value → Value → Except Stop Bool) : List Value → List Value →
    Except Stop (Option (Value × Value) × Bool)
  | a :: as, b :: bs => do
    if ← same a b then firstDifference same as bs else return (some (a, b), false)
  | [], _ :: _ => return (Option.none, true)
  | _, [] => return (Option.none, false)

/-- Order, given the equality and the order of what the two values hold. -/
def lessWith (same before : Value → Value → Except Stop Bool) (a b : Value) :
    Except Stop Bool :=
  let lexicographic (xs ys : List Value) : Except Stop Bool := do
    match ← firstDifference same xs ys with
    | (some (x, y), _) => before x y
    | (Option.none, shorter) => return shorter
  match a, b with
  | .text x, .text y => return decide (x < y)
  | .bytes x, .bytes y => return decide (x < y)
  | .list xs, .list ys => lexicographic xs ys
  | a, b =>
    match a.tuple?, b.tuple? with
    | some xs, some ys => lexicographic xs ys
    | _, _ =>
      match a.number?, b.number? with
      | some m, some n => return m.less n
      | _, _ => .error (.error .wrongKind)

/-- Whether one value comes before another, to the given depth; an error for values that have no
order. -/
def less (results : Results) : Nat → Value → Value → Except Stop Bool
  | 0 => lessWith (orSame results fun _ _ => .error .outOfFuel) (fun _ _ => .error .outOfFuel)
  | fuel + 1 => lessWith (orSame results (equal results fuel)) (less results fuel)

/-- Whether one of `vs` is `v` or equals it. -/
def anyEqual (results : Results) (fuel : Nat) (v : Value) : List Value → Except Stop Bool
  | [] => return false
  | w :: ws => do
    if ← orSame results (equal results fuel) w v then return true else anyEqual results fuel v ws

/-- Whether `part` is a stretch of `whole`. -/
def isStretch {α : Type} [BEq α] (part : List α) : List α → Bool
  | [] => part.isEmpty
  | x :: xs => part.isPrefixOf (x :: xs) || isStretch part xs

/-- Whether a collection contains a value; a text contains its stretches. -/
def contains (results : Results) (fuel : Nat) (v container : Value) : Except Stop Bool :=
  match container with
  | .text cs =>
    match v with
    | .text part => return isStretch part cs
    | _ => .error (.error .wrongKind)
  | .bytes bs =>
    match v with
    | .bytes part => return isStretch part bs
    | .int n =>
      if 0 ≤ n ∧ n < 256 then return bs.any fun b => (b.toNat : Int) == n
      else .error (.error .wrongCount)
    | .bool b => return bs.any fun c => c == (if b then 1 else 0)
    | _ => .error (.error .wrongKind)
  | c => do
    let vs ← items results c
    anyEqual results fuel v vs

end GrammarKit.Value
