import GrammarKit.Error
import GrammarKit.Number.Dyadic

/-!
# Numbers

Whole numbers of any size and floats. Arithmetic on two whole numbers is exact, but for division,
which gives the float nearest to the quotient; with a float among the operands the other one is
rounded to a float first. Comparison never rounds.
-/

namespace GrammarKit

/-- A whole number or a float. -/
inductive Number where
  | int (n : Int)
  | float (x : Float)

namespace Number

/-- The float nearest to a whole number. -/
def floatOfInt (n : Int) : Except Error Float :=
  match nearestFloat? (n < 0) n.natAbs 1 with
  | some x => .ok x
  | none => .error .tooLarge

/-- A number as a float. -/
def toFloat : Number → Except Error Float
  | int n => floatOfInt n
  | float x => .ok x

/-- Applies `exact` to two whole numbers and `rounded` to two floats. -/
def combine (exact : Int → Int → Int) (rounded : Float → Float → Float) (a b : Number) :
    Except Error Number :=
  match a, b with
  | int m, int n => .ok (int (exact m n))
  | a, b => do
    let x ← a.toFloat
    let y ← b.toFloat
    return float (rounded x y)

def add : Number → Number → Except Error Number := combine (· + ·) (· + ·)

def subtract : Number → Number → Except Error Number := combine (· - ·) (· - ·)

def multiply : Number → Number → Except Error Number := combine (· * ·) (· * ·)

/-- The float nearest to the quotient of two whole numbers. -/
def quotient (m n : Int) : Except Error Float :=
  if n = 0 then .error .divisionByZero
  else
    match nearestFloat? ((m < 0) != (n < 0)) m.natAbs n.natAbs with
    | some x => .ok x
    | none => .error .tooLarge

def divide (a b : Number) : Except Error Number :=
  match a, b with
  | int m, int n => return float (← quotient m n)
  | a, b => do
    let x ← a.toFloat
    let y ← b.toFloat
    if y == 0 then throw .divisionByZero
    return float (x / y)

/-- A natural power of a whole number. The powers of 0, 1 and -1 depend only on whether the
exponent is zero or odd, so that it may be of any size there. -/
def intPower (m : Int) (k : Nat) : Int :=
  if m = 1 then 1
  else if m = 0 then if k = 0 then 1 else 0
  else if m = -1 then if k % 2 = 0 then 1 else -1
  else m.pow k

private theorem neg_one_pow (k : Nat) : Int.pow (-1) k = if k % 2 = 0 then 1 else -1 := by
  have magnitude : Nat.pow 1 k = 1 := Nat.one_pow k
  change (if k % 2 = 0 then Int.ofNat (Nat.pow 1 k) else -Int.ofNat (Nat.pow 1 k)) = _
  rw [magnitude]
  rfl

/-- The powers settled by the exponent alone are the right ones. -/
theorem intPower_eq (m : Int) (k : Nat) : intPower m k = m.pow k := by
  unfold intPower
  split
  · next one =>
    subst one
    exact Int.one_pow.symm
  split
  · next zero =>
    subst zero
    cases k with
    | zero => rfl
    | succ k =>
      rw [if_neg (Nat.succ_ne_zero k)]
      exact (Int.zero_pow (Nat.succ_ne_zero k)).symm
  split
  · next unit => rw [unit, neg_one_pow]
  rfl

/-- Whether a float is finite. -/
def isFinite (x : Float) : Bool := (Dyadic.ofFloat? x).isSome

/-- A power of floats. It is an error if finite floats have a power beyond the largest float, or
if a finite negative power of zero is asked for. -/
def floatPower (x y : Float) : Except Error Float :=
  if y == 0 then .ok 1
  else if x == 0 && y < 0 && isFinite y then .error .divisionByZero
  else if isFinite x && isFinite y && !isFinite (Float.pow x.abs y) then .error .tooLarge
  else .ok (Float.pow x y)

/-- There is no room for the powers of exponents from here on, but for those of 0, 1 and -1. -/
def exponentBound : Nat := Nat.pow 2 32

/-- A whole power of a whole number is a float iff the exponent is negative. -/
def power (a b : Number) : Except Error Number :=
  match a, b with
  | int m, int (.ofNat k) =>
    if 1 < m.natAbs ∧ exponentBound ≤ k then .error .noRoom else .ok (int (intPower m k))
  | a, b => do
    let x ← a.toFloat
    let y ← b.toFloat
    return float (← floatPower x y)

def negate : Number → Number
  | int n => int (-n)
  | float x => float (-x)

def magnitude : Number → Number
  | int n => int n.natAbs
  | float x => float x.abs

/-- Exact comparison; `none` if one of the two is no number. -/
def compare? : Number → Number → Option Ordering
  | int m, int n => some (compare m n)
  | float x, float y =>
    if x < y then some .lt else if y < x then some .gt else if x == y then some .eq else none
  | int n, float y => compareIntFloat n y
  | float x, int n => (compareIntFloat n x).map Ordering.swap
where
  /-- Compares a whole number with a float. -/
  compareIntFloat (n : Int) (y : Float) : Option Ordering :=
    match Dyadic.ofFloat? y with
    | some d => some (Dyadic.compareInt n d)
    | none => if y == y then some (if y < 0 then .gt else .lt) else none

/-- Whether two numbers are equal. -/
def equal (a b : Number) : Bool := compare? a b == some .eq

/-- Whether one number is less than another. -/
def less (a b : Number) : Bool := compare? a b == some .lt

/-- The whole part of a number. -/
def truncate : Number → Except Error Int
  | int n => .ok n
  | float x =>
    match Dyadic.ofFloat? x with
    | some d => .ok d.truncate
    | none => .error (if x == x then .tooLarge else .notNumeral)

end Number

end GrammarKit
