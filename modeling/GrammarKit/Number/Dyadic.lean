/-!
# Floats as dyadic numbers

A finite float is `± significand · 2 ^ exponent`. This module takes floats apart exactly, and
rounds a quotient of natural numbers to the nearest float, a tie going to the even significand.
-/

namespace GrammarKit

/-- A number `± significand · 2 ^ exponent`. -/
structure Dyadic where
  negative : Bool
  significand : Nat
  exponent : Int
deriving DecidableEq, Repr

namespace Dyadic

/-- The exact value of a finite float; `none` for infinities and for what is no number. -/
def ofFloat? (x : Float) : Option Dyadic :=
  let bits := x.toBits.toNat
  let biased : Nat := bits / Nat.pow 2 52 % Nat.pow 2 11
  let fraction : Nat := bits % Nat.pow 2 52
  let negative := bits / Nat.pow 2 63 == 1
  if biased = 2047 then none
  else if biased = 0 then some ⟨negative, fraction, -1074⟩
  else some ⟨negative, fraction + Nat.pow 2 52, (biased : Int) - 1075⟩

/-- The whole part, the fraction being dropped. -/
def truncate (d : Dyadic) : Int :=
  let magnitude : Nat :=
    if d.exponent < 0 then d.significand / Nat.pow 2 d.exponent.natAbs
    else d.significand * Nat.pow 2 d.exponent.natAbs
  if d.negative then -(magnitude : Int) else magnitude

/-- Compares a whole number with a dyadic one. -/
def compareInt (n : Int) (d : Dyadic) : Ordering :=
  let m : Int := if d.negative then -(d.significand : Int) else d.significand
  if d.exponent < 0 then compare (n * Int.pow 2 d.exponent.natAbs) m
  else compare n (m * Int.pow 2 d.exponent.natAbs)

end Dyadic

/-- `num / den`, rounded to a whole number, a half going to the even neighbour. -/
def roundHalfEven (num den : Nat) : Nat :=
  let q := num / den
  let r := num % den
  if 2 * r < den then q
  else if den < 2 * r then q + 1
  else if q % 2 = 0 then q else q + 1

/-- The quotient `num / (den · 2 ^ e)`, as numerator and denominator. -/
def scaleQuotient (num den : Nat) (e : Int) : Nat × Nat :=
  if e < 0 then (num * Nat.pow 2 e.natAbs, den) else (num, den * Nat.pow 2 e.natAbs)

/-- The bits of the float nearest to `num / den`, as if exponents had no upper end. -/
def nearestBits (num den : Nat) : Nat :=
  if num = 0 then 0
  else
    let guess : Int := (num.log2 : Int) - (den.log2 : Int) - 53
    let (n, d) := scaleQuotient num den guess
    let e := max (if n / d < Nat.pow 2 53 then guess else guess + 1) (-1074)
    let (n, d) := scaleQuotient num den e
    (e + 1074).toNat * Nat.pow 2 52 + roundHalfEven n d

/-- The bit of the sign. -/
def signBit (negative : Bool) : Nat := if negative then Nat.pow 2 63 else 0

/-- The float nearest to `± num / den`; `none` where it is beyond the largest float. -/
def nearestFloat? (negative : Bool) (num den : Nat) : Option Float :=
  let bits := nearestBits num den
  if bits < 2047 * Nat.pow 2 52 then
    some (Float.ofBits (UInt64.ofNat (bits + signBit negative)))
  else none

end GrammarKit
