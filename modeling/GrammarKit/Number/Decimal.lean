import GrammarKit.Number.Dyadic

/-!
# The shortest decimal that reads back

Among the decimals that round to a given float, the shortest one, and of several such the one
nearest to the float. A decimal grid is the set of multiples of a power of ten; if any point of a
grid reads back as the float, then one of the float's two neighbours on that grid does, so only
those two are tried, grid by grid, the coarsest first.
-/

namespace GrammarKit

/-- The number `digits · 10 ^ exponent`. -/
structure Decimal where
  digits : Nat
  exponent : Int
deriving DecidableEq, Repr

/-- The numerator of a power of `base`. -/
def powerUp (base : Nat) (e : Int) : Nat := if e < 0 then 1 else Nat.pow base e.natAbs

/-- The denominator of a power of `base`. -/
def powerDown (base : Nat) (e : Int) : Nat := if e < 0 then Nat.pow base e.natAbs else 1

namespace Decimal

/-- The largest `p` with `10 ^ p ≤ significand · 2 ^ exponent`, found from an estimate that is off
by at most one. -/
def magnitude (significand : Nat) (exponent : Int) : Int :=
  let reaches (p : Int) : Bool :=
    powerUp 10 p * powerDown 2 exponent ≤ significand * powerUp 2 exponent * powerDown 10 p
  let guess : Int := Int.fdiv (((significand.log2 : Int) + exponent) * 30103) 100000
  if reaches (guess + 1) then guess + 1
  else if reaches guess then guess
  else guess - 1

/-- The neighbour of `significand · 2 ^ exponent` on the grid of multiples of `10 ^ grid` that
reads back as that float, if there is one. Quarters of the last binary place are counted, so that
the ends of the interval of numbers that round to the float are whole; they belong to it iff the
significand is even. -/
def onGrid? (significand : Nat) (exponent grid : Int) (atBoundary : Bool) : Option Nat :=
  let toBinary (d : Nat) : Nat := d * powerUp 10 grid * powerDown 2 (exponent - 2)
  let toDecimal (x : Nat) : Nat := x * powerUp 2 (exponent - 2) * powerDown 10 grid
  let centre := toDecimal (4 * significand)
  let low := toDecimal (4 * significand - if atBoundary then 1 else 2)
  let high := toDecimal (4 * significand + 2)
  let readsBack (d : Nat) : Bool :=
    if significand % 2 = 0 then low ≤ toBinary d && toBinary d ≤ high
    else low < toBinary d && toBinary d < high
  let below := centre / toBinary 1
  let above := below + 1
  match readsBack below, readsBack above with
  | false, false => none
  | true, false => some below
  | false, true => some above
  | true, true =>
    let down := centre - toBinary below
    let up := toBinary above - centre
    if down < up then some below
    else if up < down then some above
    else if below % 2 = 0 then some below else some above

/-- The shortest decimal that reads back as `significand · 2 ^ exponent`; seventeen digits are
always enough. -/
def shortest (significand : Nat) (exponent : Int) : Decimal :=
  let atBoundary := significand == Nat.pow 2 52 && decide (-1074 < exponent)
  let top := magnitude significand exponent
  let attempt (k : Nat) : Option Decimal :=
    (onGrid? significand exponent (top - k) atBoundary).map fun digits => ⟨digits, top - k⟩
  ((List.range 17).findSome? attempt).getD ⟨0, 0⟩

end Decimal

end GrammarKit
