import GrammarKit.Number.Decimal

/-!
# Numbers as text

Whole numbers are written in decimal. A float is written with the fewest digits that read back:
positionally while its leading digit stands between the places `10 ^ (-4)` and `10 ^ 15`, and with
an exponent of at least two digits beyond that.
-/

namespace GrammarKit

/-- The decimal digits of a natural number. -/
def natText (n : Nat) : List Char := Nat.toDigits 10 n

/-- A whole number in decimal. -/
def intText (n : Int) : List Char :=
  if n < 0 then '-' :: natText n.natAbs else natText n.natAbs

/-- Without the zeros at the end. -/
def dropTrailingZeros (digits : List Char) : List Char :=
  (digits.reverse.dropWhile (· == '0')).reverse

/-- Writes the number `0.digits · 10 ^ point`. -/
def layOut (digits : List Char) (point : Int) : List Char :=
  if -4 < point ∧ point ≤ 16 then
    if point ≤ 0 then
      '0' :: '.' :: (List.replicate point.natAbs '0' ++ digits)
    else
      let whole := point.toNat
      if digits.length ≤ whole then
        digits ++ List.replicate (whole - digits.length) '0' ++ ['.', '0']
      else digits.take whole ++ '.' :: digits.drop whole
  else
    let exponent := point - 1
    let places := natText exponent.natAbs
    let lead := digits.take 1
    let rest := digits.drop 1
    lead ++ (if rest.isEmpty then [] else '.' :: rest) ++
      ['e', if exponent < 0 then '-' else '+'] ++
      List.replicate (2 - places.length) '0' ++ places

/-- A float as text. -/
def floatText (x : Float) : List Char :=
  match Dyadic.ofFloat? x with
  | none =>
    if x == x then (if x < 0 then "-inf".toList else "inf".toList) else "nan".toList
  | some d =>
    let sign := if d.negative then ['-'] else []
    if d.significand = 0 then sign ++ ['0', '.', '0']
    else
      let decimal := Decimal.shortest d.significand d.exponent
      let digits := natText decimal.digits
      sign ++ layOut (dropTrailingZeros digits) (decimal.exponent + digits.length)

end GrammarKit
