import GrammarKit.Text.Printable

/-!
# Quoted text

A text is shown between single quotes, or between double quotes if it holds a single quote and no
double quote. Backslashes and the quote are escaped, tab, newline and carriage return have escapes
of their own, and what is not printable is written by its code point in hexadecimal. Bytes are
shown the same way, everything outside the printable ASCII characters by its two digits.
-/

namespace GrammarKit

/-- `n` in hexadecimal, with at least `width` digits. -/
def hexText (width n : Nat) : List Char :=
  let digits := Nat.toDigits 16 n
  List.replicate (width - digits.length) '0' ++ digits

/-- The quote a text is shown in. -/
def quoteFor (cs : List Char) : Char :=
  if cs.contains '\'' && !cs.contains '"' then '"' else '\''

/-- The escape of a code point, of the shortest of the three widths that holds it. -/
def hexEscape (n : Nat) : List Char :=
  if n < 0x100 then '\\' :: 'x' :: hexText 2 n
  else if n < 0x10000 then '\\' :: 'u' :: hexText 4 n
  else '\\' :: 'U' :: hexText 8 n

/-- One character within quotes; `shown` says which ones stand for themselves. -/
def escapeChar (shown : Char → Bool) (quote c : Char) : List Char :=
  if c = '\\' ∨ c = quote then ['\\', c]
  else if c = '\t' then ['\\', 't']
  else if c = '\n' then ['\\', 'n']
  else if c = '\r' then ['\\', 'r']
  else if shown c then [c]
  else hexEscape c.toNat

/-- Characters within quotes. -/
def quote (shown : Char → Bool) (cs : List Char) : List Char :=
  let q := quoteFor cs
  q :: (cs.flatMap (escapeChar shown q) ++ [q])

/-- A text within quotes. -/
def quoteText (cs : List Char) : List Char := quote isPrintable cs

/-- Whether a character belongs to printable ASCII. -/
def isPlain (c : Char) : Bool := 32 ≤ c.toNat && c.toNat < 127

/-- Bytes within quotes, marked by a `b`. -/
def quoteBytes (bs : List UInt8) : List Char :=
  'b' :: quote isPlain (bs.map fun b => Char.ofNat b.toNat)

end GrammarKit
