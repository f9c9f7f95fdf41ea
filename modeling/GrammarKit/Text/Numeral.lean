/-!
# Numerals

Reading a whole number from text: blanks around it are skipped, a sign may precede it, and an
underscore may stand between two digits. The decimal digits of every script count as digits; in
bases above ten the letters follow them. A mark such as `0x` names the base of the digits after it.
-/

namespace GrammarKit

/-- The code points of the digit zero in every script; the other nine follow it. -/
def scriptZeros : List Nat := [
  0x30, 0x660, 0x6f0, 0x7c0, 0x966, 0x9e6, 0xa66, 0xae6, 0xb66, 0xbe6, 0xc66, 0xce6, 0xd66,
  0xde6, 0xe50, 0xed0, 0xf20, 0x1040, 0x1090, 0x17e0, 0x1810, 0x1946, 0x19d0, 0x1a80, 0x1a90,
  0x1b50, 0x1bb0, 0x1c40, 0x1c50, 0xa620, 0xa8d0, 0xa900, 0xa9d0, 0xa9f0, 0xaa50, 0xabf0, 0xff10,
  0x104a0, 0x10d30, 0x11066, 0x110f0, 0x11136, 0x111d0, 0x112f0, 0x11450, 0x114d0, 0x11650,
  0x116c0, 0x11730, 0x118e0, 0x11950, 0x11c50, 0x11d50, 0x11da0, 0x16a60, 0x16ac0, 0x16b50,
  0x1d7ce, 0x1d7d8, 0x1d7e2, 0x1d7ec, 0x1d7f6, 0x1e140, 0x1e2f0, 0x1e950, 0x1fbf0]

/-- The value of a decimal digit of any script. -/
def digitValue? (c : Char) : Option Nat :=
  (scriptZeros.find? fun start => start ≤ c.toNat && c.toNat < start + 10).map (c.toNat - ·)

/-- Blanks that may surround a numeral. -/
def isNumeralBlank (c : Char) : Bool :=
  c == ' ' || ('\t' ≤ c && c ≤ '\r') ||
    [0x85, 0xa0, 0x1680, 0x2028, 0x2029, 0x202f, 0x205f, 0x3000].contains c.toNat ||
    (0x2000 ≤ c.toNat && c.toNat ≤ 0x200a)

/-- The text without the blanks around it. -/
def trimNumeral (cs : List Char) : List Char :=
  ((cs.dropWhile isNumeralBlank).reverse.dropWhile isNumeralBlank).reverse

/-- The value of a letter as a digit, the first one being ten. -/
def letterValue? (c : Char) : Option Nat :=
  if 'a' ≤ c ∧ c ≤ 'z' then some (c.toNat - 'a'.toNat + 10)
  else if 'A' ≤ c ∧ c ≤ 'Z' then some (c.toNat - 'A'.toNat + 10)
  else none

/-- The value of a digit in a base. -/
def digitIn? (base : Nat) (c : Char) : Option Nat :=
  ((digitValue? c).or (letterValue? c)).filter (· < base)

/-- Reads the digits after a first one, `value` being the number read so far. -/
def readDigits (base value : Nat) : List Char → Option Nat
  | [] => some value
  | '_' :: c :: cs =>
    match digitIn? base c with
    | some d => readDigits base (value * base + d) cs
    | none => none
  | c :: cs =>
    match digitIn? base c with
    | some d => readDigits base (value * base + d) cs
    | none => none

/-- Reads digits, of which there has to be one. -/
def readNatural? (base : Nat) : List Char → Option Nat
  | [] => none
  | c :: cs =>
    match digitIn? base c with
    | some d => readDigits base d cs
    | none => none

/-- The base that a letter after a leading zero stands for. -/
def markedBase? : Char → Option Nat
  | 'x' | 'X' => some 16
  | 'o' | 'O' => some 8
  | 'b' | 'B' => some 2
  | _ => none

/-- Whether a numeral begins with a zero. -/
def hasLeadingZero : List Char → Bool
  | c :: _ => digitValue? c == some 0
  | [] => false

/-- The base that the mark of a numeral names, and what follows the mark, where one underscore may
stand. The mark has to agree with the base asked for; every mark agrees with the base zero. -/
def splitMark? (base : Nat) (cs : List Char) : Option (Nat × List Char) :=
  match cs with
  | _ :: letter :: rest =>
    match markedBase? letter with
    | some marked =>
      if hasLeadingZero cs ∧ (base = marked ∨ base = 0) then
        some (marked, match rest with | '_' :: ds => ds | ds => ds)
      else none
    | none => none
  | _ => none

/-- Reads a numeral without sign. In the base zero the mark tells the base; without a mark it is
ten, and only zero itself may begin with a zero. -/
def readMagnitude? (base : Nat) (cs : List Char) : Option Nat :=
  match splitMark? base cs with
  | some (marked, ds) => readNatural? marked ds
  | none =>
    if base = 0 then
      (readNatural? 10 cs).filter fun n => n == 0 || !hasLeadingZero cs
    else readNatural? base cs

/-- Reads a numeral in a base from 2 to 36, or in the base that its mark tells. -/
def readNumeral? (base : Nat) (cs : List Char) : Option Int :=
  match trimNumeral cs with
  | '-' :: ds => (readMagnitude? base ds).map fun n => -(n : Int)
  | '+' :: ds => (readMagnitude? base ds).map fun n => (n : Int)
  | ds => (readMagnitude? base ds).map fun n => (n : Int)

/-- Whether a character is a digit of some base. -/
def isDigitOfSomeBase (c : Char) : Bool := (digitIn? 36 c).isSome

/-- How many digits of a numeral without sign are converted one by one. Those of bases that are
powers of two are not, and neither is a numeral with a mark. -/
def convertedMagnitude (base : Nat) (cs : List Char) : Nat :=
  if (splitMark? base cs).isSome ∨ base ∈ [2, 4, 8, 16, 32] then 0
  else cs.countP isDigitOfSomeBase

/-- How many digits of a numeral are converted one by one. -/
def convertedDigits (base : Nat) (cs : List Char) : Nat :=
  match trimNumeral cs with
  | '-' :: ds | '+' :: ds => convertedMagnitude base ds
  | ds => convertedMagnitude base ds

end GrammarKit
