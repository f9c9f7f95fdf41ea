import GrammarKit.Text.Quoted

/-!
# Encodings

Reading bytes as text. Bytes that are malformed in an encoding come in runs, each as long as it
could still have been the beginning of a character, and are treated run by run.
-/

namespace GrammarKit

/-- How bytes stand for characters. -/
inductive Encoding where
  /-- A byte below 128 for each character. -/
  | ascii
  /-- A byte for each of the first 256 characters. -/
  | latin
  /-- One to four bytes for a character. -/
  | utf8
deriving DecidableEq, Repr

/-- What becomes of malformed bytes. -/
inductive Malformed where
  /-- They are refused. -/
  | strict
  /-- They are left out. -/
  | ignore
  /-- The replacement character takes the place of a run. -/
  | replace
  /-- Each of them is written as an escape. -/
  | escape
deriving DecidableEq, Repr

/-- A character, or a run of malformed bytes. -/
inductive Decoded where
  | char (c : Char)
  | malformed (run : List UInt8)
deriving DecidableEq, Repr

namespace Encoding

/-- Small letters, and one underscore for everything that stands between letters and digits. -/
def normalizeName (name : List Char) : List Char :=
  let isPart (c : Char) : Bool := c.isAlphanum || c == '.'
  let words := (name.map Char.toLower).splitBy fun a b => isPart a == isPart b
  ['_'].intercalate (words.filter fun word => word.any isPart)

/-- The names by which the encodings are known. -/
def names : List (String × Encoding) := [
  ("ascii", ascii), ("us_ascii", ascii), ("us", ascii), ("646", ascii), ("cp367", ascii),
  ("ibm367", ascii), ("csascii", ascii), ("iso646_us", ascii), ("iso_ir_6", ascii),
  ("latin_1", latin), ("latin1", latin), ("latin", latin), ("l1", latin), ("8859", latin),
  ("iso8859", latin), ("iso8859_1", latin), ("iso_8859_1", latin), ("iso_ir_100", latin),
  ("cp819", latin), ("ibm819", latin), ("csisolatin1", latin),
  ("utf_8", utf8), ("utf8", utf8), ("utf", utf8), ("u8", utf8), ("cp65001", utf8)]

/-- The encoding of a name. -/
def ofName? (name : List Char) : Option Encoding :=
  names.lookup (String.ofList (normalizeName name))

/-- The bytes that may follow the first byte of a character, and how many bytes follow it. -/
def following (first : UInt8) : Nat × UInt8 × UInt8 :=
  if first < 0xc2 then (0, 0x80, 0xbf)
  else if first < 0xe0 then (1, 0x80, 0xbf)
  else if first = 0xe0 then (2, 0xa0, 0xbf)
  else if first = 0xed then (2, 0x80, 0x9f)
  else if first < 0xf0 then (2, 0x80, 0xbf)
  else if first = 0xf0 then (3, 0x90, 0xbf)
  else if first < 0xf4 then (3, 0x80, 0xbf)
  else if first = 0xf4 then (3, 0x80, 0x8f)
  else (0, 0x80, 0xbf)

/-- The bytes that continue a character, at most `count` of them, the next one being between `low`
and `high`. -/
def continuing (low high : UInt8) : Nat → List UInt8 → List UInt8
  | count + 1, b :: bs => if low ≤ b ∧ b ≤ high then b :: continuing 0x80 0xbf count bs else []
  | _, _ => []

/-- The code point of a character of several bytes. -/
def codePoint (first : UInt8) (others : List UInt8) : Nat :=
  let lead := first.toNat % Nat.pow 2 (6 - others.length)
  others.foldl (fun code b => code * 64 + b.toNat % 64) lead

/-- Reads bytes of which a character may take several. -/
def decodeVariable : List UInt8 → List Decoded
  | [] => []
  | b :: bs =>
    if b < 0x80 then .char (Char.ofNat b.toNat) :: decodeVariable bs
    else
      let (count, low, high) := following b
      let others := continuing low high count bs
      let piece : Decoded :=
        if 0 < count ∧ others.length = count then .char (Char.ofNat (codePoint b others))
        else .malformed (b :: others)
      piece :: decodeVariable (bs.drop others.length)
termination_by bs => bs.length

/-- Reads bytes. -/
def decode (encoding : Encoding) (bs : List UInt8) : List Decoded :=
  match encoding with
  | ascii => bs.map fun b => if b < 0x80 then .char (Char.ofNat b.toNat) else .malformed [b]
  | latin => bs.map fun b => .char (Char.ofNat b.toNat)
  | utf8 => decodeVariable bs

end Encoding

namespace Malformed

/-- The treatment of a name. -/
def ofName? (name : List Char) : Option Malformed :=
  match String.ofList name with
  | "strict" => some strict
  | "ignore" => some ignore
  | "replace" => some replace
  | "backslashreplace" => some escape
  | _ => none

/-- The characters that take the place of a piece; `none` if it is refused. -/
def repair? (m : Malformed) : Decoded → Option (List Char)
  | .char c => some [c]
  | .malformed run =>
    match m with
    | strict => none
    | ignore => some []
    | replace => some ['\ufffd']
    | escape => some (run.flatMap fun b => hexEscape b.toNat)

/-- The text that decoded bytes make up; `none` if some of them are refused. -/
def repairAll? (m : Malformed) (pieces : List Decoded) : Option (List Char) :=
  (pieces.mapM m.repair?).map List.flatten

end Malformed

end GrammarKit
