/-!
# Errors

Everything that can go wrong while a grammar is built or used. That a parser does not match is
not among them: a failed match is an empty list of derivations.
-/

namespace GrammarKit

/-- The causes for which an evaluation is given up. -/
inductive Error where
  /-- An operation does not apply to values of this kind, or to so many of them. -/
  | wrongKind
  /-- A slice has the step zero. -/
  | zeroStep
  /-- A text is no numeral, or a numeral has more digits than are converted. -/
  | notNumeral
  /-- A base for numerals is neither zero nor one from 2 to 36. -/
  | wrongBase
  /-- A collection does not have the number of items it should have. -/
  | wrongCount
  /-- Sequencing was asked for without a continuation. -/
  | missingContinuation
  /-- A literal sequence has no items. -/
  | emptySequence
  /-- Values of a kind that is no text were to be concatenated. -/
  | textNeeded (kind : String)
  /-- A lazy parser was defined a second time. -/
  | alreadyDefined
  /-- A lazy parser was used before it was defined. -/
  | notDefined
  /-- A term raised an error of its own. -/
  | raised (message : List Char)
  | divisionByZero
  /-- A number is beyond the largest float, or too large for its use. -/
  | tooLarge
  /-- A sequence or a number would be larger than there is room for. -/
  | noRoom
  /-- Bytes are no text in the encoding they are said to have. -/
  | undecodable
  /-- No encoding, or no treatment of malformed bytes, goes by that name. -/
  | unknownEncoding
  /-- There is no item at that position. -/
  | outOfRange
  /-- A value has no such attribute or method. -/
  | noAttribute
  /-- No variable of that name is in scope. -/
  | unbound (name : String)
deriving DecidableEq, Repr

namespace Error

/-- The text of an error, for those that have one. -/
def message? : Error → Option (List Char)
  | missingContinuation => some "A continuation is required.".toList
  | emptySequence => some "At least one item required.".toList
  | textNeeded kind => some ("Accumulate.TEXT needs string values, got ".toList ++ kind.toList ++
      ". Use Accumulate.SEQUENCE instead.".toList)
  | alreadyDefined => some "Lazy parser is already defined.".toList
  | notDefined => some "Lazy parser used before being defined.".toList
  | raised message => some message
  | _ => none

end Error

/-- Why an evaluation ended without a value: an error, or the depth allowed to it was used up. -/
inductive Stop where
  | error (e : Error)
  | outOfFuel
deriving DecidableEq, Repr

end GrammarKit
