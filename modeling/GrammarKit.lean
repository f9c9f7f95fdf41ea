import GrammarKit.Strategy
import GrammarKit.Error
import GrammarKit.Answer
import GrammarKit.Term.Basic
import GrammarKit.Value.Basic
import GrammarKit.Store
import GrammarKit.Number.Basic
import GrammarKit.Number.Layout
import GrammarKit.Text.Quoted
import GrammarKit.Text.Numeral
import GrammarKit.Value.Sequence
import GrammarKit.Value.Equality
import GrammarKit.Value.Display
import GrammarKit.Value.Arithmetic
import GrammarKit.Callback.Signature
import GrammarKit.Parser.Combinators
import GrammarKit.Grammar.Arithmetic
import GrammarKit.Evaluation.Process
import GrammarKit.Evaluation.Interpreter
import GrammarKit.Session
import GrammarKit.Proofs.Eval
import GrammarKit.Proofs.Sequence
import GrammarKit.Proofs.Store
import GrammarKit.Proofs.Use
import GrammarKit.Proofs.DepthFirst
import GrammarKit.Proofs.Standard.Basic
import GrammarKit.Proofs.Standard.Combinators
import GrammarKit.Proofs.Hereditary
import GrammarKit.Proofs.Within.Basic
import GrammarKit.Proofs.Within.Combinators
import GrammarKit.Proofs.Comparison.Basic
import GrammarKit.Proofs.Comparison.Call
import GrammarKit.Proofs.Comparison.Process
import GrammarKit.Proofs.Standard.Call
import GrammarKit.Proofs.Standard.Process
import GrammarKit.Proofs.Shown
import GrammarKit.Proofs.Effects.Yields
import GrammarKit.Proofs.Runs
import GrammarKit.Proofs.Characters
import GrammarKit.Proofs.Numerals
import GrammarKit.Proofs.Folding
import GrammarKit.Proofs.Chains
import GrammarKit.Proofs.Expression.Grammar
import GrammarKit.Proofs.Expression.Parsers
import GrammarKit.Proofs.Expression.Outcomes
import GrammarKit.Proofs.Expression.Words
import GrammarKit.Proofs.Expression.Failures
import GrammarKit.Proofs.Expression.Printed
import GrammarKit.Proofs.Branching.Chains
import GrammarKit.Proofs.Agreement
import GrammarKit.Proofs.Depth
import GrammarKit.Proofs.Standard.Parse
import GrammarKit.Proofs.Standard.Sharing
import GrammarKit.Proofs.Copies
import GrammarKit.Proofs.Comparison.Operation
import GrammarKit.Proofs.Comparison.Interpreter
import GrammarKit.Proofs.Comparison.Sound
import GrammarKit.Proofs.Comparison.Pairing
import GrammarKit.Proofs.Cells.Kept
import GrammarKit.Proofs.Cells.Discipline
import GrammarKit.Proofs.Logging.Acyclic
import GrammarKit.Proofs.Logging.Messages
import GrammarKit.Proofs.Logging.Muted
import GrammarKit.Proofs.Logging.Brackets
import GrammarKit.Proofs.Branching.Separated
import GrammarKit.Proofs.Branching.Directions
import GrammarKit.Proofs.Branching.Nested
import GrammarKit.Proofs.Termination
import GrammarKit.Proofs.Effects.Leads
import GrammarKit.Proofs.Effects.Equality
import GrammarKit.Proofs.Branching.Sequencing
import GrammarKit.Proofs.Branching.Filtering
import GrammarKit.Proofs.Branching.Spellings
import GrammarKit.Proofs.Branching.StartsWith
import GrammarKit.Proofs.Branching.Accumulation
import GrammarKit.Proofs.Comparison.Frame
import GrammarKit.Proofs.Choices.Tables
import GrammarKit.Proofs.Lossless
import GrammarKit.Proofs.Lexemes
import GrammarKit.Proofs.Integers
import GrammarKit.Proofs.SeparatedWords
import GrammarKit.Proofs.Branching.Blanks
import GrammarKit.Proofs.Branching.EndOfInput
import GrammarKit.Proofs.Comparison.Corresponding
import GrammarKit.Proofs.Branching.Mappings
import GrammarKit.Proofs.Branching.Membership
import GrammarKit.Proofs.Headings
import GrammarKit.Proofs.Within.Locality
import GrammarKit.Proofs.Isolation.Apart
import GrammarKit.Proofs.Isolation.Results
import GrammarKit.Proofs.Containers.Ordinary
import GrammarKit.Proofs.Containers.ReadyMade
import GrammarKit.Proofs.Equality.Basic
import GrammarKit.Proofs.Equality.Comparable
import GrammarKit.Proofs.Equality.Counterparts
import GrammarKit.Proofs.Equality.Pairs
