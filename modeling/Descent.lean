import Descent.Command
import Descent.Main
import Descent.Sums.Datum
import Descent.Proofs.Enumeration
import Descent.Proofs.Frames
import Descent.Proofs.Limit
import Descent.Proofs.Room
import Descent.Proofs.Derivation
import Descent.Proofs.Closed
import Descent.Proofs.Numeral
import Descent.Proofs.Rest
import Descent.Proofs.Sums.Derivation
import Descent.Proofs.Sums.Reading
import Descent.Proofs.Sums.Value
import Descent.Proofs.Sums.Written
import Descent.Proofs.Sums.Runs
import Descent.Proofs.Locality
import Descent.Proofs.Sums.Prefix
import Descent.Proofs.Sums.Refusal
import Descent.Proofs.Description.Reader
import Descent.Proofs.Description.Format
import Descent.Proofs.Sums.Depth
import Descent.Proofs.Description.Requirement
import Descent.Proofs.LeftCalls
import Descent.Proofs.Description.Beginning
import Descent.Proofs.Description.Place
import Descent.Proofs.Description.Mistake
import Descent.Proofs.Description.Skips
import Descent.Proofs.Leaves
import Descent.Proofs.Longest
import Descent.Proofs.Sums.Longest
import Descent.Proofs.Sums.Shape
import Descent.Proofs.Flat
import Descent.Proofs.OneOrMore
import Descent.Proofs.Description.Congruence
import Descent.Proofs.Description.Unrolling
import Descent.Proofs.Description.Blocks
import Descent.Proofs.Silence
import Descent.Proofs.Description.Weaving
import Descent.Proofs.LongestSkip
import Descent.Proofs.Furthest
import Descent.Proofs.Spans
import Descent.Proofs.Shift
import Descent.Proofs.Description.Grouping
import Descent.Proofs.Height
import Descent.Proofs.Sums.Nesting
import Descent.Proofs.Sums.Places
import Descent.Proofs.Sums.Composition
import Descent.Proofs.Context
import Descent.Proofs.Renaming
import Descent.Proofs.Description.Renaming
import Descent.Proofs.Outcome
import Descent.Proofs.Numeral.Canonical
import Descent.Proofs.Description.Class
import Descent.Proofs.Description.Escape
import Descent.Proofs.Description.Literal
import Descent.Proofs.Description.Identifier
import Descent.Proofs.Quoted
import Descent.Proofs.Rendering
import Descent.Proofs.Repetition
import Descent.Proofs.Command.Evaluation
import Descent.Proofs.Command.Verbosity
