import Exemplar.CharSet.Lemmas
import Exemplar.Main
import Exemplar.Random.Script
import Exemplar.Random.SplitMix
import Exemplar.Proofs.Results
import Exemplar.Proofs.Lists
import Exemplar.Proofs.Counts
import Exemplar.Proofs.Sides
import Exemplar.Proofs.Nodes
import Exemplar.Proofs.Language
import Exemplar.Proofs.Derivation
import Exemplar.Proofs.Pinning
import Exemplar.Proofs.Generator
import Exemplar.Proofs.Pattern.Steps
import Exemplar.Proofs.Pattern.Built
import Exemplar.Proofs.Pattern.Classes
import Exemplar.Proofs.Padding.Steps
import Exemplar.Proofs.Padding.Coherence
import Exemplar.Proofs.Padding.Language
import Exemplar.Proofs.Complement.Steps
import Exemplar.Proofs.Complement.Leading
import Exemplar.Proofs.Complement.Disjoint
import Exemplar.Proofs.Emission.Outcome
import Exemplar.Proofs.Emission.Sharing
import Exemplar.Proofs.Emission.Emitter
import Exemplar.Proofs.Emission.Search
import Exemplar.Proofs.Emission.Exact
import Exemplar.Proofs.Complement.Chain
import Exemplar.Proofs.Matching.Matcher
import Exemplar.Proofs.Matching.Spans
import Exemplar.Proofs.Matching.Realizes
import Exemplar.Proofs.Matching.Frames
import Exemplar.Proofs.Matching.Strings
import Exemplar.Proofs.Grammar.Syntax
import Exemplar.Proofs.Grammar.Brackets
import Exemplar.Proofs.Grammar.Lexing
import Exemplar.Proofs.Grammar.Reading
import Exemplar.Proofs.Grammar.Generation
import Exemplar.Proofs.Padding.Separation
import Exemplar.Proofs.Padding.Completion
import Exemplar.Proofs.Padding.Lengths
import Exemplar.Proofs.Sources
import Exemplar.Proofs.Emission.Naming
import Exemplar.Proofs.Pattern.Locality
import Exemplar.Proofs.Pattern.Enclosure
import Exemplar.Proofs.Whole
import Exemplar.Proofs.Padding.Regular
import Exemplar.Proofs.Lengths
import Exemplar.Proofs.Text.Classes
import Exemplar.Proofs.Text.Tokens
import Exemplar.Proofs.Text.Pieces
import Exemplar.Proofs.Text.Resemblance
import Exemplar.Proofs.Pattern.Composition
import Exemplar.Proofs.Text.Rereading
import Exemplar.Proofs.Text.RoundTrip
import Exemplar.Proofs.Text.Distinct
import Exemplar.Proofs.Text.Comparison
import Exemplar.Proofs.Emission.Failure
import Exemplar.Proofs.Emission.Verdict
import Exemplar.Proofs.Complement.First
import Exemplar.Proofs.Complement.Existence
import Exemplar.Proofs.Emission.Gaps
import Exemplar.Proofs.Emission.Refusal
import Exemplar.Proofs.Pattern.Placement
import Exemplar.Proofs.Text.Brackets
import Exemplar.Proofs.Grammar.Completeness
import Exemplar.Proofs.Text.Unpinned
import Exemplar.Proofs.Random.Uniform
import Exemplar.Proofs.Pattern.Cover
import Exemplar.Proofs.Pattern.Order
import Exemplar.Proofs.Pattern.Position
import Exemplar.Proofs.Pattern.Progress
import Exemplar.Proofs.Intervals
import Exemplar.Proofs.CommandLine.Arguments
import Exemplar.Proofs.Emission.Splits
import Exemplar.Proofs.Emission.Window
import Exemplar.Proofs.Samples
