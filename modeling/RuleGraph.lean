import RuleGraph.Bound
import RuleGraph.CharSet.Basic
import RuleGraph.Grammar.Basic
import RuleGraph.Grammar.Draft
import RuleGraph.Grammar.Error
import RuleGraph.Grammar.Printed
import RuleGraph.Hosted.Classes
import RuleGraph.Hosted.Declarations
import RuleGraph.Hosted.Error
import RuleGraph.Hosted.Label
import RuleGraph.Hosted.MetaGrammar
import RuleGraph.Hosted.Parse
import RuleGraph.Hosted.Place
import RuleGraph.Matching.Outcome
import RuleGraph.Matching.Run
import RuleGraph.Overlay.Basic
import RuleGraph.Overlay.Gaps
import RuleGraph.Overlay.Printed
import RuleGraph.Proofs.Chains
import RuleGraph.Proofs.CharSet.Canonical
import RuleGraph.Proofs.CharSet.Complements
import RuleGraph.Proofs.CharSet.Construction
import RuleGraph.Proofs.CharSet.Members
import RuleGraph.Proofs.CharSet.Ranges
import RuleGraph.Proofs.CharSet.Sorting
import RuleGraph.Proofs.Grammar.Capacity
import RuleGraph.Proofs.Grammar.Completions
import RuleGraph.Proofs.Grammar.DeclarationOrder
import RuleGraph.Proofs.Grammar.Extension
import RuleGraph.Proofs.Grammar.Lookup
import RuleGraph.Proofs.Grammar.Members
import RuleGraph.Proofs.Grammar.Names
import RuleGraph.Proofs.Grammar.PrintedSets
import RuleGraph.Proofs.Grammar.Printing
import RuleGraph.Proofs.Grammar.QuietNames
import RuleGraph.Proofs.Grammar.References
import RuleGraph.Proofs.Grammar.Terminals
import RuleGraph.Proofs.Hosted.Faults
import RuleGraph.Proofs.Hosted.Inversion
import RuleGraph.Proofs.Hosted.Keeping
import RuleGraph.Proofs.Hosted.Legibility
import RuleGraph.Proofs.Hosted.Lexemes
import RuleGraph.Proofs.Hosted.MetaRules
import RuleGraph.Proofs.Hosted.Notation
import RuleGraph.Proofs.Hosted.Parentheses
import RuleGraph.Proofs.Hosted.Recognition
import RuleGraph.Proofs.Hosted.Rendering
import RuleGraph.Proofs.Hosted.Symbols
import RuleGraph.Proofs.Hosted.Translation
import RuleGraph.Proofs.Matching.Agreement
import RuleGraph.Proofs.Matching.Blindness
import RuleGraph.Proofs.Matching.Boundaries
import RuleGraph.Proofs.Matching.Commitment
import RuleGraph.Proofs.Matching.Completions
import RuleGraph.Proofs.Matching.Labels
import RuleGraph.Proofs.Matching.Limit
import RuleGraph.Proofs.Matching.Meaning
import RuleGraph.Proofs.Matching.Misses
import RuleGraph.Proofs.Matching.Overlays
import RuleGraph.Proofs.Matching.Quiet
import RuleGraph.Proofs.Matching.Refinement
import RuleGraph.Proofs.Matching.Rollback
import RuleGraph.Proofs.Matching.Splicing
import RuleGraph.Proofs.Matching.Taking
import RuleGraph.Proofs.Overlay.Ancestry
import RuleGraph.Proofs.Overlay.Columns
import RuleGraph.Proofs.Overlay.Consistency
import RuleGraph.Proofs.Overlay.Filling
import RuleGraph.Proofs.Overlay.Forests
import RuleGraph.Proofs.Overlay.Growth
import RuleGraph.Proofs.Overlay.Reading
import RuleGraph.Proofs.Overlay.Refilling
import RuleGraph.Proofs.Overlay.Rollback
import RuleGraph.Proofs.Overlay.Stretches
import RuleGraph.Proofs.Rule.Addresses
import RuleGraph.Proofs.Rule.Completions
import RuleGraph.Proofs.Rule.Nodes
import RuleGraph.Proofs.Rule.NormalForm
import RuleGraph.Proofs.Rule.Splicing
import RuleGraph.Proofs.Shared.Agreement
import RuleGraph.Proofs.Shared.Declarations
import RuleGraph.Proofs.Shared.Documents
import RuleGraph.Proofs.Shared.Notation
import RuleGraph.Proofs.Terse.Bodies
import RuleGraph.Proofs.Terse.Brackets
import RuleGraph.Proofs.Terse.Carrying
import RuleGraph.Proofs.Terse.Classes
import RuleGraph.Proofs.Terse.Comments
import RuleGraph.Proofs.Terse.Declarations
import RuleGraph.Proofs.Terse.Faults
import RuleGraph.Proofs.Terse.Growth
import RuleGraph.Proofs.Terse.Inclusion
import RuleGraph.Proofs.Terse.Keeping
import RuleGraph.Proofs.Terse.Members
import RuleGraph.Proofs.Terse.Notation
import RuleGraph.Proofs.Terse.Numerals
import RuleGraph.Proofs.Terse.Offsets
import RuleGraph.Proofs.Terse.Printing
import RuleGraph.Proofs.Terse.Quoting
import RuleGraph.Proofs.Terse.Reading
import RuleGraph.Proofs.Terse.ScannedSources
import RuleGraph.Proofs.Terse.Scanner
import RuleGraph.Proofs.Terse.Scanning
import RuleGraph.Proofs.Terse.Succession
import RuleGraph.Proofs.Terse.Writing
import RuleGraph.Proofs.Text.Numerals
import RuleGraph.Proofs.Text.Utf8
import RuleGraph.Rule.Basic
import RuleGraph.Rule.Equality
import RuleGraph.Rule.Walk
import RuleGraph.Spacing
import RuleGraph.Terse.Body
import RuleGraph.Terse.Braces
import RuleGraph.Terse.Brackets
import RuleGraph.Terse.Compile
import RuleGraph.Terse.Scope
import RuleGraph.Terse.Sign
import RuleGraph.Terse.Text
import RuleGraph.Text.Ascii
import RuleGraph.Text.Utf8
