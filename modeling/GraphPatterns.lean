import GraphPatterns.Main
import GraphPatterns.Pattern.Printer
import GraphPatterns.Proofs.Outcomes
import GraphPatterns.Proofs.Limit
import GraphPatterns.Proofs.Simulation
import GraphPatterns.Proofs.Loops
import GraphPatterns.Proofs.Refinement
import GraphPatterns.Proofs.Round
import GraphPatterns.Proofs.NestedLoop
import GraphPatterns.Proofs.Completeness
import GraphPatterns.Proofs.Lengths
import GraphPatterns.Proofs.Selection
import GraphPatterns.Proofs.Judging
import GraphPatterns.Proofs.Signals
import GraphPatterns.Proofs.PerPair
import GraphPatterns.Proofs.Selected
import GraphPatterns.Proofs.Endpoints
import GraphPatterns.Proofs.Everywhere
import GraphPatterns.Proofs.StepCap
import GraphPatterns.Proofs.Moves
import GraphPatterns.Proofs.Walks
import GraphPatterns.Proofs.Chains
import GraphPatterns.Proofs.LegalMatches
import GraphPatterns.Proofs.GroupVariables
import GraphPatterns.Proofs.Lookup
import GraphPatterns.Proofs.Places
import GraphPatterns.Proofs.Rebinding
import GraphPatterns.Proofs.Agreement
import GraphPatterns.Proofs.Seeded
import GraphPatterns.Proofs.Comma
import GraphPatterns.Proofs.Validity
import GraphPatterns.Proofs.Occurrences
import GraphPatterns.Proofs.Declared
import GraphPatterns.Proofs.Coherence
import GraphPatterns.Proofs.GraphScan
import GraphPatterns.Proofs.Starts
import GraphPatterns.Proofs.Sifting
import GraphPatterns.Proofs.KeptSeed
import GraphPatterns.Proofs.SeededBindings
import GraphPatterns.Proofs.SeedFilter
import GraphPatterns.Proofs.Kinds
import GraphPatterns.Proofs.SeededNames
import GraphPatterns.Proofs.Threads
import GraphPatterns.Proofs.Slack
import GraphPatterns.Proofs.Spots
import GraphPatterns.Proofs.Stacks
import GraphPatterns.Proofs.LengthLimits
import GraphPatterns.Proofs.Uncut
import GraphPatterns.Proofs.Tours
import GraphPatterns.Proofs.Repeats
import GraphPatterns.Proofs.Listings
import GraphPatterns.Proofs.Termination
import GraphPatterns.Proofs.Unrolling
import GraphPatterns.Proofs.Mirror
import GraphPatterns.Proofs.Routes
import GraphPatterns.Proofs.Reversal
import GraphPatterns.Proofs.Tokens
import GraphPatterns.Proofs.Reading
import GraphPatterns.Proofs.Rounding
import GraphPatterns.Proofs.ShortestDigits
import GraphPatterns.Proofs.NumberTexts
import GraphPatterns.Proofs.ReadValues
import GraphPatterns.Proofs.ReadExprs
import GraphPatterns.Proofs.ReadLabels
import GraphPatterns.Proofs.ReadElements
import GraphPatterns.Proofs.ReadPrefixes
import GraphPatterns.Proofs.ReadPaths
import GraphPatterns.Proofs.ReadPatterns
import GraphPatterns.Proofs.Grammar
import GraphPatterns.Proofs.RoundTrip
import GraphPatterns.Proofs.Wordings
import GraphPatterns.Proofs.Operators
import GraphPatterns.Proofs.ReadWordings
import GraphPatterns.Proofs.Rereading
import GraphPatterns.Proofs.SingleNodes
import GraphPatterns.Proofs.LabelTexts
import GraphPatterns.Proofs.LiteralTexts
import GraphPatterns.Proofs.Equality
import GraphPatterns.Proofs.Knowledge
import GraphPatterns.Proofs.Integers
import GraphPatterns.Proofs.PropertyFilters
import GraphPatterns.Graph.InPlace
import GraphPatterns.Pattern.Scan.Basic
import GraphPatterns.Pattern.Scan.Token
import GraphPatterns.Pattern.Scan.Expr
import GraphPatterns.Pattern.Scan.Element
import GraphPatterns.Pattern.Scan.Path
import GraphPatterns.Proofs.Updates
import GraphPatterns.Proofs.Imports
import GraphPatterns.Proofs.Slices
import GraphPatterns.Proofs.Cursors
import GraphPatterns.Proofs.Fronts
import GraphPatterns.Proofs.SkippedBlanks
import GraphPatterns.Proofs.Following
import GraphPatterns.Proofs.ScannedTokens
import GraphPatterns.Proofs.ScannedExprs
import GraphPatterns.Proofs.ScannedElements
import GraphPatterns.Proofs.ScannedPaths
import GraphPatterns.Proofs.ScannedTexts
import GraphPatterns.Proofs.Layout
import GraphPatterns.Proofs.BlindTokens
import GraphPatterns.Proofs.BlindExprs
import GraphPatterns.Proofs.BlindElements
import GraphPatterns.Proofs.BlindPaths
import GraphPatterns.Proofs.GroupedElements
import GraphPatterns.Proofs.Sessions
