import ModelText.CommandLine.Arguments
import ModelText.CommandLine.Report
import ModelText.CommandLine.Run
import ModelText.CommandLine.Verbosity
import ModelText.Compilation.Closure
import ModelText.Compilation.Config
import ModelText.Compilation.Result
import ModelText.Compilation.Settings
import ModelText.Construction.Assignment
import ModelText.Construction.Fault
import ModelText.Construction.Link
import ModelText.Construction.Session
import ModelText.Construction.Step
import ModelText.Construction.Unit
import ModelText.Construction.Work
import ModelText.Decimal.Basic
import ModelText.Decimal.Reader
import ModelText.Decimal.Shortest
import ModelText.Decimal.Writer
import ModelText.Diagnostic.Basic
import ModelText.Diagnostic.Collector
import ModelText.Event
import ModelText.Graph.Basic
import ModelText.Graph.Outline
import ModelText.Graph.Resolution
import ModelText.Literal
import ModelText.Main
import ModelText.Metamodel.Catalog
import ModelText.Metamodel.Checking
import ModelText.Metamodel.Schema
import ModelText.Metamodel.SchemaText
import ModelText.Metamodel.Types
import ModelText.NameMap
import ModelText.NameSet
import ModelText.Problem.Basic
import ModelText.Problem.Sink
import ModelText.Proofs.Compilation.Authority
import ModelText.Proofs.Compilation.Closure
import ModelText.Proofs.Compilation.Conformance
import ModelText.Proofs.Compilation.EntryOrder
import ModelText.Proofs.Compilation.Faithful
import ModelText.Proofs.Compilation.Faults
import ModelText.Proofs.Compilation.ForwardLinks
import ModelText.Proofs.Compilation.Journal
import ModelText.Proofs.Compilation.Orders
import ModelText.Proofs.Compilation.Ownership
import ModelText.Proofs.Compilation.Providers
import ModelText.Proofs.Compilation.Results
import ModelText.Proofs.Compilation.Roots
import ModelText.Proofs.Compilation.Targets
import ModelText.Proofs.Compilation.UnitEnds
import ModelText.Proofs.Compilation.UnitView
import ModelText.Proofs.Compilation.Units
import ModelText.Proofs.Construction.Account
import ModelText.Proofs.Construction.Alike
import ModelText.Proofs.Construction.AlikeLinks
import ModelText.Proofs.Construction.AlikeUnits
import ModelText.Proofs.Construction.BreakOff
import ModelText.Proofs.Construction.Calm
import ModelText.Proofs.Construction.Clean
import ModelText.Proofs.Construction.Closed
import ModelText.Proofs.Construction.Declarable
import ModelText.Proofs.Construction.Endings
import ModelText.Proofs.Construction.Faithful
import ModelText.Proofs.Construction.Fatal
import ModelText.Proofs.Construction.Faults
import ModelText.Proofs.Construction.Filling
import ModelText.Proofs.Construction.Headers
import ModelText.Proofs.Construction.Imports
import ModelText.Proofs.Construction.IsolatedUnit
import ModelText.Proofs.Construction.IsolatedWalk
import ModelText.Proofs.Construction.Isolation
import ModelText.Proofs.Construction.KeptText
import ModelText.Proofs.Construction.LinkMoves
import ModelText.Proofs.Construction.LinkOrder
import ModelText.Proofs.Construction.LinkPass
import ModelText.Proofs.Construction.Linking
import ModelText.Proofs.Construction.Moves
import ModelText.Proofs.Construction.OpenScopes
import ModelText.Proofs.Construction.Outcomes
import ModelText.Proofs.Construction.Ownership
import ModelText.Proofs.Construction.Recovery
import ModelText.Proofs.Construction.Refinement
import ModelText.Proofs.Construction.Sequence
import ModelText.Proofs.Construction.Stack
import ModelText.Proofs.Construction.UnitMoves
import ModelText.Proofs.Construction.Walk
import ModelText.Proofs.Graph.Append
import ModelText.Proofs.Graph.Changes
import ModelText.Proofs.Graph.Closed
import ModelText.Proofs.Graph.Conformance
import ModelText.Proofs.Graph.Containment
import ModelText.Proofs.Graph.Elements
import ModelText.Proofs.Graph.Exchange
import ModelText.Proofs.Graph.Extension
import ModelText.Proofs.Graph.InPlace
import ModelText.Proofs.Graph.Isomorphism
import ModelText.Proofs.Graph.Operations
import ModelText.Proofs.Graph.Outline
import ModelText.Proofs.Graph.Owned
import ModelText.Proofs.Graph.Ownership
import ModelText.Proofs.Graph.Places
import ModelText.Proofs.Graph.References
import ModelText.Proofs.Graph.Renaming
import ModelText.Proofs.Graph.SearchOrder
import ModelText.Proofs.Metamodel.Composition
import ModelText.Proofs.Metamodel.Declarations
import ModelText.Proofs.Metamodel.Exact
import ModelText.Proofs.Metamodel.FeatureNames
import ModelText.Proofs.Metamodel.Inheritance
import ModelText.Proofs.Metamodel.Listings
import ModelText.Proofs.Metamodel.Overriding
import ModelText.Proofs.Metamodel.Reordering
import ModelText.Proofs.Metamodel.SupertypeOrder
import ModelText.Proofs.Metamodel.Validity
import ModelText.Proofs.Metamodel.WellFormed
import ModelText.Proofs.NameMap
import ModelText.Proofs.NameSet
import ModelText.Proofs.Problem.Ledger
import ModelText.Proofs.Source.Confinement
import ModelText.Proofs.Source.Listing
import ModelText.Proofs.Source.Paths
import ModelText.Proofs.Source.Places
import ModelText.Proofs.Source.Trees
import ModelText.Proofs.Text.LineIndex
import ModelText.Proofs.Text.Split
import ModelText.Proofs.Token.Lines
import ModelText.Proofs.Token.Numbers
import ModelText.Proofs.Token.Places
import ModelText.Proofs.Token.Printing
import ModelText.Proofs.Token.Recovery
import ModelText.Proofs.Token.Spelling
import ModelText.Proofs.Token.Tiling
import ModelText.Proofs.Tree.Brackets
import ModelText.Proofs.Tree.Complete
import ModelText.Proofs.Tree.Decoding
import ModelText.Proofs.Tree.Displaced
import ModelText.Proofs.Tree.Firm
import ModelText.Proofs.Tree.Grammar
import ModelText.Proofs.Tree.Layout
import ModelText.Proofs.Tree.Places
import ModelText.Proofs.Tree.Printing
import ModelText.Proofs.Tree.Reach
import ModelText.Proofs.Tree.Reading
import ModelText.Proofs.Tree.Sound
import ModelText.Proofs.Tree.Slots
import ModelText.Proofs.Tree.SourceOrder
import ModelText.Proofs.Tree.Viable
import ModelText.Proofs.Verdict
import ModelText.Source.Basic
import ModelText.Source.Directory
import ModelText.Source.Files
import ModelText.Source.Path
import ModelText.Text.Capital
import ModelText.Text.Combining
import ModelText.Text.LineIndex
import ModelText.Text.Number
import ModelText.Text.Position
import ModelText.Text.Quoted
import ModelText.Text.Span
import ModelText.Text.Split
import ModelText.Text.Unprintable
import ModelText.Token.Basic
import ModelText.Token.Lexer
import ModelText.Toml.Basic
import ModelText.Toml.Draft
import ModelText.Toml.Moment
import ModelText.Toml.Reader
import ModelText.Toml.Record
import ModelText.Toml.Scalar
import ModelText.Tree.Basic
import ModelText.Tree.Parser
import ModelText.Value
