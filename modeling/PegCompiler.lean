import PegCompiler.Main
import PegCompiler.CommandLine.Program
import PegCompiler.Workspace
import PegCompiler.Files.Store
import PegCompiler.Config.Options
import PegCompiler.Grammar.Document
import PegCompiler.Json.Reader
import PegCompiler.Decimal.Shortest
import PegCompiler.Compiler
import PegCompiler.Lowering.Matcher
import PegCompiler.Target.Module
import PegCompiler.Resolution.Grammar
import PegCompiler.Resolution.Context
import PegCompiler.Resolved.Printer
import PegCompiler.Resolved.Names
import PegCompiler.Grammar.Kind
import PegCompiler.Grammar.ActionTypes
import PegCompiler.Layout.Output
import PegCompiler.Text.Quoted
import PegCompiler.Text.Indentation
import PegCompiler.Text.Cluster
import PegCompiler.Proofs.Semantics.Host
import PegCompiler.Proofs.Semantics.Resolved
import PegCompiler.Proofs.Semantics.Grammar
import PegCompiler.Proofs.Semantics.Target
import PegCompiler.Proofs.Naming.Bases
import PegCompiler.Proofs.Naming.Distinct
import PegCompiler.Proofs.Resolution.Rules
import PegCompiler.Proofs.Resolution.Table
import PegCompiler.Proofs.Resolution.Rows
import PegCompiler.Proofs.Resolution.Extracted
import PegCompiler.Proofs.Resolution.Typing
import PegCompiler.Proofs.Resolution.Values
import PegCompiler.Proofs.Resolution.Meaning
import PegCompiler.Proofs.Lowering.States
import PegCompiler.Proofs.Resolved.Within
import PegCompiler.Proofs.Lowering.Scopes
import PegCompiler.Proofs.Lowering.Runs
import PegCompiler.Proofs.Lowering.Expressions
import PegCompiler.Proofs.Lowering.Calls
import PegCompiler.Proofs.Lowering.Choices
import PegCompiler.Proofs.Lowering.Loops
import PegCompiler.Proofs.Lowering.Elements
import PegCompiler.Proofs.Lowering.Lowered
import PegCompiler.Proofs.Lowering.Simulation
import PegCompiler.Proofs.Lowering.Functions
import PegCompiler.Proofs.Lowering.Refinement
import PegCompiler.Proofs.Recognition.Peg
import PegCompiler.Proofs.Recognition.Reading
import PegCompiler.Proofs.Recognition.StartRule
import PegCompiler.Proofs.Validity.Nodes
import PegCompiler.Proofs.Validity.Visits
import PegCompiler.Proofs.Validity.Accepted
import PegCompiler.Proofs.Validity.Rules
import PegCompiler.Proofs.Validity.Grammars
import PegCompiler.Proofs.Naming.Identifiers
import PegCompiler.Proofs.Lowering.Names
import PegCompiler.Proofs.Resolution.Groups
import PegCompiler.Proofs.Semantics.Undefined
import PegCompiler.Proofs.Lowering.Assigned
import PegCompiler.Proofs.Resolved.Captures
import PegCompiler.Proofs.Lowering.Locals
import PegCompiler.Proofs.Lowering.References
import PegCompiler.Proofs.Lowering.Variables
import PegCompiler.Proofs.Lowering.Declared
import PegCompiler.Proofs.Semantics.Flow
import PegCompiler.Proofs.Lowering.Modules
import PegCompiler.Proofs.Lowering.Backtracking
import PegCompiler.Proofs.Lowering.Emitted
import PegCompiler.Proofs.Resolution.UserCode
import PegCompiler.Proofs.Lowering.Clashes
import PegCompiler.Proofs.Lowering.Numbers
import PegCompiler.Proofs.Resolution.Sizes
import PegCompiler.Proofs.Lowering.Identifiers
import PegCompiler.Proofs.Resolution.Locality
import PegCompiler.Proofs.Grammar.RoundTrip
import PegCompiler.Proofs.Layout.Joined
import PegCompiler.Proofs.Target.Continuations
import PegCompiler.Proofs.Lowering.Legible
import PegCompiler.Proofs.Lowering.Printed
import PegCompiler.Proofs.Resolution.Declarations
import PegCompiler.Proofs.Layout.Nodes
import PegCompiler.Proofs.Target.Constants
import PegCompiler.Proofs.Lowering.OpenRanges
import PegCompiler.Proofs.Resolved.Matchers
import PegCompiler.Proofs.Resolution.Silent
import PegCompiler.Proofs.Lowering.Silent
import PegCompiler.Proofs.Resolution.Sources
import PegCompiler.Proofs.Lowering.Integers
import PegCompiler.Proofs.Resolution.Counts
import PegCompiler.Proofs.Text.Unquoted
import PegCompiler.Proofs.Layout.Inline
import PegCompiler.Proofs.Resolved.Gist
import PegCompiler.Proofs.Resolved.Reader
import PegCompiler.Proofs.Resolved.OneLine
import PegCompiler.Proofs.Resolved.Readable
import PegCompiler.Proofs.Resolved.ReadBack
import PegCompiler.Proofs.Resolved.Agreement
import PegCompiler.Proofs.Resolution.Shape
import PegCompiler.Proofs.Resolution.Unambiguous
import PegCompiler.Proofs.Grammar.Canonical
import PegCompiler.Proofs.Fails
import PegCompiler.Proofs.Naming.Minimal
import PegCompiler.Proofs.Validity.Defects
import PegCompiler.Proofs.Validity.Locations
import PegCompiler.Proofs.Text.Dedent
import PegCompiler.Proofs.Layout.Prints
import PegCompiler.Proofs.Target.Verbatim
import PegCompiler.Proofs.Lowering.Verbatim
import PegCompiler.Proofs.Resolution.Labels
import PegCompiler.Proofs.Target.Levels
