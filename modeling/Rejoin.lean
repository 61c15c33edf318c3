import Rejoin.Text.Span
import Rejoin.Text.Blank
import Rejoin.Text.Line
import Rejoin.Text.Numeral
import Rejoin.Diagnostic
import Rejoin.Machine.Inst
import Rejoin.Flow.Transfer
import Rejoin.Machine.Func
import Rejoin.Machine.Printer
import Rejoin.Listing.Tree
import Rejoin.Listing.Printer
import Rejoin.Listing.Token
import Rejoin.Listing.Lexer
import Rejoin.Listing.Parser
import Rejoin.Listing.Lowering
import Rejoin.Flow.Digraph
import Rejoin.Flow.PostDominance
import Rejoin.Flow.Graph
import Rejoin.Isa
import Rejoin.Dependence.Numbering
import Rejoin.Dependence.DefUse
import Rejoin.Dependence.Closure
import Rejoin.Dependence.Region
import Rejoin.Dependence.Error
import Rejoin.Dependence.Branches
import Rejoin.Session
import Rejoin.Report.Record
import Rejoin.Report.Reader
import Rejoin.Report.LocationTable
import Rejoin.Report.Account
import Rejoin.Address
import Rejoin.Koopa.Token
import Rejoin.Koopa.Tree
import Rejoin.Koopa.Parser
import Rejoin.Koopa.Program
import Rejoin.Koopa.Scope
import Rejoin.Koopa.Check
import Rejoin.Koopa.Lowering
import Rejoin.Command.Arguments
import Rejoin.Command.Help
import Rejoin.Command.Run
import Rejoin.Command.Folder
import Rejoin.Main
import Rejoin.Proofs.Text.Numeral
import Rejoin.Proofs.Text.Span
import Rejoin.Proofs.Text.Line
import Rejoin.Proofs.Flow.ExitGraph
import Rejoin.Proofs.Flow.PostDominance
import Rejoin.Proofs.Flow.Graph
import Rejoin.Proofs.Flow.Reconvergence
import Rejoin.Proofs.Flow.Placement
import Rejoin.Proofs.Machine.Layout
import Rejoin.Proofs.Machine.Building
import Rejoin.Proofs.Machine.Lookup
import Rejoin.Proofs.Machine.WellFormed
import Rejoin.Proofs.Machine.History
import Rejoin.Proofs.Machine.Neighbours
import Rejoin.Proofs.Outcome
import Rejoin.Proofs.Listing.Lowering
import Rejoin.Proofs.Listing.Faults
import Rejoin.Proofs.Listing.Scanning
import Rejoin.Proofs.Listing.Grammar
import Rejoin.Proofs.Listing.Parsing
import Rejoin.Proofs.Listing.ParseErrors
import Rejoin.Proofs.Listing.Printing
import Rejoin.Proofs.Listing.RoundTrip
import Rejoin.Proofs.Session
import Rejoin.Proofs.Dependence.NumberOrder
import Rejoin.Proofs.Dependence.Closure
import Rejoin.Proofs.Dependence.Region
import Rejoin.Proofs.Dependence.Analysis
import Rejoin.Proofs.Dependence.Dependents
import Rejoin.Proofs.Dependence.Recoding
import Rejoin.Proofs.Dependence.Annotations
import Rejoin.Proofs.Report.Reader
import Rejoin.Proofs.Report.Grammar
import Rejoin.Proofs.Report.Append
import Rejoin.Proofs.Report.LocationTable
import Rejoin.Proofs.Address
import Rejoin.Proofs.Dependence.Nesting
import Rejoin.Proofs.Dependence.Polarity
import Rejoin.Proofs.Koopa.Check
import Rejoin.Proofs.Koopa.Lowering
import Rejoin.Proofs.Dependence.Totality
import Rejoin.Proofs.Dependence.Seeds
import Rejoin.Proofs.Listing.Concatenation
import Rejoin.Proofs.Dependence.Concatenation
import Rejoin.Proofs.Listing.Spelling
import Rejoin.Proofs.Dependence.Relabelling
import Rejoin.Proofs.Listing.Printout
import Rejoin.Proofs.Listing.Spans
import Rejoin.Proofs.Listing.LowerErrors
import Rejoin.Proofs.Dependence.Accounting
import Rejoin.Proofs.Dependence.Unnumbered
import Rejoin.Proofs.Dependence.Fusion
import Rejoin.Proofs.Dump
import Rejoin.Proofs.Dependence.DefUse
import Rejoin.Proofs.Koopa.Naming
import Rejoin.Proofs.Koopa.DefUse
import Rejoin.Proofs.Koopa.Operands
import Rejoin.Proofs.Koopa.Dependence
import Rejoin.Proofs.Listing.Agreement
import Rejoin.Proofs.Listing.Spacing
