import Retrace.Catalog
import Retrace.Checker.Command
import Retrace.Checker.Host
import Retrace.Cli.Action
import Retrace.Cli.Arguments
import Retrace.Cli.Run
import Retrace.Config
import Retrace.Decimal.Shortest
import Retrace.Disk
import Retrace.Disk.Glob
import Retrace.Disk.IgnoreFile
import Retrace.Disk.Sources
import Retrace.Disk.TreeFile
import Retrace.Fault
import Retrace.Instrument.Braces
import Retrace.Instrument.Instrumentation
import Retrace.Instrument.Probe
import Retrace.Instrument.TracePoint
import Retrace.Java.Form
import Retrace.Java.Grammar
import Retrace.Java.Lexeme
import Retrace.Java.Lexer
import Retrace.Java.Numeral
import Retrace.Java.Parse
import Retrace.Java.Rule
import Retrace.Java.Tree
import Retrace.Job.Registry
import Retrace.Job.Run
import Retrace.Json.Numeral
import Retrace.Json.Outline
import Retrace.Json.Printer
import Retrace.Json.Shape
import Retrace.Json.Token
import Retrace.Json.Value
import Retrace.Limit
import Retrace.Main
import Retrace.Path
import Retrace.Proofs.Disk.Paths
import Retrace.Proofs.Disk.Sources
import Retrace.Proofs.Disk.Trails
import Retrace.Proofs.Disk.TreeFile
import Retrace.Proofs.Instrument.Blocks
import Retrace.Proofs.Instrument.Braces
import Retrace.Proofs.Instrument.Ids
import Retrace.Proofs.Instrument.Lines
import Retrace.Proofs.Instrument.Loops
import Retrace.Proofs.Instrument.Normalized
import Retrace.Proofs.Instrument.Refusal
import Retrace.Proofs.Instrument.Single
import Retrace.Proofs.Instrument.Support
import Retrace.Proofs.Instrument.TracePoints
import Retrace.Proofs.Instrument.Weft
import Retrace.Proofs.Java.Bodies
import Retrace.Proofs.Java.Brackets
import Retrace.Proofs.Java.Branches
import Retrace.Proofs.Java.Chunks
import Retrace.Proofs.Java.Ends
import Retrace.Proofs.Java.Exchange
import Retrace.Proofs.Java.Fields
import Retrace.Proofs.Java.Frames
import Retrace.Proofs.Java.Giving
import Retrace.Proofs.Java.Headers
import Retrace.Proofs.Java.Hosts
import Retrace.Proofs.Java.Lexing
import Retrace.Proofs.Java.Making
import Retrace.Proofs.Java.Numerals
import Retrace.Proofs.Java.Parsing
import Retrace.Proofs.Java.Parts
import Retrace.Proofs.Java.Points
import Retrace.Proofs.Java.Reading
import Retrace.Proofs.Java.Seams
import Retrace.Proofs.Java.Shapes
import Retrace.Proofs.Java.Spans
import Retrace.Proofs.Java.Spots
import Retrace.Proofs.Java.Statements
import Retrace.Proofs.Java.Weaving
import Retrace.Proofs.Java.Woven
import Retrace.Proofs.Job.Batch
import Retrace.Proofs.Job.Faults
import Retrace.Proofs.Job.Independence
import Retrace.Proofs.Job.Lockstep
import Retrace.Proofs.Job.Outputs
import Retrace.Proofs.Job.Parallel
import Retrace.Proofs.Job.Stages
import Retrace.Proofs.Json.Printing
import Retrace.Proofs.Json.Shapes
import Retrace.Proofs.Json.Tokens
import Retrace.Proofs.Reconstruct.Agreement
import Retrace.Proofs.Reconstruct.Bindings
import Retrace.Proofs.Reconstruct.CallOrder
import Retrace.Proofs.Reconstruct.Calls
import Retrace.Proofs.Reconstruct.Chains
import Retrace.Proofs.Reconstruct.Coherence
import Retrace.Proofs.Reconstruct.Consumption
import Retrace.Proofs.Reconstruct.Coverage
import Retrace.Proofs.Reconstruct.Creations
import Retrace.Proofs.Reconstruct.Deferral
import Retrace.Proofs.Reconstruct.Edges
import Retrace.Proofs.Reconstruct.Endings
import Retrace.Proofs.Reconstruct.Entries
import Retrace.Proofs.Reconstruct.Execution
import Retrace.Proofs.Reconstruct.Failures
import Retrace.Proofs.Reconstruct.Faithful
import Retrace.Proofs.Reconstruct.Frames
import Retrace.Proofs.Reconstruct.Innermost
import Retrace.Proofs.Reconstruct.Ledger
import Retrace.Proofs.Reconstruct.Online
import Retrace.Proofs.Reconstruct.Order
import Retrace.Proofs.Reconstruct.OwnRanges
import Retrace.Proofs.Reconstruct.Owned
import Retrace.Proofs.Reconstruct.Ownership
import Retrace.Proofs.Reconstruct.Places
import Retrace.Proofs.Reconstruct.Plain
import Retrace.Proofs.Reconstruct.Preorder
import Retrace.Proofs.Reconstruct.Record
import Retrace.Proofs.Reconstruct.Refinement
import Retrace.Proofs.Reconstruct.Repeats
import Retrace.Proofs.Reconstruct.RoundNumbers
import Retrace.Proofs.Reconstruct.Rounds
import Retrace.Proofs.Reconstruct.Run
import Retrace.Proofs.Reconstruct.Scanning
import Retrace.Proofs.Reconstruct.Sight
import Retrace.Proofs.Reconstruct.Simulation
import Retrace.Proofs.Reconstruct.SiteOrder
import Retrace.Proofs.Reconstruct.Sites
import Retrace.Proofs.Reconstruct.Sources
import Retrace.Proofs.Reconstruct.Stepping
import Retrace.Proofs.Reconstruct.Supply
import Retrace.Proofs.Reconstruct.Termination
import Retrace.Proofs.Reconstruct.Validity
import Retrace.Proofs.Reconstruct.Waiting
import Retrace.Proofs.Source.Edits
import Retrace.Proofs.Source.Fields
import Retrace.Proofs.Source.Insertions
import Retrace.Proofs.Source.Layout
import Retrace.Proofs.Source.Numbering
import Retrace.Proofs.Source.Offsets
import Retrace.Proofs.Source.Projects
import Retrace.Proofs.Source.Ranges
import Retrace.Proofs.Symbolic.Assignments
import Retrace.Proofs.Symbolic.Declarations
import Retrace.Proofs.Symbolic.Hosting
import Retrace.Proofs.Symbolic.Merging
import Retrace.Proofs.Table
import Retrace.Proofs.Text.Numerals
import Retrace.Proofs.Text.Runs
import Retrace.Proofs.Text.Words
import Retrace.Proofs.Trace.Bounds
import Retrace.Proofs.Trace.Checks
import Retrace.Proofs.Trace.Overlaps
import Retrace.Proofs.Trace.Parsing
import Retrace.Proofs.Trace.RoundTrip
import Retrace.Proofs.Trace.Shape
import Retrace.Proofs.Trace.Structure
import Retrace.Reconstruct.Activation
import Retrace.Reconstruct.Classes
import Retrace.Reconstruct.Machine
import Retrace.Reconstruct.Scan
import Retrace.Reconstruct.Site
import Retrace.Shell.Run
import Retrace.Shell.Script
import Retrace.Shell.Tool
import Retrace.Source.Edit
import Retrace.Source.File
import Retrace.Source.Project
import Retrace.Source.Range
import Retrace.Source.Record
import Retrace.Symbolic.Assignment
import Retrace.Symbolic.Declarations
import Retrace.Symbolic.Flatten
import Retrace.Symbolic.Merge
import Retrace.Table
import Retrace.Text.Alphanumeric
import Retrace.Text.Blank
import Retrace.Text.Charset
import Retrace.Text.IdentifierChar
import Retrace.Text.Quoted
import Retrace.Text.Split
import Retrace.Text.Utf8
import Retrace.Text.Visible
import Retrace.Text.Words
import Retrace.Toml.Document
import Retrace.Toml.Item
import Retrace.Toml.Quote
import Retrace.Toml.Scalar
import Retrace.Trace.Record
import Retrace.Trace.Stream
import Retrace.Trace.Tree
import Retrace.Trace.Violation
