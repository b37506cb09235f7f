import TracePeel.Bindings
import TracePeel.Text.Ranges
import TracePeel.Text.Blank
import TracePeel.Text.Letter
import TracePeel.Text.Quoted
import TracePeel.Decimal.Binary64
import TracePeel.Decimal.Nearest
import TracePeel.Decimal.Shortest
import TracePeel.Decimal.Layout
import TracePeel.Operand
import TracePeel.Opcode
import TracePeel.Snapshot
import TracePeel.Snapshot.Relink
import TracePeel.Operation
import TracePeel.Trace
import TracePeel.Verify
import TracePeel.Dump
import TracePeel.Source.Span
import TracePeel.Source.Token
import TracePeel.Source.Number
import TracePeel.Source.Lexer
import TracePeel.Source.ParseError
import TracePeel.Source.Parser
import TracePeel.Optimize.Fold
import TracePeel.Optimize.Values
import TracePeel.Optimize.Config
import TracePeel.Optimize.Stats
import TracePeel.Optimize.OptError
import TracePeel.Optimize.Event
import TracePeel.Optimize.Optimizer
import TracePeel.Optimize.Rewrite
import TracePeel.Optimize.Virtualize
import TracePeel.Optimize.Peel
import TracePeel.Optimize.Chain
import TracePeel.Diagnostic
import TracePeel.Diagnostic.Render
import TracePeel.Optimize.Loop
import TracePeel.Environment
import TracePeel.Cli.Session
import TracePeel.Cli.Directory
import TracePeel.Cli.Options
import TracePeel.Cli.Progress
import TracePeel.Cli.Program
import TracePeel.Main
import TracePeel.Proofs.Passes
import TracePeel.Proofs.WellFormed
import TracePeel.Proofs.Behaviour.Crossing
import TracePeel.Proofs.Completed
import TracePeel.Proofs.Exceptions
import TracePeel.Proofs.Learning
import TracePeel.Proofs.Copying
import TracePeel.Proofs.Resuming
import TracePeel.Proofs.Behaviour.Laps
import TracePeel.Proofs.Preserving
import TracePeel.Proofs.Effects
import TracePeel.Proofs.Heap.Machine
import TracePeel.Proofs.Heap.Mirroring
import TracePeel.Proofs.Heap.Removing
import TracePeel.Proofs.Numbering
import TracePeel.Proofs.Peeling.Fixpoint
import TracePeel.Proofs.Peeling.Marking
import TracePeel.Proofs.Materializing
import TracePeel.Proofs.Rebuilding
import TracePeel.Proofs.Computing
import TracePeel.Proofs.Accounting
import TracePeel.Proofs.Source.Targets
import TracePeel.Proofs.Source.Established
import TracePeel.Proofs.Source.Derivable
import TracePeel.Proofs.Source.Blaming
import TracePeel.Proofs.Source.Constants
import TracePeel.Proofs.Source.Integers
import TracePeel.Proofs.Source.Tiling
import TracePeel.Proofs.Bounding
import TracePeel.Proofs.Unwinding
import TracePeel.Proofs.Coherence
