import PushLisp.Bytes
import PushLisp.Cell.Buffer
import PushLisp.Cell.Builtin
import PushLisp.Cell.Object
import PushLisp.Cell.Words
import PushLisp.Command.Folder
import PushLisp.Command.Invocation
import PushLisp.Command.Options
import PushLisp.Command.Size
import PushLisp.Fault
import PushLisp.Heap.Basic
import PushLisp.Heap.Collect
import PushLisp.Heap.Marks
import PushLisp.Heap.Platform
import PushLisp.Machine.Action
import PushLisp.Machine.Allocation
import PushLisp.Machine.Basic
import PushLisp.Machine.Binding
import PushLisp.Machine.Evaluator
import PushLisp.Machine.Run
import PushLisp.Machine.Sequence
import PushLisp.Machine.Words
import PushLisp.Main
import PushLisp.Memory
import PushLisp.Number.Binary64
import PushLisp.Number.Literal
import PushLisp.Program
import PushLisp.Proofs.Accounting
import PushLisp.Proofs.Acyclicity
import PushLisp.Proofs.Allocation
import PushLisp.Proofs.Arguments
import PushLisp.Proofs.AtomIdentity
import PushLisp.Proofs.Balance
import PushLisp.Proofs.Bindings
import PushLisp.Proofs.Calls
import PushLisp.Proofs.Cells
import PushLisp.Proofs.Collection
import PushLisp.Proofs.Confinement
import PushLisp.Proofs.Demands
import PushLisp.Proofs.Elementary
import PushLisp.Proofs.EmptyScope
import PushLisp.Proofs.Encoding
import PushLisp.Proofs.Exhaustion
import PushLisp.Proofs.FailedReads
import PushLisp.Proofs.Grammar
import PushLisp.Proofs.IndexSets
import PushLisp.Proofs.Layout
import PushLisp.Proofs.LexicalScope
import PushLisp.Proofs.Lists
import PushLisp.Proofs.Lookahead
import PushLisp.Proofs.MemoryBytes
import PushLisp.Proofs.NextFit
import PushLisp.Proofs.Operands
import PushLisp.Proofs.Persistence
import PushLisp.Proofs.RawMemory
import PushLisp.Proofs.RawView
import PushLisp.Proofs.ReadProgress
import PushLisp.Proofs.ReadRules
import PushLisp.Proofs.Readable
import PushLisp.Proofs.Reading
import PushLisp.Proofs.RoundTrip
import PushLisp.Proofs.Runs
import PushLisp.Proofs.Session
import PushLisp.Proofs.Setup
import PushLisp.Proofs.ShapedCode
import PushLisp.Proofs.ShapedSteps
import PushLisp.Proofs.Shapes
import PushLisp.Proofs.Simulation.Basic
import PushLisp.Proofs.Simulation.Canonical
import PushLisp.Proofs.Simulation.Deepening
import PushLisp.Proofs.Simulation.Diagonal
import PushLisp.Proofs.Simulation.Evaluator
import PushLisp.Proofs.Simulation.Laws
import PushLisp.Proofs.Simulation.Operations
import PushLisp.Proofs.Simulation.Renaming
import PushLisp.Proofs.Simulation.Resizing
import PushLisp.Proofs.Simulation.Restriction
import PushLisp.Proofs.Simulation.Walk
import PushLisp.Proofs.Sizes
import PushLisp.Proofs.StackEffects
import PushLisp.Proofs.StackFrame
import PushLisp.Proofs.StackShape
import PushLisp.Proofs.Startup
import PushLisp.Proofs.StringLiterals
import PushLisp.Proofs.SuccessiveReads
import PushLisp.Proofs.TableSize
import PushLisp.Proofs.TailCalls
import PushLisp.Proofs.Terms
import PushLisp.Proofs.Truncation
import PushLisp.Proofs.Walks
import PushLisp.Sink
import PushLisp.Source
import PushLisp.Term.Printer
import PushLisp.Term.Reader
import PushLisp.Text.Blank
import PushLisp.Text.Numeral
import PushLisp.Text.Quoted
import PushLisp.Text.Unprintable
import PushLisp.Text.Utf8
