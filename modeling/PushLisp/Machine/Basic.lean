import PushLisp.Heap.Collect
import PushLisp.Sink
import PushLisp.Source

/-!
# The machine

The state of a run: the heap, the block of registers that programs can address, the roots held
while an operation is under way, the source still to be read, the output, and a log.

## Main definitions

* `Registers`: the state block; its first ten words are roots.
* `Event`: an entry of the log.
* `Machine`: the state of a run.
-/
namespace PushLisp

/-- The state block, one word for each field, in order. -/
structure Registers where
  /-- What counts as the empty list. -/
  nil : Handle
  /-- Terms that the next reads hand out before they touch the source. -/
  readQueue : Handle
  /-- The list of all interned atoms, newest first. -/
  registry : Handle
  /-- The atom that stands for truth. -/
  atomTrue : Handle
  /-- The quoting atom. -/
  atomQuote : Handle
  /-- The atom that a push directive ends with. -/
  atomPush : Handle
  /-- The atom that a pop directive ends with. -/
  atomPop : Handle
  /-- The value stack, a list with its top first. -/
  stack : Handle
  /-- The environment that programs start in. -/
  env : Handle
  /-- The term that is being run. -/
  program : Handle
  /-- The address of the slot table. -/
  slots : UInt64
  /-- The number of slots. -/
  capacity : UInt64
  deriving Repr, DecidableEq

/-- The registers that keep what they name alive. -/
def Registers.roots (r : Registers) : List Handle :=
  [r.nil, r.readQueue, r.registry, r.atomTrue, r.atomQuote, r.atomPush, r.atomPop, r.stack, r.env,
    r.program]

/-- An entry of the log. -/
inductive Event where
  /-- A machine was set up. -/
  | started (slots : Nat)
  /-- A sequence is about to be run, on a stack of a given depth. -/
  | computing (sequence : String) (depth : Nat)
  /-- A term is about to be evaluated. -/
  | evaluating (term : String)
  /-- A collection ended. -/
  | collected (number freed live capacity : Nat)
  deriving Repr, DecidableEq

/-- The wording of a log entry. -/
def Event.message : Event → String
  | .started slots => "forsp runtime: " ++ toString slots ++ " object slots"
  | .computing sequence depth =>
    "compute: " ++ sequence ++ " (stack depth " ++ toString depth ++ ")"
  | .evaluating term => "eval: " ++ term
  | .collected number freed live capacity =>
    "collection #" ++ toString number ++ ": freed " ++ toString freed ++ " slots, " ++
      toString live ++ " of " ++ toString capacity ++ " live"

/-- The state of a run. -/
structure Machine where
  /-- The objects. -/
  heap : Heap
  /-- The state block. -/
  registers : Registers
  /-- Roots held by operations under way, innermost first. -/
  shadow : List Handle
  /-- The text still to be read. -/
  source : Source
  /-- The output. -/
  sink : Sink
  /-- Whether a log is kept. -/
  tracing : Bool
  /-- The log. -/
  events : Array Event

end PushLisp
