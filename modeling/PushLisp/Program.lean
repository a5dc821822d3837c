import PushLisp.Machine.Evaluator

/-!
# Programs

A machine is set up with its atoms and primitives, and then runs the terms of its source one after
another, each in the same initial environment.

## Main definitions

* `Config`: how a machine is set up.
* `Machine.start`: a machine ready to run.
* `Machine.runNext`: reads a term and runs it.
-/
namespace PushLisp

/-- How a machine is set up. -/
structure Config where
  /-- The number of slots asked for. -/
  slots : Nat := 64 * 1024
  /-- Whether raw access to memory is given. -/
  lowlevel : Bool := true
  deriving Repr, DecidableEq

namespace Machine

/-- A machine that has nothing but the empty list. -/
def blank (slots : Nat) (source : Bytes) (sink : Sink) (tracing : Bool) (platform : Platform) : Machine :=
  let heap := Heap.new slots platform
  { heap := heap
    registers :=
      { nil := .nil, readQueue := .nil, registry := .nil, atomTrue := .nil, atomQuote := .nil,
        atomPush := .nil, atomPop := .nil, stack := .nil, env := .nil, program := .nil,
        slots := platform.table, capacity := heap.capacity.toUInt64 }
    shadow := []
    source := Source.new source
    sink := sink
    tracing := tracing
    events := #[] }

/-- Interns the atoms that the machine itself uses. -/
def internOwn : Run Unit := do
  let atomTrue ← intern (Bytes.ofString "t")
  modifyRegisters fun r => { r with atomTrue := atomTrue }
  let atomQuote ← intern (Bytes.ofString "quote")
  modifyRegisters fun r => { r with atomQuote := atomQuote }
  let atomPush ← intern (Bytes.ofString "push")
  modifyRegisters fun r => { r with atomPush := atomPush }
  let atomPop ← intern (Bytes.ofString "pop")
  modifyRegisters fun r => { r with atomPop := atomPop }

/-- Binds primitives one after another on top of an environment. -/
def definePrimitives (env : Handle) : List Primitive → Run Handle
  | [] => return env
  | p :: rest => do definePrimitives (← definePrimitive env p) rest

/-- Sets up the atoms and the initial environment. -/
def prepare (lowlevel : Bool) : Run Unit := do
  note (.started (← get).heap.capacity)
  internOwn
  let env ← definePrimitives .nil (Primitive.installed lowlevel)
  modifyRegisters fun r => { r with env := env }

/-- A machine ready to run a source, or why there is none. -/
def start (config : Config) (source : Bytes) (sink : Sink) (tracing : Bool) (platform : Platform) :
    Except Stop Machine :=
  match prepare config.lowlevel (blank config.slots source sink tracing platform) with
  | .ok _ m => .ok m
  | .error stop _ => .error stop

/-- Passes the output on once an operation has ended. A failure to do so outranks how it ended. -/
def passOn (ended : Except Stop Unit) : Run Unit :=
  match ended with
  | .error .unfinished => stop .unfinished
  | ended => do
    match (← get).sink.flush, ended with
    | some cause, _ => fail (.output cause)
    | none, .ok _ => return ()
    | none, .error reason => stop reason

/-- Runs an operation and then passes the output on. -/
def flushAfter (act : Run Unit) : Run Unit := do passOn (← attempt act)

/-- Reads the next term and runs it in the initial environment, within a step bound. -/
def runNext (bound : Nat) : Run Unit := do
  let program ← readTerm
  modifyRegisters fun r => { r with program := program }
  flushAfter (compute bound program (← getRegisters).env)

end Machine

end PushLisp
