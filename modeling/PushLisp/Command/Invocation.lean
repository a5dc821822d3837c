import PushLisp.Command.Folder
import PushLisp.Command.Options

/-!
# Invocations

What a command line leads to: help, a refusal, or the run of a program file. A run that ends in a
fault reports it and aborts.

## Main definitions

* `Plan`, `Plan.ofArguments`: what a command line leads to.
* `Report`: what an invocation leaves behind.
* `runSource`: the run of a program text.
* `invoke`: a whole invocation.
-/
namespace PushLisp

/-- How a process ends. -/
inductive Exit where
  /-- With an exit code. -/
  | code (n : Nat)
  /-- By aborting. -/
  | abort
  deriving Repr, DecidableEq

/-- What an invocation leaves behind. -/
structure Report where
  exit : Exit
  stdout : Bytes := []
  stderr : Bytes := []
  deriving Repr, DecidableEq

/-- What a command line leads to. -/
inductive Plan where
  /-- The arguments are refused. -/
  | refuse (e : UsageError)
  /-- Only help is wanted. -/
  | help
  /-- There is no program. -/
  | noProgram
  /-- A program file is to be run. -/
  | runFile (path : String) (config : Config)
  deriving Repr, DecidableEq

/-- What a command line leads to. -/
def Plan.ofArguments (args : List Bytes) : Plan :=
  match Options.parse args with
  | .error e => .refuse e
  | .ok options =>
    if options.help then .help
    else
      match options.file with
      | none => .noProgram
      | some path => .runFile path options.config

/-- Whether messages are coloured on a terminal of a given type: not on a dumb or unknown one, and
not if the user asks for none. -/
def allowsColor (terminal : Option String) (unwanted : Bool) : Bool :=
  match terminal with
  | none => false
  | some name => name ≠ "dumb" && !unwanted

/-- The mark in front of a failure. -/
def failureMark (color : Bool) : String :=
  if color then "\x1b[0m\x1b[1m\x1b[31mFAIL:\x1b[0m" else "FAIL:"

/-- The report of a fault after some output. -/
def reportFault (color : Bool) (stdout : Bytes) (f : Fault) : Report :=
  { exit := .abort
    stdout := stdout
    stderr := Bytes.ofString (failureMark color ++ " " ++ f.message ++ "\n") }

/-- Runs the first term of a program text within a step bound; nothing if the bound runs out. -/
def runSource (bound : Nat) (config : Config) (color : Bool) (source : Bytes) : Option Report :=
  match Machine.start config source {} false {} with
  | .error .unfinished => none
  | .error (.fault f) => some (reportFault color [] f)
  | .ok m =>
    match Machine.runNext bound m with
    | .ok _ m => some { exit := .code 0, stdout := m.sink.written.toList }
    | .error .unfinished _ => none
    | .error (.fault f) m => some (reportFault color m.sink.written.toList f)

/-- The report of a plan, given what is found at a path; nothing if a run exceeds its step bound. -/
def Plan.report (bound : Nat) (color : Bool) (read : String → Except FileError Bytes) :
    Plan → Option Report
  | .refuse e =>
    some { exit := .code 1, stderr := Bytes.ofString (e.message ++ "\n" ++ usage ++ "\n") }
  | .help => some { exit := .code 0, stdout := Bytes.ofString (usage ++ "\n") }
  | .noProgram => some { exit := .code 1, stderr := Bytes.ofString (usage ++ "\n") }
  | .runFile path config =>
    match read path with
    | .error e => some (reportFault color [] (.unreadable path e.message))
    | .ok source => runSource bound config color source

/-- A whole invocation. -/
def invoke (bound : Nat) (color : Bool) (read : String → Except FileError Bytes)
    (args : List Bytes) : Option Report :=
  (Plan.ofArguments args).report bound color read

end PushLisp
