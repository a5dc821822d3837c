import PushLisp.Command.Size
import PushLisp.Program
import PushLisp.Text.Quoted

/-!
# Command line options

Options are looked for one after another and taken out of the arguments, so that their order does
not matter. A request for help wins over everything else. What is left is the program file; more
than that is refused.

Arguments are taken out by a package for command lines, `pico-args`. What `takeFlag`, `takeValue` and
`takeFile` do, and the wording of the errors that they meet, is assumed of this package.

## Main definitions

* `Options`, `Options.parse`: the options.
* `UsageError`: why arguments are refused.
* `usage`: the help text.
-/
namespace PushLisp

/-- What a command line asks for. -/
structure Options where
  /-- How the machine is set up. -/
  config : Config := {}
  /-- The program file. -/
  file : Option String := none
  /-- Whether only help is wanted. -/
  help : Bool := false
  deriving Repr, DecidableEq

/-- Why arguments are refused. -/
inductive UsageError where
  /-- An option has nothing after it. -/
  | missingValue (option : String)
  /-- An argument is no text. -/
  | notText
  /-- A slot count is not a size. -/
  | badCount (text : String)
  /-- Arguments are left over. -/
  | unexpected (args : List Bytes)
  deriving Repr, DecidableEq

/-- The wording of a refusal. -/
def UsageError.message : UsageError → String
  | .missingValue option => "the '" ++ option ++ "' option doesn't have an associated value"
  | .notText => "argument is not a UTF-8 string"
  | .badCount text => "invalid slot count '" ++ text ++ "'"
  | .unexpected args => "unexpected arguments: " ++ Text.quoteList args

/-- The help text. -/
def usage : String :=
  "Usage: forsp [options] <input file>\n" ++
  "Options:\n" ++
  "  -h, --help: Print this help message\n" ++
  "  --heap-slots <count>: Size of the object slot table, accepts k/m suffixes (default: 64k)\n" ++
  "  --no-lowlevel: Do not bind the ptr-* and string-memview primitives"

namespace Options

/-- Takes the first occurrence of a flag out of the arguments, and tells whether there was one. It is assumed
that the package leaves further occurrences where they are. -/
def takeFlag (flag : String) (args : List Bytes) : Bool × List Bytes :=
  let key := Bytes.ofString flag
  (args.contains key, args.erase key)

/-- Takes the first occurrence of an option and the argument after it out of the arguments. It is assumed of
the package that any argument serves as the value, also one that looks like an option, and that the value
may not be joined to the option. -/
def takeValue (option : String) (args : List Bytes) :
    Except UsageError (Option String × List Bytes) :=
  let key := Bytes.ofString option
  match args.span (· != key) with
  | (_, []) => .ok (none, args)
  | (_, [_]) => .error (.missingValue option)
  | (before, _ :: value :: after) =>
    match Utf8.decode? value with
    | none => .error .notText
    | some text => .ok (some text, before ++ after)

/-- Takes the first argument. It is assumed of the package that what looks like an option is taken too. -/
def takeFile : List Bytes → Except UsageError (Option String × List Bytes)
  | [] => .ok (none, [])
  | arg :: rest =>
    match Utf8.decode? arg with
    | none => .error .notText
    | some text => .ok (some text, rest)

/-- The number of slots that an option asks for. -/
def slotCount : Option String → Except UsageError Nat
  | none => .ok ({} : Config).slots
  | some text =>
    match Size.read? text.toList with
    | some n => .ok n
    | none => .error (.badCount text)

/-- The options of a command line. -/
def parse (args : List Bytes) : Except UsageError Options := do
  if args.contains (Bytes.ofString "-h") || args.contains (Bytes.ofString "--help") then
    return { help := true }
  let (count, args) ← takeValue "--heap-slots" args
  let slots ← slotCount count
  let (noLowlevel, args) := takeFlag "--no-lowlevel" args
  let (file, args) ← takeFile args
  if args.isEmpty then
    return { config := { slots := slots, lowlevel := !noLowlevel }, file := file }
  throw (.unexpected args)

end Options

end PushLisp
