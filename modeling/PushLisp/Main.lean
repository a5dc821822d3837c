import PushLisp.Command.Invocation

/-!
# The command

Reads the arguments, the environment and the program file, and writes the report of the invocation.
-/
namespace PushLisp

/-- The number and wording of an error met when a file is opened. -/
def FileError.ofError : IO.Error → FileError
  | .noFileOrDirectory _ _ _ => .notFound
  | .inappropriateType _ code text => ⟨code.toNat, text⟩
  | .permissionDenied _ code text => ⟨code.toNat, text⟩
  | .invalidArgument _ code text => ⟨code.toNat, text⟩
  | .otherError code text => ⟨code.toNat, text⟩
  | e => ⟨5, toString e⟩

/-- The bytes of a file. -/
def readFile (path : String) : IO (Except FileError Bytes) := do
  try
    return .ok (← IO.FS.readBinFile path).toList
  catch e =>
    return .error (FileError.ofError e)

/-- More steps than any run will take. -/
def endless : Nat := 0x4000000000000000

/-- The exit code that stands for an abort. -/
def abortCode : UInt32 := 134

end PushLisp

open PushLisp in
/-- Runs the program file that the arguments name. -/
def main (args : List String) : IO UInt32 := do
  let color := allowsColor (← IO.getEnv "TERM") (← IO.getEnv "NO_COLOR").isSome
  let plan := Plan.ofArguments (args.map Bytes.ofString)
  let found ← match plan with
    | .runFile path _ => readFile path
    | _ => pure (.error .notFound)
  match plan.report endless color fun _ => found with
  | none => return abortCode
  | some report =>
    (← IO.getStdout).write ⟨report.stdout.toArray⟩
    (← IO.getStderr).write ⟨report.stderr.toArray⟩
    match report.exit with
    | .code n => return n.toUInt32
    | .abort => return abortCode
