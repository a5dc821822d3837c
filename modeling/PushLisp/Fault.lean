import PushLisp.Cell.Object
import PushLisp.Text.Utf8

/-!
# Faults

The causes that end a run, and the message of each. Nothing inside the machine recovers from a
fault.

## Main definitions

* `Fault`: the causes.
* `Fault.message`: their wording.
* `Stop`: why a run ended without an answer, a fault or the end of its step bound.
-/
namespace PushLisp

/-- Why the output could not take what was written. -/
inductive SinkFault where
  /-- No room is left. -/
  | full
  /-- What was written cannot be passed on. -/
  | flush
  deriving Repr, DecidableEq

/-- The wording of a fault of the output. -/
def SinkFault.message : SinkFault → String
  | .full => "sink full"
  | .flush => "flush failed"

/-- A cause that ends a run. -/
inductive Fault where
  /-- An operation met a value of the wrong kind; `found` is `none` for an absent object. -/
  | typeMismatch (op expected : String) (found : Option Kind)
  /-- A name has no binding. -/
  | unbound (name : Bytes)
  /-- An operand was taken from an empty stack. -/
  | stackUnderflow
  /-- The source ended inside or before a term. -/
  | endOfInput
  /-- A sequence ends after its quoting atom. -/
  | danglingQuote
  /-- No name follows the sign of a directive. -/
  | emptyDirective (sign : UInt8)
  /-- Every slot is in use. -/
  | exhausted (capacity : Nat)
  /-- Two bytes after a hexadecimal escape are not both digits. -/
  | badEscape (high low : UInt8)
  /-- A list is closed that was not opened. -/
  | unbalancedClose (position : Nat)
  /-- A string of negative length was asked for. -/
  | negativeLength (length : Int64)
  /-- A string is too long to be stored. -/
  | cannotAllocate (length : Nat)
  /-- A view of negative size was asked for. -/
  | negativeSize (size : Int64)
  /-- The program text cannot be read. -/
  | unreadable (path reason : String)
  /-- The output failed. -/
  | output (cause : SinkFault)
  deriving Repr, DecidableEq

/-- A byte as the character of the same number, in Latin-1. -/
def latin1 (b : UInt8) : String := String.singleton (Char.ofNat b.toNat)

/-- The wording of a fault. -/
def Fault.message : Fault → String
  | .typeMismatch op expected found =>
    op ++ ": expected " ++ expected ++ ", found " ++ Kind.foundName found
  | .unbound name => "failed to find key='" ++ Utf8.lossy name ++ "' in environment"
  | .stackUnderflow => "value stack underflow"
  | .endOfInput => "end of input: could not read()"
  | .danglingQuote => "expected data following a quote form"
  | .emptyDirective sign => "expected a name after '" ++ latin1 sign ++ "'"
  | .exhausted capacity =>
    "object table exhausted: all " ++ toString capacity ++ " slots are live after collection"
  | .badEscape high low => "read: invalid escape \\x" ++ latin1 high ++ latin1 low
  | .unbalancedClose position => "read: unbalanced ')' at byte " ++ toString position
  | .negativeLength length => "make-string: negative length " ++ toString length.toInt
  | .cannotAllocate length => "make-string: cannot allocate " ++ toString length ++ " bytes"
  | .negativeSize size => "string-memview: negative size " ++ toString size.toInt
  | .unreadable path reason => "failed to open file '" ++ path ++ "': " ++ reason
  | .output cause => "output error: " ++ cause.message

/-- Why a run ended without an answer. -/
inductive Stop where
  /-- A fault of the program or of its surroundings. -/
  | fault (f : Fault)
  /-- The step bound ran out first, which says nothing about the program. -/
  | unfinished
  deriving Repr, DecidableEq

end PushLisp
