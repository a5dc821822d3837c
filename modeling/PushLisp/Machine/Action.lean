import PushLisp.Term.Printer
import PushLisp.Term.Reader

/-!
# What the builtins do

Every builtin takes its operands from the value stack, top first, and pushes its result. It runs
in the environment of the sequence that calls it, and answers the environment the sequence goes on
with. Arithmetic is on 64-bit integers that wrap around, and takes anything but a number for zero.

## Main definitions

* `Machine.effect`, `Machine.perform`: what a builtin does.
-/
namespace PushLisp.Machine

/-- Replaces two integers, the second on top, by a function of them. -/
@[inline] def arithmetic (f : Int64 → Int64 → Int64) : Run Unit := do
  let b ← popNumber
  let a ← popNumber
  pushNumber (f a b)

/-- A natural number from an integer that is not negative. -/
def natural? (n : Int64) : Option Nat := if n < 0 then none else some n.toInt.toNat

/-- Replaces a key by its value in the environment. -/
def pushBound (env : Handle) : Run Unit := do
  let key ← pop
  observe (.uses [key])
  push (← ask (lookup env key))

/-- Binds a key, on top, to the value below it. -/
def popBound (env : Handle) : Run Handle := do
  let key ← pop
  let value ← pop
  define env key value

/-- Makes a pair of the top, its first component, and the value below. -/
def consPair : Run Unit := do
  let first ← pop
  let second ← pop
  push (← makePair first second)

/-- Replaces two values by truth or the empty list. -/
def compareTop : Run Unit := do
  let a ← pop
  let b ← pop
  observe (.uses [a, b])
  let m ← get
  push (if m.same a b then m.registers.atomTrue else m.registers.nil)

/-- Takes a condition, and swaps the two values below it if the condition is truth. -/
def swapIf : Run Unit := do
  let condition ← pop
  if condition = (← getRegisters).atomTrue then
    let a ← pop
    let b ← pop
    withRoots [b] (push a)
    push b

/-- Replaces a value by the code of its kind. -/
def kindCode : Run Unit := do
  let value ← pop
  observe (.uses [value])
  match (← get).kind? value with
  | some kind => pushNumber (Int64.ofNat kind.code)
  | none => stop ((← get).mismatch "tag" "object" value)

/-- Replaces a length by a string of that many zero bytes. -/
def newString : Run Unit := do
  let length ← popNumber
  match natural? length with
  | none => fail (.negativeLength length)
  | some n =>
    if (← get).heap.platform.grants n then
      push (← allocate (.string (.zeroed n)))
    else
      fail (.cannotAllocate n)

/-- Replaces a string and an offset by the byte there, zero if there is none. -/
def peekString : Run Unit := do
  let offset ← popNumber
  let string ← pop
  observe (.uses [string])
  let m ← get
  match m.object? string with
  | some (.string buffer) =>
    let byte := ((natural? offset).bind (buffer.get? m)).getD 0
    pushNumber (Int64.ofNat byte.toNat)
  | _ => stop (m.mismatch "string-peek" "string" string)

/-- The machine after a byte was stored in the string that a handle names. -/
def pokeBuffer (m : Machine) (string : Handle) (buffer : Buffer) (offset : Nat) (byte : UInt8) :
    Machine :=
  match buffer.set m offset byte with
  | (m, .owned bytes) => { m with heap := m.heap.put string (.string (.owned bytes)) }
  | (m, .view _ _) => m

/-- Stores the low byte of the top in a string, at the offset below it. -/
def pokeString : Run Unit := do
  let value ← popNumber
  let offset ← popNumber
  let string ← pop
  observe (.uses [string])
  let m ← get
  match m.object? string with
  | some (.string buffer) =>
    match natural? offset with
    | some n => set (m.pokeBuffer string buffer n value.toUInt64.toUInt8)
    | none => return ()
  | _ => stop (m.mismatch "string-poke" "string" string)

/-- Replaces an address by the word there. -/
def loadWord : Run Unit := do
  let address ← popNumber
  pushNumber (ByteMemory.loadWord (← get) address.toUInt64).toInt64

/-- Stores the word on top at the address below it. -/
def storeWord : Run Unit := do
  let word ← popNumber
  let address ← popNumber
  modify fun m => ByteMemory.storeWord m address.toUInt64 word.toUInt64

/-- Replaces an address and a size by a string that is a window onto that memory. -/
def viewMemory : Run Unit := do
  let size ← popNumber
  let address ← popNumber
  match natural? size with
  | none => fail (.negativeSize size)
  | some n => push (← allocate (.string (.view address.toUInt64 n)))

/-- The effect of a builtin in an environment, and the environment to go on with. Only a binding
changes it. -/
def effect (b : Builtin) (env : Handle) : Run Handle :=
  match b with
  | .push => do pushBound env; return env
  | .pop => popBound env
  | .cons => do consPair; return env
  | .car => do
    let pair ← pop
    observe (.uses [pair])
    push (← ask (car pair))
    return env
  | .cdr => do
    let pair ← pop
    observe (.uses [pair])
    push (← ask (cdr pair))
    return env
  | .eq => do compareTop; return env
  | .cswap => do swapIf; return env
  | .tag => do kindCode; return env
  | .read => do push (← readTerm); return env
  | .print => do printValue (← pop); return env
  | .stack => do push (← getRegisters).stack; return env
  | .env => do push env; return env
  | .sub => do arithmetic (· - ·); return env
  | .mul => do arithmetic (· * ·); return env
  | .nand => do arithmetic fun a b => ~~~(a &&& b); return env
  | .shiftLeft => do arithmetic fun a b => a <<< (b &&& 63); return env
  | .shiftRight => do arithmetic fun a b => a >>> (b &&& 63); return env
  | .makeString => do newString; return env
  | .stringPeek => do peekString; return env
  | .stringPoke => do pokeString; return env
  | .gc => do let _ ← collect; return env
  | .stateAddress => do pushNumber (← get).heap.platform.block.toInt64; return env
  | .readWord => do loadWord; return env
  | .writeWord => do storeWord; return env
  | .objectOfHandle => do
    let raw ← popNumber
    push ⟨raw.toUInt64⟩
    return env
  | .handleOfObject => do
    let value ← pop
    pushNumber value.raw.toInt64
    return env
  | .memoryView => do viewMemory; return env

/-- Runs a builtin in an environment, and answers the environment to go on with. -/
def perform (b : Builtin) (env : Handle) : Run Handle := do
  observe (.performs b env)
  effect b env

end PushLisp.Machine
