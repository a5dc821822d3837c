/-!
# Builtin operations

The operations that a program finds bound when it starts, in three families: the core of the
language, arithmetic and strings, and raw access to the memory of the machine.

## Main definitions

* `Builtin`: the operations.
* `Primitive`: an operation together with the name it is printed under.
* `Primitive.core`, `Primitive.extra`, `Primitive.lowlevel`: the families in the order of their
  binding.
-/
namespace PushLisp

/-- An operation on the value stack. -/
inductive Builtin where
  /-- Looks a key up in the environment. -/
  | push
  /-- Binds a key in the environment. -/
  | pop
  /-- Makes a pair. -/
  | cons
  /-- The first component of a pair. -/
  | car
  /-- The second component of a pair. -/
  | cdr
  /-- Sameness of two values. -/
  | eq
  /-- Swaps two values under a condition. -/
  | cswap
  /-- The code of a value's kind. -/
  | tag
  /-- Reads a term from the source. -/
  | read
  /-- Writes a value to the output. -/
  | print
  /-- The value stack itself. -/
  | stack
  /-- The environment itself. -/
  | env
  /-- Difference. -/
  | sub
  /-- Product. -/
  | mul
  /-- Negated conjunction of all bits. -/
  | nand
  /-- Shift to the left. -/
  | shiftLeft
  /-- Arithmetic shift to the right. -/
  | shiftRight
  /-- A fresh string of zero bytes. -/
  | makeString
  /-- A byte of a string. -/
  | stringPeek
  /-- Stores a byte in a string. -/
  | stringPoke
  /-- Collects garbage. -/
  | gc
  /-- The address of the state block. -/
  | stateAddress
  /-- The word at an address. -/
  | readWord
  /-- Stores a word at an address. -/
  | writeWord
  /-- The value that has a given handle. -/
  | objectOfHandle
  /-- The handle of a value. -/
  | handleOfObject
  /-- A string that is a window onto memory. -/
  | memoryView
  deriving Repr, DecidableEq, Inhabited

/-- A builtin operation and the name it is printed under. -/
structure Primitive where
  name : String
  action : Builtin
  deriving Repr, DecidableEq, Inhabited

namespace Primitive

/-- The core of the language. -/
def core : List Primitive := [
  ⟨"push", .push⟩, ⟨"pop", .pop⟩, ⟨"cons", .cons⟩, ⟨"car", .car⟩, ⟨"cdr", .cdr⟩, ⟨"eq", .eq⟩,
  ⟨"cswap", .cswap⟩, ⟨"tag", .tag⟩, ⟨"read", .read⟩, ⟨"print", .print⟩]

/-- Reflection, arithmetic, strings and collection. -/
def extra : List Primitive := [
  ⟨"stack", .stack⟩, ⟨"env", .env⟩, ⟨"-", .sub⟩, ⟨"*", .mul⟩, ⟨"nand", .nand⟩,
  ⟨"<<", .shiftLeft⟩, ⟨">>", .shiftRight⟩, ⟨"make-string", .makeString⟩,
  ⟨"string-peek", .stringPeek⟩, ⟨"string-poke", .stringPoke⟩, ⟨"gc", .gc⟩]

/-- Raw access to memory, which breaks every guarantee of the object model. -/
def lowlevel : List Primitive := [
  ⟨"ptr-state!", .stateAddress⟩, ⟨"ptr-read!", .readWord⟩, ⟨"ptr-write!", .writeWord⟩,
  ⟨"ptr-to-obj!", .objectOfHandle⟩, ⟨"ptr-from-obj!", .handleOfObject⟩,
  ⟨"string-memview", .memoryView⟩]

/-- The primitives bound at the start, in order; the last bound is found first. -/
def installed (withLowlevel : Bool) : List Primitive :=
  core ++ extra ++ if withLowlevel then lowlevel else []

end Primitive

end PushLisp
