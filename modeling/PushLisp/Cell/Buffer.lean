import PushLisp.Memory

/-!
# String storage

A string object holds its bytes itself, or is a window onto a memory that somebody else owns. Reads
outside a buffer find nothing and writes outside are lost.

## Main definitions

* `Buffer`: the storage of a string.
* `Buffer.get?`, `Buffer.set`, `Buffer.bytes`: access, with the memory that views look into.
* `Buffer.zeroed`: fresh storage.
-/
namespace PushLisp

/-- The storage of a string. -/
inductive Buffer where
  /-- Bytes that belong to the string. -/
  | owned (bytes : Array UInt8)
  /-- The `length` bytes of memory from `address` on. -/
  | view (address : UInt64) (length : Nat)
  deriving Repr, DecidableEq

namespace Buffer

/-- Storage of `n` zero bytes. -/
def zeroed (n : Nat) : Buffer := .owned (Array.replicate n 0)

/-- The number of bytes. -/
def size : Buffer → Nat
  | .owned bytes => bytes.size
  | .view _ length => length

/-- Whether there are no bytes. -/
def isEmpty (b : Buffer) : Bool := b.size = 0

variable {μ : Type} [ByteMemory μ]

/-- The byte at an offset, if it is in range. -/
def get? (mem : μ) (b : Buffer) (offset : Nat) : Option UInt8 :=
  match b with
  | .owned bytes => bytes[offset]?
  | .view address length =>
    if offset < length then some (ByteMemory.load mem (address + offset.toUInt64)) else none

/-- Stores a byte at an offset: an owned buffer changes itself, a view changes the memory. -/
def set (mem : μ) (b : Buffer) (offset : Nat) (byte : UInt8) : μ × Buffer :=
  match b with
  | .owned bytes => (mem, .owned (bytes.setIfInBounds offset byte))
  | .view address length =>
    if offset < length then
      (ByteMemory.store mem (address + offset.toUInt64) byte, .view address length)
    else (mem, .view address length)

/-- All bytes. A view at address zero shows nothing. -/
def bytes (mem : μ) : Buffer → Bytes
  | .owned bytes => bytes.toList
  | .view address length => if address = 0 then [] else ByteMemory.loadBytes mem address length

end Buffer

end PushLisp
