import PushLisp.Machine.Basic

/-!
# The machine as memory

A program with raw access sees the machine as bytes. The state block is twelve words. The slot
table has a word for each slot, the address of its cell or zero. A cell is the code of its
object's kind and then the payload. The platform decides where all these lie. Registers and the words
of numbers, pairs and closures can be written, and a write takes effect at once; the slot table cannot.

## Main definitions

* `Location`, `Machine.locate`: what an address means.
* `Machine.word`, `Machine.setWord`: the words there.
* The instance of `ByteMemory`.
-/
namespace PushLisp

/-- The place of a word in the memory of a machine. -/
inductive Location where
  /-- A word of the state block. -/
  | register (i : Nat)
  /-- A word of the slot table. -/
  | slot (i : Nat)
  /-- Word `i` of the cell in a slot. -/
  | cell (slot i : Nat)
  /-- Nothing. -/
  | unmapped
  deriving Repr, DecidableEq

namespace Registers

/-- Word `i` of the state block. -/
def word (r : Registers) : Nat → UInt64
  | 0 => r.nil.raw
  | 1 => r.readQueue.raw
  | 2 => r.registry.raw
  | 3 => r.atomTrue.raw
  | 4 => r.atomQuote.raw
  | 5 => r.atomPush.raw
  | 6 => r.atomPop.raw
  | 7 => r.stack.raw
  | 8 => r.env.raw
  | 9 => r.program.raw
  | 10 => r.slots
  | 11 => r.capacity
  | _ => 0

/-- The state block after its word `i` was overwritten. -/
def setWord (r : Registers) (i : Nat) (w : UInt64) : Registers :=
  match i with
  | 0 => { r with nil := ⟨w⟩ }
  | 1 => { r with readQueue := ⟨w⟩ }
  | 2 => { r with registry := ⟨w⟩ }
  | 3 => { r with atomTrue := ⟨w⟩ }
  | 4 => { r with atomQuote := ⟨w⟩ }
  | 5 => { r with atomPush := ⟨w⟩ }
  | 6 => { r with atomPop := ⟨w⟩ }
  | 7 => { r with stack := ⟨w⟩ }
  | 8 => { r with env := ⟨w⟩ }
  | 9 => { r with program := ⟨w⟩ }
  | 10 => { r with slots := w }
  | 11 => { r with capacity := w }
  | _ => r

/-- The number of words of the state block. -/
def wordCount : Nat := 12

end Registers

namespace Machine

/-- The word that an address lies in, and the place of its byte there. -/
def locate (heap : Heap) (address : UInt64) : Location × Nat :=
  let a := address.toNat
  let block := heap.platform.block.toNat
  let table := heap.platform.table.toNat
  if block ≤ a ∧ a < block + 8 * Registers.wordCount then
    (.register ((a - block) / 8), (a - block) % 8)
  else if table ≤ a ∧ a < table + 8 * heap.capacity then
    (.slot ((a - table) / 8), (a - table) % 8)
  else
    match heap.cells.findIdx? (·.covers address) with
    | some s =>
      let offset := a - (heap.cell s).address.toNat
      (.cell s (offset / 8), offset % 8)
    | none => (.unmapped, 0)

/-- The word at a location. -/
def word (m : Machine) : Location → UInt64
  | .register i => m.registers.word i
  | .slot i => (m.heap.cell i).address
  | .cell s i => (m.heap.cell s).word i
  | .unmapped => 0

/-- The machine after the word at a location was overwritten. -/
def setWord (m : Machine) (l : Location) (w : UInt64) : Machine :=
  match l with
  | .register i => { m with registers := m.registers.setWord i w }
  | .cell s i => { m with heap := m.heap.setWord s i w }
  | _ => m

instance : ByteMemory Machine where
  load m address :=
    let (l, i) := locate m.heap address
    wordByte (m.word l) i
  store m address b :=
    let (l, i) := locate m.heap address
    m.setWord l (setWordByte (m.word l) i b)

end Machine

end PushLisp
