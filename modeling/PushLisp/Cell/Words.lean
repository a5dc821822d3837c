import PushLisp.Cell.Object

/-!
# Cells

An object lies in a cell of memory. The first word of a cell is the code of the object's kind and the
others are its payload. Numbers, pairs and closures show their payload as one or two words, and turn
into each other when the code is overwritten: the words stay, and are read in the new way. The payload
of other kinds is not accessible.

## Main definitions

* `Cell`: an address and the words there.
* `Cell.word`, `Cell.setWord`: access by the number of a word.
* `Cell.object?`, `Cell.rewritten?`: the number, pair or closure that the words make up, also after a write.
* `Cell.hold`: the cell with an object written to it.
-/
namespace PushLisp

/-- The memory that an object lies in. -/
structure Cell where
  /-- Where it lies; zero stands for nowhere. -/
  address : UInt64
  /-- The code of the kind. -/
  code : UInt64
  /-- The integer, the first component of a pair or the body of a closure. -/
  first : UInt64
  /-- The second component of a pair or the environment of a closure. -/
  second : UInt64
  deriving Repr, DecidableEq, Inhabited

namespace Cell

/-- The number of bytes of a cell. -/
def size : Nat := 32

/-- The memory at an address, before anything is written there. -/
def clean (address : UInt64) : Cell := ⟨address, 0, 0, 0⟩

/-- What stands for a cell where there is none. -/
def vacant : Cell := clean 0

/-- Whether an address is one of the bytes of a cell. -/
def covers (c : Cell) (address : UInt64) : Bool :=
  c.address ≠ 0 && c.address.toNat ≤ address.toNat && address.toNat < c.address.toNat + size

/-- Word `i` of a cell. -/
def word (c : Cell) (i : Nat) : UInt64 :=
  match i with
  | 0 => c.code
  | 1 => c.first
  | 2 => c.second
  | _ => 0

/-- The cell after its word `i` was overwritten. -/
def setWord (c : Cell) (i : Nat) (w : UInt64) : Cell :=
  match i with
  | 0 => { c with code := w }
  | 1 => { c with first := w }
  | 2 => { c with second := w }
  | _ => c

/-- The number, pair or closure that the words of a cell make up. -/
def object? (c : Cell) : Option Object :=
  if c.code = 2 then some (.number c.first.toInt64)
  else if c.code = 3 then some (.pair ⟨c.first⟩ ⟨c.second⟩)
  else if c.code = 4 then some (.closure ⟨c.first⟩ ⟨c.second⟩)
  else none

/-- The object after word `i` was overwritten. A write to other objects than numbers, pairs and closures, or
one that leaves no such object, is lost. -/
def rewritten? (c : Cell) (i : Nat) (w : UInt64) : Option Object :=
  if c.object?.isSome then (c.setWord i w).object? else none

/-- The cell after an object was written to it. A number fills one word only, and what the other word
was it stays. -/
def hold (c : Cell) : Object → Cell
  | .number n => { c with code := 2, first := n.toUInt64 }
  | .pair car cdr => { c with code := 3, first := car.raw, second := cdr.raw }
  | .closure body env => { c with code := 4, first := body.raw, second := env.raw }
  | o => { c with code := o.kind.code.toUInt64 }

@[simp] theorem address_setWord (c : Cell) (i : Nat) (w : UInt64) : (c.setWord i w).address = c.address := by
  unfold setWord
  split <;> rfl

@[simp] theorem address_hold (c : Cell) (o : Object) : (c.hold o).address = c.address := by
  cases o <;> rfl

end Cell

end PushLisp
