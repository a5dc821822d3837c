import PushLisp.Cell.Words
import PushLisp.Heap.Marks
import PushLisp.Heap.Platform

/-!
# The object table

A heap is a table with a fixed number of slots. A slot is empty or holds an object. Slot zero
holds the empty list. An allocation takes the first empty slot after the one used last, going
round once, and fails when every slot is occupied. When to reclaim slots is for the owner of the
heap to decide, who knows what is still in use.

Each object lies in a cell of memory, which is taken when the object is made and given up when its slot
is emptied. The heap keeps the words of the cells beside the objects, and what changes the one changes
the other.

## Main definitions

* `Heap`, `Heap.new`: the table.
* `Heap.get?`, `Heap.modify`: access by handle.
* `Heap.cell`, `Heap.setWord`: access to the words of cells.
* `Heap.findFree?`, `Heap.allocate?`, `Heap.offer`: next-fit allocation.
* `HeapStats`: the running totals.
-/
namespace PushLisp

/-- The running totals of a heap. Counters of 64 bits show the same for fewer than `2 ^ 64` allocations. -/
structure HeapStats where
  /-- Collections run. -/
  collections : Nat := 0
  /-- Objects ever placed, the first empty list apart. -/
  allocated : Nat := 0
  /-- Slots ever reclaimed. -/
  freed : Nat := 0
  deriving Repr, DecidableEq

/-- A table of objects. -/
structure Heap where
  /-- The slots; `none` is an empty one. -/
  slots : Array (Option Object)
  /-- The collector's marks, clear between collections. -/
  marks : Marks
  /-- The slot used by the latest allocation. -/
  cursor : Nat
  /-- The number of occupied slots. -/
  live : Nat
  /-- The running totals. -/
  stats : HeapStats
  /-- The cells that the objects lie in, one for each slot. -/
  cells : Array Cell
  /-- Where cells are placed. -/
  platform : Platform

namespace Heap

/-- The least number of slots a table has. -/
def minSlots : Nat := 256

/-- A table of at least `n` slots that holds only the empty list. -/
def new (n : Nat) (platform : Platform) : Heap :=
  let capacity := max n minSlots
  let cell := (Cell.clean (platform.cell 0)).hold .nil
  { slots := (Array.replicate capacity none).setIfInBounds 0 (some .nil)
    marks := Marks.empty capacity
    cursor := 0
    live := 1
    stats := {}
    cells := (Array.replicate capacity Cell.vacant).setIfInBounds 0 cell
    platform := platform }

/-- The number of slots. -/
def capacity (heap : Heap) : Nat := heap.slots.size

/-- The object in slot `i`. -/
@[inline] def slot? (heap : Heap) (i : Nat) : Option Object :=
  if h : i < heap.slots.size then heap.slots[i] else none

/-- The object that a handle names. -/
@[inline] def get? (heap : Heap) (h : Handle) : Option Object := heap.slot? h.slot

/-- Whether a handle names an object. -/
def contains (heap : Heap) (h : Handle) : Bool := (heap.get? h).isSome

/-- The cell of slot `i`. -/
@[inline] def cell (heap : Heap) (i : Nat) : Cell := heap.cells.getD i Cell.vacant

/-- Changes the object that a handle names, in place. -/
def modify (heap : Heap) (h : Handle) (f : Object → Object) : Heap :=
  { heap with
    slots := heap.slots.modify h.slot (Option.map f)
    cells := heap.cells.modify h.slot fun c => ((heap.get? h).map f).elim c c.hold }

/-- Overwrites the object that a handle names. -/
def put (heap : Heap) (h : Handle) (o : Object) : Heap := heap.modify h fun _ => o

/-- Overwrites a word of the cell of slot `s`. The object there is then what the words make up. -/
def setWord (heap : Heap) (s i : Nat) (w : UInt64) : Heap :=
  match (heap.cell s).rewritten? i w with
  | some o =>
    { heap with
      slots := heap.slots.modify s (Option.map fun _ => o)
      cells := heap.cells.setIfInBounds s ((heap.cell s).setWord i w) }
  | none => heap

/-- The first empty slot among the `n` slots after `i`, going round at the end of the table. -/
def scanFree? (slots : Array (Option Object)) : Nat → Nat → Option Nat
  | _, 0 => none
  | i, n + 1 =>
    let next := (i + 1) % slots.size
    match slots[next]? with
    | some none => some next
    | _ => scanFree? slots next n

/-- The empty slot that the next allocation takes: the first after the cursor, the cursor's own
last. -/
def findFree? (heap : Heap) : Option Nat := scanFree? heap.slots heap.cursor heap.slots.size

/-- Puts an object into an empty slot, and into the next cell of the platform. -/
def place (heap : Heap) (i : Nat) (o : Object) : Heap :=
  let cell := (Cell.clean (heap.platform.cell (heap.stats.allocated + 1))).hold o
  { heap with
    slots := heap.slots.setIfInBounds i (some o)
    cursor := i
    live := heap.live + 1
    stats := { heap.stats with allocated := heap.stats.allocated + 1 }
    cells := heap.cells.setIfInBounds i cell }

/-- Puts an object into the next empty slot, or fails when the table is full. -/
def allocate? (heap : Heap) (o : Object) : Option (Handle × Heap) :=
  match heap.findFree? with
  | none => none
  | some i => some (Handle.ofSlot i, heap.place i o)

/-- Puts an object into the next empty slot, or hands it back when the table is full. -/
def offer (heap : Heap) (o : Object) : Except Object Handle × Heap :=
  (heap.allocate? o).elim (.error o, heap) fun placed => (.ok placed.1, placed.2)

@[simp] theorem capacity_place (heap : Heap) (i : Nat) (o : Object) :
    (heap.place i o).capacity = heap.capacity := by
  simp [place, capacity]

@[simp] theorem capacity_modify (heap : Heap) (h : Handle) (f : Object → Object) :
    (heap.modify h f).capacity = heap.capacity := by
  simp [modify, capacity]

@[simp] theorem capacity_setWord (heap : Heap) (s i : Nat) (w : UInt64) :
    (heap.setWord s i w).capacity = heap.capacity := by
  unfold setWord
  split <;> simp [capacity]

@[simp] theorem platform_setWord (heap : Heap) (s i : Nat) (w : UInt64) :
    (heap.setWord s i w).platform = heap.platform := by
  unfold setWord
  split <;> rfl

@[simp] theorem capacity_new (n : Nat) (platform : Platform) :
    (new n platform).capacity = max n minSlots := by
  simp [new, capacity]

/-! ## Slots -/

/-- The empty list sits in slot zero of a new table. -/
theorem slot?_new_zero (n : Nat) (platform : Platform) : (new n platform).slot? 0 = some .nil := by
  have h : 0 < max n minSlots := Nat.lt_of_lt_of_le (by decide) (Nat.le_max_right n minSlots)
  simp [new, slot?, h]

theorem slot?_place_self (heap : Heap) (i : Nat) (o : Object) (h : i < heap.capacity) :
    (heap.place i o).slot? i = some o := by
  simp only [capacity] at h
  simp [place, slot?, h]

theorem slot?_place_ne (heap : Heap) {i j : Nat} (o : Object) (h : i ≠ j) :
    (heap.place i o).slot? j = heap.slot? j := by
  by_cases hj : j < heap.slots.size
  · simp [place, slot?, hj, h]
  · simp [place, slot?, hj]

theorem slot?_modify (heap : Heap) (h : Handle) (f : Object → Object) (j : Nat) :
    (heap.modify h f).slot? j = if h.slot = j then (heap.slot? j).map f else heap.slot? j := by
  by_cases hj : j < heap.slots.size
  · simp [modify, slot?, hj, Array.getElem_modify]
  · by_cases hs : h.slot = j <;> simp [modify, slot?, hj, hs]

/-- The slot that a scan finds is one of the table, and empty. -/
theorem of_scanFree? {slots : Array (Option Object)} {i n found : Nat}
    (h : scanFree? slots i n = some found) : slots[found]? = some none := by
  induction n generalizing i with
  | zero => simp [scanFree?] at h
  | succ n ih =>
    rw [scanFree?] at h
    split at h
    · rename_i hnext
      cases h
      exact hnext
    · exact ih h

/-- An allocation takes an empty slot. -/
theorem slot?_of_findFree? {heap : Heap} {i : Nat} (h : heap.findFree? = some i) :
    i < heap.capacity ∧ heap.slot? i = none := by
  obtain ⟨hi, hnone⟩ := Array.getElem?_eq_some_iff.mp (of_scanFree? h)
  exact ⟨hi, by simp [slot?, hi, hnone]⟩

end Heap

end PushLisp
