import PushLisp.Heap.Basic

/-!
# Reclaiming slots

A collection marks what can be reached from the empty list and the given roots by following the
references of objects, and empties every other slot. Its cell is given up. Handles that name no object
are passed over, so that corrupted references cannot lead the marking astray.

## Main definitions

* `Heap.mark`: the marks of what the roots reach.
* `Heap.sweep`, `Heap.sweepCells`: the slots and cells with the unmarked ones emptied.
* `Heap.collect`: a whole collection.
-/
namespace PushLisp.Heap

/-- Marks from a worklist, a handle at a time, for a number of steps, and answers what is left of the
list with the marks. Every step takes a handle off the list, and only a slot marked for the first time
puts its references on it, so that twice the number of slots more than the length of the list is steps
enough. -/
def markFrom (slots : Array (Option Object)) : Nat → List Handle → Marks → List Handle × Marks
  | 0, work, marks => (work, marks)
  | _, [], marks => ([], marks)
  | n + 1, h :: work, marks =>
    match slots[h.slot]? with
    | some (some o) =>
      match marks.testAndSet h.slot with
      | (true, marks) => markFrom slots n work marks
      | (false, marks) => markFrom slots n (o.references ++ work) marks
    | _ => markFrom slots n work marks

/-- The number of steps that marking from `work` can take. -/
def markBound (slots : Array (Option Object)) (work : List Handle) : Nat :=
  work.length + 2 * slots.size + 1

/-- The marks of what the empty list and the roots reach. -/
def mark (heap : Heap) (roots : List Handle) : Marks :=
  let work := Handle.nil :: roots
  (markFrom heap.slots (markBound heap.slots work) work heap.marks).2

/-- The slots with the unmarked ones emptied. -/
def sweep (slots : Array (Option Object)) (marks : Marks) : Array (Option Object) :=
  slots.mapIdx fun i s => if marks.get i then s else none

/-- The cells without those of unmarked slots. -/
def sweepCells (cells : Array Cell) (marks : Marks) : Array Cell :=
  cells.mapIdx fun i c => if marks.get i then c else .vacant

/-- The number of occupied slots. -/
def occupied (slots : Array (Option Object)) : Nat := slots.countP Option.isSome

/-- Empties every slot that the empty list and the roots do not reach, and tells how many were
emptied. -/
def collect (heap : Heap) (roots : List Handle) : Nat × Heap :=
  let marks := heap.mark roots
  let slots := sweep heap.slots marks
  let freed := occupied heap.slots - occupied slots
  (freed,
    { heap with
      slots := slots
      marks := marks.clear
      live := heap.live - freed
      stats := { heap.stats with
        collections := heap.stats.collections + 1
        freed := heap.stats.freed + freed }
      cells := sweepCells heap.cells marks })

@[simp] theorem capacity_collect (heap : Heap) (roots : List Handle) :
    (heap.collect roots).2.capacity = heap.capacity := by
  simp [collect, capacity, sweep]

end PushLisp.Heap
