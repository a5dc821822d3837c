import PushLisp.Proofs.Allocation

/-!
# The books of a heap

A heap keeps counts of its own: how many slots are occupied, how many objects it ever placed and how
many slots it ever reclaimed. The counts agree with the table and with each other after every history
of allocations, collections and writes to the fields of pairs, whatever the objects and the roots
name. So the collector never takes more off the count than there is, and no operation looks at a slot
or a mark that does not exist.

## Main definitions

* `Heap.Action`, `Heap.replay`: histories of a heap.
* `Heap.Accounted`: the books are in order.
* `Heap.Secure`: what the operations can then rely on.

## Main statements

* `Heap.Accounted.apply`: one action keeps the books in order.
* `Heap.accounted_replay`: so does every history.
-/
namespace PushLisp

namespace Object

/-- A pair with another first component; any other object as it is. -/
def setCar (v : Handle) : Object → Object
  | .pair _ cdr => .pair v cdr
  | o => o

/-- A pair with another second component; any other object as it is. -/
def setCdr (v : Handle) : Object → Object
  | .pair car _ => .pair car v
  | o => o

end Object

/-- There is a mark for every index below a bound. -/
def Marks.Covers (marks : Marks) (n : ℕ) : Prop := ∀ i < n, i < marks.size ∧ i / 32 < marks.words.size

namespace Heap

/-! ## Histories -/

/-- What the owner of a heap can do to it. -/
inductive Action where
  /-- Places an object, if there is room. -/
  | allocate (o : Object)
  | collect (roots : List Handle)
  /-- Overwrites the first component of a pair. -/
  | setCar (h v : Handle)
  /-- Overwrites the second component of a pair. -/
  | setCdr (h v : Handle)
  deriving Repr

/-- The heap after an action. -/
def Action.apply (heap : Heap) : Action → Heap
  | .allocate o =>
    match heap.allocate? o with
    | some (_, heap) => heap
    | none => heap
  | .collect roots => (heap.collect roots).2
  | .setCar h v => heap.modify h (Object.setCar v)
  | .setCdr h v => heap.modify h (Object.setCdr v)

/-- The heap after a history. -/
def replay (heap : Heap) (history : List Action) : Heap := history.foldl Action.apply heap

/-! ## The books -/

/-- The books of a heap of at least `requested` slots are in order. -/
structure Accounted (requested : ℕ) (heap : Heap) : Prop where
  capacity_eq : heap.capacity = max requested minSlots
  live_eq : heap.live = heap.occupiedSlots.card
  /-- What was ever placed is still there or was reclaimed; the empty list came for free. -/
  balance : heap.live + heap.stats.freed = 1 + heap.stats.allocated
  slot?_zero : heap.slot? 0 = some .nil
  cursor_lt : heap.cursor < heap.capacity
  unmarked : heap.Unmarked

namespace Accounted

variable {requested : ℕ} {heap : Heap}

/-- The empty list is always counted. -/
theorem live_pos (h : heap.Accounted requested) : 1 ≤ heap.live := by
  rw [h.live_eq]
  apply Finset.card_pos.mpr
  refine ⟨0, mem_occupiedSlots.mpr ?_⟩
  rw [h.slot?_zero]
  rfl

theorem live_le_capacity (h : heap.Accounted requested) : heap.live ≤ heap.capacity := by
  calc
    heap.live = heap.occupiedSlots.card := h.live_eq
    _ ≤ (Finset.range heap.capacity).card := Finset.card_filter_le _ _
    _ = heap.capacity := Finset.card_range _

theorem get_marks (h : heap.Accounted requested) (i : ℕ) : heap.marks.get i = false := by
  rw [h.unmarked, Marks.get_empty]

end Accounted

theorem accounted_new (n : ℕ) (platform : Platform) : (new n platform).Accounted n where
  capacity_eq := capacity_new n platform
  live_eq := by
    rw [occupiedSlots_new, Finset.card_singleton]
    rfl
  balance := rfl
  slot?_zero := slot?_new_zero n platform
  cursor_lt := by
    have hcursor : (new n platform).cursor = 0 := rfl
    have hmin : minSlots = 256 := rfl
    rw [capacity_new, hcursor]
    omega
  unmarked := by
    rw [Unmarked, capacity_new]
    rfl

/-! ## One action -/

/-- Placing an object occupies the slot it is placed in. -/
theorem occupiedSlots_place {heap : Heap} {i : ℕ} (hi : i < heap.capacity) (o : Object) :
    (heap.place i o).occupiedSlots = insert i heap.occupiedSlots := by
  ext j
  rw [Finset.mem_insert, mem_occupiedSlots, mem_occupiedSlots]
  by_cases hj : j = i
  · subst hj
    simp [slot?_place_self heap j o hi]
  · have hij : i ≠ j := fun h => hj h.symm
    simp [slot?_place_ne heap o hij, hj]

/-- A write to an object occupies no slot and empties none. -/
theorem occupiedSlots_modify (heap : Heap) (h : Handle) (f : Object → Object) :
    (heap.modify h f).occupiedSlots = heap.occupiedSlots := by
  ext i
  rw [mem_occupiedSlots, mem_occupiedSlots, slot?_modify]
  split
  · rw [Option.isSome_map]
  · rfl

namespace Accounted

variable {requested : ℕ} {heap : Heap}

theorem place (h : heap.Accounted requested) {i : ℕ} (hfree : heap.findFree? = some i) (o : Object) :
    (heap.place i o).Accounted requested := by
  obtain ⟨hi, hnone⟩ := slot?_of_findFree? hfree
  have hne : i ≠ 0 := by
    rintro rfl
    rw [h.slot?_zero] at hnone
    cases hnone
  have hmem : i ∉ heap.occupiedSlots := by simp [mem_occupiedSlots, hnone]
  have hlive : (heap.place i o).live = heap.live + 1 := rfl
  constructor
  case capacity_eq => rw [capacity_place, h.capacity_eq]
  case live_eq => rw [hlive, h.live_eq, occupiedSlots_place hi, Finset.card_insert_of_notMem hmem]
  case balance =>
    have hfreed : (heap.place i o).stats.freed = heap.stats.freed := rfl
    have hallocated : (heap.place i o).stats.allocated = heap.stats.allocated + 1 := rfl
    have hbalance := h.balance
    omega
  case slot?_zero => rw [slot?_place_ne heap o hne, h.slot?_zero]
  case cursor_lt => rwa [capacity_place]
  case unmarked => exact h.unmarked.place i o

theorem collect (h : heap.Accounted requested) (roots : List Handle) :
    (heap.collect roots).2.Accounted requested := by
  have C := collected_collect heap roots h.unmarked
  have hlive : heap.live = occupied heap.slots := by rw [h.live_eq, occupied_eq_card]
  obtain ⟨hfreed, hlive'⟩ := C.live_eq_occupied hlive
  constructor
  case capacity_eq => rw [C.capacity_eq, h.capacity_eq]
  case live_eq => rw [hlive', occupied_eq_card]
  case balance =>
    have hbalance := h.balance
    rw [C.live_eq, C.totalFreed_eq, C.totalAllocated_eq]
    omega
  case slot?_zero =>
    have hroot : heap.Reaches (.nil :: roots) .nil := .root List.mem_cons_self
    have hkept := (C.isSome_slot?_iff 0).mpr ⟨by rw [h.slot?_zero]; rfl, .nil, hroot, rfl⟩
    obtain ⟨o, ho⟩ := Option.isSome_iff_exists.mp hkept
    rw [ho, ← C.slot?_eq 0 o ho, h.slot?_zero]
  case cursor_lt =>
    rw [C.cursor_eq, C.capacity_eq]
    exact h.cursor_lt
  case unmarked => exact C.unmarked

/-- Writing to the fields of an object in place touches nothing that is counted. -/
theorem modify (h : heap.Accounted requested) (k : Handle) {f : Object → Object} (hnil : f .nil = .nil) :
    (heap.modify k f).Accounted requested := by
  constructor
  case capacity_eq => rw [capacity_modify, h.capacity_eq]
  case live_eq =>
    rw [occupiedSlots_modify]
    exact h.live_eq
  case balance => exact h.balance
  case slot?_zero =>
    rw [slot?_modify, h.slot?_zero, Option.map_some, hnil, ite_self]
  case cursor_lt =>
    rw [capacity_modify]
    exact h.cursor_lt
  case unmarked => exact h.unmarked.modify k f

/-- One action keeps the books in order. -/
theorem apply (h : heap.Accounted requested) (action : Action) :
    (action.apply heap).Accounted requested := by
  cases action with
  | allocate o =>
    cases hfree : heap.findFree? with
    | none =>
      rw [Action.apply, allocate?, hfree]
      exact h
    | some i =>
      rw [Action.apply, allocate?, hfree]
      exact h.place hfree o
  | collect roots => exact h.collect roots
  | setCar k v => exact h.modify k rfl
  | setCdr k v => exact h.modify k rfl

/-- Every history keeps the books in order. -/
theorem replay (h : heap.Accounted requested) (history : List Action) :
    (heap.replay history).Accounted requested := by
  induction history generalizing heap with
  | nil => exact h
  | cons action history ih => exact ih (h.apply action)

end Accounted

/-! ## What the operations rely on -/

/-- No operation on a heap goes wrong in its bookkeeping. -/
structure Secure (heap : Heap) : Prop where
  /-- A collection takes no more off the count of live objects than there is. -/
  freed_le : ∀ roots, (heap.collect roots).1 ≤ heap.live
  /-- At every point of a collection there is a mark for each slot. -/
  covers : ∀ roots n, (markFrom heap.slots n (.nil :: roots) heap.marks).2.Covers heap.capacity
  /-- The search for an empty slot looks at slots of the table. -/
  probe_lt : ∀ i, (i + 1) % heap.capacity < heap.capacity
  /-- A new handle names a slot of the table other than slot zero that was empty. -/
  fresh : ∀ {o h heap'}, heap.allocate? o = some (h, heap') →
    h ≠ .nil ∧ h.slot < heap.capacity ∧ heap.get? h = none ∧ heap'.get? h = some o
  /-- Only a full table refuses an object. -/
  full : ∀ o, heap.allocate? o = none ↔ heap.live = heap.capacity

/-- Marking keeps a mark for each slot. -/
theorem covers_markFrom {heap : Heap} (h : heap.Unmarked) (work : List Handle) (n : ℕ) :
    (markFrom heap.slots n work heap.marks).2.Covers heap.capacity := by
  intro i hi
  have hsize : (markFrom heap.slots n work heap.marks).2.size = heap.capacity := by
    rw [size_markFrom, h]
    rfl
  have hwords : (markFrom heap.slots n work heap.marks).2.words.size = Marks.wordsFor heap.capacity :=
    fits_markFrom h.fits
  rw [hsize, hwords]
  exact ⟨hi, Marks.div_lt_wordsFor hi⟩

/-- A search that fails has seen the whole table, and one that succeeds an empty slot of it. -/
theorem findFree?_eq_none_iff (heap : Heap) :
    heap.findFree? = none ↔ heap.occupiedSlots.card = heap.capacity := by
  have hsub : heap.occupiedSlots ⊆ Finset.range heap.capacity := Finset.filter_subset _ _
  constructor
  · intro hfree
    have hall : Finset.range heap.capacity ⊆ heap.occupiedSlots := by
      intro i hi
      rw [mem_occupiedSlots]
      exact isSome_slot?_of_findFree? hfree (Finset.mem_range.mp hi)
    rw [Finset.Subset.antisymm hsub hall, Finset.card_range]
  · intro hcard
    by_contra hfree
    obtain ⟨i, hi⟩ := Option.ne_none_iff_exists'.mp hfree
    obtain ⟨hlt, hnone⟩ := slot?_of_findFree? hi
    have hall := Finset.eq_of_subset_of_card_le hsub (by rw [Finset.card_range, hcard])
    have hmem : i ∈ heap.occupiedSlots := by
      rw [hall]
      exact Finset.mem_range.mpr hlt
    rw [mem_occupiedSlots, hnone] at hmem
    cases hmem

theorem Accounted.secure {requested : ℕ} {heap : Heap} (h : heap.Accounted requested)
    (hcap : heap.capacity ≤ 2 ^ 64) : heap.Secure where
  freed_le roots := by
    have hlive : heap.live = occupied heap.slots := by rw [h.live_eq, occupied_eq_card]
    exact ((collected_collect heap roots h.unmarked).live_eq_occupied hlive).1
  covers roots n := covers_markFrom h.unmarked _ n
  probe_lt i := by
    have hcursor := h.cursor_lt
    exact Nat.mod_lt _ (by omega)
  fresh {o k heap'} hplaced := by
    cases hfree : heap.findFree? with
    | none =>
      rw [allocate?, hfree] at hplaced
      cases hplaced
    | some i =>
      rw [allocate?, hfree] at hplaced
      cases hplaced
      obtain ⟨hi, hnone⟩ := slot?_of_findFree? hfree
      have hslot : (Handle.ofSlot i).slot = i := Handle.slot_ofSlot (by omega)
      have hempty := get?_ofSlot_of_findFree? hfree hcap
      refine ⟨?_, ?_, hempty, ?_⟩
      · intro hnil
        rw [hnil, get?, show Handle.nil.slot = 0 from rfl, h.slot?_zero] at hempty
        cases hempty
      · rwa [hslot]
      · rw [get?_place hfree hcap, if_pos rfl]
  full o := by
    rw [h.live_eq, ← findFree?_eq_none_iff, allocate?]
    cases heap.findFree? <;> simp

/-- After every history of a new heap its capacity is what was asked for or the least there is, its
counts are those of its table and add up, slot zero holds the empty list, the cursor is in the table
and no mark is set; and no operation on it goes wrong. -/
theorem accounted_replay (c : UInt64) (platform : Platform) (history : List Action) :
    ((new c.toNat platform).replay history).Accounted c.toNat ∧
      ((new c.toNat platform).replay history).capacity = max c.toNat 256 ∧
      1 ≤ ((new c.toNat platform).replay history).live ∧
      ((new c.toNat platform).replay history).live ≤ ((new c.toNat platform).replay history).capacity ∧
      (∀ i, ((new c.toNat platform).replay history).marks.get i = false) ∧
      ((new c.toNat platform).replay history).Secure := by
  have h := (accounted_new c.toNat platform).replay history
  have hmax : ((new c.toNat platform).replay history).capacity = max c.toNat 256 := h.capacity_eq
  have hcap : ((new c.toNat platform).replay history).capacity ≤ 2 ^ 64 := by
    have hc := c.toNat_lt
    omega
  exact ⟨h, hmax, h.live_pos, h.live_le_capacity, h.get_marks, h.secure hcap⟩

end Heap

end PushLisp
