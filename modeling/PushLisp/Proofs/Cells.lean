import Mathlib.Data.Nat.Notation
import Mathlib.Tactic.IntervalCases
import PushLisp.Proofs.Allocation

/-!
# Cells and their objects

The machine goes by the objects of its heap, and a program with raw access by the words of their cells.
The two are kept side by side, and here they are shown to stay in step: the cell of an object has its
words, and an empty slot has no cell. It is so on a new heap and stays so when objects are made,
overwritten and collected, when slots are used again, and when words are written to cells, wherever the
cells lie.

## Main definitions

* `Object.words`: the words of a number, a pair or a closure.
* `Object.Rewritten`: an object before and after one of its words was overwritten.
* `Cell.Holds`: the words of a cell are those of an object.
* `Heap.Represented`: the cells of a heap hold its objects.
* `Heap.Housed`: the objects lie where the platform placed them.
* `Heap.Stays`: no object was made, and none was moved.

## Main statements

* `Cell.Holds.rewritten?_eq`: what becomes of an object if a word of its cell is overwritten.
* `Heap.represented_new`, `Heap.Represented.place`, `Heap.Represented.collect`, `Heap.Represented.modify`,
  `Heap.Represented.setWord`: objects and cells stay in step.
* `Heap.housed_new`, `Heap.Housed.place`, `Heap.Housed.of_stays`: objects stay where they were placed.
-/
namespace PushLisp

namespace Object

variable {o o' : Object} {i : ℕ} {w : UInt64}

/-- The words of a number, a pair or a closure: the code of its kind, and then the integer or the two
handles. -/
def words : Object → List UInt64
  | .number n => [2, n.toUInt64]
  | .pair car cdr => [3, car.raw, cdr.raw]
  | .closure body env => [4, body.raw, env.raw]
  | _ => []

/-- A number, a pair or a closure before and after a word of it was overwritten. The kind may be changed
between pair and closure and from pair to number, and the payload is then read in the new way. -/
inductive Rewritten : ℕ → UInt64 → Object → Object → Prop
  | integer (n : Int64) (w : UInt64) : Rewritten 1 w (.number n) (.number w.toInt64)
  | car (car cdr : Handle) (w : UInt64) : Rewritten 1 w (.pair car cdr) (.pair ⟨w⟩ cdr)
  | cdr (car cdr : Handle) (w : UInt64) : Rewritten 2 w (.pair car cdr) (.pair car ⟨w⟩)
  | body (body env : Handle) (w : UInt64) : Rewritten 1 w (.closure body env) (.closure ⟨w⟩ env)
  | env (body env : Handle) (w : UInt64) : Rewritten 2 w (.closure body env) (.closure body ⟨w⟩)
  | pairToClosure (first second : Handle) : Rewritten 0 4 (.pair first second) (.closure first second)
  | pairToNumber (first second : Handle) : Rewritten 0 2 (.pair first second) (.number first.raw.toInt64)
  | closureToPair (first second : Handle) : Rewritten 0 3 (.closure first second) (.pair first second)
  | number (n : Int64) : Rewritten 0 2 (.number n) (.number n)
  | pair (car cdr : Handle) : Rewritten 0 3 (.pair car cdr) (.pair car cdr)
  | closure (body env : Handle) : Rewritten 0 4 (.closure body env) (.closure body env)

theorem length_words_le (o : Object) : o.words.length ≤ 3 := by
  cases o <;> simp [words]

/-- Only words that an object has are overwritten. -/
theorem Rewritten.lt_length (h : Rewritten i w o o') : i < o.words.length := by
  cases h <;> simp [words]

theorem Rewritten.lt_three (h : Rewritten i w o o') : i < 3 :=
  h.lt_length.trans_le o.length_words_le

/-- Any word may be written to the payload. -/
theorem exists_rewritten (hpos : 0 < i) (hi : i < o.words.length) (w : UInt64) :
    ∃ o', Rewritten i w o o' ∧ o'.words.length = o.words.length := by
  cases o with
  | number n =>
    simp only [words, List.length_cons, List.length_nil] at hi
    interval_cases i
    exact ⟨_, .integer n w, rfl⟩
  | pair a d =>
    simp only [words, List.length_cons, List.length_nil] at hi
    interval_cases i
    · exact ⟨_, .car a d w, rfl⟩
    · exact ⟨_, .cdr a d w, rfl⟩
  | closure b e =>
    simp only [words, List.length_cons, List.length_nil] at hi
    interval_cases i
    · exact ⟨_, .body b e w, rfl⟩
    · exact ⟨_, .env b e w, rfl⟩
  | _ => simp [words] at hi

end Object

namespace Cell

variable {c : Cell} {o o' : Object} {i : ℕ} {w : UInt64}

theorem setWord_word (c : Cell) (i : ℕ) : c.setWord i (c.word i) = c := by
  rcases i with _ | _ | _ | i <;> rfl

/-- A word that is overwritten twice is overwritten once. -/
theorem setWord_setWord (c : Cell) (i : ℕ) (v w : UInt64) : (c.setWord i v).setWord i w = c.setWord i w := by
  rcases i with _ | _ | _ | i <;> rfl

/-- The words of a cell are independent of each other. -/
theorem word_setWord (c : Cell) (hi : i < 3) (w : UInt64) (j : ℕ) :
    (c.setWord i w).word j = if j = i then w else c.word j := by
  interval_cases i <;> rcases j with _ | _ | _ | j <;> simp [setWord, word]

/-- The words of a cell are those of an object: writing the object there changes nothing. -/
def Holds (c : Cell) (o : Object) : Prop := c.hold o = c

/-- An object that was written to a cell is held by it. -/
theorem holds_hold (c : Cell) (o : Object) : (c.hold o).Holds o := by
  cases o <;> rfl

/-- The words of a cell are those of the object that it holds. -/
theorem Holds.word_eq (h : c.Holds o) (hw : o.words[i]? = some w) : c.word i = w := by
  obtain ⟨hi, rfl⟩ := List.getElem?_eq_some_iff.mp hw
  rw [← h]
  cases o <;> simp only [Object.words, List.length_cons, List.length_nil] at hi <;> interval_cases i <;> rfl

/-- They make up the object again. -/
theorem Holds.object?_eq (h : c.Holds o) (hi : i < o.words.length) : c.object? = some o := by
  rw [← h]
  cases o <;> simp [Object.words] at hi <;> simp [object?, hold]

/-- What the words of a cell make up is held by it. -/
theorem holds_of_object? (h : c.object? = some o) : c.Holds o := by
  obtain ⟨address, code, first, second⟩ := c
  simp only [object?] at h
  split at h
  · cases h
    simp_all [Holds, hold]
  split at h
  · cases h
    simp_all [Holds, hold]
  split at h
  · cases h
    simp_all [Holds, hold]
  · cases h

/-- If a word of its cell is overwritten, an object becomes what it should. -/
theorem Holds.rewritten?_eq (h : c.Holds o) (hr : Object.Rewritten i w o o') :
    c.rewritten? i w = some o' := by
  rw [rewritten?, h.object?_eq hr.lt_length, Option.isSome_some, if_pos rfl, ← h]
  cases hr <;> simp [object?, setWord, hold]

/-- So is what they make up after one of them was overwritten. -/
theorem holds_of_rewritten? (h : c.rewritten? i w = some o) : (c.setWord i w).Holds o := by
  rw [rewritten?] at h
  split at h
  · exact holds_of_object? h
  · cases h

/-- A word may be overwritten again. -/
theorem rewritten?_setWord {v : UInt64} (hv : c.rewritten? i v = some o) (hw : c.rewritten? i w = some o') :
    (c.setWord i v).rewritten? i w = some o' := by
  rw [rewritten?] at hv hw
  split at hv
  · rename_i hsome
    rw [if_pos hsome] at hw
    rw [rewritten?, hv, setWord_setWord, hw]
    rfl
  · cases hv

end Cell

namespace Heap

variable {heap : Heap} {o o' : Object} {s i j : ℕ} {w : UInt64}

/-- The cells of a heap hold its objects: there is one for each slot, with the words of the object in
it, and an empty slot has none. -/
structure Represented (heap : Heap) : Prop where
  size_eq : heap.cells.size = heap.capacity
  address_eq_zero : ∀ {i}, heap.slot? i = none → (heap.cell i).address = 0
  holds : ∀ {i o}, heap.slot? i = some o → (heap.cell i).Holds o

/-- Where one slot and its cell change, only these are to be looked at. -/
theorem Represented.of_slot {heap' : Heap} (hheap : heap.Represented)
    (hcapacity : heap'.capacity = heap.capacity) (hsize : heap'.cells.size = heap.cells.size)
    (hrest : ∀ j ≠ i, heap'.slot? j = heap.slot? j ∧ heap'.cell j = heap.cell j)
    (hnone : heap'.slot? i = none → (heap'.cell i).address = 0)
    (hsome : ∀ o, heap'.slot? i = some o → (heap'.cell i).Holds o) : heap'.Represented := by
  refine ⟨by rw [hsize, hcapacity, hheap.size_eq], fun {j} hj => ?_, fun {j o} hj => ?_⟩
  · by_cases hij : j = i
    · subst hij
      exact hnone hj
    · rw [(hrest j hij).1] at hj
      rw [(hrest j hij).2]
      exact hheap.address_eq_zero hj
  · by_cases hij : j = i
    · subst hij
      exact hsome o hj
    · rw [(hrest j hij).1] at hj
      rw [(hrest j hij).2]
      exact hheap.holds hj

/-! ## New heaps, new objects and collections -/

/-- A new heap has one cell, for the empty list. -/
theorem cell_new (n : ℕ) (platform : Platform) (i : ℕ) :
    (new n platform).cell i = if i = 0 then (Cell.clean (platform.cell 0)).hold .nil else .vacant := by
  have hpos : 0 < max n minSlots := Nat.lt_of_lt_of_le (by decide) (Nat.le_max_right n minSlots)
  by_cases hi : i = 0
  · subst hi
    simp [new, cell, hpos]
  · simp only [new, cell, Array.getD_eq_getD_getElem?, Array.getElem?_setIfInBounds_ne (Ne.symm hi),
      Array.getElem?_replicate, if_neg hi]
    split <;> rfl

/-- The cells of a new heap hold its objects. -/
theorem represented_new (n : ℕ) (platform : Platform) : (new n platform).Represented := by
  refine ⟨by simp [new, capacity], fun {i} hi => ?_, fun {i o} hi => ?_⟩
  · have hne : i ≠ 0 := by
      rintro rfl
      rw [slot?_new_zero] at hi
      cases hi
    rw [cell_new, if_neg hne]
    rfl
  · have heq : i = 0 := by
      by_contra hne
      rw [slot?_new_of_ne hne] at hi
      cases hi
    subst heq
    rw [slot?_new_zero] at hi
    cases hi
    rw [cell_new, if_pos rfl]
    exact Cell.holds_hold _ _

/-- A new object is written to a clean cell. -/
theorem cell_place_self (hsize : heap.cells.size = heap.capacity) (hi : i < heap.capacity) (o : Object) :
    (heap.place i o).cell i = (Cell.clean (heap.platform.cell (heap.stats.allocated + 1))).hold o := by
  simp [place, cell, show i < heap.cells.size from hsize ▸ hi]

/-- A new object has a new cell. -/
theorem Represented.place (hheap : heap.Represented) (hfree : heap.findFree? = some i) (o : Object) :
    (heap.place i o).Represented := by
  have hi := (slot?_of_findFree? hfree).1
  refine hheap.of_slot (i := i) (capacity_place _ _ _) (by simp [Heap.place])
    (fun j hj => ⟨slot?_place_ne _ _ hj.symm, cell_place_ne _ _ hj.symm⟩) (fun hnone => ?_) (fun o' ho' => ?_)
  · rw [slot?_place_self _ _ _ hi] at hnone
    cases hnone
  · rw [slot?_place_self _ _ _ hi] at ho'
    cases ho'
    rw [cell_place_self hheap.size_eq hi]
    exact Cell.holds_hold _ _

/-- What is collected loses its cell, and everything else keeps it. -/
theorem Represented.collect (hheap : heap.Represented) (roots : List Handle) :
    (heap.collect roots).2.Represented := by
  refine ⟨?_, fun {i} hi => ?_, fun {i o} hi => ?_⟩
  · rw [capacity_collect, ← hheap.size_eq]
    simp [Heap.collect, sweepCells]
  · rw [slot?_collect] at hi
    rw [cell_collect]
    by_cases hmark : (heap.mark roots).get i = true
    · rw [if_pos hmark] at hi ⊢
      exact hheap.address_eq_zero hi
    · rw [if_neg hmark]
      rfl
  · rw [slot?_collect] at hi
    rw [cell_collect]
    by_cases hmark : (heap.mark roots).get i = true
    · rw [if_pos hmark] at hi ⊢
      exact hheap.holds hi
    · rw [if_neg hmark] at hi
      cases hi

/-! ## Objects and words that are overwritten -/

theorem cell_modify (heap : Heap) (h : Handle) (f : Object → Object) (j : ℕ) :
    (heap.modify h f).cell j = if h.slot = j ∧ j < heap.cells.size then
      ((heap.slot? j).map f).elim (heap.cell j) (heap.cell j).hold else heap.cell j := by
  by_cases hj : j < heap.cells.size
  · by_cases hs : h.slot = j
    · subst hs
      simp [modify, cell, get?, hj, Array.getElem_modify]
    · simp [modify, cell, hj, hs, Array.getElem_modify]
  · simp [modify, cell, hj]

/-- An object that is overwritten stays in its cell. -/
theorem address_modify (heap : Heap) (h : Handle) (f : Object → Object) (j : ℕ) :
    ((heap.modify h f).cell j).address = (heap.cell j).address := by
  rw [cell_modify]
  split
  · cases heap.slot? j with
    | none => rfl
    | some o => exact Cell.address_hold _ _
  · rfl

/-- An object that is overwritten is so in its cell. -/
theorem Represented.modify (hheap : heap.Represented) (h : Handle) (f : Object → Object) :
    (heap.modify h f).Represented := by
  refine hheap.of_slot (i := h.slot) (capacity_modify _ _ _) (by simp [Heap.modify]) (fun j hj => ?_)
    (fun hnone => ?_) (fun o ho => ?_)
  · rw [slot?_modify, cell_modify, if_neg hj.symm, if_neg fun hslot => hj hslot.1.symm]
    exact ⟨rfl, rfl⟩
  · rw [slot?_modify, if_pos rfl, Option.map_eq_none_iff] at hnone
    rw [address_modify]
    exact hheap.address_eq_zero hnone
  · rw [slot?_modify, if_pos rfl] at ho
    have hlt : h.slot < heap.cells.size := by
      obtain ⟨o', ho', -⟩ := Option.map_eq_some_iff.mp ho
      exact hheap.size_eq ▸ lt_capacity_of_slot? ho'
    rw [cell_modify, if_pos ⟨rfl, hlt⟩, ho]
    exact Cell.holds_hold _ _

/-- Overwriting an object with itself changes nothing. -/
theorem Represented.put_self {h : Handle} (hheap : heap.Represented) (ho : heap.get? h = some o) :
    heap.put h o = heap := by
  have hslots : heap.slots.modify h.slot (Option.map fun _ => o) = heap.slots := by
    apply Array.ext
    · simp
    · intro j hj hj'
      rw [Array.getElem_modify]
      split
      · subst j
        rw [get?, slot?, dif_pos hj'] at ho
        rw [ho, Option.map_some]
      · rfl
  have hcells : (heap.cells.modify h.slot fun c => ((heap.get? h).map fun _ => o).elim c c.hold) =
      heap.cells := by
    rw [ho]
    apply Array.ext
    · simp
    · intro j hj hj'
      rw [Array.getElem_modify]
      split
      · subst j
        have hholds := hheap.holds (i := h.slot) ho
        rw [cell, Array.getD, dif_pos hj'] at hholds
        exact hholds
      · rfl
  rw [put, Heap.modify, hslots, hcells]

/-- There is no cell outside of the table. -/
theorem lt_size_of_rewritten? (h : (heap.cell s).rewritten? i w = some o) : s < heap.cells.size := by
  by_contra hlt
  have hvacant : heap.cell s = .vacant := by simp [cell, hlt]
  rw [hvacant] at h
  simp [Cell.rewritten?, Cell.object?, Cell.vacant, Cell.clean] at h

theorem setWord_of_some (h : (heap.cell s).rewritten? i w = some o) : heap.setWord s i w =
    { heap with
      slots := heap.slots.modify s (Option.map fun _ => o)
      cells := heap.cells.setIfInBounds s ((heap.cell s).setWord i w) } := by
  simp only [setWord, h]

/-- A word that would leave no object in the cell is not written. -/
theorem setWord_of_none (h : (heap.cell s).rewritten? i w = none) : heap.setWord s i w = heap := by
  simp only [setWord, h]

/-- The object in the slot is replaced, and no other. -/
theorem slot?_setWord (h : (heap.cell s).rewritten? i w = some o) (j : ℕ) :
    (heap.setWord s i w).slot? j = if s = j then (heap.slot? j).map fun _ => o else heap.slot? j := by
  rw [setWord_of_some h]
  by_cases hj : j < heap.slots.size
  · simp [slot?, hj, Array.getElem_modify]
  · by_cases hs : s = j <;> simp [slot?, hj, hs]

/-- The cell of the slot is changed, and no other. -/
theorem cell_setWord (h : (heap.cell s).rewritten? i w = some o) (j : ℕ) :
    (heap.setWord s i w).cell j = if s = j then (heap.cell s).setWord i w else heap.cell j := by
  have hs := lt_size_of_rewritten? h
  rw [setWord_of_some h]
  by_cases hj : s = j
  · subst hj
    simp [cell, hs]
  · simp [cell, hj]

/-- A word that is written to a cell changes the object. -/
theorem Represented.setWord (hheap : heap.Represented) (s i : ℕ) (w : UInt64) :
    (heap.setWord s i w).Represented := by
  cases h : (heap.cell s).rewritten? i w with
  | none => rwa [setWord_of_none h]
  | some o =>
    refine hheap.of_slot (i := s) (capacity_setWord _ _ _ _) (by simp [setWord_of_some h])
      (fun j hj => ⟨by rw [slot?_setWord h, if_neg hj.symm], by rw [cell_setWord h, if_neg hj.symm]⟩)
      (fun hnone => ?_) (fun o' ho' => ?_)
    · rw [slot?_setWord h, if_pos rfl, Option.map_eq_none_iff] at hnone
      rw [cell_setWord h, if_pos rfl, Cell.address_setWord]
      exact hheap.address_eq_zero hnone
    · rw [slot?_setWord h, if_pos rfl] at ho'
      obtain ⟨_, -, rfl⟩ := Option.map_eq_some_iff.mp ho'
      rw [cell_setWord h, if_pos rfl]
      exact Cell.holds_of_rewritten? h

/-! ## Where cells lie -/

/-- The cell of each object is one that the platform placed, and no two are the same of these. -/
def Housed (heap : Heap) : Prop :=
  ∃ number : ℕ → ℕ,
    (∀ {s o}, heap.slot? s = some o →
      number s ≤ heap.stats.allocated ∧ (heap.cell s).address = heap.platform.cell (number s)) ∧
    ∀ {s t o o'}, heap.slot? s = some o → heap.slot? t = some o' → number s = number t → s = t

/-- From `heap` to `heap'` no object was made, and those that are left lie where they lay. -/
structure Stays (heap heap' : Heap) : Prop where
  platform_eq : heap'.platform = heap.platform
  capacity_eq : heap'.capacity = heap.capacity
  allocated_eq : heap'.stats.allocated = heap.stats.allocated
  address_eq : ∀ {s o}, heap'.slot? s = some o →
    (∃ o', heap.slot? s = some o') ∧ (heap'.cell s).address = (heap.cell s).address

theorem Stays.refl (heap : Heap) : Stays heap heap := ⟨rfl, rfl, rfl, fun {_ o} hs => ⟨⟨o, hs⟩, rfl⟩⟩

/-- No object is made or moved by a collection. -/
theorem stays_collect (heap : Heap) (roots : List Handle) : Stays heap (heap.collect roots).2 := by
  refine ⟨rfl, capacity_collect _ _, rfl, fun {s o} hs => ?_⟩
  rw [slot?_collect] at hs
  rw [cell_collect]
  split at hs
  · rename_i hmark
    exact ⟨⟨o, hs⟩, by rw [if_pos hmark]⟩
  · cases hs

theorem stays_modify (heap : Heap) (h : Handle) (f : Object → Object) : Stays heap (heap.modify h f) := by
  refine ⟨rfl, capacity_modify _ _ _, rfl, fun {s o} hs => ⟨?_, address_modify heap h f s⟩⟩
  rw [slot?_modify] at hs
  split at hs
  · obtain ⟨o', ho', -⟩ := Option.map_eq_some_iff.mp hs
    exact ⟨o', ho'⟩
  · exact ⟨o, hs⟩

/-- Nor when a word is overwritten. -/
theorem stays_setWord (heap : Heap) (s i : ℕ) (w : UInt64) : Stays heap (heap.setWord s i w) := by
  cases h : (heap.cell s).rewritten? i w with
  | none =>
    rw [setWord_of_none h]
    exact .refl heap
  | some o =>
    refine ⟨platform_setWord _ _ _ _, capacity_setWord _ _ _ _, by rw [setWord_of_some h],
      fun {t o'} ht => ?_⟩
    rw [slot?_setWord h] at ht
    rw [cell_setWord h]
    split at ht
    · subst t
      obtain ⟨o, ho, -⟩ := Option.map_eq_some_iff.mp ht
      exact ⟨⟨o, ho⟩, by rw [if_pos rfl, Cell.address_setWord]⟩
    · rename_i hne
      exact ⟨⟨o', ht⟩, by rw [if_neg hne]⟩

/-- Objects that stay where they were are still where the platform placed them. -/
theorem Housed.of_stays {heap' : Heap} (hheap : heap.Housed) (hstays : Stays heap heap') : heap'.Housed := by
  obtain ⟨number, hnumber, hinj⟩ := hheap
  refine ⟨number, fun hs => ?_, fun hs ht => ?_⟩
  · obtain ⟨⟨o', ho'⟩, hcell⟩ := hstays.address_eq hs
    rw [hcell, hstays.platform_eq, hstays.allocated_eq]
    exact hnumber ho'
  · obtain ⟨⟨_, hs'⟩, -⟩ := hstays.address_eq hs
    obtain ⟨⟨_, ht'⟩, -⟩ := hstays.address_eq ht
    exact hinj hs' ht'

/-- The one object of a new heap is where the platform placed it. -/
theorem housed_new (n : ℕ) (platform : Platform) : (new n platform).Housed := by
  have hzero : ∀ {s o}, (new n platform).slot? s = some o → s = 0 := by
    intro s o hs
    by_contra hne
    rw [slot?_new_of_ne hne] at hs
    cases hs
  refine ⟨fun _ => 0, fun hs => ⟨Nat.zero_le _, ?_⟩, fun hs ht _ => (hzero hs).trans (hzero ht).symm⟩
  rw [hzero hs, cell_new, if_pos rfl, Cell.address_hold]
  rfl

/-- A new object is placed where no other was placed before. -/
theorem Housed.place (hheap : heap.Housed) (hsize : heap.cells.size = heap.capacity)
    (hfree : heap.findFree? = some i) (o : Object) : (heap.place i o).Housed := by
  obtain ⟨number, hnumber, hinj⟩ := hheap
  have hi := (slot?_of_findFree? hfree).1
  have hold : ∀ {s o'}, s ≠ i → (heap.place i o).slot? s = some o' → heap.slot? s = some o' := by
    intro s o' hs ho'
    rwa [slot?_place_ne _ _ hs.symm] at ho'
  refine ⟨Function.update number i (heap.stats.allocated + 1), fun {s o'} hs => ?_,
    fun {s t _ _} hs ht hst => ?_⟩
  · by_cases hsi : s = i
    · subst hsi
      rw [Function.update_self, cell_place_self hsize hi, Cell.address_hold]
      exact ⟨Nat.le_refl _, rfl⟩
    · rw [Function.update_of_ne hsi, cell_place_ne _ _ (Ne.symm hsi)]
      obtain ⟨hle, haddress⟩ := hnumber (hold hsi hs)
      exact ⟨hle.trans (Nat.le_succ _), haddress⟩
  · by_cases hsi : s = i
    · by_cases hti : t = i
      · rw [hsi, hti]
      · rw [hsi, Function.update_self, Function.update_of_ne hti] at hst
        have hle := (hnumber (hold hti ht)).1
        omega
    · by_cases hti : t = i
      · rw [hti, Function.update_self, Function.update_of_ne hsi] at hst
        have hle := (hnumber (hold hsi hs)).1
        omega
      · rw [Function.update_of_ne hsi, Function.update_of_ne hti] at hst
        exact hinj (hold hsi hs) (hold hti ht) hst

end Heap

end PushLisp
