import Mathlib.Data.List.Rotate
import PushLisp.Proofs.Exhaustion

/-!
# Next fit

An allocation looks at the slots in a fixed cyclic order, which starts after the cursor and ends with the
cursor's own slot. It takes the first one that is empty. The cursor moves there, so the next search goes on
where this one ended, and what was passed over is at the end of the new order. Hence the empty slots are
handed out one after another in the order in which they stood at the beginning, none of them twice and none
left out, until the table is full.

## Main definitions

* `Heap.order`: the slots in the order of the search.
* `Heap.vacant`: the empty ones among them.
* `Heap.offerAll`: objects offered one after another.
* `Heap.Seats`, `Heap.Deals`: what becomes of one object, and of many.

## Main statements

* `Heap.findFree?_eq_head?`: a search finds the first empty slot of the order.
* `Heap.vacant_place`: the empty slots after an allocation are those that remain, in the same order.
* `Heap.deals_offerAll`: many objects are dealt out along the empty slots.
* `Heap.next_fit`: all of this together.
-/
namespace PushLisp.Heap

variable {heap : Heap} {i : ℕ} {o : Object}

/-! ## The order of the search -/

/-- The slots in the order in which an allocation looks at them: from the one after the cursor on, going
round at the end of the table, the cursor's own last. -/
def order (heap : Heap) : List ℕ := (List.range heap.capacity).rotate (heap.cursor + 1)

/-- The empty slots in that order. -/
def vacant (heap : Heap) : List ℕ := heap.order.filter fun i => (heap.slot? i).isNone

theorem length_order (heap : Heap) : heap.order.length = heap.capacity := by simp [order]

theorem mem_order : i ∈ heap.order ↔ i < heap.capacity := by simp [order]

theorem nodup_order (heap : Heap) : heap.order.Nodup := by
  simp [order, List.nodup_range]

theorem mem_vacant : i ∈ heap.vacant ↔ i < heap.capacity ∧ heap.slot? i = none := by
  simp [vacant, mem_order]

theorem nodup_vacant (heap : Heap) : heap.vacant.Nodup := heap.nodup_order.filter _

/-- With the cursor in the table, the order is that of the slots after it followed by those up to it. -/
theorem order_eq_append (hcursor : heap.cursor < heap.capacity) :
    heap.order = List.range' (heap.cursor + 1) (heap.capacity - (heap.cursor + 1)) ++
      List.range (heap.cursor + 1) := by
  have hle : heap.cursor + 1 ≤ (List.range heap.capacity).length := by
    rw [List.length_range]
    exact hcursor
  rw [order, List.rotate_eq_drop_append_take hle]
  congr 1
  · rw [List.range_eq_range', List.drop_range', Nat.zero_add, Nat.mul_one]
  · rw [List.take_range, Nat.min_eq_left hcursor]

/-- The order by the distance of each slot from the cursor. -/
theorem order_eq_map (heap : Heap) :
    heap.order = (List.range heap.capacity).map fun d => (heap.cursor + 1 + d) % heap.capacity := by
  apply List.ext_getElem
  · simp [order]
  · intro d hd hd'
    simp [order, List.getElem_rotate, Nat.add_comm d]

/-- A scan looks at the slots after `i` by their distance. -/
theorem scanFree?_eq (slots : Array (Option Object)) (i n : ℕ) :
    scanFree? slots i n =
      ((List.range n).map fun d => (i + 1 + d) % slots.size).find? fun j => slots[j]? = some none := by
  induction n generalizing i with
  | zero => rfl
  | succ n ih =>
    have hshift : (List.range n).map (fun d => ((i + 1) % slots.size + 1 + d) % slots.size) =
        ((List.range n).map Nat.succ).map fun d => (i + 1 + d) % slots.size := by
      rw [List.map_map]
      apply List.map_congr_left
      intro d _
      simp only [Function.comp_apply]
      rw [Nat.add_assoc, Nat.mod_add_mod]
      congr 1
      omega
    rw [scanFree?, List.range_succ_eq_map, List.map_cons, Nat.add_zero]
    split
    · rename_i hnext
      rw [List.find?_cons_of_pos (by simpa using hnext)]
    · rename_i hnext
      rw [List.find?_cons_of_neg (by simpa using hnext), ih, hshift]

/-- A search finds the first empty slot of the order. -/
theorem findFree?_eq_head? (heap : Heap) : heap.findFree? = heap.vacant.head? := by
  rw [findFree?, scanFree?_eq, ← List.head?_filter, vacant, order_eq_map]
  apply congrArg List.head?
  apply List.filter_congr
  intro j hj
  obtain ⟨d, hd, rfl⟩ := List.mem_map.mp hj
  have hsize : 0 < heap.slots.size := by
    have := List.mem_range.mp hd
    omega
  have hlt : (heap.cursor + 1 + d) % heap.slots.size < heap.slots.size := Nat.mod_lt _ hsize
  rw [Bool.eq_iff_iff]
  simp [slot?, hlt]

/-- No slot is empty exactly if the table is full. -/
theorem vacant_eq_nil_iff : heap.vacant = [] ↔ heap.Full := by
  rw [← findFree?_eq_none_iff_full, findFree?_eq_head?, List.head?_eq_none_iff]

/-! ## One allocation -/

/-- After an allocation the search goes on behind the slot that was taken. -/
theorem order_place {before after : List ℕ} (horder : heap.order = before ++ i :: after) (o : Object) :
    (heap.place i o).order = after ++ (before ++ [i]) := by
  have hlen : before.length < heap.capacity := by
    rw [← length_order, horder]
    simp
  have hslot : (before.length + (heap.cursor + 1)) % heap.capacity = i := by
    have hget : heap.order[before.length]? = some i := by simp [horder]
    simpa [order, List.getElem?_rotate, hlen] using hget
  have hcursor : (heap.place i o).cursor = i := rfl
  have hmod : (i + 1) % heap.capacity =
      (heap.cursor + 1 + (before ++ [i]).length) % heap.capacity := by
    rw [← hslot, Nat.mod_add_mod, List.length_append, List.length_singleton]
    congr 1
    omega
  calc
    (heap.place i o).order = (List.range heap.capacity).rotate (i + 1) := by
      rw [order, capacity_place, hcursor]
    _ = (List.range heap.capacity).rotate (heap.cursor + 1 + (before ++ [i]).length) := by
      rw [← List.rotate_mod, List.length_range, hmod]
      conv_rhs => rw [← List.rotate_mod, List.length_range]
    _ = heap.order.rotate (before ++ [i]).length := by rw [order, List.rotate_rotate]
    _ = ((before ++ [i]) ++ after).rotate (before ++ [i]).length := by simp [horder]
    _ = after ++ (before ++ [i]) := List.rotate_append_length_eq _ _

/-- An allocation takes the first empty slot; the others stay empty, and keep their order. -/
theorem vacant_place {rest : List ℕ} (hvacant : heap.vacant = i :: rest) (o : Object) :
    (heap.place i o).vacant = rest := by
  obtain ⟨before, after, horder, hbefore, -, hafter⟩ := List.filter_eq_cons_iff.mp hvacant
  have hi : i < heap.capacity := mem_order.mp (by simp [horder])
  have hnodup := heap.nodup_order
  rw [horder, List.nodup_append, List.nodup_cons] at hnodup
  obtain ⟨-, ⟨hnew, -⟩, hapart⟩ := hnodup
  have hsame : ∀ {j}, j ≠ i → (heap.place i o).slot? j = heap.slot? j := fun hj =>
    slot?_place_ne heap o (Ne.symm hj)
  rw [vacant, order_place horder, List.filter_append, List.filter_append]
  have hold : (after.filter fun j => ((heap.place i o).slot? j).isNone) = rest := by
    rw [← hafter]
    apply List.filter_congr
    intro j hj
    rw [hsame (ne_of_mem_of_not_mem hj hnew)]
  have hpassed : (before.filter fun j => ((heap.place i o).slot? j).isNone) = [] := by
    rw [List.filter_eq_nil_iff]
    intro j hj
    rw [hsame (hapart j hj i List.mem_cons_self)]
    exact hbefore j hj
  have htaken : ([i].filter fun j => ((heap.place i o).slot? j).isNone) = [] := by
    simp [slot?_place_self heap i o hi]
  rw [hold, hpassed, htaken, List.append_nil, List.append_nil]

theorem offer_of_vacant_nil (hvacant : heap.vacant = []) (o : Object) :
    heap.offer o = (.error o, heap) := by
  simp [offer, allocate?, findFree?_eq_head?, hvacant]

theorem offer_of_vacant_cons {rest : List ℕ} (hvacant : heap.vacant = i :: rest) (o : Object) :
    heap.offer o = (.ok (.ofSlot i), heap.place i o) := by
  simp [offer, allocate?, findFree?_eq_head?, hvacant]

theorem offer_eq_error_iff : heap.offer o = (.error o, heap) ↔ heap.Full := by
  rw [← vacant_eq_nil_iff]
  constructor
  · intro hoffer
    cases hvacant : heap.vacant with
    | nil => rfl
    | cons i rest => simp [offer_of_vacant_cons hvacant] at hoffer
  · intro hvacant
    exact offer_of_vacant_nil hvacant o

/-- An object was placed in the slot `i`, which is the first empty one in the order of the search. Nothing
else changed but the cursor, which is there now. -/
structure Seats (heap : Heap) (o : Object) (i : ℕ) (heap' : Heap) : Prop where
  offer_eq : heap.offer o = (.ok (.ofSlot i), heap')
  first : ∃ before after, heap.order = before ++ i :: after ∧ (∀ j ∈ before, (heap.slot? j).isSome) ∧
    heap.slot? i = none
  slot?_eq : heap'.slot? i = some o
  others : ∀ j ≠ i, heap'.slot? j = heap.slot? j
  cursor_eq : heap'.cursor = i

/-- Where a slot is empty, an object is placed. -/
theorem seats_offer (hroom : ¬ heap.Full) (o : Object) : ∃ i heap', Seats heap o i heap' := by
  rw [← vacant_eq_nil_iff] at hroom
  obtain ⟨i, rest, hvacant⟩ := List.exists_cons_of_ne_nil hroom
  obtain ⟨before, after, horder, hbefore, hnone, -⟩ := List.filter_eq_cons_iff.mp hvacant
  have hi : i < heap.capacity := mem_order.mp (by simp [horder])
  refine ⟨i, heap.place i o, offer_of_vacant_cons hvacant o,
    ⟨before, after, horder, ?_, by simpa using hnone⟩, slot?_place_self heap i o hi, ?_, rfl⟩
  · intro j hj
    simpa [Option.isSome_iff_ne_none] using hbefore j hj
  · intro j hj
    exact slot?_place_ne heap o (Ne.symm hj)

/-! ## Many allocations -/

/-- Offers objects to a heap one after another. -/
def offerAll : Heap → List Object → List (Except Object Handle) × Heap
  | heap, [] => ([], heap)
  | heap, o :: os =>
    ((heap.offer o).1 :: (offerAll (heap.offer o).2 os).1, (offerAll (heap.offer o).2 os).2)

/-- What becomes of objects that are offered one after another: each gets the next of the slots that were
empty at the beginning, and is handed back when there are no more. The other slots stay as they are. -/
structure Deals (heap : Heap) (os : List Object) : Prop where
  answers : (heap.offerAll os).1 =
    os.mapIdx fun n o => (heap.vacant[n]?).elim (.error o) fun i => .ok (.ofSlot i)
  slot?_eq : ∀ {n i : ℕ}, heap.vacant[n]? = some i → (heap.offerAll os).2.slot? i = os[n]?
  others : ∀ {i}, i ∉ heap.vacant → (heap.offerAll os).2.slot? i = heap.slot? i

theorem offerAll_of_vacant_nil (hvacant : heap.vacant = []) (o : Object) (os : List Object) :
    heap.offerAll (o :: os) = (.error o :: (heap.offerAll os).1, (heap.offerAll os).2) := by
  rw [offerAll, offer_of_vacant_nil hvacant]

theorem offerAll_of_vacant_cons {rest : List ℕ} (hvacant : heap.vacant = i :: rest) (o : Object)
    (os : List Object) :
    heap.offerAll (o :: os) =
      (.ok (.ofSlot i) :: ((heap.place i o).offerAll os).1, ((heap.place i o).offerAll os).2) := by
  rw [offerAll, offer_of_vacant_cons hvacant]

/-- Objects are dealt out along the empty slots. -/
theorem deals_offerAll (heap : Heap) (os : List Object) : Deals heap os := by
  induction os generalizing heap with
  | nil =>
    refine ⟨rfl, ?_, fun _ => rfl⟩
    intro n i hi
    simpa [offerAll] using (mem_vacant.mp (List.mem_of_getElem? hi)).2
  | cons o os ih =>
    cases hvacant : heap.vacant with
    | nil =>
      have hrest := ih heap
      refine ⟨?_, ?_, ?_⟩
      · rw [offerAll_of_vacant_nil hvacant, hrest.answers]
        simp [List.mapIdx_cons, hvacant]
      · simp [hvacant]
      · intro i hi
        rw [offerAll_of_vacant_nil hvacant]
        exact hrest.others hi
    | cons i rest =>
      have hrest := ih (heap.place i o)
      have hplace : (heap.place i o).vacant = rest := vacant_place hvacant o
      have hnodup := heap.nodup_vacant
      rw [hvacant, List.nodup_cons] at hnodup
      obtain ⟨hi, -⟩ := mem_vacant.mp (hvacant ▸ List.mem_cons_self : i ∈ heap.vacant)
      refine ⟨?_, ?_, ?_⟩
      · rw [offerAll_of_vacant_cons hvacant, hrest.answers]
        simp [List.mapIdx_cons, hvacant, hplace]
      · intro n j hj
        rw [hvacant] at hj
        rw [offerAll_of_vacant_cons hvacant]
        cases n with
        | zero =>
          -- the slot just taken is none of those still empty, so it keeps its object
          rw [List.getElem?_cons_zero, Option.some_inj] at hj
          subst hj
          rw [hrest.others (hplace ▸ hnodup.1), slot?_place_self heap i o hi, List.getElem?_cons_zero]
        | succ n =>
          rw [List.getElem?_cons_succ] at hj ⊢
          exact hrest.slot?_eq (hplace ▸ hj)
      · intro j hj
        rw [hvacant, List.mem_cons, not_or] at hj
        rw [offerAll_of_vacant_cons hvacant, hrest.others (hplace ▸ hj.2),
          slot?_place_ne heap o (Ne.symm hj.1)]

theorem capacity_offerAll (heap : Heap) (os : List Object) :
    (heap.offerAll os).2.capacity = heap.capacity := by
  induction os generalizing heap with
  | nil => rfl
  | cons o os ih =>
    cases hvacant : heap.vacant with
    | nil => rw [offerAll_of_vacant_nil hvacant, ih]
    | cons i rest => rw [offerAll_of_vacant_cons hvacant, ih, capacity_place]

/-- The table is full as soon as there were as many objects as empty slots, and not before. -/
theorem full_offerAll_iff {os : List Object} :
    (heap.offerAll os).2.Full ↔ heap.vacant.length ≤ os.length := by
  have hdeals := deals_offerAll heap os
  constructor
  · intro hfull
    by_contra hlt
    have hget : heap.vacant[os.length]? = some (heap.vacant[os.length]) := List.getElem?_eq_getElem (by omega)
    obtain ⟨hi, -⟩ := mem_vacant.mp (List.mem_of_getElem? hget)
    have hsome := hfull _ ((capacity_offerAll heap os).symm ▸ hi)
    simp [hdeals.slot?_eq hget] at hsome
  · intro hle i hi
    rw [capacity_offerAll] at hi
    by_cases hmem : i ∈ heap.vacant
    · obtain ⟨n, hn, hget⟩ := List.mem_iff_getElem.mp hmem
      rw [hdeals.slot?_eq (List.getElem?_eq_some_iff.mpr ⟨hn, hget⟩)]
      simp [show n < os.length by omega]
    · rw [hdeals.others hmem, Option.isSome_iff_ne_none]
      intro hnone
      exact hmem (mem_vacant.mpr ⟨hi, hnone⟩)

/-- Objects are dealt out along all the empty slots, each of them once, before the table is full. -/
structure FillsUp (heap : Heap) (os : List Object) : Prop extends Deals heap os where
  nodup : heap.vacant.Nodup
  mem_iff : ∀ i, i ∈ heap.vacant ↔ i < heap.capacity ∧ heap.slot? i = none
  full_iff : (heap.offerAll os).2.Full ↔ heap.vacant.length ≤ os.length

theorem fillsUp (heap : Heap) (os : List Object) : FillsUp heap os where
  toDeals := deals_offerAll heap os
  nodup := heap.nodup_vacant
  mem_iff _ := mem_vacant
  full_iff := full_offerAll_iff

/-- In a new table the slots are empty from the first on, apart from that of the empty list. -/
theorem vacant_new (c : ℕ) (platform : Platform) :
    (new c platform).vacant = List.range' 1 (max c minSlots - 1) := by
  have hcursor : (new c platform).cursor = 0 := rfl
  have hpos : 0 < (new c platform).capacity := by
    have hmin : minSlots = 256 := rfl
    rw [capacity_new]
    omega
  rw [vacant, order_eq_append (hcursor ▸ hpos), hcursor, capacity_new, List.filter_append]
  have hempty : ((List.range' (0 + 1) (max c minSlots - (0 + 1))).filter fun i =>
      ((new c platform).slot? i).isNone) = List.range' (0 + 1) (max c minSlots - (0 + 1)) := by
    rw [List.filter_eq_self]
    intro i hi
    have hne : i ≠ 0 := by
      rw [List.mem_range'_1] at hi
      omega
    simp [slot?_new_of_ne hne]
  rw [hempty]
  simp [slot?_new_zero]

/-- Objects offered to a new table get its slots one after another, from the first on. -/
theorem answers_new (c : ℕ) (platform : Platform) (os : List Object) :
    ((new c platform).offerAll os).1 =
      os.mapIdx fun n o => if n + 1 < max c minSlots then .ok (.ofSlot (n + 1)) else .error o := by
  rw [(deals_offerAll (new c platform) os).answers, vacant_new]
  generalize max c minSlots = total
  have hget : ∀ n : ℕ, (List.range' 1 (total - 1))[n]? = if n + 1 < total then some (n + 1) else none := by
    intro n
    by_cases hlt : n + 1 < total
    · simp [hlt, show n < total - 1 by omega, Nat.add_comm 1 n]
    · simp [hlt, show total - 1 ≤ n by omega]
  apply List.ext_getElem
  · simp
  · intro n hn hn'
    rw [List.getElem_mapIdx, List.getElem_mapIdx, hget]
    split <;> rfl

/-- An object is handed back, and nothing changed, exactly if every slot is occupied. Else it is placed in
the first empty slot in the order that starts after the cursor, goes round at the end of the table and ends
with the cursor's own slot. Objects offered to a new table one after another get the slots one, two and so
on, until the table has no more. On any table, after a collection too, they get the empty slots in the order
of the search, each of them once, and the table is full when all of them are filled. -/
theorem next_fit (heap : Heap) (c : ℕ) (platform : Platform) (roots : List Handle) (o : Object)
    (os : List Object) :
    (heap.offer o = (.error o, heap) ↔ heap.Full) ∧
      (heap.cursor < heap.capacity → heap.order =
        List.range' (heap.cursor + 1) (heap.capacity - (heap.cursor + 1)) ++ List.range (heap.cursor + 1)) ∧
      (¬ heap.Full → ∃ i heap', Seats heap o i heap') ∧
      ((new c platform).offerAll os).1 =
        os.mapIdx (fun n o => if n + 1 < max c 256 then .ok (.ofSlot (n + 1)) else .error o) ∧
      FillsUp heap os ∧ FillsUp (heap.collect roots).2 os :=
  ⟨offer_eq_error_iff, order_eq_append, fun hroom => seats_offer hroom o, answers_new c platform os,
    fillsUp _ _, fillsUp _ _⟩

/-- After the last slot of a table was taken, the search begins again at the first. -/
theorem next_fit_round :
    ((new 0 {}).place 255 (.number 7)).cursor < ((new 0 {}).place 255 (.number 7)).capacity ∧
      ¬ ((new 0 {}).place 255 (.number 7)).Full ∧
      ((new 0 {}).place 255 (.number 7)).order = List.range' 256 0 ++ List.range 256 ∧
      ∃ i heap', Seats ((new 0 {}).place 255 (.number 7)) .nil i heap' := by
  have hcapacity : ((new 0 {}).place 255 (.number 7)).capacity = 256 := by
    rw [capacity_place, capacity_new]
    rfl
  have hcursor : ((new 0 {}).place 255 (.number 7)).cursor < ((new 0 {}).place 255 (.number 7)).capacity := by
    rw [hcapacity]
    decide
  have hroom : ¬ ((new 0 {}).place 255 (.number 7)).Full := by
    intro hfull
    have hsome := hfull 1 (by rw [hcapacity]; decide)
    rw [slot?_place_ne _ _ (by decide), slot?_new_of_ne (by decide)] at hsome
    cases hsome
  obtain ⟨-, horder, hseats, -⟩ := next_fit ((new 0 {}).place 255 (.number 7)) 0 {} [] .nil []
  refine ⟨hcursor, hroom, ?_, hseats hroom⟩
  rw [horder hcursor, hcapacity]
  rfl

end PushLisp.Heap
