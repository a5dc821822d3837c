import Mathlib.Algebra.Group.Nat.Defs
import PushLisp.Machine.Allocation
import PushLisp.Proofs.Collection

/-!
# What an allocation keeps

An allocation fails only if every slot holds an object that is still reached. Else it leaves all that
the roots and the new object lead to as it was, whether room had to be made or not, and the slot it
takes is none of theirs.

## Main definitions

* `Machine.Spares`: a later machine keeps everything that is reached.

## Main statements

* `Heap.isSome_slot?_of_findFree?`: the search for an empty slot misses none.
* `Machine.spares_collect`: a collection keeps what is reached.
* `Machine.allocate_cases`: what an allocation does.
-/
namespace PushLisp

namespace Handle

theorem slot_ofSlot {i : ℕ} (h : i < 2 ^ 64) : (ofSlot i).slot = i := by
  simp only [ofSlot, slot, Nat.toUInt64_eq, UInt64.toNat_ofNat']
  omega

theorem eq_of_slot_eq {h k : Handle} (heq : h.slot = k.slot) : h = k := by
  cases h
  cases k
  simpa [slot, UInt64.toNat_inj] using heq

theorem ofSlot_slot (h : Handle) : ofSlot h.slot = h := eq_of_slot_eq (slot_ofSlot h.raw.toNat_lt)

end Handle

namespace Heap

variable {heap : Heap}

/-! ## Empty slots -/

/-- All slots of a new table but slot zero are empty. -/
theorem slot?_new_of_ne {i : ℕ} (hi : i ≠ 0) (n : ℕ) (platform : Platform) :
    (new n platform).slot? i = none := by
  have hne : ¬ 0 = i := fun h => hi h.symm
  by_cases hlt : i < max n minSlots
  · simp [slot?, new, hlt, hne]
  · simp [slot?, new, hlt]

/-- The slots that a new table has occupied: slot zero. -/
theorem occupiedSlots_new (n : ℕ) (platform : Platform) : (new n platform).occupiedSlots = {0} := by
  ext i
  rw [mem_occupiedSlots, Finset.mem_singleton]
  by_cases hi : i = 0
  · subst hi
    simp [slot?_new_zero]
  · simp [slot?_new_of_ne hi, hi]

/-- A scan that finds nothing has passed every slot up to `n` places on. -/
theorem of_scanFree?_eq_none {slots : Array (Option Object)} {i n : ℕ}
    (h : scanFree? slots i n = none) {j : ℕ} (hj : j < n) :
    slots[(i + 1 + j) % slots.size]? ≠ some none := by
  induction n generalizing i j with
  | zero => omega
  | succ n ih =>
    rw [scanFree?] at h
    split at h
    · cases h
    · rename_i hnext
      cases j with
      | zero => exact hnext
      | succ j =>
        have hrest := ih h (show j < n by omega)
        rwa [Nat.add_assoc, Nat.mod_add_mod, show i + 1 + (1 + j) = i + 1 + (j + 1) by omega] at hrest

/-- If no empty slot is found then there is none. -/
theorem isSome_slot?_of_findFree? (h : heap.findFree? = none) {i : ℕ} (hi : i < heap.capacity) :
    (heap.slot? i).isSome := by
  have hi : i < heap.slots.size := hi
  have hmod : heap.cursor % heap.slots.size < heap.slots.size := Nat.mod_lt _ (by omega)
  -- the scan goes round once, so it meets the slot somewhere
  obtain ⟨j, hj, hji⟩ : ∃ j < heap.slots.size, (heap.cursor + 1 + j) % heap.slots.size = i := by
    refine ⟨(i + (heap.slots.size - 1) - heap.cursor % heap.slots.size) % heap.slots.size,
      Nat.mod_lt _ (by omega), ?_⟩
    have hround : heap.cursor + 1 + (i + (heap.slots.size - 1) - heap.cursor % heap.slots.size) =
        i + heap.slots.size * (heap.cursor / heap.slots.size + 1) := by
      have hdiv := Nat.div_add_mod heap.cursor heap.slots.size
      rw [Nat.mul_add, Nat.mul_one]
      omega
    rw [Nat.add_mod_mod, hround, Nat.add_mul_mod_self_left, Nat.mod_eq_of_lt hi]
  have hnone := of_scanFree?_eq_none h hj
  rw [hji] at hnone
  simp only [slot?, hi, dite_true]
  simpa [hi, Option.isSome_iff_ne_none] using hnone

theorem Unmarked.place (h : heap.Unmarked) (i : ℕ) (o : Object) : (heap.place i o).Unmarked := by
  rw [Unmarked, capacity_place]
  exact h

theorem Unmarked.modify (h : heap.Unmarked) (k : Handle) (f : Object → Object) :
    (heap.modify k f).Unmarked := by
  rw [Unmarked, capacity_modify]
  exact h

theorem Unmarked.setWord (h : heap.Unmarked) (s i : ℕ) (w : UInt64) : (heap.setWord s i w).Unmarked := by
  have hmarks : (heap.setWord s i w).marks = heap.marks := by
    unfold Heap.setWord
    split <;> rfl
  rw [Unmarked, capacity_setWord, hmarks]
  exact h

/-- A handle that names an object names a slot of the table. -/
theorem slot_lt_capacity {h : Handle} {o : Object} (ho : heap.get? h = some o) :
    h.slot < heap.capacity :=
  lt_capacity_of_slot? ho

/-- Placing an object in an empty slot gives its handle that object, and changes nothing else. -/
theorem get?_place {i : ℕ} (hfree : heap.findFree? = some i) (hcap : heap.capacity ≤ 2 ^ 64)
    (o : Object) (h : Handle) :
    (heap.place i o).get? h = if h = .ofSlot i then some o else heap.get? h := by
  obtain ⟨hi, -⟩ := slot?_of_findFree? hfree
  have hslot : (Handle.ofSlot i).slot = i := Handle.slot_ofSlot (by omega)
  by_cases heq : h = .ofSlot i
  · rw [if_pos heq, heq, get?, hslot, slot?_place_self heap i o hi]
  · have hne : i ≠ h.slot := fun hi => heq (Handle.eq_of_slot_eq (hslot.trans hi).symm)
    rw [if_neg heq, get?, slot?_place_ne heap o hne, get?]

theorem cell_place_ne {i j : ℕ} (heap : Heap) (o : Object) (hij : i ≠ j) :
    (heap.place i o).cell j = heap.cell j := by
  simp [place, cell, hij]

/-- What a handle names after an object was placed is that object, or was there before. -/
theorem get?_of_place {i : ℕ} {o o' : Object} {h : Handle} (hfree : heap.findFree? = some i)
    (ho : (heap.place i o).get? h = some o') : o' = o ∨ heap.get? h = some o' := by
  by_cases hi : i = h.slot
  · rw [get?, ← hi, slot?_place_self _ _ _ (slot?_of_findFree? hfree).1] at ho
    exact .inl (Option.some.inj ho).symm
  · rw [get?, slot?_place_ne _ _ hi] at ho
    exact .inr ho

/-- The handle of an empty slot names nothing. -/
theorem get?_ofSlot_of_findFree? {i : ℕ} (hfree : heap.findFree? = some i)
    (hcap : heap.capacity ≤ 2 ^ 64) : heap.get? (.ofSlot i) = none := by
  obtain ⟨hi, hnone⟩ := slot?_of_findFree? hfree
  rw [get?, Handle.slot_ofSlot (by omega), hnone]

/-- A handle that names an object is not that of an empty slot. -/
theorem ne_ofSlot_of_findFree? {i : ℕ} (hfree : heap.findFree? = some i) (hcap : heap.capacity ≤ 2 ^ 64)
    {h : Handle} (hh : (heap.get? h).isSome) : h ≠ .ofSlot i := by
  rintro rfl
  rw [get?_ofSlot_of_findFree? hfree hcap] at hh
  cases hh

/-- Overwriting an object changes what its handle names, and nothing else. -/
theorem get?_put {h : Handle} {o : Object} (ho : heap.get? h = some o) (o' : Object) (k : Handle) :
    (heap.put h o').get? k = if k = h then some o' else heap.get? k := by
  rw [put, get?, slot?_modify]
  by_cases hkh : k = h
  · subst hkh
    rw [get?] at ho
    rw [if_pos rfl, if_pos rfl, ho, Option.map_some]
  · rw [if_neg hkh, if_neg fun hslot => hkh (Handle.eq_of_slot_eq hslot).symm, get?]

/-! ## Collections -/

/-- An object survives a collection exactly if it is reached. -/
theorem get?_collect_eq_some_iff (hclear : heap.Unmarked) {roots : List Handle} {h : Handle}
    {o : Object} :
    (heap.collect roots).2.get? h = some o ↔
      heap.get? h = some o ∧ heap.Reaches (.nil :: roots) h := by
  rw [get?, get?, slot?_collect]
  constructor
  · intro ho
    split at ho
    · rename_i hmark
      obtain ⟨k, hk, hslot⟩ := (get_mark_iff hclear roots ho).mp hmark
      exact ⟨ho, Handle.eq_of_slot_eq hslot ▸ hk⟩
    · cases ho
  · rintro ⟨ho, hreach⟩
    rw [if_pos ((get_mark_iff hclear roots ho).mpr ⟨h, hreach, rfl⟩), ho]

/-- An object that is reached keeps its cell. -/
theorem cell_collect_of_reaches (hclear : heap.Unmarked) {roots : List Handle} {h : Handle} {o : Object}
    (ho : heap.get? h = some o) (hreach : heap.Reaches (.nil :: roots) h) :
    (heap.collect roots).2.cell h.slot = heap.cell h.slot := by
  rw [cell_collect, if_pos ((get_mark_iff hclear roots ho).mpr ⟨h, hreach, rfl⟩)]

end Heap

namespace Machine

variable {m m' : Machine} {o : Object} {hs : List Handle}

/-- The machine `m'` came from `m` by making room while `hs` were held: what `hs` and the roots lead to
is there as it was and in the same cells, and only objects and the log may have changed. -/
structure Spares (hs : List Handle) (m m' : Machine) : Prop where
  spared : ∀ {h o}, m.object? h = some o → m.heap.Reaches (.nil :: (hs ++ m.roots)) h →
    m'.object? h = some o ∧ m'.heap.cell h.slot = m.heap.cell h.slot
  unmarked : m'.heap.Unmarked
  capacity_eq : m'.heap.capacity = m.heap.capacity
  platform_eq : m'.heap.platform = m.heap.platform
  rest_eq : m' = { m with heap := m'.heap, events := m'.events }

theorem Spares.object?_eq {h : Handle} (hspares : Spares hs m m') (ho : m.object? h = some o)
    (hreach : m.heap.Reaches (.nil :: (hs ++ m.roots)) h) : m'.object? h = some o :=
  (hspares.spared ho hreach).1

/-! ## Collections -/

/-- A collection only changes objects and the log. -/
theorem run_collect (m : Machine) :
    ∃ events, collect m = .ok (m.heap.collect m.roots).1
      { m with heap := (m.heap.collect m.roots).2, events := events } := by
  obtain ⟨heap, registers, shadow, source, sink, tracing, events⟩ := m
  cases tracing <;> exact ⟨_, rfl⟩

/-- What is done under additional roots. -/
theorem run_withRoots_of_ok {α : Type} {act : Run α} {a : α} {m m' : Machine} {hs : List Handle}
    (hrun : act { m with shadow := hs ++ m.shadow } = .ok a m') :
    withRoots hs act m = .ok a { m' with shadow := m.shadow } := by
  have hbody : (root hs >>= fun _ => act).run m = act { m with shadow := hs ++ m.shadow } := rfl
  simp only [withRoots, keepingRoots, hbody, hrun]

theorem run_withRoots_of_error {α : Type} {act : Run α} {reason : Stop} {m m' : Machine} {hs : List Handle}
    (hrun : act { m with shadow := hs ++ m.shadow } = .error reason m') :
    withRoots hs act m = .error reason { m' with shadow := m.shadow } := by
  have hbody : (root hs >>= fun _ => act).run m = act { m with shadow := hs ++ m.shadow } := rfl
  simp only [withRoots, keepingRoots, hbody, hrun]

/-- A collection under additional roots only changes objects and the log. -/
theorem run_withRoots_collect (hs : List Handle) (m : Machine) :
    ∃ freed events, withRoots hs collect m = .ok freed
      { m with heap := (m.heap.collect (m.registers.roots ++ (hs ++ m.shadow))).2
               events := events } := by
  obtain ⟨events, hrun⟩ := run_collect { m with shadow := hs ++ m.shadow }
  exact ⟨(m.heap.collect (m.registers.roots ++ (hs ++ m.shadow))).1, events, run_withRoots_of_ok hrun⟩

/-- What is reached is spared by a collection. -/
theorem spares_collect (hclear : m.heap.Unmarked) (hs : List Handle) (events : Array Event) :
    Spares hs m
      { m with heap := (m.heap.collect (m.registers.roots ++ (hs ++ m.shadow))).2
               events := events } where
  spared {h o} ho hreach := by
    have hroots : m.heap.Reaches (.nil :: (m.registers.roots ++ (hs ++ m.shadow))) h := by
      refine hreach.mono fun k => ?_
      simp only [roots, List.mem_cons, List.mem_append]
      tauto
    exact ⟨(Heap.get?_collect_eq_some_iff hclear).mpr ⟨ho, hroots⟩,
      Heap.cell_collect_of_reaches hclear ho hroots⟩
  unmarked := hclear.collect _
  capacity_eq := Heap.capacity_collect _ _
  platform_eq := rfl
  rest_eq := rfl

/-! ## Allocations -/

theorem spares_refl (hclear : m.heap.Unmarked) : Spares hs m m where
  spared ho _ := ⟨ho, rfl⟩
  unmarked := hclear
  capacity_eq := rfl
  platform_eq := rfl
  rest_eq := rfl

/-- What is spared so far is still spared when an object is placed in an empty slot. -/
theorem Spares.place {i : ℕ} (h : Spares hs m m') (hfree : m'.heap.findFree? = some i)
    (hcap : m.heap.capacity ≤ 2 ^ 64) : Spares hs m { m' with heap := m'.heap.place i o } where
  spared {k _} ho hreach := by
    obtain ⟨hk, hcell⟩ := h.spared ho hreach
    have hcap' : m'.heap.capacity ≤ 2 ^ 64 := h.capacity_eq ▸ hcap
    have hne := Heap.ne_ofSlot_of_findFree? hfree hcap' (Option.isSome_of_eq_some hk)
    have hslot : i ≠ k.slot := by
      rintro rfl
      exact hne k.ofSlot_slot.symm
    rw [object?, Heap.get?_place hfree hcap', if_neg hne, Heap.cell_place_ne _ _ hslot]
    exact ⟨hk, hcell⟩
  unmarked := h.unmarked.place i o
  capacity_eq := (Heap.capacity_place _ _ _).trans h.capacity_eq
  platform_eq := h.platform_eq
  rest_eq := by rw [h.rest_eq]

section Allocate

variable {i : ℕ}

theorem run_tryAllocate_of_free (hfree : m.heap.findFree? = some i) :
    tryAllocate o m = .ok (some (.ofSlot i)) { m with heap := m.heap.place i o } := by
  simp only [tryAllocate, hfree]

theorem run_tryAllocate_of_full (hfull : m.heap.findFree? = none) :
    tryAllocate o m = .ok none m := by
  simp only [tryAllocate, hfull]

/-- If a slot is empty, an allocation takes it. -/
theorem run_allocate_of_free (hfree : m.heap.findFree? = some i) :
    allocate o m = .ok (.ofSlot i) { m with heap := m.heap.place i o } :=
  Run.run_bind_of_ok (run_tryAllocate_of_free hfree)

theorem passes_allocate_of_free (hfree : m.heap.findFree? = some i) (t : Moment) :
    (allocate o).passes m t ↔
      t = ⟨.uses o.references, m⟩ ∨ t = ⟨.changes m, { m with heap := m.heap.place i o }⟩ := by
  refine (Run.passes_bind_of_ok (run_tryAllocate_of_free hfree)).trans ?_
  simp only [tryAllocate, hfree, Option.some.injEq, exists_eq_left', Run.not_passes_pure, or_false]

/-- If the table is full, an allocation collects. -/
theorem passes_allocate_of_full (hfull : m.heap.findFree? = none) :
    (allocate o).passes m ⟨.collects, { m with shadow := o.references ++ m.shadow }⟩ := by
  refine (Run.passes_bind_of_ok (run_tryAllocate_of_full hfull)).mpr (.inr (.inl (.inl ?_)))
  exact (Run.passes_bind_of_ok rfl).mpr (.inr (.inl rfl))

/-- After the collection, an allocation takes a slot that is empty now, or fails. -/
theorem run_allocate_of_full (hfull : m.heap.findFree? = none) :
    ∃ events, let m' := { m with
        heap := (m.heap.collect (m.registers.roots ++ (o.references ++ m.shadow))).2, events := events }
      (∀ i, m'.heap.findFree? = some i →
        allocate o m = .ok (.ofSlot i) { m' with heap := m'.heap.place i o }) ∧
      (m'.heap.findFree? = none →
        allocate o m = .error (.fault (.exhausted m'.heap.capacity)) m' ∧
          (allocate o).passes m ⟨.stops (.fault (.exhausted m'.heap.capacity)), m'⟩) := by
  obtain ⟨freed, events, hcollect⟩ := run_withRoots_collect o.references m
  refine ⟨events, fun i hfree => ?_, fun hfull' => ⟨?_, ?_⟩⟩
  · exact (Run.run_bind_of_ok (run_tryAllocate_of_full hfull)).trans
      ((Run.run_bind_of_ok hcollect).trans (Run.run_bind_of_ok (run_tryAllocate_of_free hfree)))
  · exact (Run.run_bind_of_ok (run_tryAllocate_of_full hfull)).trans
      ((Run.run_bind_of_ok hcollect).trans (Run.run_bind_of_ok (run_tryAllocate_of_full hfull')))
  · refine (Run.passes_bind_of_ok (run_tryAllocate_of_full hfull)).mpr (.inr ?_)
    refine (Run.passes_bind_of_ok hcollect).mpr (.inr ?_)
    refine (Run.passes_bind_of_ok (run_tryAllocate_of_full hfull')).mpr (.inr ?_)
    exact (Run.passes_bind_of_ok rfl).mpr (.inr rfl)

/-- The object `o` was placed under the handle `h`, which is none of those reached. -/
structure Takes (o : Object) (m : Machine) (h : Handle) (m' : Machine) : Prop where
  spares : Spares o.references m m'
  object?_eq : m'.object? h = some o
  slot_lt : h.slot < m.heap.capacity
  fresh : ∀ {k}, m.heap.Reaches (.nil :: (o.references ++ m.roots)) k → (m.object? k).isSome → k ≠ h

/-- Every slot holds an object that `hs` and the roots lead to. -/
def Crowded (hs : List Handle) (m : Machine) : Prop :=
  ∀ i < m.heap.capacity, m.heap.Reaches (.nil :: (hs ++ m.roots)) (.ofSlot i) ∧
    (m.object? (.ofSlot i)).isSome

theorem Spares.takes (h : Spares o.references m m') (hfree : m'.heap.findFree? = some i)
    (hcap : m.heap.capacity ≤ 2 ^ 64) :
    Takes o m (.ofSlot i) { m' with heap := m'.heap.place i o } := by
  have hcap' : m'.heap.capacity ≤ 2 ^ 64 := h.capacity_eq ▸ hcap
  refine ⟨h.place hfree hcap, ?_, ?_, ?_⟩
  · rw [object?, Heap.get?_place hfree hcap', if_pos rfl]
  · have hi := (Heap.slot?_of_findFree? hfree).1
    rw [Handle.slot_ofSlot (by omega), ← h.capacity_eq]
    exact hi
  · intro k hreach hk
    obtain ⟨ok, hok⟩ := Option.isSome_iff_exists.mp hk
    exact Heap.ne_ofSlot_of_findFree? hfree hcap' (Option.isSome_of_eq_some (h.object?_eq hok hreach))

/-- A table that is full after a collection is full of objects that are reached. -/
theorem crowded_of_collect (hclear : m.heap.Unmarked) (hcap : m.heap.capacity ≤ 2 ^ 64)
    (hfull : (m.heap.collect (m.registers.roots ++ (hs ++ m.shadow))).2.findFree? = none) :
    Crowded hs m := by
  intro i hi
  have hsome := Heap.isSome_slot?_of_findFree? hfull ((Heap.capacity_collect _ _).symm ▸ hi)
  obtain ⟨o, ho⟩ := Option.isSome_iff_exists.mp hsome
  have hslot : (Handle.ofSlot i).slot = i := Handle.slot_ofSlot (by omega)
  have hget : (m.heap.collect (m.registers.roots ++ (hs ++ m.shadow))).2.get? (.ofSlot i) = some o := by
    rw [Heap.get?, hslot, ho]
  obtain ⟨hold, hreach⟩ := (Heap.get?_collect_eq_some_iff hclear).mp hget
  refine ⟨hreach.mono ?_, Option.isSome_iff_exists.mpr ⟨o, hold⟩⟩
  intro k
  simp only [roots, List.mem_cons, List.mem_append]
  tauto

/-- What an allocation does: it takes a slot, or it fails because none can be had. -/
theorem allocate_cases (o : Object) (hclear : m.heap.Unmarked) (hcap : m.heap.capacity ≤ 2 ^ 64) :
    (∃ h m', allocate o m = .ok h m' ∧ Takes o m h m') ∨
    Crowded o.references m ∧
      ∃ m', allocate o m = .error (.fault (.exhausted m.heap.capacity)) m' ∧ m'.sink = m.sink ∧
        (allocate o).passes m ⟨.stops (.fault (.exhausted m.heap.capacity)), m'⟩ := by
  cases hfind : m.heap.findFree? with
  | some i => exact .inl ⟨_, _, run_allocate_of_free hfind, (spares_refl hclear).takes hfind hcap⟩
  | none =>
    obtain ⟨events, hagain, hfail⟩ := run_allocate_of_full (o := o) hfind
    have hspare := spares_collect hclear o.references events
    cases hfind' : (m.heap.collect (m.registers.roots ++ (o.references ++ m.shadow))).2.findFree? with
    | some i => exact .inl ⟨_, _, hagain i hfind', hspare.takes hfind' hcap⟩
    | none =>
      obtain ⟨hrun, hpass⟩ := hfail hfind'
      rw [hspare.capacity_eq] at hrun hpass
      exact .inr ⟨crowded_of_collect hclear hcap hfind', _, hrun, rfl, hpass⟩

end Allocate

end Machine

end PushLisp
