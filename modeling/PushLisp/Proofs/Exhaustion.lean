import Mathlib.Algebra.Group.Nat.Defs
import PushLisp.Program
import PushLisp.Proofs.Persistence

/-!
# When the table is used up

An allocation looks for an empty slot. If there is none it collects, once, and looks again. It gives up
exactly if every slot holds an object that the roots or the new object lead to, so that no collection could
have helped. What is made up of several allocations may give up at any of them. It has then changed nothing
but objects that no root leads to.

## Main definitions

* `Heap.Regular`: a table as it is between operations.
* `Heap.Full`: a table without an empty slot.
* `Machine.Brink`: the machine on which an allocation places its object or gives up.
* `Machine.Fills`: how an allocation that finds a slot ends.
* `Machine.Withdraws`: an operation that changes nothing that is reached if it gives up.

## Main statements

* `Machine.exists_brink`: every allocation comes to such a machine.
* `Machine.allocate_exact`: when an allocation collects, when it fails and what it changes.
* `Machine.withdraws_push`, `Machine.withdraws_define`, `Machine.withdraws_intern`: operations that withdraw.
-/
namespace PushLisp

namespace Heap

variable {heap : Heap}

/-- A table as it is between operations: no slot is marked, and every slot has a handle. -/
structure Regular (heap : Heap) : Prop where
  unmarked : heap.Unmarked
  capacity_le : heap.capacity ≤ 2 ^ 64

/-- Every slot holds an object. -/
def Full (heap : Heap) : Prop := ∀ i < heap.capacity, (heap.slot? i).isSome

instance : Decidable heap.Full :=
  inferInstanceAs (Decidable (∀ i < heap.capacity, (heap.slot? i).isSome = true))

/-- The search for an empty slot fails only on a full table. -/
theorem findFree?_eq_none_iff_full : heap.findFree? = none ↔ heap.Full := by
  constructor
  · intro hfree i hi
    exact isSome_slot?_of_findFree? hfree hi
  · intro hfull
    by_contra hfree
    obtain ⟨i, hi⟩ := Option.ne_none_iff_exists'.mp hfree
    obtain ⟨hlt, hnone⟩ := slot?_of_findFree? hi
    have hsome := hfull i hlt
    simp [hnone] at hsome

end Heap

namespace Machine

variable {m n : Machine} {o : Object}

/-- On the way to placing an object on `m`, the machine is `n` when the last search for an empty slot
begins. It is `m` itself unless the table was full. -/
structure Brink (o : Object) (m n : Machine) : Prop where
  spares : Spares o.references m n
  collections_eq : n.heap.stats.collections = m.heap.stats.collections + if m.heap.Full then 1 else 0
  eq_of_not_full : ¬ m.heap.Full → n = m
  places : ∀ {i}, n.heap.findFree? = some i →
    allocate o m = .ok (.ofSlot i) { n with heap := n.heap.place i o } ∧
      (allocate o).passes m ⟨.changes n, { n with heap := n.heap.place i o }⟩
  gives_up : n.heap.findFree? = none →
    allocate o m = .error (.fault (.exhausted m.heap.capacity)) n ∧ Crowded o.references m

/-- Every allocation comes to the point where it places its object or gives up. -/
theorem exists_brink (hm : m.heap.Regular) (o : Object) : ∃ n, Brink o m n := by
  cases hfind : m.heap.findFree? with
  | some i =>
    have hroom : ¬ m.heap.Full := by simp [← Heap.findFree?_eq_none_iff_full, hfind]
    refine ⟨m, spares_refl hm.unmarked, by simp [hroom], fun _ => rfl, ?_, by simp [hfind]⟩
    intro j hj
    exact ⟨run_allocate_of_free hj, (passes_allocate_of_free hj _).mpr (.inr rfl)⟩
  | none =>
    have hfull := Heap.findFree?_eq_none_iff_full.mp hfind
    obtain ⟨freed, events, hcollect⟩ := run_withRoots_collect o.references m
    have hspares := spares_collect hm.unmarked o.references events
    refine ⟨_, hspares, by simp [hfull, Heap.collect], fun hroom => absurd hfull hroom, ?_, ?_⟩
    · intro i hi
      constructor
      · exact (Run.run_bind_of_ok (run_tryAllocate_of_full hfind)).trans
          ((Run.run_bind_of_ok hcollect).trans (Run.run_bind_of_ok (run_tryAllocate_of_free hi)))
      · refine (Run.passes_bind_of_ok (run_tryAllocate_of_full hfind)).mpr (.inr ?_)
        refine (Run.passes_bind_of_ok hcollect).mpr (.inr ?_)
        exact (Run.passes_bind_of_ok (run_tryAllocate_of_free hi)).mpr (.inl ⟨i, hi, .inr rfl⟩)
    · intro hnone
      refine ⟨?_, crowded_of_collect hm.unmarked hm.capacity_le hnone⟩
      rw [← hspares.capacity_eq]
      exact (Run.run_bind_of_ok (run_tryAllocate_of_full hfind)).trans
        ((Run.run_bind_of_ok hcollect).trans (Run.run_bind_of_ok (run_tryAllocate_of_full hnone)))

/-- An allocation begins a collection exactly if the table is full. -/
theorem collects_allocate_iff (m : Machine) (o : Object) :
    (∃ n, (allocate o).passes m ⟨.collects, n⟩) ↔ m.heap.Full := by
  rw [← Heap.findFree?_eq_none_iff_full]
  constructor
  · rintro ⟨n, hpass⟩
    by_contra hfree
    obtain ⟨i, hi⟩ := Option.ne_none_iff_exists'.mp hfree
    simp [passes_allocate_of_free hi] at hpass
  · intro hfull
    exact ⟨_, passes_allocate_of_full hfull⟩

/-- There is no slot to be had exactly if all are in use. -/
theorem Brink.findFree?_eq_none_iff (hbrink : Brink o m n) (hm : m.heap.Regular) :
    n.heap.findFree? = none ↔ Crowded o.references m := by
  constructor
  · intro hnone
    exact (hbrink.gives_up hnone).2
  · intro hcrowded
    by_contra hfree
    obtain ⟨i, hi⟩ := Option.ne_none_iff_exists'.mp hfree
    have hlt := (Heap.slot?_of_findFree? hi).1
    rw [hbrink.spares.capacity_eq] at hlt
    obtain ⟨hreach, hsome⟩ := hcrowded i hlt
    exact (hbrink.spares.takes hi hm.capacity_le).fresh hreach hsome rfl

theorem exists_run_allocate_of_crowded (hm : m.heap.Regular) (hcrowded : Crowded o.references m) :
    ∃ n, allocate o m = .error (.fault (.exhausted m.heap.capacity)) n := by
  obtain ⟨n, hbrink⟩ := exists_brink hm o
  exact ⟨n, (hbrink.gives_up ((hbrink.findFree?_eq_none_iff hm).mpr hcrowded)).1⟩

/-! ## Exactness -/

/-- On `m` an object was placed under the handle `h`, which left `m'`. The machine was `n` just before. -/
structure Fills (o : Object) (m n : Machine) (h : Handle) (m' : Machine) : Prop where
  passes : (allocate o).passes m ⟨.changes n, m'⟩
  slot_lt : h.slot < m.heap.capacity
  slot?_eq_none : n.heap.slot? h.slot = none
  after_eq : m' = { n with heap := n.heap.place h.slot o }
  object?_eq : m'.object? h = some o
  reached : ∀ {k o'}, m.heap.Reaches (.nil :: (o.references ++ m.roots)) k → m.object? k = some o' →
    m'.object? k = some o'
  others : ¬ m.heap.Full → ∀ i ≠ h.slot, m'.heap.slot? i = m.heap.slot? i

theorem Brink.fills {i : ℕ} (hbrink : Brink o m n) (hm : m.heap.Regular) (hi : n.heap.findFree? = some i) :
    Fills o m n (.ofSlot i) { n with heap := n.heap.place i o } := by
  have htakes := hbrink.spares.takes hi hm.capacity_le
  obtain ⟨hlt, hnone⟩ := Heap.slot?_of_findFree? hi
  have hslot : (Handle.ofSlot i).slot = i := by
    have hcap := hm.capacity_le
    rw [hbrink.spares.capacity_eq] at hlt
    exact Handle.slot_ofSlot (by omega)
  refine ⟨(hbrink.places hi).2, htakes.slot_lt, by rw [hslot, hnone], by rw [hslot], htakes.object?_eq,
    ?_, ?_⟩
  · intro k o' hreach ho'
    exact htakes.spares.object?_eq ho' hreach
  · intro hroom j hj
    rw [hslot] at hj
    rw [hbrink.eq_of_not_full hroom, Heap.slot?_place_ne _ _ (Ne.symm hj)]

/-- An allocation collects once if no slot is empty, and not at all otherwise. It fails exactly if every
slot holds an object that the roots or the new object lead to. Else the object is placed in a slot that is
empty just before, and all that the roots or the object lead to stays; without a collection no other slot
changes. -/
theorem allocate_exact (hm : m.heap.Regular) (o : Object) :
    ((∃ n, (allocate o).passes m ⟨.collects, n⟩) ↔ m.heap.Full) ∧
      (after (allocate o) m).heap.stats.collections =
        m.heap.stats.collections + (if m.heap.Full then 1 else 0) ∧
      ((∃ m', allocate o m = .error (.fault (.exhausted m.heap.capacity)) m') ↔ Crowded o.references m) ∧
      (¬ Crowded o.references m → ∃ n h m', allocate o m = .ok h m' ∧ Fills o m n h m') := by
  obtain ⟨n, hbrink⟩ := exists_brink hm o
  cases hfind : n.heap.findFree? with
  | some i =>
    obtain ⟨hrun, -⟩ := hbrink.places hfind
    have hfills := hbrink.fills hm hfind
    have hroom : ¬ Crowded o.references m := by simp [← hbrink.findFree?_eq_none_iff hm, hfind]
    refine ⟨collects_allocate_iff m o, ?_, by simp [hrun, hroom], fun _ => ⟨n, _, _, hrun, hfills⟩⟩
    simpa [after, hrun, Heap.place] using hbrink.collections_eq
  | none =>
    obtain ⟨hrun, hcrowded⟩ := hbrink.gives_up hfind
    refine ⟨collects_allocate_iff m o, ?_, by simp [hrun, hcrowded], fun hroom => absurd hcrowded hroom⟩
    simpa [after, hrun] using hbrink.collections_eq

/-! ## A full table -/

/-- A machine with a pair in each of its 256 slots but the first. Each pair leads to the one before. -/
def chained (stack : Handle) : Machine :=
  let m := blank 256 [] {} false {}
  { m with
    heap := { m.heap with
      slots := (Array.range 256).map fun i => some (if i = 0 then .nil else .pair .nil (.ofSlot (i - 1)))
      live := 256 }
    registers := { m.registers with stack := stack } }

theorem capacity_chained (stack : Handle) : (chained stack).heap.capacity = 256 := by
  simp [chained, Heap.capacity]

theorem regular_chained (stack : Handle) : (chained stack).heap.Regular := by
  constructor
  · rw [Heap.Unmarked, capacity_chained]
    rfl
  · rw [capacity_chained]
    decide

theorem object?_chained (stack : Handle) {i : ℕ} (hi : i < 256) :
    (chained stack).object? (.ofSlot i) = some (if i = 0 then .nil else .pair .nil (.ofSlot (i - 1))) := by
  have hslot : (Handle.ofSlot i).slot = i := Handle.slot_ofSlot (by omega)
  simp [object?, Heap.get?, hslot, Heap.slot?, chained, hi]

/-- From the last slot the whole table is reached. -/
theorem crowded_chained (hs : List Handle) : Crowded hs (chained (.ofSlot 255)) := by
  have hreach : ∀ j ≤ 255, (chained (.ofSlot 255)).heap.Reaches
      (.nil :: (hs ++ (chained (.ofSlot 255)).roots)) (.ofSlot (255 - j)) := by
    intro j
    induction j with
    | zero =>
      intro _
      exact .root (by simp [roots, Registers.roots, chained])
    | succ j ih =>
      intro hj
      refine (ih (by omega)).reference (object?_chained _ (by omega)) ?_
      rw [if_neg (by omega)]
      simp [Object.references, Nat.sub_sub]
  intro i hi
  rw [capacity_chained] at hi
  have hi' := hreach (255 - i) (by omega)
  rw [show 255 - (255 - i) = i by omega] at hi'
  exact ⟨hi', by simp [object?_chained _ hi]⟩

/-- From the empty list nothing else is reached. -/
theorem not_crowded_chained : ¬ Crowded [] (chained .nil) := by
  have hnil : ∀ {k}, (chained .nil).heap.Reaches (.nil :: ([] ++ (chained .nil).roots)) k → k = .nil := by
    intro k hk
    induction hk with
    | root hmem => simpa [roots, Registers.roots, chained, blank] using hmem
    | reference _ ho href ih =>
      subst ih
      have hfirst : (chained .nil).heap.get? .nil = some .nil := object?_chained _ (i := 0) (by decide)
      cases hfirst.symm.trans ho
      simp [Object.references] at href
  intro hcrowded
  have hfive := hnil (hcrowded 5 (by rw [capacity_chained]; decide)).1
  exact absurd hfive (by decide)

/-- With all pairs on the stack there is no room for a number. With an empty stack there is, once the table
has been cleared of the pairs. -/
theorem allocate_exact_chained : (∀ stack, (chained stack).heap.Regular) ∧ (chained .nil).heap.Full ∧
    (∃ m', allocate (.number 7) (chained (.ofSlot 255)) = .error (.fault (.exhausted 256)) m') ∧
    ∃ n h m', allocate (.number 7) (chained .nil) = .ok h m' ∧ Fills (.number 7) (chained .nil) n h m' := by
  refine ⟨regular_chained, ?_, ?_, ?_⟩
  · intro i hi
    rw [capacity_chained] at hi
    simp [Heap.slot?, chained, hi]
  · have hfails := (allocate_exact (regular_chained (.ofSlot 255)) (.number 7)).2.2.1.mpr
      (crowded_chained _)
    rwa [capacity_chained] at hfails
  · exact (allocate_exact (regular_chained .nil) (.number 7)).2.2.2 not_crowded_chained

/-! ## Operations that give up -/

section Withdraws

variable {α β : Type} {m' : Machine}

theorem Spares.regular {hs : List Handle} (hspares : Spares hs m m') (hm : m.heap.Regular) :
    m'.heap.Regular :=
  ⟨hspares.unmarked, hspares.capacity_eq ▸ hm.capacity_le⟩

/-- An operation that changes nothing but objects that no root leads to. -/
def Sparing (act : Run α) (m : Machine) : Prop := m.heap.Regular → Spares [] m (after act m)

/-- An operation that changes nothing but objects that no root leads to, if it does not answer. -/
def Withdraws (act : Run α) (m : Machine) : Prop :=
  m.heap.Regular → ∀ {reason m'}, act m = .error reason m' → Spares [] m m'

theorem Sparing.bind {x : Run α} {f : α → Run β} (hx : Sparing x m)
    (hf : ∀ {a m'}, x m = .ok a m' → Sparing (f a) m') : Sparing (x >>= f) m := by
  intro hm
  have hspares := hx hm
  cases hrun : x.run m with
  | ok a m' =>
    rw [after_of_ok hrun] at hspares
    rw [after_bind_of_ok hrun]
    exact hspares.trans (hf hrun (hspares.regular hm))
  | error reason m' =>
    rw [after_of_error hrun] at hspares
    rwa [after_bind_of_error hrun]

theorem Sparing.withdraws {act : Run α} (hact : Sparing act m) : Withdraws act m := by
  intro hm reason m' hrun
  have hspares := hact hm
  rwa [after_of_error hrun] at hspares

/-- An operation may go on after one that spares what is reached, and give up then. -/
theorem Sparing.bind_withdraws {x : Run α} {f : α → Run β} (hx : Sparing x m)
    (hf : ∀ {a m'}, x m = .ok a m' → Withdraws (f a) m') : Withdraws (x >>= f) m := by
  intro hm reason m'' hrun'
  have hspares := hx hm
  cases hrun : x.run m with
  | ok a m' =>
    rw [after_of_ok hrun] at hspares
    rw [Run.run_bind_of_ok hrun] at hrun'
    exact hspares.trans (hf hrun (hspares.regular hm) hrun')
  | error reason' m' =>
    rw [after_of_error hrun] at hspares
    rw [Run.run_bind_of_error hrun] at hrun'
    cases hrun'
    exact hspares

theorem withdraws_of_ok {act : Run α} {a : α} (hrun : act m = .ok a m') : Withdraws act m := by
  intro _ reason m'' herror
  simp [hrun] at herror

theorem sparing_of_after_eq {act : Run α} (hafter : after act m = m) : Sparing act m := by
  intro hm
  rw [hafter]
  exact spares_refl hm.unmarked

theorem sparing_allocate (o : Object) : Sparing (allocate o) m := by
  intro hm
  rcases allocate_spares o hm.unmarked hm.capacity_le with ⟨h, m', hrun, hplaced⟩ | ⟨m', hrun, hdenied⟩
  · rw [after_of_ok hrun]
    exact hplaced.spares.of_subset (List.nil_subset _)
  · rw [after_of_error hrun]
    exact hdenied.spares.of_subset (List.nil_subset _)

theorem Sparing.withRoots {hs : List Handle} {act : Run α}
    (hact : Sparing act { m with shadow := hs ++ m.shadow }) : Sparing (withRoots hs act) m := by
  intro hm
  have hspares := hact hm
  have hafter : after (Machine.withRoots hs act) m =
      { after act { m with shadow := hs ++ m.shadow } with shadow := m.shadow } :=
    after_keepingRoots _ m
  rw [hafter]
  refine ⟨fun ho hreach => hspares.spared ho (hreach.mono ?_), hspares.unmarked, hspares.capacity_eq,
    hspares.platform_eq, ?_⟩
  · intro k
    simp only [roots, List.mem_cons, List.mem_append]
    tauto
  · rw [hspares.rest_eq]

theorem sparing_makeList (values : List Handle) : Sparing (makeList values) m := by
  have hcons : ∀ {m} (list : Handle) (values : List Handle), Sparing (consAll list values) m := by
    intro m list values
    induction values generalizing list m with
    | nil => exact sparing_of_after_eq rfl
    | cons v values ih => exact (sparing_allocate _).bind fun _ => ih _
  exact Sparing.withRoots (hcons _ _)

theorem withdraws_getRegisters {f : Registers → Run α} (hf : Withdraws (f m.registers) m) :
    Withdraws (getRegisters >>= f) m := by
  intro hm reason m' hrun
  rw [Run.run_bind_of_ok (show getRegisters.run m = .ok m.registers m from rfl)] at hrun
  exact hf hm hrun

theorem withdraws_push (value : Handle) : Withdraws (push value) m := by
  apply withdraws_getRegisters
  exact (sparing_allocate _).bind_withdraws fun _ => withdraws_of_ok rfl

theorem withdraws_pushNumber (n : Int64) : Withdraws (pushNumber n) m :=
  (sparing_allocate _).bind_withdraws fun _ => withdraws_push _

theorem withdraws_define (env key value : Handle) : Withdraws (define env key value) m :=
  (Sparing.withRoots (sparing_allocate _)).bind_withdraws fun _ => (sparing_allocate _).withdraws

theorem withdraws_intern (spelling : Bytes) : Withdraws (intern spelling) m := by
  refine (sparing_of_after_eq (after_ask _ m)).bind_withdraws fun {found m'} _ => ?_
  cases found with
  | some atom => exact withdraws_of_ok rfl
  | none =>
    refine (sparing_allocate _).bind_withdraws fun _ => ?_
    apply withdraws_getRegisters
    exact (sparing_allocate _).bind_withdraws fun _ => withdraws_of_ok rfl

end Withdraws

end Machine

end PushLisp
