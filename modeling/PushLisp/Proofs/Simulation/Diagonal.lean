import PushLisp.Proofs.Allocation
import PushLisp.Proofs.Simulation.Evaluator

/-!
# A run compared with itself

The simplest simulation relates a machine to itself, apart from the roots held and the log. What it
relates are the handles that name objects, so that agreement says of each operation that it leads from
handles that name objects to such handles only. Two variants are needed. If collections are let pass,
both runs must hold the same roots. If they are not, the runs may hold different roots, and are excused
once both have begun to collect.

## Main definitions

* `Machine.Live`, `Machine.Sound`, `Machine.Intact`: nothing on a machine names an empty slot.
* `Moment.Sound`: the same of a moment.
* `Simulation.diagonal`: the simulation.

## Main statements

* `Simulation.lawful_diagonal`: it obeys the laws.
-/
namespace PushLisp

/-! ## Objects and registers with equal references -/

namespace Object.Alike

variable {R R' : Handle → Handle → Prop} {o o₁ o₂ : Object}

/-- Objects that differ in equal references do not differ. -/
theorem eq (hR : ∀ {h k}, R h k → h = k) (halike : o₁.Alike R o₂) : o₁ = o₂ := by
  cases halike with
  | pair hcar hcdr => rw [hR hcar, hR hcdr]
  | closure hbody henv => rw [hR hbody, hR henv]
  | _ => rfl

/-- Whether an object is like itself depends on its references. -/
theorem of_references (halike : o.Alike R o) (h : ∀ k ∈ o.references, R' k k) : o.Alike R' o := by
  cases halike with
  | nil => exact .nil
  | atom s => exact .atom s
  | number n => exact .number n
  | pair => exact .pair (h _ (by simp [Object.references])) (h _ (by simp [Object.references]))
  | closure => exact .closure (h _ (by simp [Object.references])) (h _ (by simp [Object.references]))
  | primitive hraw => exact .primitive hraw
  | string b => exact .string b

end Object.Alike

namespace Registers.Alike

variable {R : Handle → Handle → Prop} {r r₁ r₂ : Registers}

/-- State blocks with equal roots are equal if the other two words are. -/
theorem eq (hR : ∀ {h k}, R h k → h = k) (h : r₁.Alike R r₂) (hslots : r₁.slots = r₂.slots)
    (hcapacity : r₁.capacity = r₂.capacity) : r₁ = r₂ := by
  cases r₁
  cases r₂
  rw [Registers.mk.injEq]
  exact ⟨hR h.nil, hR h.readQueue, hR h.registry, hR h.atomTrue, hR h.atomQuote, hR h.atomPush,
    hR h.atomPop, hR h.stack, hR h.env, hR h.program, hslots, hcapacity⟩

/-- Whether a state block is like itself depends on its roots. -/
theorem of_roots (h : ∀ k ∈ r.roots, R k k) : r.Alike R r :=
  alike_iff.mpr (List.forall₂_same.mpr h)

end Registers.Alike

/-! ## Sound machines -/

namespace Machine

/-- Whether a handle names an object. -/
def Live (m : Machine) (h : Handle) : Prop := (m.object? h).isSome

/-- Handles that are the same and name an object. -/
def Shared (m : Machine) (h k : Handle) : Prop := h = k ∧ m.Live h

/-- Nothing on a machine names an empty slot, the roots held by operations apart, and nothing has raw
access to memory. -/
structure Sound (m : Machine) : Prop where
  nil_eq : m.registers.nil = .nil
  object?_nil : m.object? .nil = some .nil
  unmarked : m.heap.Unmarked
  capacity_le : m.heap.capacity ≤ 2 ^ 64
  cells : ∀ {h o}, m.object? h = some o → o.Alike m.Shared o
  registers : m.registers.Alike m.Shared m.registers

variable {m m' : Machine}

/-- Lists of shared handles are equal lists of live handles. -/
theorem eq_and_live_of_forall₂ {hs₁ hs₂ : List Handle} (h : List.Forall₂ m.Shared hs₁ hs₂) :
    hs₁ = hs₂ ∧ ∀ k ∈ hs₁, m.Live k := by
  induction h with
  | nil => simp
  | cons hk _ ih =>
    obtain ⟨rfl, hlive⟩ := hk
    obtain ⟨rfl, ih⟩ := ih
    exact ⟨rfl, by simpa using ⟨hlive, ih⟩⟩

/-- Soundness is a matter of objects and registers. -/
theorem Sound.of_eq (h : m.Sound) (hheap : m'.heap = m.heap) (hregs : m'.registers = m.registers) :
    m'.Sound := by
  obtain ⟨heap, registers, shadow, source, sink, tracing, events⟩ := m
  obtain ⟨heap', registers', shadow', source', sink', tracing', events'⟩ := m'
  cases hheap
  cases hregs
  exact ⟨h.nil_eq, h.object?_nil, h.unmarked, h.capacity_le, h.cells, h.registers⟩

/-- The references of an object on a sound machine name objects. -/
theorem Sound.live_of_mem_references (h : m.Sound) {k k' : Handle} {o : Object}
    (ho : m.object? k = some o) (hk : k' ∈ o.references) : m.Live k' :=
  (eq_and_live_of_forall₂ (h.cells ho).references).2 k' hk

/-- The registers of a sound machine name objects. -/
theorem Sound.live_of_mem_roots (h : m.Sound) {k : Handle} (hk : k ∈ m.registers.roots) : m.Live k :=
  (eq_and_live_of_forall₂ (Registers.alike_iff.mp h.registers)).2 k hk

theorem Sound.live_nil (h : m.Sound) : m.Live .nil := by
  rw [Live, h.object?_nil]
  rfl

/-! ## What keeps a machine sound -/

/-- An allocation makes its handle live, and leaves live what was. -/
theorem Sound.live_place (h : m.Sound) {i : ℕ} (hfree : m.heap.findFree? = some i) (o : Object)
    {k : Handle} (hk : k = .ofSlot i ∨ m.Live k) : Live { m with heap := m.heap.place i o } k := by
  simp only [Live, object?, Heap.get?_place hfree h.capacity_le o]
  split
  · rfl
  · rename_i hne
    exact hk.resolve_left hne

/-- A new object may refer to live objects. -/
theorem Sound.place (h : m.Sound) {i : ℕ} {o : Object} (hfree : m.heap.findFree? = some i)
    (ho : o.Alike m.Shared o) : Sound { m with heap := m.heap.place i o } := by
  have hget := Heap.get?_place hfree h.capacity_le o
  have hnone := Heap.get?_ofSlot_of_findFree? hfree h.capacity_le
  have hlive : ∀ {k}, m.Live k → Live { m with heap := m.heap.place i o } k := fun hk =>
    h.live_place hfree o (.inr hk)
  have hshared : ∀ k k', m.Shared k k' → Shared { m with heap := m.heap.place i o } k k' :=
    fun _ _ hk => ⟨hk.1, hlive hk.2⟩
  have hnil : Handle.nil ≠ .ofSlot i := by
    intro heq
    have hobject := h.object?_nil
    rw [heq, object?, hnone] at hobject
    cases hobject
  have hregs : m.registers.Alike (Shared { m with heap := m.heap.place i o }) m.registers :=
    .of_roots fun k hk => ⟨rfl, hlive (h.live_of_mem_roots hk)⟩
  refine ⟨h.nil_eq, ?_, h.unmarked.place i o, ?_, ?_, hregs⟩
  · simp only [object?, hget, if_neg hnil]
    exact h.object?_nil
  · rw [Heap.capacity_place]
    exact h.capacity_le
  · intro k o' ho'
    simp only [object?, hget] at ho'
    split at ho'
    · cases ho'
      exact ho.mono hshared
    · exact (h.cells ho').mono hshared

/-- A collection leaves what is live and reached. -/
theorem live_collect (hclear : m.heap.Unmarked) {k : Handle} (hk : m.Live k)
    (hreach : m.heap.Reaches (.nil :: m.roots) k) :
    Live { m with heap := (m.heap.collect m.roots).2 } k := by
  obtain ⟨o, ho⟩ := Option.isSome_iff_exists.mp hk
  exact Option.isSome_iff_exists.mpr ⟨o, (Heap.get?_collect_eq_some_iff hclear).mpr ⟨ho, hreach⟩⟩

/-- A collection leaves no reference behind that names an emptied slot. -/
theorem Sound.collect (h : m.Sound) : Sound { m with heap := (m.heap.collect m.roots).2 } := by
  refine ⟨h.nil_eq, ?_, h.unmarked.collect _, ?_, ?_, ?_⟩
  · exact (Heap.get?_collect_eq_some_iff h.unmarked).mpr ⟨h.object?_nil, .root (by simp)⟩
  · rw [Heap.capacity_collect]
    exact h.capacity_le
  · intro k o ho
    obtain ⟨hold, hreach⟩ := (Heap.get?_collect_eq_some_iff h.unmarked).mp ho
    refine (h.cells hold).of_references fun k' hk' => ⟨rfl, ?_⟩
    exact live_collect h.unmarked (h.live_of_mem_references hold hk') (.reference hreach hold hk')
  · refine .of_roots fun k hk => ⟨rfl, ?_⟩
    exact live_collect h.unmarked (h.live_of_mem_roots hk) (.root (by simp [roots, hk]))

/-- The bytes of a string may be overwritten. -/
theorem Sound.putString (h : m.Sound) {k : Handle} {bytes : Array UInt8} (bytes' : Array UInt8)
    (hk : m.object? k = some (.string (.owned bytes))) :
    Live { m with heap := m.heap.put k (.string (.owned bytes')) } = m.Live ∧
      Sound { m with heap := m.heap.put k (.string (.owned bytes')) } := by
  have hget := Heap.get?_put hk (.string (.owned bytes'))
  have hlive : Live { m with heap := m.heap.put k (.string (.owned bytes')) } = m.Live := by
    funext k'
    simp only [Live, object?, hget]
    split
    · rename_i heq
      subst heq
      simp only [object?] at hk
      simp [hk]
    · rfl
  have hshared : Shared { m with heap := m.heap.put k (.string (.owned bytes')) } = m.Shared := by
    funext k₁ k₂
    rw [Shared, Shared, hlive]
  have hnil : Handle.nil ≠ k := by
    rintro rfl
    rw [h.object?_nil] at hk
    cases hk
  refine ⟨hlive, h.nil_eq, ?_, h.unmarked.modify k _, ?_, ?_, ?_⟩
  · simp only [object?, hget, if_neg hnil]
    exact h.object?_nil
  · rw [Heap.put, Heap.capacity_modify]
    exact h.capacity_le
  · intro k' o ho
    rw [hshared]
    simp only [object?, hget] at ho
    split at ho
    · cases ho
      exact .string bytes'
    · exact h.cells ho
  · rw [hshared]
    exact h.registers

/-- A blank machine is sound. -/
theorem sound_blank {slots : ℕ} (hslots : slots ≤ 2 ^ 64) (source : Bytes) (sink : Sink)
    (tracing : Bool) (platform : Platform) : (blank slots source sink tracing platform).Sound := by
  have hnil : (blank slots source sink tracing platform).object? .nil = some .nil :=
    Heap.slot?_new_zero slots platform
  have hheap : (blank slots source sink tracing platform).heap = Heap.new slots platform := rfl
  have hlive : (blank slots source sink tracing platform).Live .nil := by
    rw [Live, hnil]
    rfl
  refine ⟨rfl, hnil, ?_, ?_, ?_, ?_⟩
  · rw [Heap.Unmarked, hheap, Heap.capacity_new]
    rfl
  · rw [hheap, Heap.capacity_new, Heap.minSlots]
    omega
  · intro h o ho
    have hslot : h.slot = 0 := by
      by_contra hne
      rw [object?, Heap.get?, hheap, Heap.slot?_new_of_ne hne] at ho
      cases ho
    have hzero : h = .nil := Handle.eq_of_slot_eq hslot
    rw [hzero, hnil] at ho
    cases ho
    exact .nil
  · exact .of_roots fun k hk => by
      simp only [Registers.roots, blank, List.mem_cons, List.not_mem_nil, or_false, or_self] at hk
      subst hk
      exact ⟨rfl, hlive⟩

end Machine

/-! ## Sound moments -/

/-- What happens at a moment happens to objects, and complains about none that is absent. -/
def Step.Sound (m : Machine) : Step → Prop
  | .uses hs => ∀ h ∈ hs, m.Live h
  | .prints h => m.Live h
  | .stops reason => reason.Tame
  | _ => True

/-- Nothing on a machine names an empty slot, the roots held by operations included. -/
structure Machine.Intact (m : Machine) : Prop where
  sound : m.Sound
  shadow : ∀ h ∈ m.shadow, m.Live h

/-- Nothing at a moment of a run names an empty slot. -/
structure Moment.Sound (t : Moment) : Prop where
  machine : t.machine.Intact
  step : t.step.Sound t.machine

/-! ## The simulation -/

namespace Simulation

open Machine

/-- Handles paired with themselves. -/
def doubled (hs : List Handle) : Held := hs.map fun h => (h, h)

@[simp] theorem map_fst_doubled (hs : List Handle) : (doubled hs).map Prod.fst = hs := by
  simp [doubled, Function.comp_def]

@[simp] theorem map_snd_doubled (hs : List Handle) : (doubled hs).map Prod.snd = hs := by
  simp [doubled, Function.comp_def]

theorem forall_mem_doubled {hs : List Handle} {P : Handle × Handle → Prop} :
    (∀ p ∈ doubled hs, P p) ↔ ∀ h ∈ hs, P (h, h) := by
  simp [doubled]

/-- A sound machine and the same machine, which may hold other roots and have another log. -/
structure Twins (w : Handle → Prop) (m₁ m₂ : Machine) : Prop where
  live : w = m₁.Live
  sound : m₁.Sound
  same : m₂ = { m₁ with shadow := m₂.shadow, events := m₂.events }

/-- Compares a machine with itself. If collections are let pass the runs are never excused, else they
are once both have begun to collect. -/
def diagonal (collecting : Bool) : Simulation where
  World := Handle → Prop
  handle w h k := h = k ∧ w h
  core := Twins
  moving := collecting = true
  excuses T₁ T₂ := collecting = false ∧ (∃ m, T₁.passes ⟨.collects, m⟩) ∧
    ∃ m, T₂.passes ⟨.collects, m⟩
  excuses_mono hle₁ hle₂ h :=
    ⟨h.1, h.2.1.imp fun _ => hle₁.passes _, h.2.2.imp fun _ => hle₂.passes _⟩
  sees₁ t := t.Sound ∧ (collecting = false → t.step ≠ .collects)
  sees₂ t := t.Sound ∧ (collecting = false → t.step ≠ .collects)

variable {collecting : Bool} {Γ : Held} {w : Handle → Prop} {m₁ m₂ : Machine} {o₁ o₂ : Object}

/-- Handles that correspond are shared by the two machines. -/
theorem Twins.handle_eq (h : Twins w m₁ m₂) : (diagonal collecting).handle w = m₁.Shared := by
  rw [h.live]
  rfl

theorem Twins.heap_eq (h : Twins w m₁ m₂) : m₂.heap = m₁.heap := by rw [h.same]

theorem Twins.registers_eq (h : Twins w m₁ m₂) : m₂.registers = m₁.registers := by rw [h.same]

theorem Twins.object?_eq (h : Twins w m₁ m₂) (k : Handle) : m₂.object? k = m₁.object? k := by
  rw [object?, object?, h.heap_eq]

theorem Twins.sound₂ (h : Twins w m₁ m₂) : m₂.Sound := h.sound.of_eq h.heap_eq h.registers_eq

theorem Twins.live_eq (h : Twins w m₁ m₂) : m₂.Live = m₁.Live := by
  funext k
  rw [Live, Live, h.object?_eq]

/-- Live handles may be put into the registers. -/
theorem Twins.setRegisters {r : Registers} (h : Twins w m₁ m₂) (hr : r.Alike m₁.Shared r)
    (hnil : r.nil = m₁.registers.nil) :
    Twins w { m₁ with registers := r } { m₂ with registers := r } := by
  refine ⟨h.live, ?_, by rw [h.same]⟩
  obtain ⟨hnil_eq, hobject, hclear, hcap, hcells, -⟩ := h.sound
  exact ⟨hnil.trans hnil_eq, hobject, hclear, hcap, hcells, hr⟩

theorem Twins.setRegistry {r₁ r₂ : Handle} (h : Twins w m₁ m₂)
    (hr : (diagonal collecting).handle w r₁ r₂) :
    Twins w { m₁ with registers := { m₁.registers with registry := r₁ } }
      { m₂ with registers := { m₂.registers with registry := r₂ } } := by
  obtain rfl := hr.1
  rw [h.registers_eq]
  rw [h.handle_eq] at hr
  exact h.setRegisters { h.sound.registers with registry := hr } rfl

theorem Twins.setStack {s₁ s₂ : Handle} (h : Twins w m₁ m₂)
    (hs : (diagonal collecting).handle w s₁ s₂) :
    Twins w { m₁ with registers := { m₁.registers with stack := s₁ } }
      { m₂ with registers := { m₂.registers with stack := s₂ } } := by
  obtain rfl := hs.1
  rw [h.registers_eq]
  rw [h.handle_eq] at hs
  exact h.setRegisters { h.sound.registers with stack := hs } rfl

/-- Corresponding machines are intact. -/
theorem Rel.intact (hrel : (diagonal collecting).Rel Γ w m₁ m₂) : m₁.Intact ∧ m₂.Intact := by
  have hcore : Twins w m₁ m₂ := hrel.core
  obtain ⟨⟨hsub₁, hsub₂⟩, -⟩ := hrel.tied
  refine ⟨⟨hcore.sound, fun h hh => ?_⟩, hcore.sound₂, fun h hh => ?_⟩
  · obtain ⟨p, hp, rfl⟩ := List.mem_map.mp (hsub₁ hh)
    exact hcore.live ▸ (hrel.held p hp).2
  · obtain ⟨p, hp, rfl⟩ := List.mem_map.mp (hsub₂ hh)
    obtain ⟨heq, hw⟩ := hrel.held p hp
    rw [hcore.live_eq, ← hcore.live, ← heq]
    exact hw

/-- An intact machine corresponds to itself, with the roots that it holds. -/
theorem rel_self {m : Machine} (h : m.Intact) :
    (diagonal collecting).Rel (doubled m.shadow) m.Live m m := by
  refine ⟨⟨rfl, h.sound, rfl⟩, ?_, ?_⟩
  · rw [Tied, map_fst_doubled, map_snd_doubled]
    exact ⟨⟨List.Subset.refl _, List.Subset.refl _⟩, fun _ => ⟨rfl, rfl⟩⟩
  · exact forall_mem_doubled.mpr fun k hk => ⟨rfl, h.shadow k hk⟩

/-- The steps of corresponding runs are sound. -/
theorem diagonal_sees {s₁ s₂ : Step} (hrel : (diagonal collecting).Rel Γ w m₁ m₂)
    (hstep : Step.Alike ((diagonal collecting).handle w) s₁ s₂) :
    (diagonal collecting).sees₁ ⟨s₁, m₁⟩ ∧ (diagonal collecting).sees₂ ⟨s₂, m₂⟩ := by
  have hcore : Twins w m₁ m₂ := hrel.core
  obtain ⟨hintact₁, hintact₂⟩ := hrel.intact
  rw [hcore.handle_eq] at hstep
  have hsteps : s₁.Sound m₁ ∧ s₂.Sound m₂ ∧ s₁ ≠ .collects ∧ s₂ ≠ .collects := by
    cases hstep with
    | changes => exact ⟨trivial, trivial, nofun, nofun⟩
    | uses h =>
      obtain ⟨rfl, hlive⟩ := eq_and_live_of_forall₂ h
      refine ⟨hlive, ?_, nofun, nofun⟩
      rw [Step.Sound, hcore.live_eq]
      exact hlive
    | prints h =>
      obtain ⟨rfl, hlive⟩ := h
      refine ⟨hlive, ?_, nofun, nofun⟩
      rw [Step.Sound, hcore.live_eq]
      exact hlive
    | stops h => exact ⟨h, h, nofun, nofun⟩
    | performs | iterates | replaces | releases => exact ⟨trivial, trivial, nofun, nofun⟩
  exact ⟨⟨⟨hintact₁, hsteps.1⟩, fun _ => hsteps.2.2.1⟩, ⟨hintact₂, hsteps.2.1⟩, fun _ => hsteps.2.2.2⟩

theorem coherent_diagonal (collecting : Bool) : (diagonal collecting).Coherent where
  nil hcore := ⟨rfl, hcore.live ▸ hcore.sound.live_nil⟩
  same := by
    rintro w m₁ m₂ h₁ _ k₁ _ - ⟨rfl, -⟩ ⟨rfl, -⟩
    exact Iff.rfl
  object := by
    rintro w m₁ m₂ h _ hcore ⟨rfl, hlive⟩
    rw [hcore.live] at hlive
    obtain ⟨o, ho⟩ := Option.isSome_iff_exists.mp hlive
    refine ⟨o, o, ho, (hcore.object?_eq h).trans ho, ?_⟩
    rw [hcore.handle_eq]
    exact hcore.sound.cells ho
  registers {w m₁ m₂} hcore := by
    rw [hcore.registers_eq]
    show m₁.registers.Alike ((diagonal collecting).handle w) m₁.registers
    rw [hcore.handle_eq]
    exact hcore.sound.registers
  source hcore := by rw [hcore.same]
  tracing hcore := by rw [hcore.same]
  flushFails hcore := by rw [hcore.same]
  grants hcore := by rw [hcore.same]
  setRegisters := by
    intro w m₁ m₂ r₁ r₂ hcore hr hfix₁ hfix₂
    have hregs := hcore.registers_eq
    have heq : r₁ = r₂ := hr.eq (fun h => h.1)
      (hfix₁.2.1.trans (hfix₂.2.1.trans (congrArg Registers.slots hregs)).symm)
      (hfix₁.2.2.1.trans (hfix₂.2.2.1.trans (congrArg Registers.capacity hregs)).symm)
    subst heq
    change r₁.Alike ((diagonal collecting).handle w) r₁ at hr
    rw [hcore.handle_eq] at hr
    exact hcore.setRegisters hr hfix₁.1
  setSource := by
    intro w m₁ m₂ source hcore
    exact ⟨hcore.live, hcore.sound.of_eq rfl rfl, by rw [hcore.same]⟩
  setShadow := by
    intro w m₁ m₂ shadow₁ shadow₂ hcore
    exact ⟨hcore.live, hcore.sound.of_eq rfl rfl, by rw [hcore.same]⟩
  setEvents := by
    intro w m₁ m₂ events₁ events₂ hcore
    exact ⟨hcore.live, hcore.sound.of_eq rfl rfl, by rw [hcore.same]⟩
  putString := by
    rintro w m₁ m₂ h _ bytes bytes' hcore ⟨rfl, -⟩ ho₁ - -
    obtain ⟨hlive, hsound⟩ := hcore.sound.putString bytes' ho₁
    exact ⟨hcore.live.trans hlive.symm, hsound, by rw [hcore.same]⟩
  sees := diagonal_sees

/-! ## Moving objects -/

/-- A new object is placed in the same slot by both runs, if a slot is empty. -/
theorem diagonal_tryAllocate (hrel : (diagonal collecting).Rel Γ w m₁ m₂)
    (ho : o₁.Alike ((diagonal collecting).handle w) o₂) :
    (diagonal collecting).Agree Γ
      (fun w' a b => Option.Rel ((diagonal collecting).handle w') a b ∧
        o₁.Alike ((diagonal collecting).handle w') o₂)
      (tryAllocate o₁) m₁ (tryAllocate o₂) m₂ := by
  have L := coherent_diagonal collecting
  have hcore : Twins w m₁ m₂ := hrel.core
  obtain rfl : o₁ = o₂ := ho.eq fun h => h.1
  cases hfind : m₁.heap.findFree? with
  | none =>
    have hfind₂ : m₂.heap.findFree? = none := hcore.heap_eq ▸ hfind
    refine agree_of_ok (run_tryAllocate_of_full hfind) (run_tryAllocate_of_full hfind₂) ?_ ?_ rfl hrel
      ⟨.none, ho⟩
    · rintro t ⟨i, hi, -⟩
      rw [hfind] at hi
      cases hi
    · rintro t ⟨i, hi, -⟩
      rw [hfind₂] at hi
      cases hi
  | some i =>
    have hfind₂ : m₂.heap.findFree? = some i := hcore.heap_eq ▸ hfind
    have hmono : ∀ h k, (diagonal collecting).handle w h k →
        (diagonal collecting).handle (Live { m₁ with heap := m₁.heap.place i o₁ }) h k := by
      rintro h _ ⟨rfl, hh⟩
      rw [hcore.live] at hh
      exact ⟨rfl, hcore.sound.live_place hfind o₁ (.inr hh)⟩
    have hrel' : (diagonal collecting).Rel Γ (Live { m₁ with heap := m₁.heap.place i o₁ })
        { m₁ with heap := m₁.heap.place i o₁ } { m₂ with heap := m₂.heap.place i o₁ } := by
      refine ⟨⟨rfl, hcore.sound.place hfind (hcore.handle_eq ▸ ho), ?_⟩, hrel.tied, ?_⟩
      · rw [hcore.same]
      · exact fun p hp => hmono _ _ (hrel.held p hp)
    obtain ⟨huses₁, huses₂⟩ := L.sees hrel (.uses ho.references)
    obtain ⟨hnew₁, hnew₂⟩ := L.sees_changes hrel'
    refine agree_of_ok (run_tryAllocate_of_free hfind) (run_tryAllocate_of_free hfind₂) ?_ ?_ rfl hrel'
      ⟨.some ⟨rfl, hcore.sound.live_place hfind o₁ (.inl rfl)⟩, ho.mono hmono⟩
    · rintro t ⟨j, hj, ht⟩
      rw [hfind] at hj
      cases hj
      rcases ht with rfl | rfl
      · exact huses₁
      · exact hnew₁ _ _ rfl
    · rintro t ⟨j, hj, ht⟩
      rw [hfind₂] at hj
      cases hj
      rcases ht with rfl | rfl
      · exact huses₂
      · exact hnew₂ _ _ rfl

/-- Where collections are let pass, the runs hold the same roots. -/
theorem diagonal_roots (hrel : (diagonal true).Rel Γ w m₁ m₂) : m₂.roots = m₁.roots := by
  obtain ⟨h₁, h₂⟩ := hrel.tied.2 rfl
  have hshadow : m₂.shadow = m₁.shadow := by
    rw [h₁, h₂]
    exact List.map_congr_left fun p hp => (hrel.held p hp).1.symm
  have hcore : Twins w m₁ m₂ := hrel.core
  rw [roots, roots, hcore.registers_eq, hshadow]

/-- A collection leaves corresponding machines in correspondence. -/
theorem diagonal_rel_collect (hrel : (diagonal true).Rel Γ w m₁ m₂) :
    (diagonal true).Rel Γ (Live { m₁ with heap := (m₁.heap.collect m₁.roots).2 })
      { m₁ with heap := (m₁.heap.collect m₁.roots).2 }
      { m₂ with heap := (m₂.heap.collect m₂.roots).2 } := by
  have hcore : Twins w m₁ m₂ := hrel.core
  refine ⟨⟨rfl, hcore.sound.collect, ?_⟩, hrel.tied, ?_⟩
  · rw [diagonal_roots hrel, hcore.heap_eq, hcore.same]
  · intro p hp
    obtain ⟨heq, hlive⟩ := hrel.held p hp
    rw [hcore.live] at hlive
    refine ⟨heq, live_collect hcore.sound.unmarked hlive (.root ?_)⟩
    have hmem : p.1 ∈ m₁.shadow := (hrel.tied.2 rfl).1 ▸ List.mem_map_of_mem hp
    simp [roots, hmem]

theorem diagonal_collect (hrel : (diagonal collecting).Rel Γ w m₁ m₂) :
    (diagonal collecting).Agree Γ (diagonal collecting).anything collect m₁ collect m₂ := by
  cases collecting with
  | false => exact .inl ⟨rfl, ⟨m₁, .inl rfl⟩, m₂, .inl rfl⟩
  | true =>
    have L := coherent_diagonal true
    obtain ⟨hintact₁, hintact₂⟩ := hrel.intact
    refine agree_bind_of_ok rfl rfl ?_ ?_ ?_
    · rintro t rfl
      exact ⟨⟨hintact₁, trivial⟩, nofun⟩
    · rintro t rfl
      exact ⟨⟨hintact₂, trivial⟩, nofun⟩
    · have hrel' := diagonal_rel_collect hrel
      refine agree_modifyGet L hrel' (agree_get ?_)
      exact (agree_note L _ _ hrel').bind fun hrel _ => agree_pure hrel rfl trivial

/-- What a new object refers to survives while room is made for it. -/
theorem diagonal_allocate (hrel : (diagonal collecting).Rel Γ w m₁ m₂)
    (ho : o₁.Alike ((diagonal collecting).handle w) o₂) :
    (diagonal collecting).Agree Γ
      (fun w' h₁ h₂ => (diagonal collecting).handle w' h₁ h₂ ∧
        o₁.Alike ((diagonal collecting).handle w') o₂)
      (allocate o₁) m₁ (allocate o₂) m₂ := by
  have L := coherent_diagonal collecting
  obtain rfl : o₁ = o₂ := ho.eq fun h => h.1
  refine (diagonal_tryAllocate hrel ho).bind fun {w _ _ _ _} hrel ⟨hplaced, ho⟩ => ?_
  cases hplaced with
  | some h => exact agree_pure hrel rfl ⟨h, ho⟩
  | none =>
    have hroot : ∀ p ∈ doubled o₁.references, (diagonal collecting).handle w p.1 p.2 :=
      forall_mem_doubled.mpr (List.forall₂_same.mp ho.references)
    have hcollect := agree_withRoots L _ hrel hroot fun hrel => diagonal_collect hrel
    rw [map_fst_doubled, map_snd_doubled] at hcollect
    refine hcollect.bind fun hrel ⟨_, hrefs⟩ => ?_
    have ho := ho.of_references (forall_mem_doubled.mp hrefs)
    refine (diagonal_tryAllocate hrel ho).bind fun hrel ⟨hplaced, ho⟩ => ?_
    cases hplaced with
    | some h => exact agree_pure hrel rfl ⟨h, ho⟩
    | none =>
      refine agree_get ?_
      rw [Twins.heap_eq hrel.core]
      exact agree_fail L nofun hrel

theorem diagonal_print {h₁ h₂ : Handle} (hrel : (diagonal collecting).Rel Γ w m₁ m₂)
    (h : (diagonal collecting).handle w h₁ h₂) :
    (diagonal collecting).Agree Γ (diagonal collecting).anything (printValue h₁) m₁ (printValue h₂)
      m₂ := by
  have L := coherent_diagonal collecting
  have hcore : Twins w m₁ m₂ := hrel.core
  refine agree_observe L hrel (.prints h) ?_
  have hroom : m₁.sink.room? = m₂.sink.room? := by rw [hcore.same]
  refine agree_ask L hrel (answers_printout L hrel.core h hroom) fun pieces₁ pieces₂ hpieces => ?_
  rw [hpieces (.inl fun h => h.1)]
  refine agree_write L _ hrel (by rw [hcore.same]) ?_
  exact ⟨hcore.live, hcore.sound.of_eq rfl rfl, by rw [hcore.same]⟩

theorem storing_diagonal (collecting : Bool) : (diagonal collecting).Storing where
  toCoherent := coherent_diagonal collecting
  allocate hrel halike _ := diagonal_allocate hrel halike
  intern spelling hrel :=
    agree_intern_of_allocate (coherent_diagonal collecting) spelling hrel diagonal_allocate Twins.setRegistry
  collect := diagonal_collect
  print := diagonal_print

/-- Comparing a run with itself obeys the laws. -/
theorem lawful_diagonal (collecting : Bool) : (diagonal collecting).Lawful :=
  (storing_diagonal collecting).lawful
    (fun hcore => ((coherent_diagonal collecting).registers hcore).stack) Twins.setStack

end Simulation

end PushLisp
