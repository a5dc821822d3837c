import PushLisp.Proofs.Persistence
import PushLisp.Proofs.Simulation.Diagonal
import PushLisp.Proofs.Simulation.Resizing

/-!
# Runs on a deeper stack

A program that takes no more off the stack than there is cannot tell what lies below. The simulation here
relates a run to another one that starts with more values at the bottom of its stack. The values that both
work on correspond under a renaming of handles, while the cells of the two stacks do not correspond at all:
only what they list does. So the runs are not compared once the first takes its stack for a value. The
tables may be of any sizes, and either run may be the one to find no room.

## Main definitions

* `Simulation.Ground`: what two such runs start from.
* `Simulation.Deepens`: machines that correspond, but for values at the bottom of the second stack.
* `Simulation.Incomparable`: what ends the comparison.
* `Simulation.deepening`: the simulation.

## Main statements

* `Simulation.Deepens.restrict`, `Simulation.Deepens.add`: what outlasts a collection and an allocation.
* `Simulation.lawful_deepening`: the simulation obeys the laws.
-/
namespace PushLisp

namespace Machine

variable {m m' : Machine}

/-- The slot that an allocation takes was empty at some moment. -/
theorem exists_not_live_of_allocate {o : Object} {h : Handle} (hcap : m.heap.capacity ≤ 2 ^ 64)
    (hrun : allocate o m = .ok h m') : ∃ t, (allocate o).passes m t ∧ ¬ t.machine.Live h := by
  have habsent : ∀ {n : Machine} {i : ℕ}, n.heap.capacity ≤ 2 ^ 64 → n.heap.findFree? = some i →
      ¬ n.Live (.ofSlot i) := by
    intro n i hcap hfree
    simp [Live, object?, Heap.get?_ofSlot_of_findFree? hfree hcap]
  cases hfree : m.heap.findFree? with
  | some i =>
    cases (run_allocate_of_free hfree).symm.trans hrun
    exact ⟨_, (passes_allocate_of_free hfree _).mpr (.inl rfl), habsent hcap hfree⟩
  | none =>
    obtain ⟨freed, events, hcollect⟩ := run_withRoots_collect o.references m
    have hcap' : (m.heap.collect (m.registers.roots ++ (o.references ++ m.shadow))).2.capacity ≤ 2 ^ 64 := by
      rw [Heap.capacity_collect]
      exact hcap
    have hagain := (Run.run_bind_of_ok (run_tryAllocate_of_full hfree)).symm.trans hrun
    rw [Run.run_bind_of_ok hcollect] at hagain
    cases hfree' : (m.heap.collect (m.registers.roots ++ (o.references ++ m.shadow))).2.findFree? with
    | none =>
      rw [Run.run_bind_of_ok (run_tryAllocate_of_full hfree')] at hagain
      cases hagain
    | some i =>
      rw [Run.run_bind_of_ok (run_tryAllocate_of_free hfree')] at hagain
      cases hagain
      refine ⟨⟨.uses o.references, _⟩, ?_, habsent (n := { m with heap := _, events := events }) hcap' hfree'⟩
      refine (Run.passes_bind_of_ok (run_tryAllocate_of_full hfree)).mpr (.inr ?_)
      refine (Run.passes_bind_of_ok hcollect).mpr (.inr ?_)
      exact (Run.passes_bind_of_ok (run_tryAllocate_of_free hfree')).mpr (.inl ⟨i, hfree', .inl rfl⟩)

end Machine

namespace Simulation

open Machine

/-! ## Machines -/

/-- What two runs start from, of which the second has more values on its stack. -/
structure Ground where
  /-- The second machine. -/
  base : Machine
  /-- The values at the bottom of its stack that the first machine does not have. -/
  extra : List Handle
  /-- The handles that correspond. -/
  given : Handle → Handle → Prop
  /-- The handles that the first run may give to new objects. -/
  fresh : Handle → Prop

/-- Machines that correspond under a renaming of handles, but for some values at the bottom of the second
stack. These values are there as they were at the start, except that a string may have been overwritten to
which a handle of the first machine corresponded. -/
structure Deepens (quiet failing : Bool) (G : Ground) (R : Handle → Handle → Prop) (m₁ m₂ : Machine) :
    Prop extends Mirrors quiet failing R (fun _ _ => True) m₁ m₂ where
  object?_nil : m₁.object? .nil = some .nil
  values : ∃ values₁ values₂, m₁.heap.Spine m₁.registers.stack values₁ ∧
    m₂.heap.Spine m₂.registers.stack (values₂ ++ G.extra) ∧ List.Forall₂ R values₁ values₂
  ground : ∀ {h}, G.base.heap.Reaches G.extra h → ∃ o o', G.base.object? h = some o ∧
    m₂.object? h = some o' ∧ o.Resembles (∃ k, G.given k h) o'
  shared : ∀ {h₁ h₂}, R h₁ h₂ → G.base.heap.Reaches G.extra h₂ → ∃ k, G.given k h₂
  given : ∀ {h₁ h₂}, R h₁ h₂ → ¬ G.fresh h₁ → G.given h₁ h₂

namespace Deepens

variable {quiet failing : Bool} {G : Ground} {R : Handle → Handle → Prop} {m₁ m₂ m₁' m₂' : Machine}
  {o₁ o₂ : Object} {h₁ h₂ : Handle} {K₁ K₂ : Handle → Prop}

/-- The empty list of the second machine is one too. -/
theorem object?_nil₂ (h : Deepens quiet failing G R m₁ m₂) : m₂.object? .nil = some .nil := by
  obtain ⟨o₁, o₂, ho₁, ho₂, halike⟩ := h.object _ _ h.nil
  cases h.object?_nil.symm.trans ho₁
  cases halike
  exact ho₂

/-- What lies at the bottom is reached from the second stack. -/
theorem reaches (h : Deepens quiet failing G R m₁ m₂) {k : Handle}
    (hk : G.base.heap.Reaches G.extra k) : m₂.heap.Reaches [m₂.registers.stack] k := by
  obtain ⟨values₁, values₂, -, hspine, -⟩ := h.values
  induction hk with
  | root hmem => exact hspine.reaches _ (List.mem_append_right values₂ hmem)
  | reference hparent ho hmem ih =>
    obtain ⟨o, o', hbase, ho', hres⟩ := h.ground hparent
    cases ho.symm.trans hbase
    exact ih.reference ho' (hres.references_eq ▸ hmem)

/-- The slot of a new object is none of those at the bottom. -/
theorem not_reaches_of_takes (h : Deepens quiet failing G R m₁ m₂) (htakes : Takes o₂ m₂ h₂ m₂') :
    ¬ G.base.heap.Reaches G.extra h₂ := by
  intro hh
  obtain ⟨-, o, -, ho, -⟩ := h.ground hh
  have hroots : ∀ k ∈ [m₂.registers.stack], m₂.heap.Reaches (.nil :: (o₂.references ++ m₂.roots)) k :=
    List.forall_mem_singleton.mpr (.root (by simp [roots, Registers.roots]))
  exact htakes.fresh ((h.reaches hh).trans hroots) (Option.isSome_of_eq_some ho) rfl

/-- The correspondence may be restricted to what is kept on both sides. -/
theorem restrict (h : Deepens quiet failing G R m₁ m₂) (hk₁ : Keeps K₁ m₁ m₁') (hk₂ : Keeps K₂ m₂ m₂') :
    Deepens quiet failing G (fun h k => R h k ∧ K₁ h ∧ K₂ k) m₁' m₂' := by
  have hstack₁ : K₁ m₁.registers.stack := hk₁.registers _ (by simp [Registers.roots])
  have hstack₂ : K₂ m₂.registers.stack := hk₂.registers _ (by simp [Registers.roots])
  refine ⟨h.toMirrors.restrict hk₁ hk₂ trivial, hk₁.object?_eq hk₁.nil h.object?_nil, ?_, ?_, ?_, ?_⟩
  · obtain ⟨values₁, values₂, hspine₁, hspine₂, hvalues⟩ := h.values
    obtain ⟨hkept₁, hmem₁⟩ := hk₁.spine hstack₁ hspine₁
    obtain ⟨hkept₂, hmem₂⟩ := hk₂.spine hstack₂ hspine₂
    rw [hk₁.registers_eq, hk₂.registers_eq]
    refine ⟨values₁, values₂, hkept₁, hkept₂, forall₂_restrict hvalues hmem₁ fun k hk => ?_⟩
    exact hmem₂ k (List.mem_append_left _ hk)
  · intro k hk
    obtain ⟨o, o', ho, ho', hres⟩ := h.ground hk
    have hkept : K₂ k := hk₂.of_reaches (by simpa using hstack₂) (h.reaches hk)
    exact ⟨o, o', ho, hk₂.object?_eq hkept ho', hres⟩
  · exact fun hR => h.shared hR.1
  · exact fun hR => h.given hR.1

/-- Two handles that are not renamed yet may be related if they name objects that are alike, the first is
one of those for new objects, and the second does not lie at the bottom. -/
theorem add (h : Deepens quiet failing G R m₁ m₂) (ho₁ : m₁.object? h₁ = some o₁)
    (ho₂ : m₂.object? h₂ = some o₂) (halike : o₁.Alike R o₂) (hnew₁ : ∀ k, ¬ R h₁ k)
    (hnew₂ : ∀ k, ¬ R k h₂) (hfresh : G.fresh h₁) (hapart : ¬ G.base.heap.Reaches G.extra h₂) :
    Deepens quiet failing G (fun h k => h = h₁ ∧ k = h₂ ∨ R h k) m₁ m₂ := by
  refine ⟨h.toMirrors.add ho₁ ho₂ halike hnew₁ hnew₂ trivial, h.object?_nil, ?_, h.ground, ?_, ?_⟩
  · obtain ⟨values₁, values₂, hspine₁, hspine₂, hvalues⟩ := h.values
    exact ⟨values₁, values₂, hspine₁, hspine₂, hvalues.imp fun _ _ => .inr⟩
  · rintro k₁ k₂ (⟨rfl, rfl⟩ | hR) hk
    · exact absurd hk hapart
    · exact h.shared hR hk
  · rintro k₁ k₂ (⟨rfl, rfl⟩ | hR) hk
    · exact absurd hfresh hk
    · exact h.given hR hk

/-- The stacks may be replaced if they list corresponding values, above those at the bottom. -/
theorem setStack (h : Deepens quiet failing G R m₁ m₂) {s₁ s₂ : Handle} {values₁ values₂ : List Handle}
    (hspine₁ : m₁.heap.Spine s₁ values₁) (hspine₂ : m₂.heap.Spine s₂ (values₂ ++ G.extra))
    (hvalues : List.Forall₂ R values₁ values₂) :
    Deepens quiet failing G R { m₁ with registers := { m₁.registers with stack := s₁ } }
      { m₂ with registers := { m₂.registers with stack := s₂ } } :=
  { h with
    registers := { h.registers with stack := trivial }
    values := ⟨values₁, values₂, hspine₁, hspine₂, hvalues⟩ }

/-- Corresponding strings may be overwritten alike. -/
theorem putString {bytes bytes' : Array UInt8} (h : Deepens quiet failing G R m₁ m₂) (hR : R h₁ h₂)
    (ho₁ : m₁.object? h₁ = some (.string (.owned bytes)))
    (ho₂ : m₂.object? h₂ = some (.string (.owned bytes))) (hsize : bytes'.size = bytes.size) :
    Deepens quiet failing G R { m₁ with heap := m₁.heap.put h₁ (.string (.owned bytes')) }
      { m₂ with heap := m₂.heap.put h₂ (.string (.owned bytes')) } := by
  have hother : ∀ {m : Machine} {k l : Handle} {o : Object}, m.object? k = some (.string (.owned bytes)) →
      o.kind ≠ .string → m.heap.get? l = some o →
      (m.heap.put k (.string (.owned bytes'))).get? l = some o := fun hk hkind hl =>
    (object?_putString_iff hk hkind).mpr hl
  refine ⟨h.toMirrors.putString hR ho₁ ho₂ bytes', hother ho₁ nofun h.object?_nil, ?_, ?_, h.shared, h.given⟩
  · obtain ⟨values₁, values₂, hspine₁, hspine₂, hvalues⟩ := h.values
    -- the cells of the stacks are pairs, and stay
    exact ⟨values₁, values₂, hspine₁.congr fun _ => hother ho₁ nofun,
      hspine₂.congr fun _ => hother ho₂ nofun, hvalues⟩
  · intro k hk
    obtain ⟨o, o', ho, ho', hres⟩ := h.ground hk
    simp only [object?, Heap.get?_put ho₂]
    by_cases heq : k = h₂
    · subst heq
      cases ho₂.symm.trans ho'
      exact ⟨o, _, ho, if_pos rfl, hres.trans (.poked (h.shared hR hk) hsize)⟩
    · exact ⟨o, o', ho, (if_neg heq).trans ho', hres⟩

end Deepens

/-! ## The simulation -/

/-- What ends the comparison of two runs: the first needs what lies below its stack, one of them finds no
room, the first takes its stack for a value, or it shows a closure while the outputs are to be the same. Nor
are they compared if the first gives a handle to a new object that is not `fresh`. -/
inductive Incomparable (quiet : Bool) (fresh : Handle → Prop) (T₁ T₂ : Trail) : Prop
  | underflow {sink : Sink} (h : T₁.stopped = some (.fault .stackUnderflow, sink))
  | exhausted₁ {n : ℕ} {sink : Sink} (h : T₁.stopped = some (.fault (.exhausted n), sink))
  | exhausted₂ {n : ℕ} {sink : Sink} (h : T₂.stopped = some (.fault (.exhausted n), sink))
  | reflects {env : Handle} {m : Machine} (h : T₁.passes ⟨.performs .stack env, m⟩)
  | shows (hquiet : quiet = true) (h : ShowedClosure T₁)
  | unforeseen {t : Moment} {k : Handle} (ht : T₁.passes t) (hk : ¬ t.machine.Live k) (hfresh : ¬ fresh k)

/-- Compares a run with one on a deeper stack. -/
def deepening (quiet failing : Bool) (G : Ground) : Simulation where
  World := Handle → Handle → Prop
  handle R := R
  stack _ _ _ := True
  core := Deepens quiet failing G
  moving := True
  excuses := Incomparable quiet G.fresh
  excuses_mono := by
    intro T₁ T₂ T₁' T₂' hle₁ hle₂ h
    cases h with
    | underflow h => exact .underflow (hle₁.stopped _ h)
    | exhausted₁ h => exact .exhausted₁ (hle₁.stopped _ h)
    | exhausted₂ h => exact .exhausted₂ (hle₂.stopped _ h)
    | reflects h => exact .reflects (hle₁.passes _ h)
    | shows hquiet h =>
      obtain ⟨k, m, hm, hshows⟩ := h
      exact .shows hquiet ⟨k, m, hle₁.passes _ hm, hshows⟩
    | unforeseen ht hk hfresh => exact .unforeseen (hle₁.passes _ ht) hk hfresh
  sees₁ _ := True
  sees₂ _ := True

variable {quiet failing : Bool} {G : Ground} {Γ : Held} {R : Handle → Handle → Prop} {m₁ m₂ m₁' m₂' : Machine}
  {o₁ o₂ : Object} {h₁ h₂ : Handle}

theorem coherent_deepening : (deepening quiet failing G).Coherent where
  nil hcore := hcore.nil
  same hcore := hcore.same
  object hcore := hcore.object _ _
  registers hcore := hcore.registers
  source hcore := hcore.source
  tracing hcore := hcore.tracing
  flushFails hcore := hcore.sinks.flushFails₁.trans hcore.sinks.flushFails₂.symm
  grants hcore := hcore.grants
  setRegisters {_ _ _ r₁ r₂} hcore hr hfixed₁ hfixed₂ := by
    obtain ⟨values₁, values₂, hspine₁, hspine₂, hvalues⟩ := hcore.values
    rw [← hfixed₁.2.2.2.2] at hspine₁
    rw [← hfixed₂.2.2.2.2] at hspine₂
    exact { hcore with registers := hr, values := ⟨values₁, values₂, hspine₁, hspine₂, hvalues⟩ }
  setSource _ hcore := { hcore with source := rfl }
  setShadow _ _ hcore := { hcore with }
  setEvents _ _ hcore := { hcore with }
  putString hcore hR ho₁ ho₂ hsize := hcore.putString hR ho₁ ho₂ hsize
  sees _ _ := ⟨trivial, trivial⟩

/-! ## Allocations and collections -/

/-- Corresponding machines still correspond where both spare what they hold. -/
theorem Rel.spares (hrel : (deepening quiet failing G).Rel Γ R m₁ m₂) {hs₁ hs₂ : List Handle}
    (hspares₁ : Spares hs₁ m₁ m₁') (hspares₂ : Spares hs₂ m₂ m₂') :
    (deepening quiet failing G).Rel Γ (fun h k => R h k ∧ m₁.heap.Reaches (.nil :: (hs₁ ++ m₁.roots)) h ∧
      m₂.heap.Reaches (.nil :: (hs₂ ++ m₂.roots)) k) m₁' m₂' where
  core := Deepens.restrict hrel.core hspares₁.keeps hspares₂.keeps
  tied := by
    rw [hspares₁.rest_eq, hspares₂.rest_eq]
    exact hrel.tied
  held p hp := ⟨hrel.held p hp, hrel.reaches_held trivial p hp⟩

/-- Both runs find room for objects, or they are not compared. -/
theorem deepening_allocate_cases (hcore : Deepens quiet failing G R m₁ m₂) (o₁ o₂ : Object) :
    Incomparable quiet G.fresh ((allocate o₁).trail m₁) ((allocate o₂).trail m₂) ∨
      ∃ h₁ h₂ m₁' m₂', allocate o₁ m₁ = .ok h₁ m₁' ∧ allocate o₂ m₂ = .ok h₂ m₂' ∧
        Takes o₁ m₁ h₁ m₁' ∧ Takes o₂ m₂ h₂ m₂' ∧ G.fresh h₁ := by
  rcases allocate_cases o₁ hcore.unmarked₁ hcore.capacity_le₁ with ⟨h₁, m₁', hrun₁, htakes₁⟩ |
    ⟨-, n, hrun, -⟩
  · rcases allocate_cases o₂ hcore.unmarked₂ hcore.capacity_le₂ with ⟨h₂, m₂', hrun₂, htakes₂⟩ |
      ⟨-, n, hrun, -⟩
    · by_cases hfresh : G.fresh h₁
      · exact .inr ⟨h₁, h₂, m₁', m₂', hrun₁, hrun₂, htakes₁, htakes₂, hfresh⟩
      · obtain ⟨t, ht, hlive⟩ := exists_not_live_of_allocate hcore.capacity_le₁ hrun₁
        exact .inl (.unforeseen ht hlive hfresh)
    · have hstopped : ((allocate o₂).trail m₂).stopped =
          some (.fault (.exhausted m₂.heap.capacity), n.sink) := by
        simp only [Run.trail, hrun, Outcome.stopped]
      exact .inl (.exhausted₂ hstopped)
  · have hstopped : ((allocate o₁).trail m₁).stopped =
        some (.fault (.exhausted m₁.heap.capacity), n.sink) := by
      simp only [Run.trail, hrun, Outcome.stopped]
    exact .inl (.exhausted₁ hstopped)

theorem deepening_allocate (hrel : (deepening quiet failing G).Rel Γ R m₁ m₂) (halike : o₁.Alike R o₂) :
    (deepening quiet failing G).Agree Γ (fun R' h₁ h₂ => R' h₁ h₂ ∧ o₁.Alike R' o₂)
      (allocate o₁) m₁ (allocate o₂) m₂ := by
  have hcore : Deepens quiet failing G R m₁ m₂ := hrel.core
  rcases deepening_allocate_cases hcore o₁ o₂ with hexc | ⟨h₁, h₂, m₁', m₂', hrun₁, hrun₂, htakes₁, htakes₂,
    hfresh⟩
  · exact .inl hexc
  have hkept := hrel.spares htakes₁.spares htakes₂.spares
  have hrefs₁ : ∀ k ∈ o₁.references, m₁.heap.Reaches (.nil :: (o₁.references ++ m₁.roots)) k :=
    fun k hk => .root (by simp [hk])
  have hrefs₂ : ∀ k ∈ o₂.references, m₂.heap.Reaches (.nil :: (o₂.references ++ m₂.roots)) k :=
    fun k hk => .root (by simp [hk])
  have halike' := halike.restrict hrefs₁ hrefs₂
  have hnew₁ : ∀ k, ¬ (R h₁ k ∧ m₁.heap.Reaches (.nil :: (o₁.references ++ m₁.roots)) h₁ ∧
      m₂.heap.Reaches (.nil :: (o₂.references ++ m₂.roots)) k) := by
    rintro k ⟨hR, hreach, -⟩
    obtain ⟨o, _, ho, -⟩ := hcore.object _ _ hR
    exact htakes₁.fresh hreach (Option.isSome_of_eq_some ho) rfl
  have hnew₂ : ∀ k, ¬ (R k h₂ ∧ m₁.heap.Reaches (.nil :: (o₁.references ++ m₁.roots)) k ∧
      m₂.heap.Reaches (.nil :: (o₂.references ++ m₂.roots)) h₂) := by
    rintro k ⟨hR, -, hreach⟩
    obtain ⟨_, o, _, ho, -⟩ := hcore.object _ _ hR
    exact htakes₂.fresh hreach (Option.isSome_of_eq_some ho) rfl
  have hadd := Deepens.add hkept.core htakes₁.object?_eq htakes₂.object?_eq halike' hnew₁ hnew₂ hfresh
    (hcore.not_reaches_of_takes htakes₂)
  exact agree_of_ok hrun₁ hrun₂ (fun _ _ => trivial) (fun _ _ => trivial) rfl
    ⟨hadd, hkept.tied, fun p hp => .inr (hkept.held p hp)⟩ ⟨.inl ⟨rfl, rfl⟩, halike'.mono fun _ _ => .inr⟩

/-! ## The laws -/

theorem deepening_collect (hrel : (deepening quiet failing G).Rel Γ R m₁ m₂) :
    (deepening quiet failing G).Agree Γ (deepening quiet failing G).anything collect m₁ collect m₂ := by
  have hcore : Deepens quiet failing G R m₁ m₂ := hrel.core
  obtain ⟨events₁, hrun₁⟩ := run_collect m₁
  obtain ⟨events₂, hrun₂⟩ := run_collect m₂
  have hspares₁ := spares_collect hcore.unmarked₁ [] events₁
  have hspares₂ := spares_collect hcore.unmarked₂ [] events₂
  exact agree_of_ok hrun₁ hrun₂ (fun _ _ => trivial) (fun _ _ => trivial) rfl
    (hrel.spares hspares₁ hspares₂) trivial

theorem storing_deepening : (deepening quiet failing G).Storing where
  toCoherent := coherent_deepening
  allocate hrel halike _ := deepening_allocate hrel halike
  intern spelling hrel :=
    agree_intern_of_allocate coherent_deepening spelling hrel deepening_allocate
      fun hcore hr => { hcore with registers := { hcore.registers with registry := hr } }
  collect := deepening_collect
  print {_ _ m₁ _ h₁ _} hrel h := by
    have hcore : Deepens quiet failing G _ m₁ _ := hrel.core
    refine agree_printValue coherent_deepening hrel h hcore.sinks
      (fun hsinks => { hcore with sinks := hsinks }) fun hquiet hshows => ?_
    exact .shows hquiet ⟨h₁, m₁, .inl rfl, hshows⟩

/-- New cells are put on top of both stacks. They do not correspond, but what they list does. -/
theorem deepening_push (hrel : (deepening quiet failing G).Rel Γ R m₁ m₂) (hR : R h₁ h₂) :
    (deepening quiet failing G).Agree Γ (deepening quiet failing G).anything (push h₁) m₁ (push h₂) m₂ := by
  have hcore : Deepens quiet failing G R m₁ m₂ := hrel.core
  refine agree_getRegisters ?_
  rcases deepening_allocate_cases hcore (.pair h₁ m₁.registers.stack) (.pair h₂ m₂.registers.stack) with
    hexc | ⟨c₁, c₂, m₁', m₂', hrun₁, hrun₂, htakes₁, htakes₂, -⟩
  · exact .inl ((deepening quiet failing G).excuses_mono Run.trail_le_bind Run.trail_le_bind hexc)
  refine agree_bind_of_ok hrun₁ hrun₂ (fun _ _ => trivial) (fun _ _ => trivial) ?_
  have hkept := hrel.spares htakes₁.spares htakes₂.spares
  have hcore' : Deepens quiet failing G _ m₁' m₂' := hkept.core
  obtain ⟨values₁, values₂, hspine₁, hspine₂, hvalues⟩ := hcore'.values
  rw [htakes₁.spares.keeps.registers_eq] at hspine₁
  rw [htakes₂.spares.keeps.registers_eq] at hspine₂
  have hpushed := hcore'.setStack (hspine₁.cons htakes₁.object?_eq) (hspine₂.cons htakes₂.object?_eq)
    (.cons ⟨hR, .root (by simp [Object.references]), .root (by simp [Object.references])⟩ hvalues)
  exact agree_modify_last coherent_deepening (hkept.update hpushed rfl rfl) rfl trivial

/-- What is popped corresponds as long as the first stack is not empty. -/
theorem deepening_pop (hrel : (deepening quiet failing G).Rel Γ R m₁ m₂) :
    (deepening quiet failing G).Agree Γ ((deepening quiet failing G).still R R) pop m₁ pop m₂ := by
  have hcore : Deepens quiet failing G R m₁ m₂ := hrel.core
  obtain ⟨values₁, values₂, hspine₁, hspine₂, hvalues⟩ := hcore.values
  generalize hstack₁ : m₁.registers.stack = stack₁ at hspine₁
  generalize hstack₂ : m₂.registers.stack = stack₂ at hspine₂
  cases hspine₁ with
  | nil =>
    have hstopped : (pop.trail m₁).stopped = some (.fault .stackUnderflow, m₁.sink) := by
      simp only [Run.trail, run_pop_of_nil hstack₁, Outcome.stopped]
    exact .inl (.underflow hstopped)
  | cons ho₁ hrest₁ =>
    cases hvalues with
    | cons hR hvalues =>
      cases hspine₂ with
      | cons ho₂ hrest₂ =>
        rw [← hstack₁] at ho₁
        rw [← hstack₂] at ho₂
        have hpopped := hcore.setStack hrest₁ hrest₂ hvalues
        exact agree_of_ok (run_pop hcore.object?_nil ho₁) (run_pop hcore.object?_nil₂ ho₂)
          (fun _ _ => trivial) (fun _ _ => trivial) rfl (hrel.update hpopped rfl rfl) ⟨rfl, hR⟩

theorem lawful_deepening : (deepening quiet failing G).Lawful where
  toStoring := storing_deepening
  push := deepening_push
  pop := deepening_pop
  depth {R m₁ m₂} hcore := by
    obtain ⟨values₁, values₂, hspine₁, hspine₂, -⟩ := hcore.values
    simp only [stackDepth, stackItems_of_spine hcore.object?_nil hspine₁,
      stackItems_of_spine hcore.object?_nil₂ hspine₂]
    exact .ok trivial
  reflect _ _ := .inl (.reflects (.inl rfl))

end Simulation

end PushLisp
