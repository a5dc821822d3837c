import PushLisp.Proofs.Elementary
import PushLisp.Proofs.Exhaustion
import PushLisp.Proofs.Simulation.Laws

/-!
# Simulations with an invariant

An invariant of the heap, the value stack and the registry can be carried along by any simulation: if the few
operations that touch these keep it, then it holds at every moment of the first of two runs that agree. What
evaluation makes of these operations is then settled by the laws of the simulation, and needs no proof of its
own.

## Main definitions

* `Machine.Sustained`: an invariant that the operations on heap, stack and registry keep.
* `Simulation.restrict`: a simulation that asks for it.

## Main statements

* `Simulation.AgreeIn.restrict`: operations that agree and keep the invariant.
* `Simulation.Lawful.restrict`: the laws.
-/
namespace PushLisp

namespace Machine

/-- An invariant of the heap, the value stack and the registry that the operations on these keep. -/
structure Sustained (I : Machine → Prop) : Prop where
  congr : ∀ {m m'}, I m → m'.heap = m.heap → m'.registers.stack = m.registers.stack →
    m'.registers.registry = m.registers.registry → I m'
  regular : ∀ {m}, I m → m.heap.Regular
  putString : ∀ {m h} {bytes bytes' : Array UInt8}, m.object? h = some (.string (.owned bytes)) → I m →
    I { m with heap := m.heap.put h (.string (.owned bytes')) }
  place : ∀ {m i o}, m.heap.findFree? = some i → o.kind ≠ .atom → I m →
    I { m with heap := m.heap.place i o }
  -- whether a new atom may be made depends on the registry
  placeAtom : ∀ {m spelling}, findAtom spelling m = .ok none → I m → ∀ {m i}, m.heap.findFree? = some i →
    I m → I { m with heap := m.heap.place i (.atom spelling) }
  enroll : ∀ {m h atom}, m.object? h = some (.pair atom m.registers.registry) → I m →
    I { m with registers := { m.registers with registry := h } }
  collect : ∀ {m}, I m → I { m with heap := (m.heap.collect m.roots).2 }
  cons : ∀ {m h value}, m.object? h = some (.pair value m.registers.stack) → I m →
    I { m with registers := { m.registers with stack := h } }
  rest : ∀ {m value rest}, m.object? m.registers.stack = some (.pair value rest) → I m →
    I { m with registers := { m.registers with stack := rest } }

theorem eq_of_ask {α : Type} {question : Machine → Except Stop α} {a : α} {m m' : Machine}
    (hrun : ask question m = .ok a m') : question m = .ok a ∧ m' = m := by
  simp only [ask] at hrun
  split at hrun <;> cases hrun
  exact ⟨‹_›, rfl⟩

namespace Sustained

variable {I : Machine → Prop} {m : Machine} (H : Sustained I)
include H

/-- The invariant, at all moments. -/
theorem toScoped : Scoped (Regardless (Sustains (fun _ => True) I)) := by
  refine scoped_sustains fun hheap hregisters hm => H.congr hm hheap ?_ ?_
  · rw [hregisters]
  · rw [hregisters]

theorem sustains_collect : Sustains (fun _ => True) I Machine.collect m := by
  have hreclaim : ∀ {m}, Sustains (fun _ => True) I reclaim m :=
    sustains_of_after H.collect fun _ ht => congrArg Moment.machine ht
  exact (H.toScoped.collect hreclaim : Regardless _ ℕ [] _ m)

theorem sustains_allocate_of {o : Object}
    (hplace : ∀ {m i}, m.heap.findFree? = some i → I m → I { m with heap := m.heap.place i o }) :
    Sustains (fun _ => True) I (allocate o) m := by
  have htry : ∀ {m}, Sustains (fun _ => True) I (tryAllocate o) m :=
    sustains_tryAllocate fun hfree _ => hplace hfree
  exact (H.toScoped.allocate htry H.sustains_collect : Regardless _ Handle [] _ m)

theorem sustains_allocate {o : Object} (hkind : o.kind ≠ .atom) : Sustains (fun _ => True) I (allocate o) m :=
  H.sustains_allocate_of fun hfree => H.place hfree hkind

/-- A pair is made and put into a register. -/
theorem sustains_store {car cdr : Handle} {set : Handle → Registers → Registers}
    (hset : ∀ {h m'}, m'.object? h = some (.pair car cdr) → m'.registers = m.registers → I m' →
      I { m' with registers := set h m'.registers }) :
    Sustains (fun _ => True) I (makePair car cdr >>= fun h => modifyRegisters (set h)) m := by
  intro hP hm
  have hpair : Sustains (fun _ => True) I (makePair car cdr) m := H.sustains_allocate (by simp [Object.kind])
  refine (hpair.bind fun {h m'} hrun => sustains_modify (hset ?_ ?_)) hP hm
  all_goals
    have hregular := H.regular hm
    rcases allocate_spares (.pair car cdr) hregular.unmarked hregular.capacity_le with
      ⟨h', n, hrun', hplaced⟩ | ⟨n, hrun', -⟩ <;> cases hrun.symm.trans hrun'
  · exact hplaced.object?_eq
  · rw [hplaced.spares.rest_eq]

theorem sustains_intern (spelling : Bytes) : Sustains (fun _ => True) I (intern spelling) m := by
  intro hP hm
  have R := H.toScoped
  have hintern : Regardless (Sustains (fun _ => True) I) Handle [] (intern spelling) m := by
    refine R.bind (R.ask (blind_findAtom spelling)) fun {found _} hfind => ?_
    obtain ⟨hfind, rfl⟩ := eq_of_ask hfind
    cases found with
    | some atom => exact R.pure atom
    | none =>
      refine R.bind (H.sustains_allocate_of (H.placeAtom hfind hm)) fun {atom m₁} _ => R.getRegisters ?_
      have hstore : Sustains (fun _ => True) I (do
          let registry ← makePair atom m₁.registers.registry
          modifyRegisters fun r => { r with registry := registry }) m₁ :=
        H.sustains_store fun ho hregisters => H.enroll (hregisters ▸ ho)
      rw [← Run.bind_assoc]
      exact R.bind hstore fun _ => R.pure atom
  exact hintern hP hm

theorem sustains_printValue (h : Handle) : Sustains (fun _ => True) I (printValue h) m := by
  have R := H.toScoped
  have hwrite : ∀ {m} (pieces : List Bytes),
      Regardless (Sustains (fun _ => True) I) Unit [] (write pieces) m := by
    intro m pieces
    refine R.bind (sustains_of_after (fun hm => H.congr hm rfl rfl rfl) fun _ ht =>
      congrArg Moment.machine ht)
      fun {result _} _ => ?_
    cases result with
    | none => exact R.pure ()
    | some cause => exact R.fail _
  have hprint : Regardless (Sustains (fun _ => True) I) Unit [] (printValue h) m :=
    R.bind (R.observe rfl) fun _ => R.bind (sustains_ask _) fun _ => hwrite _
  exact hprint

/-- The new cell of the stack is a pair in front of the old one. -/
theorem sustains_push (value : Handle) : Sustains (fun _ => True) I (push value) m := by
  have hpush : Regardless (Sustains (fun _ => True) I) Unit [] (push value) m := by
    refine H.toScoped.getRegisters (H.sustains_store fun ho hregisters => ?_)
    rw [← hregisters] at ho
    exact H.cons ho
  exact hpush

/-- Taking the top off leaves the rest of the list. -/
theorem sustains_pop : Sustains (fun _ => True) I pop m := by
  have R := H.toScoped
  have htry : Regardless (Sustains (fun _ => True) I) (Option Handle) [] tryPop m := by
    refine R.getRegisters ?_
    dsimp only
    split
    · exact R.pure none
    · refine R.bind (R.ask fun _ _ => rfl) fun {top m₁} hcar => ?_
      refine R.bind (R.ask fun _ _ => rfl) fun {rest m₂} hcdr => ?_
      obtain ⟨-, rfl⟩ := eq_of_ask hcar
      obtain ⟨hcdr, rfl⟩ := eq_of_ask hcdr
      obtain ⟨value, ho⟩ : ∃ value, m₂.object? m₂.registers.stack = some (.pair value rest) := by
        unfold cdr at hcdr
        split at hcdr <;> cases hcdr
        exact ⟨_, ‹_›⟩
      exact R.bind (sustains_modify (H.rest ho)) fun _ => R.pure _
  have hpop : Regardless (Sustains (fun _ => True) I) Handle [] pop m := by
    refine R.bind htry fun {top _} _ => ?_
    cases top with
    | some value => exact R.pure value
    | none => exact R.fail _
  exact hpop

/-- The stack itself may become a value on it. -/
theorem sustains_reflect (env : Handle) : Sustains (fun _ => True) I (perform .stack env) m := by
  have R := H.toScoped
  have hreflect : Regardless (Sustains (fun _ => True) I) Handle [] (perform .stack env) m := by
    refine R.bind (R.observe rfl) fun _ => R.getRegisters ?_
    exact R.bind (H.sustains_push _) fun _ => R.pure env
  exact hreflect

end Sustained

end Machine

/-! ## The simulation -/

namespace Simulation

open Machine

variable {S : Simulation} {α β : Type} {I : Machine → Prop} {Γ : Held} {w : S.World} {m₁ m₂ : Machine}

/-- A simulation with an invariant of the first machine. -/
def restrict (S : Simulation) (I : Machine → Prop) : Simulation :=
  { S with
    core := fun w m₁ m₂ => S.core w m₁ m₂ ∧ I m₁
    sees₁ := fun t => S.sees₁ t ∧ I t.machine }

theorem restrict_rel_iff : (S.restrict I).Rel Γ w m₁ m₂ ↔ S.Rel Γ w m₁ m₂ ∧ I m₁ := by
  constructor
  · intro hrel
    exact ⟨⟨hrel.core.1, hrel.tied, hrel.held⟩, hrel.core.2⟩
  · rintro ⟨hrel, hm⟩
    exact ⟨⟨hrel.core, hm⟩, hrel.tied, hrel.held⟩

/-- Operations that agree still do so if the first of them keeps the invariant. -/
theorem AgreeIn.restrict {P : Held → Prop} {V : S.World → α → β → Prop} {x₁ : Run α} {x₂ : Run β}
    (hagree : S.AgreeIn Γ P V x₁ m₁ x₂ m₂) (hx₁ : Sustains (fun _ => True) I x₁ m₁) (hm : I m₁) :
    (S.restrict I).AgreeIn Γ P V x₁ m₁ x₂ m₂ := by
  obtain ⟨hafter, hmoments⟩ := hx₁ (fun _ _ => trivial) hm
  rcases hagree with hexc | ⟨hsee₁, hsee₂, hmatch⟩
  · exact .inl hexc
  refine .inr ⟨fun t ht => ⟨hsee₁ t ht, hmoments t ht⟩, hsee₂, ?_⟩
  cases h₁ : x₁.run m₁ with
  | ok a₁ n₁ =>
    rw [after_of_ok h₁] at hafter
    cases h₂ : x₂.run m₂ with
    | error => rw [h₁, h₂] at hmatch; exact hmatch
    | ok a₂ n₂ =>
      rw [h₁, h₂] at hmatch
      obtain ⟨Γ', w, hP, hrel, hV⟩ := hmatch
      exact ⟨Γ', w, hP, restrict_rel_iff.mpr ⟨hrel, hafter⟩, hV⟩
  | error r₁ n₁ =>
    rw [after_of_error h₁] at hafter
    cases h₂ : x₂.run m₂ with
    | ok => rw [h₁, h₂] at hmatch; exact hmatch
    | error r₂ n₂ =>
      rw [h₁, h₂] at hmatch
      obtain ⟨hr, htame, Γ', w, hsuf, hrel⟩ := hmatch
      exact ⟨hr, htame, Γ', w, hsuf, restrict_rel_iff.mpr ⟨hrel, hafter⟩⟩

theorem Answers.restrict {V : α → β → Prop} {r₁ : Except Stop α} {r₂ : Except Stop β}
    (h : S.Answers V r₁ r₂) :
    (S.restrict I).Answers V r₁ r₂ := by
  cases h with
  | ok hV => exact .ok hV
  | error htame => exact .error htame

theorem Coherent.restrict (L : S.Coherent) (H : Sustained I) : (S.restrict I).Coherent where
  nil hcore := L.nil hcore.1
  same hcore := L.same hcore.1
  object hcore := L.object hcore.1
  registers hcore := L.registers hcore.1
  source hcore := L.source hcore.1
  tracing hcore := L.tracing hcore.1
  flushFails hcore := L.flushFails hcore.1
  grants hcore := L.grants hcore.1
  setRegisters hcore hr hfixed₁ hfixed₂ :=
    ⟨L.setRegisters hcore.1 hr hfixed₁ hfixed₂, H.congr hcore.2 rfl hfixed₁.2.2.2.2 hfixed₁.2.2.2.1⟩
  setSource source hcore := ⟨L.setSource source hcore.1, H.congr hcore.2 rfl rfl rfl⟩
  setShadow shadow₁ shadow₂ hcore := ⟨L.setShadow shadow₁ shadow₂ hcore.1, H.congr hcore.2 rfl rfl rfl⟩
  setEvents events₁ events₂ hcore := ⟨L.setEvents events₁ events₂ hcore.1, H.congr hcore.2 rfl rfl rfl⟩
  putString hcore hh ho₁ ho₂ hsize := ⟨L.putString hcore.1 hh ho₁ ho₂ hsize, H.putString ho₁ hcore.2⟩
  sees hrel hstep := by
    obtain ⟨hrel, hm⟩ := restrict_rel_iff.mp hrel
    obtain ⟨hsee₁, hsee₂⟩ := L.sees hrel hstep
    exact ⟨⟨hsee₁, hm⟩, hsee₂⟩

/-- A simulation with an invariant obeys the laws if it does so without. -/
theorem Lawful.restrict (L : S.Lawful) (H : Sustained I) : (S.restrict I).Lawful where
  toCoherent := Coherent.restrict L H
  allocate hrel ho hkind := by
    obtain ⟨hrel, hm⟩ := restrict_rel_iff.mp hrel
    exact (L.allocate hrel ho hkind).restrict (H.sustains_allocate hkind) hm
  intern spelling hrel := by
    obtain ⟨hrel, hm⟩ := restrict_rel_iff.mp hrel
    exact (L.intern spelling hrel).restrict (H.sustains_intern spelling) hm
  collect hrel := by
    obtain ⟨hrel, hm⟩ := restrict_rel_iff.mp hrel
    exact (L.collect hrel).restrict H.sustains_collect hm
  print hrel hh := by
    obtain ⟨hrel, hm⟩ := restrict_rel_iff.mp hrel
    exact (L.print hrel hh).restrict (H.sustains_printValue _) hm
  push hrel hh := by
    obtain ⟨hrel, hm⟩ := restrict_rel_iff.mp hrel
    exact (L.push hrel hh).restrict (H.sustains_push _) hm
  pop hrel := by
    obtain ⟨hrel, hm⟩ := restrict_rel_iff.mp hrel
    exact (L.pop hrel).restrict H.sustains_pop hm
  depth hcore := (L.depth hcore.1).restrict
  reflect hrel henv := by
    obtain ⟨hrel, hm⟩ := restrict_rel_iff.mp hrel
    exact (L.reflect hrel henv).restrict (H.sustains_reflect _) hm

end Simulation

end PushLisp
