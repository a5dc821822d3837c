import Mathlib.Data.Finset.Card
import PushLisp.Proofs.Simulation.Renaming

/-!
# Runs on tables of different size

The same program on a larger table collects at other times and finds other slots for its objects. The
simulation here relates two machines by a renaming of handles. The second table is at least as large as the
first, so it is never the second run that runs out of slots first. For if every slot of the second table is
reached, then the first table holds as many objects.

## Main definitions

* `Stop.Short`: the reasons to stop that a larger table or bound may remove.
* `Simulation.Renames`: machines that correspond under a renaming.
* `Simulation.resizing`: the simulation.

## Main statements

* `Simulation.Renames.not_crowded`: the second table is not full if the first has room.
* `Simulation.lawful_resizing`: the simulation obeys the laws.
-/
namespace PushLisp

/-- The table or the bound on steps was too small. -/
def Stop.Short : Stop → Prop
  | .unfinished => True
  | .fault (.exhausted _) => True
  | _ => False

/-! ## The simulation -/

namespace Simulation

open Machine

/-- Machines that correspond under a renaming of handles, where the second table is not the smaller one. -/
structure Renames (quiet failing : Bool) (R : Handle → Handle → Prop) (m₁ m₂ : Machine) : Prop extends
    Mirrors quiet failing R R m₁ m₂ where
  capacity_le : m₁.heap.capacity ≤ m₂.heap.capacity

namespace Renames

variable {quiet failing : Bool} {R : Handle → Handle → Prop} {m₁ m₂ m₁' m₂' : Machine}
  {o₁ o₂ : Object} {h₁ h₂ : Handle} {K₁ K₂ : Handle → Prop}

/-- A renaming may be restricted to what is kept on both sides. -/
theorem restrict (h : Renames quiet failing R m₁ m₂) (hk₁ : Keeps K₁ m₁ m₁') (hk₂ : Keeps K₂ m₂ m₂') :
    Renames quiet failing (fun h k => R h k ∧ K₁ h ∧ K₂ k) m₁' m₂' where
  toMirrors := by
    have hstack₁ : m₁.registers.stack ∈ m₁.registers.roots := by simp [Registers.roots]
    have hstack₂ : m₂.registers.stack ∈ m₂.registers.roots := by simp [Registers.roots]
    refine h.toMirrors.restrict hk₁ hk₂ ⟨h.registers.stack, ?_, ?_⟩
    · exact hk₁.registers _ hstack₁
    · exact hk₂.registers _ hstack₂
  capacity_le := by
    rw [hk₁.capacity_eq, hk₂.capacity_eq]
    exact h.capacity_le

/-- Where the first table has room for an object, not every slot of the second is reached: else each of
its slots would correspond to a slot of the first that is not the one taken. -/
theorem not_crowded (h : Renames quiet failing R m₁ m₂) (halike : o₁.Alike R o₂)
    (hshadow : List.Forall₂ R m₁.shadow m₂.shadow) (htakes : Takes o₁ m₁ h₁ m₁') :
    ¬ Crowded o₂.references m₂ := by
  intro hcrowd
  have hroots : List.Forall₂ R (.nil :: (o₁.references ++ m₁.roots))
      (.nil :: (o₂.references ++ m₂.roots)) :=
    .cons h.nil (List.rel_append halike.references
      (List.rel_append (Registers.alike_iff.mp h.registers) hshadow))
  have hpartner : ∀ i < m₂.heap.capacity, ∃ k, R k (.ofSlot i) ∧ k ≠ h₁ ∧ k.slot < m₁.heap.capacity := by
    intro i hi
    obtain ⟨k, hk, hR⟩ := h.object.flip.exists_reaches (List.Forall₂.flip hroots) (hcrowd i hi).1
    obtain ⟨o, _, ho, -⟩ := h.object _ _ hR
    exact ⟨k, hR, htakes.fresh hk (Option.isSome_of_eq_some ho), Heap.slot_lt_capacity ho⟩
  choose! partner hR hne hlt using hpartner
  have hslot : ∀ i < m₂.heap.capacity, (Handle.ofSlot i).slot = i := by
    intro i hi
    have hcap := h.capacity_le₂
    exact Handle.slot_ofSlot (by omega)
  have hmaps : ∀ i ∈ Finset.range m₂.heap.capacity,
      (partner i).slot ∈ (Finset.range m₁.heap.capacity).erase h₁.slot := by
    intro i hi
    rw [Finset.mem_range] at hi
    rw [Finset.mem_erase, Finset.mem_range]
    exact ⟨fun heq => hne i hi (Handle.eq_of_slot_eq heq), hlt i hi⟩
  have hinj : Set.InjOn (fun i => (partner i).slot) (Finset.range m₂.heap.capacity) := by
    intro i hi j hj heq
    rw [Finset.mem_coe, Finset.mem_range] at hi hj
    have hsame := (h.same (hR i hi) (hR j hj)).mp (Handle.eq_of_slot_eq heq)
    rw [← hslot i hi, ← hslot j hj, hsame]
  have hcard := Finset.card_le_card_of_injOn _ hmaps hinj
  rw [Finset.card_erase_of_mem (Finset.mem_range.mpr htakes.slot_lt), Finset.card_range,
    Finset.card_range] at hcard
  have hle := h.capacity_le
  have hlt := htakes.slot_lt
  omega

end Renames

/-- The first run was cut short. If flushing works then this is also how it ended. -/
def CutShort (failing : Bool) (T : Trail) : Prop :=
  ∃ reason, reason.Short ∧ (∃ m, T.passes ⟨.stops reason, m⟩) ∧
    (failing = false → ∃ sink : Sink, T.stopped = some (reason, sink) ∧ sink.flushFails = false)

/-- A run wrote out a value that shows a closure. -/
def ShowedClosure (T : Trail) : Prop := ∃ h m, T.passes ⟨.prints h, m⟩ ∧ m.ShowsClosure h

/-- A run collected. -/
def Collected (T : Trail) : Prop := ∃ m, T.passes ⟨.collects, m⟩

/-- Compares runs of a program on two tables. The first run is not compared once it is cut short. If the
outputs are to be the same, `quiet`, it is not compared once it has shown a closure either. Unless the
runs may be `moving`, they are not compared once one of them has collected. -/
def resizing (moving quiet failing : Bool) : Simulation where
  World := Handle → Handle → Prop
  handle R := R
  core := Renames quiet failing
  moving := moving = true
  excuses T₁ T₂ := CutShort failing T₁ ∨ quiet = true ∧ ShowedClosure T₁ ∨
    moving = false ∧ (Collected T₁ ∨ Collected T₂)
  excuses_mono := by
    rintro T₁ T₂ T₁' T₂' hle₁ hle₂ (⟨reason, hshort, ⟨m, hm⟩, hstopped⟩ | ⟨hquiet, h, m, hm, hshows⟩ |
      ⟨hstays, ⟨m, hm⟩ | ⟨m, hm⟩⟩)
    · refine .inl ⟨reason, hshort, ⟨m, hle₁.passes _ hm⟩, fun hfailing => ?_⟩
      obtain ⟨sink, hsink, hflush⟩ := hstopped hfailing
      exact ⟨sink, hle₁.stopped _ hsink, hflush⟩
    · exact .inr (.inl ⟨hquiet, h, m, hle₁.passes _ hm, hshows⟩)
    · exact .inr (.inr ⟨hstays, .inl ⟨m, hle₁.passes _ hm⟩⟩)
    · exact .inr (.inr ⟨hstays, .inr ⟨m, hle₂.passes _ hm⟩⟩)
  sees₁ _ := True
  sees₂ _ := True

variable {moving quiet failing : Bool} {Γ : Held} {R : Handle → Handle → Prop} {m₁ m₂ : Machine}
  {o₁ o₂ : Object}

/-- A first run that stops because something was too small is excused. -/
theorem cutShort_of_stopped {T : Trail} {reason : Stop} {m : Machine} (hshort : reason.Short)
    (hpasses : T.passes ⟨.stops reason, m⟩) (hstopped : T.stopped = some (reason, m.sink))
    (hflush : m.sink.flushFails = failing) : CutShort failing T :=
  ⟨reason, hshort, ⟨m, hpasses⟩, fun hfailing => ⟨m.sink, hstopped, hflush.trans hfailing⟩⟩

theorem coherent_resizing : (resizing moving quiet failing).Coherent where
  nil hcore := hcore.nil
  same hcore := hcore.same
  object hcore := hcore.object _ _
  registers hcore := hcore.registers
  source hcore := hcore.source
  tracing hcore := hcore.tracing
  flushFails hcore := hcore.sinks.flushFails₁.trans hcore.sinks.flushFails₂.symm
  grants hcore := hcore.grants
  setRegisters hcore hr _ _ := { hcore with registers := hr }
  setSource _ hcore := { hcore with source := rfl }
  setShadow _ _ hcore := { hcore with }
  setEvents _ _ hcore := { hcore with }
  putString hcore hR ho₁ ho₂ _ :=
    { toMirrors := hcore.toMirrors.putString hR ho₁ ho₂ _
      capacity_le := by
        rw [Heap.put, Heap.put, Heap.capacity_modify, Heap.capacity_modify]
        exact hcore.capacity_le }
  sees _ _ := ⟨trivial, trivial⟩

/-! ## Moving objects -/

section Moving

variable {m₁' m₂' : Machine} {h₁ h₂ : Handle} {K₁ K₂ : Handle → Prop}

/-- Corresponding machines still correspond if what they keep includes what they hold. -/
theorem Rel.restrict (hrel : (resizing moving quiet failing).Rel Γ R m₁ m₂) (hk₁ : Keeps K₁ m₁ m₁')
    (hk₂ : Keeps K₂ m₂ m₂') (hheld : ∀ p ∈ Γ, K₁ p.1 ∧ K₂ p.2) :
    (resizing moving quiet failing).Rel Γ (fun h k => R h k ∧ K₁ h ∧ K₂ k) m₁' m₂' where
  core := Renames.restrict hrel.core hk₁ hk₂
  tied := by
    rw [hk₁.rest_eq, hk₂.rest_eq]
    exact hrel.tied
  held p hp := ⟨hrel.held p hp, hheld p hp⟩

/-- They also correspond after both have placed an object, under handles that were not kept. -/
theorem Rel.place (hrel : (resizing moving quiet failing).Rel Γ R m₁ m₂) (hk₁ : Keeps K₁ m₁ m₁')
    (hk₂ : Keeps K₂ m₂ m₂') (hheld : ∀ p ∈ Γ, K₁ p.1 ∧ K₂ p.2) (ho₁ : m₁'.object? h₁ = some o₁)
    (ho₂ : m₂'.object? h₂ = some o₂) (halike : o₁.Alike R o₂) (hrefs₁ : ∀ k ∈ o₁.references, K₁ k)
    (hrefs₂ : ∀ k ∈ o₂.references, K₂ k) (hnew₁ : ∀ k, K₁ k → (m₁.object? k).isSome → k ≠ h₁)
    (hnew₂ : ∀ k, K₂ k → (m₂.object? k).isSome → k ≠ h₂) :
    ∃ R', (resizing moving quiet failing).Rel Γ R' m₁' m₂' ∧ R' h₁ h₂ ∧ o₁.Alike R' o₂ := by
  have hkept := hrel.restrict hk₁ hk₂ hheld
  have halike' := halike.restrict hrefs₁ hrefs₂
  refine ⟨fun h k => h = h₁ ∧ k = h₂ ∨ R h k ∧ K₁ h ∧ K₂ k, ⟨?_, hkept.tied, ?_⟩, ?_, ?_⟩
  · have hcore : Renames quiet failing _ m₁' m₂' := hkept.core
    refine ⟨hcore.toMirrors.add ho₁ ho₂ halike' ?_ ?_ (.inr hcore.registers.stack), hcore.capacity_le⟩
    · rintro k ⟨hR, hK, -⟩
      obtain ⟨o, _, ho, -⟩ := (Renames.toMirrors hrel.core).object _ _ hR
      exact hnew₁ h₁ hK (Option.isSome_of_eq_some ho) rfl
    · rintro k ⟨hR, -, hK⟩
      obtain ⟨_, o, _, ho, -⟩ := (Renames.toMirrors hrel.core).object _ _ hR
      exact hnew₂ h₂ hK (Option.isSome_of_eq_some ho) rfl
  · exact fun p hp => .inr (hkept.held p hp)
  · exact .inl ⟨rfl, rfl⟩
  · exact halike'.mono fun _ _ => .inr

theorem resizing_collect (hrel : (resizing moving quiet failing).Rel Γ R m₁ m₂) :
    (resizing moving quiet failing).Agree Γ (resizing moving quiet failing).anything collect m₁ collect
      m₂ := by
  cases moving with
  | false => exact .inl (.inr (.inr ⟨rfl, .inl ⟨m₁, .inl rfl⟩⟩))
  | true =>
    have hcore : Renames quiet failing R m₁ m₂ := hrel.core
    obtain ⟨events₁, hrun₁⟩ := run_collect m₁
    obtain ⟨events₂, hrun₂⟩ := run_collect m₂
    have hk₁ := (spares_collect hcore.unmarked₁ [] events₁).keeps
    have hk₂ := (spares_collect hcore.unmarked₂ [] events₂).keeps
    exact agree_of_ok hrun₁ hrun₂ (fun _ _ => trivial) (fun _ _ => trivial) rfl
      (hrel.restrict hk₁ hk₂ (hrel.reaches_held rfl)) trivial

/-- Where runs may collect, the second finds room for an object if the first does. -/
theorem resizing_allocate_moving (hrel : (resizing true quiet failing).Rel Γ R m₁ m₂)
    (halike : o₁.Alike R o₂) :
    (resizing true quiet failing).Agree Γ (fun R' h₁ h₂ => R' h₁ h₂ ∧ o₁.Alike R' o₂)
      (allocate o₁) m₁ (allocate o₂) m₂ := by
  have hcore : Renames quiet failing R m₁ m₂ := hrel.core
  have hcap₁ := hcore.capacity_le₁
  rcases allocate_cases o₁ hcore.unmarked₁ hcap₁ with ⟨h₁, m₁', hrun₁, htakes₁⟩ |
    ⟨-, m', hrun, hsink, hpasses⟩
  · have hshadow : List.Forall₂ R m₁.shadow m₂.shadow := hrel.forall₂_shadow rfl
    rcases allocate_cases o₂ hcore.unmarked₂ hcore.capacity_le₂ with ⟨h₂, m₂', hrun₂, htakes₂⟩ |
      ⟨hcrowd, -⟩
    · obtain ⟨R', hrel', hR', halike'⟩ := hrel.place htakes₁.spares.keeps htakes₂.spares.keeps
        (hrel.reaches_held rfl) htakes₁.object?_eq htakes₂.object?_eq halike
        (fun k hk => .root (by simp [hk])) (fun k hk => .root (by simp [hk]))
        (fun k hk hsome => htakes₁.fresh hk hsome) (fun k hk hsome => htakes₂.fresh hk hsome)
      exact agree_of_ok hrun₁ hrun₂ (fun _ _ => trivial) (fun _ _ => trivial) rfl hrel' ⟨hR', halike'⟩
    · exact absurd hcrowd (hcore.not_crowded halike hshadow htakes₁)
  · have hshort : (Stop.fault (.exhausted m₁.heap.capacity)).Short := trivial
    refine .inl (.inl (cutShort_of_stopped hshort hpasses ?_ ?_))
    · simp only [Run.trail, hrun, Outcome.stopped]
    · rw [hsink]
      exact hcore.sinks.flushFails₁

/-- Where runs do not collect, both find room or one is excused. -/
theorem resizing_allocate_still (hrel : (resizing false quiet failing).Rel Γ R m₁ m₂)
    (halike : o₁.Alike R o₂) :
    (resizing false quiet failing).Agree Γ (fun R' h₁ h₂ => R' h₁ h₂ ∧ o₁.Alike R' o₂)
      (allocate o₁) m₁ (allocate o₂) m₂ := by
  have hcore : Renames quiet failing R m₁ m₂ := hrel.core
  have hcap₁ := hcore.capacity_le₁
  cases hfree₁ : m₁.heap.findFree? with
  | none => exact .inl (.inr (.inr ⟨rfl, .inl ⟨_, passes_allocate_of_full hfree₁⟩⟩))
  | some i =>
    cases hfree₂ : m₂.heap.findFree? with
    | none => exact .inl (.inr (.inr ⟨rfl, .inr ⟨_, passes_allocate_of_full hfree₂⟩⟩))
    | some j =>
      have hcap₂ := hcore.capacity_le₂
      have ho₁ : (m₁.heap.place i o₁).get? (.ofSlot i) = some o₁ := by
        rw [Heap.get?_place hfree₁ hcap₁, if_pos rfl]
      have ho₂ : (m₂.heap.place j o₂).get? (.ofSlot j) = some o₂ := by
        rw [Heap.get?_place hfree₂ hcap₂, if_pos rfl]
      obtain ⟨R', hrel', hR', halike'⟩ := hrel.place (keeps_place hcore.unmarked₁ hcap₁ hfree₁)
        (keeps_place hcore.unmarked₂ hcap₂ hfree₂) (fun _ _ => ⟨trivial, trivial⟩) ho₁ ho₂ halike
        (fun _ _ => trivial) (fun _ _ => trivial)
        (fun _ _ hsome => Heap.ne_ofSlot_of_findFree? hfree₁ hcap₁ hsome)
        (fun _ _ hsome => Heap.ne_ofSlot_of_findFree? hfree₂ hcap₂ hsome)
      exact agree_of_ok (run_allocate_of_free hfree₁) (run_allocate_of_free hfree₂)
        (fun _ _ => trivial) (fun _ _ => trivial) rfl hrel' ⟨hR', halike'⟩

end Moving

/-! ## The laws -/

theorem resizing_allocate (hrel : (resizing moving quiet failing).Rel Γ R m₁ m₂)
    (halike : o₁.Alike R o₂) :
    (resizing moving quiet failing).Agree Γ (fun R' h₁ h₂ => R' h₁ h₂ ∧ o₁.Alike R' o₂)
      (allocate o₁) m₁ (allocate o₂) m₂ := by
  cases moving with
  | true => exact resizing_allocate_moving hrel halike
  | false => exact resizing_allocate_still hrel halike

theorem storing_resizing : (resizing moving quiet failing).Storing where
  toCoherent := coherent_resizing
  allocate hrel halike _ := resizing_allocate hrel halike
  intern spelling hrel :=
    agree_intern_of_allocate coherent_resizing spelling hrel resizing_allocate
      fun hcore hr => { hcore with registers := { hcore.registers with registry := hr } }
  collect := resizing_collect
  print {_ _ m₁ _ h₁ _} hrel h := by
    have hcore : Renames quiet failing _ m₁ _ := hrel.core
    refine agree_printValue coherent_resizing hrel h hcore.sinks
      (fun hsinks => { hcore with sinks := hsinks }) fun hquiet hshows => ?_
    exact .inr (.inl ⟨hquiet, h₁, m₁, .inl rfl, hshows⟩)

/-- Comparing runs on two tables obeys the laws. -/
theorem lawful_resizing : (resizing moving quiet failing).Lawful :=
  storing_resizing.lawful (fun hcore => hcore.registers.stack)
    fun hcore hs => { hcore with registers := { hcore.registers with stack := hs } }

end Simulation

end PushLisp
