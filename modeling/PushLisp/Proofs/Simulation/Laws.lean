import PushLisp.Proofs.Simulation.Basic

/-!
# Lawful simulations

The few operations that touch the state directly are what a simulation has to account for. The rules
here say how operations agree that are made of these.

## Main definitions

* `Simulation.Answers`: corresponding answers to questions about the state.
* `Simulation.Coherent`: the laws about states and about operations that move no object.
* `Simulation.Storing`: these, and the laws about allocation, collection and output.
* `Simulation.Lawful`: these, and the laws about the value stack.

## Main statements

* `Simulation.agree_ask`, `Simulation.agree_stop`, `Simulation.agree_modify`: the basic operations.
* `Simulation.agree_keepingRoots`, `Simulation.agree_withRoots`: scopes of held roots.
-/
namespace PushLisp

theorem Stop.tame_unfinished : Stop.unfinished.Tame := by
  intro op expected found h
  cases h

/-- Faults other than complaints about kinds are harmless. -/
theorem Stop.tame_fault {f : Fault} (hf : ∀ op expected found, f ≠ .typeMismatch op expected found) :
    (Stop.fault f).Tame := by
  rintro op expected found h
  cases h
  exact absurd rfl (hf op expected found)

/-- The words of the state block that only raw access can change, the registry, which changes when an
atom is interned, and the value stack. -/
def Registers.Fixed (r r' : Registers) : Prop :=
  r'.nil = r.nil ∧ r'.slots = r.slots ∧ r'.capacity = r.capacity ∧ r'.registry = r.registry ∧
    r'.stack = r.stack

namespace Simulation

open Machine

variable {S : Simulation} {α β α' β' : Type} {Γ Γ' Δ : Held} {w : S.World} {m₁ m₂ : Machine}

/-! ## Questions -/

/-- Answers to a question that correspond. -/
inductive Answers (S : Simulation) (V : α → β → Prop) : Except Stop α → Except Stop β → Prop
  | ok {a₁ : α} {a₂ : β} (h : V a₁ a₂) : Answers S V (.ok a₁) (.ok a₂)
  | error {reason : Stop} (h : reason.Tame) : Answers S V (.error reason) (.error reason)

namespace Answers

variable {V : α → β → Prop} {V' : α' → β' → Prop} {r₁ : Except Stop α} {r₂ : Except Stop β}

theorem bind {f₁ : α → Except Stop α'} {f₂ : β → Except Stop β'} (h : S.Answers V r₁ r₂)
    (hf : ∀ a₁ a₂, V a₁ a₂ → S.Answers V' (f₁ a₁) (f₂ a₂)) :
    S.Answers V' (r₁ >>= f₁) (r₂ >>= f₂) := by
  cases h with
  | ok hV => exact hf _ _ hV
  | error htame => exact .error htame

theorem imp {V' : α → β → Prop} (h : S.Answers V r₁ r₂) (himp : ∀ a₁ a₂, V a₁ a₂ → V' a₁ a₂) :
    S.Answers V' r₁ r₂ := by
  cases h with
  | ok hV => exact .ok (himp _ _ hV)
  | error htame => exact .error htame

theorem unfinished_iff (h : S.Answers V r₁ r₂) : r₁ = .error .unfinished ↔ r₂ = .error .unfinished := by
  cases h with
  | ok hV => simp
  | error htame => simp

end Answers

/-! ## The laws -/

/-- What a simulation has to say about states. -/
structure Coherent (S : Simulation) : Prop where
  nil : ∀ {w m₁ m₂}, S.core w m₁ m₂ → S.handle w .nil .nil
  /-- Handles correspond one to one. -/
  same : ∀ {w m₁ m₂ h₁ h₂ k₁ k₂}, S.core w m₁ m₂ → S.handle w h₁ h₂ → S.handle w k₁ k₂ →
    (h₁ = k₁ ↔ h₂ = k₂)
  /-- Corresponding handles name objects that are alike. -/
  object : ∀ {w m₁ m₂ h₁ h₂}, S.core w m₁ m₂ → S.handle w h₁ h₂ →
    ∃ o₁ o₂, m₁.object? h₁ = some o₁ ∧ m₂.object? h₂ = some o₂ ∧ o₁.Alike (S.handle w) o₂
  registers : ∀ {w m₁ m₂}, S.core w m₁ m₂ →
    m₁.registers.Alike (S.handle w) m₂.registers (S.stack w)
  source : ∀ {w m₁ m₂}, S.core w m₁ m₂ → m₁.source = m₂.source
  tracing : ∀ {w m₁ m₂}, S.core w m₁ m₂ → m₁.tracing = m₂.tracing
  flushFails : ∀ {w m₁ m₂}, S.core w m₁ m₂ → m₁.sink.flushFails = m₂.sink.flushFails
  grants : ∀ {w m₁ m₂}, S.core w m₁ m₂ → m₁.heap.platform.grants = m₂.heap.platform.grants
  setRegisters : ∀ {w m₁ m₂} {r₁ r₂ : Registers}, S.core w m₁ m₂ →
    r₁.Alike (S.handle w) r₂ (S.stack w) → m₁.registers.Fixed r₁ → m₂.registers.Fixed r₂ →
    S.core w { m₁ with registers := r₁ } { m₂ with registers := r₂ }
  setSource : ∀ {w m₁ m₂} (source : Source), S.core w m₁ m₂ →
    S.core w { m₁ with source := source } { m₂ with source := source }
  setShadow : ∀ {w m₁ m₂} (shadow₁ shadow₂ : List Handle), S.core w m₁ m₂ →
    S.core w { m₁ with shadow := shadow₁ } { m₂ with shadow := shadow₂ }
  setEvents : ∀ {w m₁ m₂} (events₁ events₂ : Array Event), S.core w m₁ m₂ →
    S.core w { m₁ with events := events₁ } { m₂ with events := events₂ }
  /-- Corresponding strings may be overwritten alike. -/
  putString : ∀ {w m₁ m₂ h₁ h₂} {bytes bytes' : Array UInt8}, S.core w m₁ m₂ → S.handle w h₁ h₂ →
    m₁.object? h₁ = some (.string (.owned bytes)) → m₂.object? h₂ = some (.string (.owned bytes)) →
    bytes'.size = bytes.size →
    S.core w { m₁ with heap := m₁.heap.put h₁ (.string (.owned bytes')) }
      { m₂ with heap := m₂.heap.put h₂ (.string (.owned bytes')) }
  sees : ∀ {Γ w m₁ m₂ s₁ s₂}, S.Rel Γ w m₁ m₂ → Step.Alike (S.handle w) s₁ s₂ →
    S.sees₁ ⟨s₁, m₁⟩ ∧ S.sees₂ ⟨s₂, m₂⟩

/-- What a simulation has to say about objects and output. -/
structure Storing (S : Simulation) : Prop extends S.Coherent where
  /-- What a new object refers to is not lost while room is made for it. Atoms are made by interning
  only. -/
  allocate : ∀ {Γ w m₁ m₂ o₁ o₂}, S.Rel Γ w m₁ m₂ → o₁.Alike (S.handle w) o₂ → o₁.kind ≠ .atom →
    S.Agree Γ (fun w' h₁ h₂ => S.handle w' h₁ h₂ ∧ o₁.Alike (S.handle w') o₂)
      (allocate o₁) m₁ (allocate o₂) m₂
  intern : ∀ {Γ w m₁ m₂} (spelling : Bytes), S.Rel Γ w m₁ m₂ →
    S.Agree Γ S.handle (intern spelling) m₁ (intern spelling) m₂
  collect : ∀ {Γ w m₁ m₂}, S.Rel Γ w m₁ m₂ → S.Agree Γ S.anything collect m₁ collect m₂
  print : ∀ {Γ w m₁ m₂ h₁ h₂}, S.Rel Γ w m₁ m₂ → S.handle w h₁ h₂ →
    S.Agree Γ S.anything (printValue h₁) m₁ (printValue h₂) m₂

/-- What a simulation has to say about all operations that touch the state. The value stack has laws of
its own, since its cells need not correspond like values. -/
structure Lawful (S : Simulation) : Prop extends S.Storing where
  push : ∀ {Γ w m₁ m₂ h₁ h₂}, S.Rel Γ w m₁ m₂ → S.handle w h₁ h₂ →
    S.Agree Γ S.anything (push h₁) m₁ (push h₂) m₂
  pop : ∀ {Γ w m₁ m₂}, S.Rel Γ w m₁ m₂ → S.Agree Γ (S.still w (S.handle w)) pop m₁ pop m₂
  depth : ∀ {w m₁ m₂}, S.core w m₁ m₂ →
    S.Answers (fun _ _ => True) (stackDepth m₁) (stackDepth m₂)
  /-- The stack as a value. -/
  reflect : ∀ {Γ w m₁ m₂ e₁ e₂}, S.Rel Γ w m₁ m₂ → (e₁, e₂) ∈ Γ →
    S.Agree Γ S.handle (perform .stack e₁) m₁ (perform .stack e₂) m₂

instance : Coe S.Storing S.Coherent := ⟨Storing.toCoherent⟩

instance : Coe S.Lawful S.Coherent := ⟨fun L => L.toStoring.toCoherent⟩

variable (L : S.Coherent)
include L

/-! ## Operations that change nothing -/

section

variable {P : Held → Prop} {V : S.World → α → β → Prop}

theorem agree_stop {reason : Stop} (hrel : S.Rel Γ w m₁ m₂) (htame : reason.Tame) :
    S.AgreeIn Γ P V (stop reason : Run α) m₁ (stop reason : Run β) m₂ := by
  obtain ⟨hsee₁, hsee₂⟩ := L.sees hrel (.stops htame)
  refine .inr ⟨?_, ?_, rfl, htame, Γ, w, List.suffix_refl Γ, hrel⟩
  · rintro t rfl
    exact hsee₁
  · rintro t rfl
    exact hsee₂

theorem agree_fail {f : Fault} (hf : ∀ op expected found, f ≠ .typeMismatch op expected found)
    (hrel : S.Rel Γ w m₁ m₂) : S.AgreeIn Γ P V (fail f : Run α) m₁ (fail f : Run β) m₂ :=
  agree_stop L hrel (Stop.tame_fault hf)

/-- Nothing comes after a fault. -/
theorem agree_fail_bind {f : Fault} {f₁ : α' → Run α} {f₂ : β' → Run β}
    (hf : ∀ op expected found, f ≠ .typeMismatch op expected found) (hrel : S.Rel Γ w m₁ m₂) :
    S.AgreeIn Γ P V (fail f >>= f₁) m₁ (fail f >>= f₂) m₂ :=
  Agree.bind (V := fun _ _ _ => False) (agree_fail L hf hrel) fun _ h => h.elim

theorem agree_observe {s₁ s₂ : Step} {f₁ : Unit → Run α} {f₂ : Unit → Run β}
    (hrel : S.Rel Γ' w m₁ m₂) (hstep : Step.Alike (S.handle w) s₁ s₂)
    (hf : S.AgreeIn Γ P V (f₁ ()) m₁ (f₂ ()) m₂) :
    S.AgreeIn Γ P V (observe s₁ >>= f₁) m₁ (observe s₂ >>= f₂) m₂ := by
  obtain ⟨hsee₁, hsee₂⟩ := L.sees hrel hstep
  refine agree_bind_of_ok rfl rfl ?_ ?_ hf
  · rintro t rfl
    exact hsee₁
  · rintro t rfl
    exact hsee₂

theorem agree_ask_last {q₁ : Machine → Except Stop α} {q₂ : Machine → Except Stop β}
    {A : α → β → Prop} (hrel : S.Rel Γ w m₁ m₂) (hq : S.Answers A (q₁ m₁) (q₂ m₂)) (hP : P Γ)
    (hV : ∀ a₁ a₂, A a₁ a₂ → V w a₁ a₂) : S.AgreeIn Γ P V (ask q₁) m₁ (ask q₂) m₂ := by
  generalize hr₁ : q₁ m₁ = r₁ at hq
  generalize hr₂ : q₂ m₂ = r₂ at hq
  cases hq with
  | @ok a₁ a₂ hA =>
    have h₁ : (ask q₁).run m₁ = .ok a₁ m₁ := by simp only [ask, hr₁]
    have h₂ : (ask q₂).run m₂ = .ok a₂ m₂ := by simp only [ask, hr₂]
    refine agree_of_ok h₁ h₂ ?_ ?_ hP hrel (hV _ _ hA)
    · rintro t ⟨reason, hreason, -⟩
      rw [hr₁] at hreason
      cases hreason
    · rintro t ⟨reason, hreason, -⟩
      rw [hr₂] at hreason
      cases hreason
  | @error reason htame =>
    have h₁ : (ask q₁).run m₁ = .error reason m₁ := by simp only [ask, hr₁]
    have h₂ : (ask q₂).run m₂ = .error reason m₂ := by simp only [ask, hr₂]
    obtain ⟨hsee₁, hsee₂⟩ := L.sees hrel (.stops htame)
    refine .inr ⟨?_, ?_, ?_⟩
    · rintro t ⟨_, hreason, rfl⟩
      rw [hr₁] at hreason
      cases hreason
      exact hsee₁
    · rintro t ⟨_, hreason, rfl⟩
      rw [hr₂] at hreason
      cases hreason
      exact hsee₂
    · rw [h₁, h₂]
      exact ⟨rfl, htame, Γ, w, List.suffix_refl Γ, hrel⟩

theorem agree_ask_still {q₁ : Machine → Except Stop α} {q₂ : Machine → Except Stop β}
    {A : α → β → Prop} (hrel : S.Rel Γ w m₁ m₂) (hq : S.Answers A (q₁ m₁) (q₂ m₂)) :
    S.Agree Γ (S.still w A) (ask q₁) m₁ (ask q₂) m₂ :=
  agree_ask_last L hrel hq rfl fun _ _ hA => ⟨rfl, hA⟩

/-- Questions with corresponding answers agree, and leave the machines as they are. -/
theorem agree_ask {q₁ : Machine → Except Stop α'} {q₂ : Machine → Except Stop β'}
    {A : α' → β' → Prop} {f₁ : α' → Run α} {f₂ : β' → Run β} (hrel : S.Rel Γ w m₁ m₂)
    (hq : S.Answers A (q₁ m₁) (q₂ m₂))
    (hf : ∀ a₁ a₂, A a₁ a₂ → S.AgreeIn Γ P V (f₁ a₁) m₁ (f₂ a₂) m₂) :
    S.AgreeIn Γ P V (ask q₁ >>= f₁) m₁ (ask q₂ >>= f₂) m₂ := by
  -- nothing more is to be shown if one of the questions has no answer
  have hlast : ∀ {a₁ a₂}, q₁ m₁ = .ok a₁ → q₂ m₂ = .ok a₂ → A a₁ a₂ →
      S.AgreeIn Γ P V (ask q₁ >>= f₁) m₁ (ask q₂ >>= f₂) m₂ := by
    intro a₁ a₂ hr₁ hr₂ hA
    refine agree_bind_of_ok (by simp only [ask, hr₁]) (by simp only [ask, hr₂]) ?_ ?_ (hf _ _ hA)
    · rintro t ⟨reason, hreason, -⟩
      rw [hr₁] at hreason
      cases hreason
    · rintro t ⟨reason, hreason, -⟩
      rw [hr₂] at hreason
      cases hreason
  have hnone : S.Answers (fun _ _ => False) (q₁ m₁) (q₂ m₂) →
      S.AgreeIn Γ P V (ask q₁ >>= f₁) m₁ (ask q₂ >>= f₂) m₂ := by
    intro hq
    refine Agree.bind (V := fun _ _ _ => False) (agree_ask_last L hrel hq rfl ?_) ?_
    · exact fun _ _ h => h
    · exact fun _ h => h.elim
  generalize hr₁ : q₁ m₁ = r₁ at hq
  generalize hr₂ : q₂ m₂ = r₂ at hq
  cases hq with
  | ok hA => exact hlast hr₁ hr₂ hA
  | error htame => exact hnone (hr₁ ▸ hr₂ ▸ .error htame)

theorem Coherent.sees_changes (hrel : S.Rel Γ w m₁ m₂) :
    (∀ before t, t = ⟨.changes before, m₁⟩ → S.sees₁ t) ∧
      ∀ before t, t = ⟨.changes before, m₂⟩ → S.sees₂ t := by
  constructor
  · rintro before t rfl
    exact (L.sees hrel (.changes before before)).1
  · rintro before t rfl
    exact (L.sees hrel (.changes before before)).2

theorem agree_modifyGet {g₁ : Machine → α' × Machine} {g₂ : Machine → β' × Machine}
    {f₁ : α' → Run α} {f₂ : β' → Run β} (hrel : S.Rel Γ' w (g₁ m₁).2 (g₂ m₂).2)
    (hf : S.AgreeIn Γ P V (f₁ (g₁ m₁).1) (g₁ m₁).2 (f₂ (g₂ m₂).1) (g₂ m₂).2) :
    S.AgreeIn Γ P V (modifyGet g₁ >>= f₁) m₁ (modifyGet g₂ >>= f₂) m₂ :=
  agree_bind_of_ok rfl rfl ((L.sees_changes hrel).1 _) ((L.sees_changes hrel).2 _) hf

theorem agree_modify {g₁ g₂ : Machine → Machine} {f₁ : Unit → Run α} {f₂ : Unit → Run β}
    (hrel : S.Rel Γ' w (g₁ m₁) (g₂ m₂))
    (hf : S.AgreeIn Γ P V (f₁ ()) (g₁ m₁) (f₂ ()) (g₂ m₂)) :
    S.AgreeIn Γ P V (modify g₁ >>= f₁) m₁ (modify g₂ >>= f₂) m₂ :=
  agree_modifyGet L hrel hf

theorem agree_modify_last {g₁ g₂ : Machine → Machine} {V : S.World → PUnit → PUnit → Prop}
    (hrel : S.Rel Γ' w (g₁ m₁) (g₂ m₂)) (hP : P Γ') (hV : V w ⟨⟩ ⟨⟩) :
    S.AgreeIn Γ P V (modify g₁) m₁ (modify g₂) m₂ :=
  agree_of_ok rfl rfl ((L.sees_changes hrel).1 _) ((L.sees_changes hrel).2 _) hP hrel hV

theorem agree_set_last {n₁ n₂ : Machine} {V : S.World → PUnit → PUnit → Prop}
    (hrel : S.Rel Γ' w n₁ n₂) (hP : P Γ') (hV : V w ⟨⟩ ⟨⟩) :
    S.AgreeIn Γ P V (set n₁) m₁ (set n₂) m₂ :=
  agree_of_ok rfl rfl ((L.sees_changes hrel).1 _) ((L.sees_changes hrel).2 _) hP hrel hV

end

/-! ## Registers and source -/

omit L in
/-- Roots stay held whatever else changes. -/
theorem Rel.update {n₁ n₂ : Machine} (hrel : S.Rel Γ w m₁ m₂) (hcore : S.core w n₁ n₂)
    (h₁ : n₁.shadow = m₁.shadow) (h₂ : n₂.shadow = m₂.shadow) : S.Rel Γ w n₁ n₂ where
  core := hcore
  tied := h₁ ▸ h₂ ▸ hrel.tied
  held := hrel.held

/-- The registers of corresponding machines may be given related handles. -/
theorem Rel.setRegisters {r₁ r₂ : Registers} (hrel : S.Rel Γ w m₁ m₂)
    (hr : r₁.Alike (S.handle w) r₂ (S.stack w)) (h₁ : m₁.registers.Fixed r₁)
    (h₂ : m₂.registers.Fixed r₂) :
    S.Rel Γ w { m₁ with registers := r₁ } { m₂ with registers := r₂ } :=
  hrel.update (L.setRegisters hrel.core hr h₁ h₂) rfl rfl

theorem Rel.setSource (hrel : S.Rel Γ w m₁ m₂) (source : Source) :
    S.Rel Γ w { m₁ with source := source } { m₂ with source := source } :=
  hrel.update (L.setSource source hrel.core) rfl rfl

/-! ## Held roots -/

/-- Corresponding machines still correspond with the roots of two earlier ones. -/
theorem Rel.restore {n₁ n₂ : Machine} {w' : S.World} (hrel : S.Rel Γ w m₁ m₂)
    (hrel' : S.Rel Γ' w' n₁ n₂) (hsuf : Γ <:+ Γ') :
    S.Rel Γ w' { n₁ with shadow := m₁.shadow } { n₂ with shadow := m₂.shadow } where
  core := L.setShadow _ _ hrel'.core
  tied := hrel.tied
  held p hp := hrel'.held p (hsuf.subset hp)

omit L in
theorem Tied.append {shadow₁ shadow₂ : List Handle} (htied : S.Tied Γ shadow₁ shadow₂) (Δ : Held) :
    S.Tied (Δ ++ Γ) (Δ.map Prod.fst ++ shadow₁) (Δ.map Prod.snd ++ shadow₂) := by
  obtain ⟨⟨hsub₁, hsub₂⟩, hexact⟩ := htied
  refine ⟨⟨?_, ?_⟩, ?_⟩
  · rw [List.map_append]
    exact List.append_subset.mpr
      ⟨List.subset_append_left _ _, List.Subset.trans hsub₁ (List.subset_append_right _ _)⟩
  · rw [List.map_append]
    exact List.append_subset.mpr
      ⟨List.subset_append_left _ _, List.Subset.trans hsub₂ (List.subset_append_right _ _)⟩
  · intro hmoving
    obtain ⟨h₁, h₂⟩ := hexact hmoving
    rw [h₁, h₂, List.map_append, List.map_append]
    exact ⟨rfl, rfl⟩

/-- Related handles may be held. -/
theorem Rel.hold (Δ : Held) (hrel : S.Rel Γ w m₁ m₂) (hΔ : ∀ p ∈ Δ, S.handle w p.1 p.2) :
    S.Rel (Δ ++ Γ) w { m₁ with shadow := Δ.map Prod.fst ++ m₁.shadow }
      { m₂ with shadow := Δ.map Prod.snd ++ m₂.shadow } where
  core := L.setShadow _ _ hrel.core
  tied := hrel.tied.append Δ
  held p hp := by
    rcases List.mem_append.mp hp with hp | hp
    · exact hΔ p hp
    · exact hrel.held p hp

omit L in
/-- Where nothing is ever collected, any related handles count as held. -/
theorem Rel.count {h₁ h₂ : Handle} (hstays : ¬ S.moving) (hrel : S.Rel Γ w m₁ m₂)
    (h : S.handle w h₁ h₂) : S.Rel ((h₁, h₂) :: Γ) w m₁ m₂ where
  core := hrel.core
  tied := by
    obtain ⟨⟨hsub₁, hsub₂⟩, -⟩ := hrel.tied
    refine ⟨⟨?_, ?_⟩, fun hmoving => absurd hmoving hstays⟩
    · exact List.Subset.trans hsub₁ (List.subset_cons_self _ _)
    · exact List.Subset.trans hsub₂ (List.subset_cons_self _ _)
  held p hp := by
    rcases List.mem_cons.mp hp with rfl | hp
    · exact h
    · exact hrel.held p hp

/-- Then any of the handles that count as held may be the roots. -/
theorem Rel.reroot {shadow₁ shadow₂ : List Handle} (hstays : ¬ S.moving) (hrel : S.Rel Γ w m₁ m₂)
    (h₁ : shadow₁ ⊆ Γ.map Prod.fst) (h₂ : shadow₂ ⊆ Γ.map Prod.snd) :
    S.Rel Γ w { m₁ with shadow := shadow₁ } { m₂ with shadow := shadow₂ } where
  core := L.setShadow _ _ hrel.core
  tied := ⟨⟨h₁, h₂⟩, fun hmoving => absurd hmoving hstays⟩
  held := hrel.held

/-- What an operation held is let go of afterwards, and the roots are as before. -/
theorem agree_keepingRoots {V : S.World → α → β → Prop} {x₁ : Run α} {x₂ : Run β}
    (hrel : S.Rel Γ w m₁ m₂) (hx : S.AgreeOver Γ V x₁ m₁ x₂ m₂) :
    S.Agree Γ V (keepingRoots x₁) m₁ (keepingRoots x₂) m₂ := by
  rcases hx with hexc | ⟨hsee₁, hsee₂, hmatch⟩
  · exact .inl (S.excuses_mono Run.trail_le_keepingRoots Run.trail_le_keepingRoots hexc)
  cases h₁ : x₁.run m₁ with
  | ok a₁ n₁ =>
    cases h₂ : x₂.run m₂ with
    | error => rw [h₁, h₂] at hmatch; exact hmatch.elim
    | ok a₂ n₂ =>
      rw [h₁, h₂] at hmatch
      obtain ⟨Γ', w', hsuf, hrel', hV⟩ := hmatch
      have hback := hrel.restore L hrel' hsuf
      obtain ⟨hlast₁, hlast₂⟩ := L.sees_changes hback
      obtain ⟨hleast₁, hleast₂⟩ := L.sees hrel' (.releases m₁.shadow m₂.shadow)
      refine .inr ⟨?_, ?_, ?_⟩
      · rintro t (ht | rfl | rfl)
        · exact hsee₁ t ht
        · simpa only [after, h₁] using hleast₁
        · exact hlast₁ n₁ _ (by simp only [after, h₁])
      · rintro t (ht | rfl | rfl)
        · exact hsee₂ t ht
        · simpa only [after, h₂] using hleast₂
        · exact hlast₂ n₂ _ (by simp only [after, h₂])
      · simp only [keepingRoots, h₁, h₂]
        exact ⟨Γ, w', rfl, hback, hV⟩
  | error r₁ n₁ =>
    cases h₂ : x₂.run m₂ with
    | ok => rw [h₁, h₂] at hmatch; exact hmatch.elim
    | error r₂ n₂ =>
      rw [h₁, h₂] at hmatch
      obtain ⟨hr, htame, Γ', w', hsuf, hrel'⟩ := hmatch
      have hback := hrel.restore L hrel' hsuf
      obtain ⟨hlast₁, hlast₂⟩ := L.sees_changes hback
      obtain ⟨hleast₁, hleast₂⟩ := L.sees hrel' (.releases m₁.shadow m₂.shadow)
      refine .inr ⟨?_, ?_, ?_⟩
      · rintro t (ht | rfl | rfl)
        · exact hsee₁ t ht
        · simpa only [after, h₁] using hleast₁
        · exact hlast₁ n₁ _ (by simp only [after, h₁])
      · rintro t (ht | rfl | rfl)
        · exact hsee₂ t ht
        · simpa only [after, h₂] using hleast₂
        · exact hlast₂ n₂ _ (by simp only [after, h₂])
      · simp only [keepingRoots, h₁, h₂]
        exact ⟨hr, htame, Γ, w', List.suffix_refl Γ, hback⟩

/-- Operations under additional roots agree, and what was held is still related afterwards. -/
theorem agree_withRoots {V : S.World → α → β → Prop} {x₁ : Run α} {x₂ : Run β} (Δ : Held)
    (hrel : S.Rel Γ w m₁ m₂) (hΔ : ∀ p ∈ Δ, S.handle w p.1 p.2)
    (hx : ∀ {n₁ n₂}, S.Rel (Δ ++ Γ) w n₁ n₂ → S.Agree (Δ ++ Γ) V x₁ n₁ x₂ n₂) :
    S.Agree Γ (fun w' a₁ a₂ => V w' a₁ a₂ ∧ ∀ p ∈ Δ, S.handle w' p.1 p.2)
      (withRoots (Δ.map Prod.fst) x₁) m₁ (withRoots (Δ.map Prod.snd) x₂) m₂ := by
  refine agree_keepingRoots L hrel ?_
  refine agree_modify L (hrel.hold L Δ hΔ) ?_
  refine ((hx (hrel.hold L Δ hΔ)).imp ?_).of_suffix (List.suffix_append Δ Γ)
  rintro Γ' w' n₁ n₂ a₁ a₂ rfl hrel' hV
  exact ⟨List.suffix_append Δ Γ, hV, fun p hp => hrel'.held p (List.mem_append_left Γ hp)⟩

/-! ## The log -/

theorem agree_note (e₁ e₂ : Event) (hrel : S.Rel Γ w m₁ m₂) :
    S.Agree Γ (S.still w fun _ _ => True) (note e₁) m₁ (note e₂) m₂ := by
  refine agree_modify_last L ?_ rfl ⟨rfl, trivial⟩
  by_cases htr : m₁.tracing = true
  · have htr₂ : m₂.tracing = true := L.tracing hrel.core ▸ htr
    simp only [if_pos htr, if_pos htr₂]
    exact ⟨L.setEvents _ _ hrel.core, hrel.tied, hrel.held⟩
  · have htr₂ : ¬ m₂.tracing = true := L.tracing hrel.core ▸ htr
    simp only [if_neg htr, if_neg htr₂]
    exact hrel

end Simulation

end PushLisp
