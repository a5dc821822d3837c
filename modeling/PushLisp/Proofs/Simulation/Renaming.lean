import PushLisp.Proofs.Simulation.Evaluator
import PushLisp.Proofs.Terms

/-!
# Renamings of handles

Two runs that collect at different times find different slots for their objects. What stays the same is
the graph of objects that the roots lead to, up to a renaming of handles: a relation, one to one, under
which related handles name objects that are alike. A renaming outlasts whatever the two machines do as
long as it is restricted to the objects that both keep, and it may be extended by two new objects that are
alike.

## Main definitions

* `Heap.Matches`: related handles name objects that are alike.
* `Machine.Keeps`: a later machine has all objects of a set.
* `Simulation.Mirrors`: machines that correspond under a renaming.

## Main statements

* `Heap.Matches.exists_reaches`: what is reached on one side is reached on the other.
* `Simulation.Mirrors.restrict`, `Simulation.Mirrors.add`: renamings of fewer and of more handles.
-/
namespace PushLisp

/-! ## Restricted relations -/

section Restrict

variable {R : Handle → Handle → Prop} {K₁ K₂ : Handle → Prop}

theorem forall₂_restrict {hs₁ hs₂ : List Handle} (h : List.Forall₂ R hs₁ hs₂) (h₁ : ∀ k ∈ hs₁, K₁ k)
    (h₂ : ∀ k ∈ hs₂, K₂ k) : List.Forall₂ (fun h k => R h k ∧ K₁ h ∧ K₂ k) hs₁ hs₂ := by
  induction h with
  | nil => exact .nil
  | cons hR _ ih =>
    rw [List.forall_mem_cons] at h₁ h₂
    exact .cons ⟨hR, h₁.1, h₂.1⟩ (ih h₁.2 h₂.2)

/-- Objects that are alike still are when only references in certain sets count. -/
theorem Object.Alike.restrict {o₁ o₂ : Object} (h : o₁.Alike R o₂) (h₁ : ∀ k ∈ o₁.references, K₁ k)
    (h₂ : ∀ k ∈ o₂.references, K₂ k) : o₁.Alike (fun h k => R h k ∧ K₁ h ∧ K₂ k) o₂ := by
  have hrefs := forall₂_restrict h.references h₁ h₂
  cases h with
  | nil => exact .nil
  | atom s => exact .atom s
  | number n => exact .number n
  | pair =>
    simp only [Object.references, List.forall₂_cons] at hrefs
    exact .pair hrefs.1 hrefs.2.1
  | closure =>
    simp only [Object.references, List.forall₂_cons] at hrefs
    exact .closure hrefs.1 hrefs.2.1
  | primitive hraw => exact .primitive hraw
  | string b => exact .string b

end Restrict

/-- Objects that are alike are so in the other direction. -/
theorem Object.Alike.flip {R : Handle → Handle → Prop} {o₁ o₂ : Object} (h : o₁.Alike R o₂) :
    o₂.Alike (flip R) o₁ := by
  cases h with
  | nil => exact .nil
  | atom s => exact .atom s
  | number n => exact .number n
  | pair hcar hcdr => exact .pair hcar hcdr
  | closure hbody henv => exact .closure hbody henv
  | primitive hraw => exact .primitive hraw
  | string b => exact .string b

/-! ## Matching graphs -/

namespace Heap

/-- Related handles name objects that are alike. -/
def Matches (R : Handle → Handle → Prop) (heap₁ heap₂ : Heap) : Prop :=
  ∀ h₁ h₂, R h₁ h₂ → ∃ o₁ o₂, heap₁.get? h₁ = some o₁ ∧ heap₂.get? h₂ = some o₂ ∧ o₁.Alike R o₂

variable {R : Handle → Handle → Prop} {heap₁ heap₂ : Heap} {roots₁ roots₂ : List Handle}

theorem Matches.flip (h : Matches R heap₁ heap₂) : Matches (flip R) heap₂ heap₁ := by
  intro h₂ h₁ hR
  obtain ⟨o₁, o₂, ho₁, ho₂, halike⟩ := h _ _ hR
  exact ⟨o₂, o₁, ho₂, ho₁, halike.flip⟩

theorem exists_of_mem_left {hs₁ hs₂ : List Handle} (h : List.Forall₂ R hs₁ hs₂) {k : Handle}
    (hk : k ∈ hs₁) : ∃ k' ∈ hs₂, R k k' := by
  induction h with
  | nil => cases hk
  | cons hR _ ih =>
    rcases List.mem_cons.mp hk with rfl | hk
    · exact ⟨_, List.mem_cons_self, hR⟩
    · obtain ⟨k', hk', hR'⟩ := ih hk
      exact ⟨k', List.mem_cons_of_mem _ hk', hR'⟩

/-- What is reached in one of two matching graphs corresponds to something reached in the other. -/
theorem Matches.exists_reaches (h : Matches R heap₁ heap₂) (hroots : List.Forall₂ R roots₁ roots₂)
    {k : Handle} (hk : heap₁.Reaches roots₁ k) : ∃ k', heap₂.Reaches roots₂ k' ∧ R k k' := by
  induction hk with
  | root hmem =>
    obtain ⟨k', hk', hR⟩ := exists_of_mem_left hroots hmem
    exact ⟨k', .root hk', hR⟩
  | reference _ ho hk ih =>
    obtain ⟨h', hreach, hR⟩ := ih
    obtain ⟨o₁, o₂, ho₁, ho₂, halike⟩ := h _ _ hR
    rw [ho] at ho₁
    cases ho₁
    obtain ⟨k', hk', hR'⟩ := exists_of_mem_left halike.references hk
    exact ⟨k', .reference hreach ho₂ hk', hR'⟩

end Heap

/-! ## What later machines keep -/

namespace Machine

variable {m m' : Machine} {o : Object} {hs : List Handle}

/-- The machine `m'` came from `m` and has all objects under the handles in `K`, which include the
registers and are closed under references. Only objects and the log may have changed. -/
structure Keeps (K : Handle → Prop) (m m' : Machine) : Prop where
  nil : K .nil
  registers : ∀ h ∈ m.registers.roots, K h
  references : ∀ {h o}, K h → m.object? h = some o → ∀ k ∈ o.references, K k
  object?_eq : ∀ {h o}, K h → m.object? h = some o → m'.object? h = some o
  unmarked : m'.heap.Unmarked
  capacity_eq : m'.heap.capacity = m.heap.capacity
  platform_eq : m'.heap.platform = m.heap.platform
  rest_eq : m' = { m with heap := m'.heap, events := m'.events }

namespace Keeps

variable {K : Handle → Prop}

theorem registers_eq (hk : Keeps K m m') : m'.registers = m.registers := by rw [hk.rest_eq]

/-- What is kept includes all that it leads to. -/
theorem of_reaches (hk : Keeps K m m') (hroots : ∀ h ∈ hs, K h) {k : Handle}
    (hreach : m.heap.Reaches hs k) : K k := by
  induction hreach with
  | root hmem => exact hroots _ hmem
  | reference _ ho hk' ih => exact hk.references ih ho _ hk'

/-- A list that is kept is there with its values. -/
theorem spine (hk : Keeps K m m') {h : Handle} (hh : K h) (hspine : m.heap.Spine h hs) :
    m'.heap.Spine h hs ∧ ∀ k ∈ hs, K k := by
  have hroots : ∀ k ∈ [h], K k := by simpa using hh
  constructor
  · exact hspine.congr fun hreach ho => hk.object?_eq (hk.of_reaches hroots hreach) ho
  · intro k hmem
    exact hk.of_reaches hroots (hspine.reaches k hmem)

end Keeps

/-- What is spared is kept. -/
theorem Spares.keeps (h : Spares hs m m') : Keeps (m.heap.Reaches (.nil :: (hs ++ m.roots))) m m' where
  nil := .root List.mem_cons_self
  registers k hk := .root (by simp [roots, hk])
  references hh ho _ hk := .reference hh ho hk
  object?_eq hh ho := h.object?_eq ho hh
  unmarked := h.unmarked
  capacity_eq := h.capacity_eq
  platform_eq := h.platform_eq
  rest_eq := h.rest_eq

/-- Placing an object in an empty slot keeps everything. -/
theorem keeps_place (hclear : m.heap.Unmarked) (hcap : m.heap.capacity ≤ 2 ^ 64) {i : ℕ}
    (hfree : m.heap.findFree? = some i) :
    Keeps (fun _ => True) m { m with heap := m.heap.place i o } where
  nil := trivial
  registers _ _ := trivial
  references _ _ _ _ := trivial
  object?_eq {h _} _ ho := by
    have hne := Heap.ne_ofSlot_of_findFree? hfree hcap (Option.isSome_of_eq_some ho)
    rw [object?, Heap.get?_place hfree hcap, if_neg hne]
    exact ho
  unmarked := hclear.place i o
  capacity_eq := Heap.capacity_place _ _ _
  platform_eq := rfl
  rest_eq := rfl

end Machine

/-! ## Renamings -/

/-- State blocks stay related if what relates them is replaced. -/
theorem Registers.Alike.imp {R R' Q Q' : Handle → Handle → Prop} {r₁ r₂ : Registers}
    (h : r₁.Alike R r₂ Q) (hR : ∀ h₁ ∈ r₁.roots, ∀ h₂ ∈ r₂.roots, R h₁ h₂ → R' h₁ h₂)
    (hQ : Q' r₁.stack r₂.stack) : r₁.Alike R' r₂ Q' := by
  simp only [Registers.roots, List.forall_mem_cons] at hR
  grind [Registers.Alike]

namespace Simulation

open Machine

/-- Machines that correspond under a renaming `R` of handles, whatever the sizes of their tables. Their
value stacks are related by `Q`. -/
structure Mirrors (quiet failing : Bool) (R Q : Handle → Handle → Prop) (m₁ m₂ : Machine) : Prop where
  nil : R .nil .nil
  same : ∀ {h₁ h₂ k₁ k₂}, R h₁ h₂ → R k₁ k₂ → (h₁ = k₁ ↔ h₂ = k₂)
  object : Heap.Matches R m₁.heap m₂.heap
  registers : m₁.registers.Alike R m₂.registers Q
  unmarked₁ : m₁.heap.Unmarked
  unmarked₂ : m₂.heap.Unmarked
  capacity_le₁ : m₁.heap.capacity ≤ 2 ^ 64
  capacity_le₂ : m₂.heap.capacity ≤ 2 ^ 64
  source : m₁.source = m₂.source
  tracing : m₁.tracing = m₂.tracing
  grants : m₁.heap.platform.grants = m₂.heap.platform.grants
  sinks : SinksAlike quiet failing m₁.sink m₂.sink

namespace Mirrors

variable {quiet failing : Bool} {R Q Q' : Handle → Handle → Prop} {m₁ m₂ m₁' m₂' : Machine}
  {o₁ o₂ : Object} {h₁ h₂ : Handle} {K₁ K₂ : Handle → Prop}

/-- A renaming may be restricted to what is kept on both sides. -/
theorem restrict (h : Mirrors quiet failing R Q m₁ m₂) (hk₁ : Keeps K₁ m₁ m₁') (hk₂ : Keeps K₂ m₂ m₂')
    (hstack : Q' m₁.registers.stack m₂.registers.stack) :
    Mirrors quiet failing (fun h k => R h k ∧ K₁ h ∧ K₂ k) Q' m₁' m₂' where
  nil := ⟨h.nil, hk₁.nil, hk₂.nil⟩
  same hh hk := h.same hh.1 hk.1
  object := by
    rintro h₁ h₂ ⟨hR, hK₁, hK₂⟩
    obtain ⟨o₁, o₂, ho₁, ho₂, halike⟩ := h.object _ _ hR
    exact ⟨o₁, o₂, hk₁.object?_eq hK₁ ho₁, hk₂.object?_eq hK₂ ho₂,
      halike.restrict (hk₁.references hK₁ ho₁) (hk₂.references hK₂ ho₂)⟩
  registers := by
    rw [hk₁.rest_eq, hk₂.rest_eq]
    refine h.registers.imp (fun h₁ hh₁ h₂ hh₂ hR => ?_) hstack
    exact ⟨hR, hk₁.registers h₁ hh₁, hk₂.registers h₂ hh₂⟩
  unmarked₁ := hk₁.unmarked
  unmarked₂ := hk₂.unmarked
  capacity_le₁ := by
    rw [hk₁.capacity_eq]
    exact h.capacity_le₁
  capacity_le₂ := by
    rw [hk₂.capacity_eq]
    exact h.capacity_le₂
  source := by
    rw [hk₁.rest_eq, hk₂.rest_eq]
    exact h.source
  tracing := by
    rw [hk₁.rest_eq, hk₂.rest_eq]
    exact h.tracing
  grants := by
    rw [hk₁.platform_eq, hk₂.platform_eq]
    exact h.grants
  sinks := by
    rw [hk₁.rest_eq, hk₂.rest_eq]
    exact h.sinks

/-- A renaming is a function. -/
theorem exists_rename (h : Mirrors quiet failing R Q m₁ m₂) :
    ∃ f : Handle → Handle, ∀ h k, R h k → f h = k := by
  classical
  refine ⟨fun k => if hk : ∃ k', R k k' then hk.choose else k, fun k k' hk => ?_⟩
  have hex : ∃ k', R k k' := ⟨k', hk⟩
  exact (dif_pos hex).trans ((h.same hex.choose_spec hk).mp rfl)

/-- Two handles that are not renamed yet may be related if they name objects that are alike. -/
theorem add (h : Mirrors quiet failing R Q m₁ m₂) (ho₁ : m₁.object? h₁ = some o₁)
    (ho₂ : m₂.object? h₂ = some o₂) (halike : o₁.Alike R o₂) (hnew₁ : ∀ k, ¬ R h₁ k)
    (hnew₂ : ∀ k, ¬ R k h₂) (hstack : Q' m₁.registers.stack m₂.registers.stack) :
    Mirrors quiet failing (fun h k => h = h₁ ∧ k = h₂ ∨ R h k) Q' m₁ m₂ where
  nil := .inr h.nil
  same := by
    rintro k₁ k₂ l₁ l₂ (⟨rfl, rfl⟩ | hk) (⟨rfl, rfl⟩ | hl)
    · simp
    · constructor
      · rintro rfl
        exact absurd hl (hnew₁ _)
      · rintro rfl
        exact absurd hl (hnew₂ _)
    · constructor
      · rintro rfl
        exact absurd hk (hnew₁ _)
      · rintro rfl
        exact absurd hk (hnew₂ _)
    · exact h.same hk hl
  object := by
    rintro k₁ k₂ (⟨rfl, rfl⟩ | hk)
    · exact ⟨o₁, o₂, ho₁, ho₂, halike.mono fun _ _ => .inr⟩
    · obtain ⟨p₁, p₂, hp₁, hp₂, hp⟩ := h.object _ _ hk
      exact ⟨p₁, p₂, hp₁, hp₂, hp.mono fun _ _ => .inr⟩
  registers := h.registers.imp (fun _ _ _ _ => .inr) hstack
  unmarked₁ := h.unmarked₁
  unmarked₂ := h.unmarked₂
  capacity_le₁ := h.capacity_le₁
  capacity_le₂ := h.capacity_le₂
  source := h.source
  tracing := h.tracing
  grants := h.grants
  sinks := h.sinks

/-- Corresponding strings may be overwritten alike. -/
theorem putString {bytes : Array UInt8} (h : Mirrors quiet failing R Q m₁ m₂) (hR : R h₁ h₂)
    (ho₁ : m₁.object? h₁ = some (.string (.owned bytes)))
    (ho₂ : m₂.object? h₂ = some (.string (.owned bytes))) (bytes' : Array UInt8) :
    Mirrors quiet failing R Q { m₁ with heap := m₁.heap.put h₁ (.string (.owned bytes')) }
      { m₂ with heap := m₂.heap.put h₂ (.string (.owned bytes')) } where
  nil := h.nil
  same := h.same
  object := by
    intro k₁ k₂ hk
    rw [Heap.get?_put ho₁, Heap.get?_put ho₂]
    by_cases heq : k₁ = h₁
    · rw [if_pos heq, if_pos ((h.same hk hR).mp heq)]
      exact ⟨_, _, rfl, rfl, .string bytes'⟩
    · rw [if_neg heq, if_neg (mt (h.same hk hR).mpr heq)]
      exact h.object _ _ hk
  registers := h.registers
  unmarked₁ := h.unmarked₁.modify h₁ _
  unmarked₂ := h.unmarked₂.modify h₂ _
  capacity_le₁ := by
    rw [Heap.put, Heap.capacity_modify]
    exact h.capacity_le₁
  capacity_le₂ := by
    rw [Heap.put, Heap.capacity_modify]
    exact h.capacity_le₂
  source := h.source
  tracing := h.tracing
  grants := h.grants
  sinks := h.sinks

end Mirrors

/-! ## Held roots -/

variable {S : Simulation} {Γ : Held} {w : S.World} {m₁ m₂ : Machine}

/-- Runs that may collect hold corresponding roots one by one. -/
theorem Rel.forall₂_shadow (hrel : S.Rel Γ w m₁ m₂) (hmoving : S.moving) :
    List.Forall₂ (S.handle w) m₁.shadow m₂.shadow := by
  rw [(hrel.tied.2 hmoving).1, (hrel.tied.2 hmoving).2, List.forall₂_map_left_iff,
    List.forall₂_map_right_iff, List.forall₂_same]
  exact hrel.held

/-- What they hold is spared. -/
theorem Rel.reaches_held {hs₁ hs₂ : List Handle} (hrel : S.Rel Γ w m₁ m₂) (hmoving : S.moving) :
    ∀ p ∈ Γ, m₁.heap.Reaches (.nil :: (hs₁ ++ m₁.roots)) p.1 ∧
      m₂.heap.Reaches (.nil :: (hs₂ ++ m₂.roots)) p.2 := by
  intro p hp
  obtain ⟨hshadow₁, hshadow₂⟩ := hrel.tied.2 hmoving
  have hmem₁ : p.1 ∈ m₁.shadow := hshadow₁ ▸ List.mem_map_of_mem hp
  have hmem₂ : p.2 ∈ m₂.shadow := hshadow₂ ▸ List.mem_map_of_mem hp
  exact ⟨.root (by simp [roots, hmem₁]), .root (by simp [roots, hmem₂])⟩

end Simulation

end PushLisp
