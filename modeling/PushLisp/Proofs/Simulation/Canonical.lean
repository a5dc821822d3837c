import PushLisp.Proofs.Persistence
import PushLisp.Proofs.Simulation.Diagonal

/-!
# Atoms that are registered

A simulation that relates a machine to itself, like that of a run with itself, but relates fewer handles:
an atom corresponds to itself only if it is registered. Agreement then says of each operation that it
leads from registered atoms to such atoms only. The one exception is an atom that was made while there
was no room for its entry in the registry. The operation fails there, and nothing refers to the atom.

## Main definitions

* `Machine.Known`: handles that name objects, and atoms only if they are registered.
* `Machine.Canonical`: machines on which nothing refers to any other atom.
* `Simulation.canonical`: the simulation.

## Main statements

* `Machine.Canonical.next`: how a machine stays canonical.
* `Simulation.lawful_canonical`: the simulation obeys the laws.
-/
namespace PushLisp

namespace Machine

variable {α : Type} {m m' : Machine} {h k : Handle} {o : Object}

/-- A handle that names an object, and a registered one if that is an atom. -/
def Known (m : Machine) (h : Handle) : Prop :=
  m.Live h ∧ ∀ spelling, m.object? h = some (.atom spelling) → m.Registered h spelling

theorem Known.live (hh : m.Known h) : m.Live h := hh.1

theorem Known.registered {spelling : Bytes} (hh : m.Known h) (hatom : m.object? h = some (.atom spelling)) :
    m.Registered h spelling := hh.2 spelling hatom

/-- The registry is in order, and all atoms that objects, registers and held roots refer to are in it. -/
structure Canonical (m : Machine) : Prop where
  enrolled : ∃ entries, m.heap.Enrolled m.registers.registry entries
  cells : ∀ {h o}, m.object? h = some o → ∀ k ∈ o.references, m.Known k
  roots : ∀ k ∈ m.roots, m.Known k

theorem Registered.known {spelling : Bytes} (hh : m.Registered h spelling) : m.Known h := by
  refine ⟨Option.isSome_of_eq_some hh.object?_eq, fun s hatom => ?_⟩
  cases hh.object?_eq.symm.trans hatom
  exact hh

theorem known_of_kind_ne (ho : m.object? h = some o) (hkind : o.kind ≠ .atom) : m.Known h := by
  refine ⟨Option.isSome_of_eq_some ho, fun s hatom => ?_⟩
  cases ho.symm.trans hatom
  exact absurd rfl hkind

/-- Nothing on a machine refers to a handle. -/
structure Astray (m : Machine) (h : Handle) : Prop where
  cells : ∀ {k o}, m.object? k = some o → h ∉ o.references
  roots : h ∉ m.roots

/-- A machine stays canonical if its new atoms are registered, or astray, and its new objects and roots
refer to known handles. -/
theorem Canonical.next (hm : m.Canonical) (hm' : m'.Intact)
    (hregistered : ∀ {k s}, m.Registered k s → m'.Registered k s)
    (henrolled : ∃ entries, m'.heap.Enrolled m'.registers.registry entries)
    (hatom : ∀ {k s}, m'.object? k = some (.atom s) →
      m.object? k = some (.atom s) ∨ m'.Registered k s ∨ m'.Astray k)
    (hcells : ∀ {h o}, m'.object? h = some o →
      m.object? h = some o ∨ ∀ k ∈ o.references, m.Known k ∨ m'.Known k)
    (hroots : ∀ k ∈ m'.roots, m.Known k ∨ m'.Known k) : m'.Canonical := by
  -- what was known is so still, unless it was dropped and its slot is taken by an atom astray
  have hknown : ∀ {k}, m.Known k ∨ m'.Known k → m'.Live k → ¬ m'.Astray k → m'.Known k := by
    intro k hk hlive hastray
    rcases hk with hk | hk
    · refine ⟨hlive, fun s hs => ?_⟩
      rcases hatom hs with hold | hnew | hnone
      · exact hregistered (hk.registered hold)
      · exact hnew
      · exact absurd hnone hastray
    · exact hk
  refine ⟨henrolled, ?_, ?_⟩
  · intro h o ho k hk
    have hlive : m'.Live k := hm'.sound.live_of_mem_references ho hk
    refine hknown ?_ hlive fun hastray => hastray.cells ho hk
    rcases hcells ho with hold | hnew
    · exact .inl (hm.cells hold k hk)
    · exact hnew k hk
  · intro k hk
    have hlive : m'.Live k := by
      rcases List.mem_append.mp hk with hregister | hshadow
      · exact hm'.sound.live_of_mem_roots hregister
      · exact hm'.shadow k hshadow
    exact hknown (hroots k hk) hlive fun hastray => hastray.roots hk

/-- A machine stays canonical if its heap, its registers and its roots do. -/
theorem Canonical.of_eq (hm : m.Canonical) (hheap : m'.heap = m.heap)
    (hregisters : m'.registers = m.registers) (hshadow : m'.shadow = m.shadow) : m'.Canonical := by
  obtain ⟨heap, registers, shadow, source, sink, tracing, events⟩ := m
  obtain ⟨heap', registers', shadow', source', sink', tracing', events'⟩ := m'
  cases hheap
  cases hregisters
  cases hshadow
  exact ⟨hm.enrolled, hm.cells, hm.roots⟩

/-- An intact machine whose registry is in order can be relied on. -/
theorem Intact.ready (hm : m.Intact) (henrolled : ∃ entries, m.heap.Enrolled m.registers.registry entries) :
    Ready True m.shadow m where
  held := List.suffix_refl _
  unmarked := hm.sound.unmarked
  capacity_le := hm.sound.capacity_le
  object?_nil := hm.sound.object?_nil
  enrolled := henrolled
  plain _ _ _ ho := by
    cases hm.sound.cells ho with
    | primitive hraw => exact hraw
    | _ => trivial

/-! ## What keeps a machine canonical -/

/-- Where room is made, what is registered stays so. -/
theorem Spares.registered {hs : List Handle} {spelling : Bytes} (hspares : Spares hs m m')
    (hh : m.Registered h spelling) : m'.Registered h spelling := by
  obtain ⟨entries, henrolled, hmem⟩ := hh
  rw [hspares.rest_eq]
  exact ⟨entries, hspares.enrolled henrolled, hmem⟩

/-- Making room leaves a machine canonical if nothing new came up but objects that refer to known
handles. -/
theorem Canonical.spares {hs : List Handle} (hm : m.Canonical) (hm' : m'.Intact)
    (hspares : Spares hs m m')
    (hatom : ∀ {k s}, m'.object? k = some (.atom s) → m.object? k = some (.atom s) ∨ m'.Astray k)
    (hcells : ∀ {h o}, m'.object? h = some o → m.object? h = some o ∨ ∀ k ∈ o.references, m.Known k) :
    m'.Canonical := by
  refine hm.next hm' hspares.registered ?_ ?_ ?_ ?_
  · obtain ⟨entries, henrolled⟩ := hm.enrolled
    rw [hspares.rest_eq]
    exact ⟨entries, hspares.enrolled henrolled⟩
  · intro k s hk
    exact (hatom hk).imp_right .inr
  · intro k o ho
    exact (hcells ho).imp_right fun hrefs j hj => .inl (hrefs j hj)
  · intro k hk
    rw [hspares.roots_eq] at hk
    exact .inl (hm.roots k hk)

theorem Canonical.collect (hm : m.Canonical) (hsound : m.Sound) (hm' : (after collect m).Intact) :
    (after collect m).Canonical := by
  obtain ⟨events, hrun⟩ := run_collect m
  have hspares := spares_collect hsound.unmarked [] events
  rw [after_of_ok hrun] at hm' ⊢
  refine hm.spares hm' hspares ?_ ?_
  · intro k s hk
    exact .inl (object?_of_collect hk)
  · intro k o ho
    exact .inl (object?_of_collect ho)

/-- An object other than an atom may refer to known handles. -/
theorem Canonical.allocate (hm : m.Canonical) (hsound : m.Sound) (hm' : (after (allocate o) m).Intact)
    (hkind : o.kind ≠ .atom) (hrefs : ∀ k ∈ o.references, m.Known k) :
    (after (Machine.allocate o) m).Canonical := by
  rcases allocate_spares o hsound.unmarked hsound.capacity_le with
    ⟨h, n, hrun, hplaced⟩ | ⟨n, hrun, hdenied⟩
  · rw [after_of_ok hrun] at hm' ⊢
    refine hm.spares hm' hplaced.spares ?_ ?_
    · intro k s hk
      rcases hplaced.origin hk with ⟨-, rfl⟩ | hold
      · exact absurd rfl hkind
      · exact .inl hold
    · intro k o' ho'
      rcases hplaced.origin ho' with ⟨-, rfl⟩ | hold
      · exact .inr hrefs
      · exact .inl hold
  · rw [after_of_error hrun] at hm' ⊢
    refine hm.spares hm' hdenied.spares ?_ ?_
    · intro k s hk
      exact .inl (hdenied.origin hk)
    · intro k o' ho'
      exact .inl (hdenied.origin ho')

/-- Nothing refers to an atom that was just made. -/
theorem astray_of_allocate_atom {spelling : Bytes} (hm : m.Intact)
    (hrun : allocate (.atom spelling) m = .ok h m') : m'.Astray h := by
  -- it took an empty slot of an intact machine
  have hplace : ∀ {n : Machine} {i}, n.Intact → n.heap.findFree? = some i →
      Astray { n with heap := n.heap.place i (.atom spelling) } (.ofSlot i) := by
    intro n i hn hfree
    have hdead : ¬ n.Live (.ofSlot i) := by
      rw [Live, object?, Heap.get?_ofSlot_of_findFree? hfree hn.sound.capacity_le]
      simp
    constructor
    · intro k o ho hmem
      rcases origin_place hfree hn.sound.capacity_le ho with ⟨-, rfl⟩ | hold
      · simp [Object.references] at hmem
      · exact hdead (hn.sound.live_of_mem_references hold hmem)
    · intro hmem
      rcases List.mem_append.mp hmem with hregister | hshadow
      · exact hdead (hn.sound.live_of_mem_roots hregister)
      · exact hdead (hn.shadow _ hshadow)
  cases hfind : m.heap.findFree? with
  | some i =>
    cases (run_allocate_of_free hfind).symm.trans hrun
    exact hplace hm hfind
  | none =>
    obtain ⟨events, hagain, hfail⟩ := run_allocate_of_full (o := .atom spelling) hfind
    have hcollected : Intact { m with heap := (m.heap.collect m.roots).2, events := events } := by
      refine ⟨hm.sound.collect.of_eq rfl rfl, fun k hk => ?_⟩
      exact live_collect hm.sound.unmarked (hm.shadow k hk) (.root (by simp [Machine.roots, hk]))
    cases hfind' : (m.heap.collect m.roots).2.findFree? with
    | some i =>
      cases (hagain i hfind').symm.trans hrun
      exact hplace hcollected hfind'
    | none => cases (hfail hfind').1.symm.trans hrun

/-- Interning leaves at most an atom behind that is astray. -/
theorem Canonical.intern (hm : m.Canonical) (hintact : m.Intact) (spelling : Bytes)
    (hm' : (after (intern spelling) m).Intact) : (after (Machine.intern spelling) m).Canonical := by
  have hready : Ready False [] m := (hintact.ready hm.enrolled).strict.of_suffix List.nil_suffix
  obtain ⟨entries, henrolled⟩ := hm.enrolled
  rcases intern_cases hready henrolled spelling with
    ⟨atom, hrun, -⟩ | ⟨atom, n, hrun, henters⟩ | ⟨n, hrun, hbarred⟩
  · rw [after_of_ok hrun]
    exact hm
  · rw [after_of_ok hrun] at hm' ⊢
    have hatom : n.Registered atom spelling := ⟨_, henters.enrolled, List.mem_cons_self⟩
    refine hm.next hm' ?_ ⟨_, henters.enrolled⟩ ?_ ?_ ?_
    · intro k s hk
      obtain ⟨entries', henrolled', hmem⟩ := hk
      rw [henrolled'.unique hready.object?_nil henrolled] at hmem
      exact ⟨_, henters.enrolled, List.mem_cons_of_mem _ hmem⟩
    · intro k s hk
      rcases henters.origin hk with rfl | hpair | hold
      · cases hatom.object?_eq.symm.trans hk
        exact .inr (.inl hatom)
      · cases hpair
      · exact .inl hold
    · intro k o ho
      rcases henters.origin ho with rfl | rfl | hold
      · cases hatom.object?_eq.symm.trans ho
        simp [Object.references]
      · have hregistry : m.Known m.registers.registry := hm.roots _ (by simp [Machine.roots, Registers.roots])
        simpa [Object.references] using Or.inr ⟨.inr hatom.known, .inl hregistry⟩
      · exact .inl hold
    · -- the registry is the only register that changed, and it names a pair
      have hregistry : n.Known n.registers.registry := by
        have hspine := henters.enrolled.spine
        generalize n.registers.registry = registry at hspine ⊢
        cases hspine with
        | cons ho _ => exact known_of_kind_ne ho (by simp [Object.kind])
      intro k hk
      rw [Machine.roots, henters.registers_eq, henters.shadow_eq] at hk
      by_cases heq : k = n.registers.registry
      · rw [heq]
        exact .inr hregistry
      · refine .inl (hm.roots k ?_)
        simp only [Machine.roots, Registers.roots, List.mem_append, List.mem_cons] at hk ⊢
        tauto
  · rw [after_of_error hrun] at hm' ⊢
    rcases hbarred.origin with hold | ⟨atom, n₁, hrun₁, hplaced, hroots, hold⟩
    · refine hm.spares hm' hbarred.spares ?_ ?_
      · intro k s hk
        exact .inl (hold hk)
      · intro k o ho
        exact .inl (hold ho)
    · have hastray := astray_of_allocate_atom hintact hrun₁
      refine hm.spares hm' hbarred.spares ?_ ?_
      · intro k s hk
        rcases hplaced.origin (hold hk) with ⟨rfl, -⟩ | hold
        · exact .inr ⟨fun ho => hastray.cells (hold ho), hroots ▸ hastray.roots⟩
        · exact .inl hold
      · intro k o ho
        rcases hplaced.origin (hold ho) with ⟨-, rfl⟩ | hold
        · exact .inr (by simp [Object.references])
        · exact .inl hold

/-- Overwriting a string leaves the same handles known. -/
theorem known_putString {bytes : Array UInt8} (bytes' : Array UInt8) (hsound : m.Sound)
    (hh : m.object? h = some (.string (.owned bytes))) :
    Known { m with heap := m.heap.put h (.string (.owned bytes')) } = m.Known := by
  have hlive := (hsound.putString bytes' hh).1
  funext k
  have hatom : ∀ s, object? { m with heap := m.heap.put h (.string (.owned bytes')) } k = some (.atom s) ↔
      m.object? k = some (.atom s) := fun s => object?_putString_iff hh nofun
  simp only [Known, Registered, hlive, hatom, enrolled_putString_iff hh]

end Machine

/-! ## The simulation -/

/-- The same step may be seen with more handles related. -/
theorem Step.Alike.mono {R R' : Handle → Handle → Prop} {s₁ s₂ : Step} (hsub : ∀ {h k}, R h k → R' h k)
    (h : s₁.Alike R s₂) : s₁.Alike R' s₂ := by
  cases h with
  | changes => exact .changes _ _
  | uses h => exact .uses (h.imp fun _ _ => hsub)
  | prints h => exact .prints (hsub h)
  | stops h => exact .stops h
  | performs h => exact .performs (hsub h)
  | iterates hseq henv => exact .iterates (hsub hseq) (hsub henv)
  | replaces callers₁ callers₂ => exact .replaces callers₁ callers₂
  | releases kept₁ kept₂ => exact .releases kept₁ kept₂

namespace Simulation

open Machine

/-- A canonical machine, the roots held apart, and the same machine with other roots and another log. -/
structure Peers (w : Handle → Prop) (m₁ m₂ : Machine) : Prop where
  world : w = m₁.Known
  settled : Canonical { m₁ with shadow := [] }
  twins : Twins m₁.Live m₁ m₂

/-- Compares a machine with itself, and relates no atom that is not registered. -/
def canonical : Simulation where
  World := Handle → Prop
  handle w h k := h = k ∧ w h
  core := Peers
  moving := True
  excuses _ _ := False
  excuses_mono _ _ h := h
  sees₁ := Moment.Sound
  sees₂ := Moment.Sound

variable {α : Type} {Γ : Held} {w : Handle → Prop} {m m₁ m₂ : Machine} {o₁ o₂ : Object}

/-- Known handles are live. -/
theorem Peers.shared {h k : Handle} (hcore : Peers w m₁ m₂) (hh : canonical.handle w h k) :
    (diagonal true).handle m₁.Live h k := by
  have hw := hh.2
  rw [hcore.world] at hw
  exact ⟨hh.1, hw.live⟩

theorem diagonal_of_rel (hrel : canonical.Rel Γ w m₁ m₂) :
    (diagonal true).Rel Γ m₁.Live m₁ m₂ where
  core := hrel.core.twins
  tied := ⟨hrel.tied.1, fun _ => hrel.tied.2 trivial⟩
  held p hp := hrel.core.shared (hrel.held p hp)

/-- Corresponding machines are canonical. -/
theorem canonical_of_rel (hrel : canonical.Rel Γ w m₁ m₂) : m₁.Canonical := by
  have hcore : Peers w m₁ m₂ := hrel.core
  refine ⟨hcore.settled.enrolled, hcore.settled.cells, fun k hk => ?_⟩
  rcases List.mem_append.mp hk with hregister | hshadow
  · exact hcore.settled.roots k (List.mem_append_left _ hregister)
  · rw [(hrel.tied.2 trivial).1] at hshadow
    obtain ⟨p, hp, rfl⟩ := List.mem_map.mp hshadow
    have hknown := (hrel.held p hp).2
    rwa [hcore.world] at hknown

/-- A canonical machine corresponds to itself, with the roots that it holds. -/
theorem rel_canonical (hintact : m.Intact) (hm : m.Canonical) :
    canonical.Rel (doubled m.shadow) m.Known m m := by
  have hrel : (diagonal true).Rel (doubled m.shadow) m.Live m m := rel_self hintact
  refine ⟨⟨rfl, ⟨hm.enrolled, hm.cells, fun k hk => ?_⟩, hrel.core⟩, ?_, ?_⟩
  · refine hm.roots k ?_
    simpa [Machine.roots] using Or.inl hk
  · exact ⟨hrel.tied.1, fun _ => hrel.tied.2 rfl⟩
  · exact forall_mem_doubled.mpr fun k hk => ⟨rfl, hm.roots k (List.mem_append_right _ hk)⟩

/-- An operation that agrees with itself, and leaves a canonical machine, does so while only known handles
are related. -/
theorem canonical_of_diagonal {x : Run α} {U V : (Handle → Prop) → α → α → Prop}
    (hrel : canonical.Rel Γ w m₁ m₂) (hdiag : (diagonal true).Agree Γ U x m₁ x m₂)
    (hafter : (after x m₁).Intact → (after x m₁).Canonical) (hshadow : (after x m₁).shadow = m₁.shadow)
    (hV : ∀ {a b n}, x m₁ = .ok a n → n.Canonical → U n.Live a b → V n.Known a b) :
    canonical.Agree Γ V x m₁ x m₂ := by
  rcases hdiag with ⟨hstays, -⟩ | ⟨hsees₁, hsees₂, hmatch⟩
  · cases hstays
  have hroots : m₁.shadow = Γ.map Prod.fst := (hrel.tied.2 trivial).1
  -- the roots are held as before, and so they are known
  have hupgrade : ∀ {Γ' w' n₁ n₂}, Γ <:+ Γ' → (diagonal true).Rel Γ' w' n₁ n₂ →
      after x m₁ = n₁ → w' = n₁.Live ∧ n₁.Canonical ∧ canonical.Rel Γ n₁.Known n₁ n₂ := by
    intro Γ' w' n₁ n₂ hsuf hrel' hn
    have htwins : Twins w' n₁ n₂ := hrel'.core
    rw [hn] at hafter hshadow
    have hcanonical := hafter hrel'.intact.1
    obtain ⟨htied₁, htied₂⟩ := hrel'.tied.2 rfl
    have hsame : Γ = Γ' := by
      refine hsuf.eq_of_length ?_
      have hlength := congrArg List.length (htied₁.symm.trans (hshadow.trans hroots))
      simpa using hlength.symm
    subst hsame
    refine ⟨htwins.live, hcanonical, ⟨rfl, ⟨hcanonical.enrolled, hcanonical.cells, fun k hk => ?_⟩,
      htwins.live ▸ htwins⟩, ⟨hrel'.tied.1, fun _ => ⟨htied₁, htied₂⟩⟩, fun p hp => ?_⟩
    · refine hcanonical.roots k ?_
      simpa [Machine.roots] using Or.inl hk
    · refine ⟨(hrel'.held p hp).1, hcanonical.roots _ (List.mem_append_right _ ?_)⟩
      rw [htied₁]
      exact List.mem_map_of_mem hp
  refine .inr ⟨fun t ht => (hsees₁ t ht).1, fun t ht => (hsees₂ t ht).1, ?_⟩
  cases h₁ : x.run m₁ with
  | ok a n₁ =>
    cases h₂ : x.run m₂ with
    | error r n₂ => rw [h₁, h₂] at hmatch; exact hmatch.elim
    | ok b n₂ =>
      rw [h₁, h₂] at hmatch
      obtain ⟨Γ', w', rfl, hrel', hU⟩ := hmatch
      obtain ⟨rfl, hcanonical, hrel''⟩ := hupgrade (List.suffix_refl _) hrel' (after_of_ok h₁)
      exact ⟨_, _, rfl, hrel'', hV h₁ hcanonical hU⟩
  | error r n₁ =>
    cases h₂ : x.run m₂ with
    | ok b n₂ => rw [h₁, h₂] at hmatch; exact hmatch.elim
    | error r₂ n₂ =>
      rw [h₁, h₂] at hmatch
      obtain ⟨rfl, htame, Γ', w', hsuf, hrel'⟩ := hmatch
      obtain ⟨-, -, hrel''⟩ := hupgrade hsuf hrel' (after_of_error h₁)
      exact ⟨rfl, htame, Γ, _, List.suffix_refl Γ, hrel''⟩

/-- An operation that agrees with itself leaves a canonical machine, and is sound at every moment. -/
theorem canonical_after {P : Held → Prop} {V : canonical.World → α → α → Prop} {x : Run α}
    (hx : canonical.AgreeIn Γ P V x m x m) :
    (after x m).Intact ∧ (after x m).Canonical ∧ ∀ t, x.passes m t → t.Sound := by
  rcases hx with hexc | ⟨hsees, -, hmatch⟩
  · exact hexc.elim
  cases hrun : x.run m with
  | ok a n =>
    rw [hrun] at hmatch
    obtain ⟨Γ', w, -, hrel, -⟩ := hmatch
    rw [after_of_ok hrun]
    exact ⟨(diagonal_of_rel hrel).intact.1, canonical_of_rel hrel, hsees⟩
  | error r n =>
    rw [hrun] at hmatch
    obtain ⟨-, -, Γ', w, -, hrel⟩ := hmatch
    rw [after_of_error hrun]
    exact ⟨(diagonal_of_rel hrel).intact.1, canonical_of_rel hrel, hsees⟩

/-- Known handles may be put into registers other than the registry. -/
theorem Peers.setRegisters {r₁ r₂ : Registers} (hcore : Peers w m₁ m₂)
    (hr : r₁.Alike (canonical.handle w) r₂) (hregistry : r₁.registry = m₁.registers.registry)
    (htwins : Twins m₁.Live { m₁ with registers := r₁ } { m₂ with registers := r₂ }) :
    Peers w { m₁ with registers := r₁ } { m₂ with registers := r₂ } := by
  -- the registry stays, so the same handles are known
  have hknown : Known { m₁ with registers := r₁ } = m₁.Known := by
    funext k
    simp only [Known, Registered, hregistry]
    rfl
  refine ⟨hcore.world.trans hknown.symm, ⟨?_, ?_, fun k hk => ?_⟩, htwins⟩
  · show ∃ entries, m₁.heap.Enrolled r₁.registry entries
    rw [hregistry]
    exact hcore.settled.enrolled
  · intro h o ho k hk
    show Known { m₁ with registers := r₁ } k
    rw [hknown]
    exact hcore.settled.cells ho k hk
  · show Known { m₁ with registers := r₁ } k
    have hroots := Registers.alike_iff.mp hr
    have hmem : k ∈ r₁.roots := by simpa [Machine.roots] using hk
    rw [hknown, ← hcore.world]
    exact ((List.forall₂_and_left _ _).mp (hroots.imp fun _ _ h => ⟨h.2, h.1⟩)).1 k hmem

/-- The registers of corresponding machines correspond. -/
theorem Peers.registers (hcore : Peers w m₁ m₂) :
    m₁.registers.Alike (canonical.handle w) m₂.registers := by
  rw [hcore.twins.registers_eq]
  refine .of_roots fun k hk => ⟨rfl, ?_⟩
  rw [hcore.world]
  exact hcore.settled.roots k (List.mem_append_left _ hk)

/-! ## The laws -/

theorem coherent_canonical : canonical.Coherent where
  nil hcore := ⟨rfl, hcore.world ▸ known_of_kind_ne hcore.twins.sound.object?_nil nofun⟩
  same := by
    rintro w m₁ m₂ h₁ _ k₁ _ - ⟨rfl, -⟩ ⟨rfl, -⟩
    exact Iff.rfl
  object := by
    rintro w m₁ m₂ h _ hcore ⟨rfl, hh⟩
    rw [hcore.world] at hh
    obtain ⟨o, ho⟩ := Option.isSome_iff_exists.mp hh.live
    refine ⟨o, o, ho, (hcore.twins.object?_eq h).trans ho, ?_⟩
    refine (hcore.twins.sound.cells ho).of_references fun k hk => ⟨rfl, ?_⟩
    rw [hcore.world]
    exact hcore.settled.cells ho k hk
  registers hcore := hcore.registers
  source hcore := by rw [hcore.twins.same]
  tracing hcore := by rw [hcore.twins.same]
  flushFails hcore := by rw [hcore.twins.same]
  grants hcore := by rw [hcore.twins.same]
  setRegisters {w m₁ m₂ r₁ r₂} hcore hr hfix₁ hfix₂ := by
    have hr' : r₁.Alike (canonical.handle w) r₂ := hr
    have hshared : r₁.Alike ((diagonal true).handle m₁.Live) r₂ :=
      Registers.alike_iff.mpr ((Registers.alike_iff.mp hr').imp fun _ _ => hcore.shared)
    exact hcore.setRegisters hr' hfix₁.2.2.2.1
      ((coherent_diagonal true).setRegisters hcore.twins hshared hfix₁ hfix₂)
  setSource source hcore := ⟨hcore.world, hcore.settled.of_eq rfl rfl rfl,
    (coherent_diagonal true).setSource source hcore.twins⟩
  setShadow shadow₁ shadow₂ hcore := ⟨hcore.world, hcore.settled.of_eq rfl rfl rfl,
    (coherent_diagonal true).setShadow shadow₁ shadow₂ hcore.twins⟩
  setEvents events₁ events₂ hcore := ⟨hcore.world, hcore.settled.of_eq rfl rfl rfl,
    (coherent_diagonal true).setEvents events₁ events₂ hcore.twins⟩
  putString := by
    rintro w m₁ m₂ h _ bytes bytes' hcore ⟨rfl, hh⟩ ho₁ ho₂ hsize
    have htwins := (coherent_diagonal true).putString hcore.twins (hcore.shared ⟨rfl, hh⟩) ho₁ ho₂ hsize
    have hknown := known_putString bytes' hcore.twins.sound ho₁
    refine ⟨hcore.world.trans hknown.symm, ?_, htwins.live ▸ htwins⟩
    refine ⟨?_, ?_, fun k hk => ?_⟩
    · obtain ⟨entries, henrolled⟩ := hcore.settled.enrolled
      exact ⟨entries, (enrolled_putString_iff ho₁).mpr henrolled⟩
    · intro k o ho j hj
      show Known { m₁ with heap := m₁.heap.put h (.string (.owned bytes')) } j
      rw [hknown]
      rcases object?_of_putString ho₁ ho with ⟨-, rfl⟩ | hold
      · simp [Object.references] at hj
      · exact hcore.settled.cells hold j hj
    · show Known { m₁ with heap := m₁.heap.put h (.string (.owned bytes')) } k
      rw [hknown]
      exact hcore.settled.roots k hk
  sees hrel hstep := by
    obtain ⟨hsee₁, hsee₂⟩ := diagonal_sees (diagonal_of_rel hrel) (hstep.mono hrel.core.shared)
    exact ⟨hsee₁.1, hsee₂.1⟩

theorem canonical_allocate (hrel : canonical.Rel Γ w m₁ m₂) (ho : o₁.Alike (canonical.handle w) o₂)
    (hkind : o₁.kind ≠ .atom) :
    canonical.Agree Γ (fun w' h₁ h₂ => canonical.handle w' h₁ h₂ ∧ o₁.Alike (canonical.handle w') o₂)
      (allocate o₁) m₁ (allocate o₂) m₂ := by
  have hcore : Peers w m₁ m₂ := hrel.core
  have hsound := hcore.twins.sound
  have hdiag := diagonal_allocate (diagonal_of_rel hrel) (ho.mono fun _ _ => hcore.shared)
  obtain rfl : o₁ = o₂ := ho.eq fun h => h.1
  refine canonical_of_diagonal hrel hdiag ?_ ?_ ?_
  · intro hintact
    refine (canonical_of_rel hrel).allocate hsound hintact hkind fun k hk => ?_
    rw [← hcore.world]
    exact (List.forall₂_same.mp ho.references k hk).2
  · rcases allocate_spares o₁ hsound.unmarked hsound.capacity_le with
      ⟨h, n, hrun, hplaced⟩ | ⟨n, hrun, hdenied⟩
    · rw [after_of_ok hrun, hplaced.spares.rest_eq]
    · rw [after_of_error hrun, hdenied.spares.rest_eq]
  · intro h k n hrun hn hU
    rcases allocate_spares o₁ hsound.unmarked hsound.capacity_le with
      ⟨h', n', hrun', hplaced⟩ | ⟨n', hrun', -⟩
    · cases hrun'.symm.trans hrun
      have hobject := hplaced.object?_eq
      refine ⟨⟨hU.1.1, known_of_kind_ne hobject hkind⟩, ?_⟩
      exact ho.of_references fun j hj => ⟨rfl, hn.cells hobject j hj⟩
    · cases hrun'.symm.trans hrun

theorem canonical_intern (spelling : Bytes) (hrel : canonical.Rel Γ w m₁ m₂) :
    canonical.Agree Γ canonical.handle (intern spelling) m₁ (intern spelling) m₂ := by
  have hintact := (diagonal_of_rel hrel).intact.1
  have hcanonical := canonical_of_rel hrel
  have hready : Ready False [] m₁ := (hintact.ready hcanonical.enrolled).strict.of_suffix List.nil_suffix
  obtain ⟨entries, henrolled⟩ := hcanonical.enrolled
  have hdiag := (lawful_diagonal true).intern spelling (diagonal_of_rel hrel)
  refine canonical_of_diagonal hrel hdiag (hcanonical.intern hintact spelling) ?_ ?_
  · rcases intern_cases hready henrolled spelling with
      ⟨atom, hrun, -⟩ | ⟨atom, n, hrun, henters⟩ | ⟨n, hrun, hbarred⟩
    · rw [after_of_ok hrun]
    · rw [after_of_ok hrun]
      exact henters.shadow_eq
    · rw [after_of_error hrun, hbarred.spares.rest_eq]
  · intro h k n hrun hn hU
    rcases intern_cases hready henrolled spelling with
      ⟨atom, hrun', hmem⟩ | ⟨atom, n', hrun', henters⟩ | ⟨n', hrun', -⟩
    · cases hrun'.symm.trans hrun
      have hatom : m₁.Registered h spelling := ⟨entries, henrolled, hmem⟩
      exact ⟨hU.1, hatom.known⟩
    · cases hrun'.symm.trans hrun
      have hatom : n.Registered h spelling := ⟨_, henters.enrolled, List.mem_cons_self⟩
      exact ⟨hU.1, hatom.known⟩
    · cases hrun'.symm.trans hrun

theorem canonical_collect (hrel : canonical.Rel Γ w m₁ m₂) :
    canonical.Agree Γ canonical.anything collect m₁ collect m₂ := by
  refine canonical_of_diagonal hrel (diagonal_collect (diagonal_of_rel hrel)) ?_ ?_ fun _ _ _ => trivial
  · exact (canonical_of_rel hrel).collect hrel.core.twins.sound
  · obtain ⟨events, hrun⟩ := run_collect m₁
    rw [after_of_ok hrun]

theorem canonical_print {h₁ h₂ : Handle} (hrel : canonical.Rel Γ w m₁ m₂)
    (h : canonical.handle w h₁ h₂) :
    canonical.Agree Γ canonical.anything (printValue h₁) m₁ (printValue h₂) m₂ := by
  have L := coherent_canonical
  have hcore : Peers w m₁ m₂ := hrel.core
  refine agree_observe L hrel (.prints h) ?_
  have hroom : m₁.sink.room? = m₂.sink.room? := by rw [hcore.twins.same]
  refine agree_ask L hrel (answers_printout L hrel.core h hroom) fun pieces₁ pieces₂ hpieces => ?_
  rw [hpieces (.inl fun h => h.1)]
  refine agree_write L _ hrel (by rw [hcore.twins.same]) ?_
  refine ⟨hcore.world, hcore.settled.of_eq rfl rfl rfl, rfl, hcore.twins.sound.of_eq rfl rfl, ?_⟩
  rw [hcore.twins.same]

theorem storing_canonical : canonical.Storing where
  toCoherent := coherent_canonical
  allocate := canonical_allocate
  intern := canonical_intern
  collect := canonical_collect
  print := canonical_print

/-- Relating registered atoms only obeys the laws. -/
theorem lawful_canonical : canonical.Lawful :=
  storing_canonical.lawful (fun hcore => hcore.registers.stack) fun hcore hs =>
    hcore.setRegisters { hcore.registers with stack := hs } rfl (hcore.twins.setStack (hcore.shared hs))

end Simulation

end PushLisp
