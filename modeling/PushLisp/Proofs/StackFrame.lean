import PushLisp.Proofs.EmptyScope
import PushLisp.Proofs.LexicalScope
import PushLisp.Proofs.Simulation.Deepening
import PushLisp.Proofs.TableSize

/-!
# What lies below on the stack

A sequence takes its operands off the stack and leaves its results there. Unless it takes the whole stack
for a value, it neither sees nor touches what lies below its operands. So a sequence that runs to its end
runs alike on a stack with more values at the bottom: it leaves the same results, above these values, and
writes the same output. The other state may be on a table of any size and have other handles for its
objects. Then it may run out of slots, but that is all that can happen.

## Main definitions

* `Machine.Accessible`: what a program can get at on a machine.
* `Machine.Deepened`: a state with more values at the bottom of its stack, up to renaming.

## Main statements

* `Machine.compute_deepened`: running a sequence on a deeper stack.
-/
namespace PushLisp

namespace Machine

/-- The roots of a machine other than its value stack. -/
def offStack (m : Machine) : List Handle :=
  { m.registers with stack := m.registers.nil }.roots ++ m.shadow

/-- What the roots of a machine, some given handles and the values on its stack lead to. This need not
include the cells of the stack. -/
def Accessible (m : Machine) (given values : List Handle) (h : Handle) : Prop :=
  m.heap.Reaches (m.offStack ++ (given ++ values)) h

/-- The machine `m₂` is the same as `m₁` up to the renaming `f` of handles, except that `m₁` has `values` on
its stack and `m₂` has these and below them `extra`. The handles `given` are renamed too. Nothing is said
about the sizes of the tables, output and log. -/
structure Deepened (f : Handle → Handle) (given values extra : List Handle) (m₁ m₂ : Machine) : Prop where
  stack₁ : m₁.heap.Spine m₁.registers.stack values
  stack₂ : m₂.heap.Spine m₂.registers.stack (values.map f ++ extra)
  offStack_eq : m₂.offStack = m₁.offStack.map f
  injOn : Set.InjOn f {k | m₁.Accessible given values k}
  object?_eq : ∀ {k o}, m₁.Accessible given values k → m₁.object? k = some o →
    m₂.object? (f k) = some (o.rename f)
  source_eq : m₂.source = m₁.source
  tracing_eq : m₂.tracing = m₁.tracing
  grants_eq : m₂.heap.platform.grants = m₁.heap.platform.grants

variable {f : Handle → Handle} {given values extra : List Handle} {m m₁ m₂ : Machine} {k : Handle}

/-- What live handles lead to is live. -/
theorem Sound.live_of_reaches (hm : m.Sound) {hs : List Handle} (hlive : ∀ h ∈ hs, m.Live h)
    (hk : m.heap.Reaches hs k) : m.Live k := by
  induction hk with
  | root hmem => exact hlive _ hmem
  | reference _ ho hmem => exact hm.live_of_mem_references ho hmem

theorem Intact.live_offStack (hm : m.Intact) : ∀ h ∈ m.offStack, m.Live h := by
  intro h hh
  rcases List.mem_append.mp hh with hh | hh
  · apply hm.sound.live_of_mem_roots
    simp only [Registers.roots, List.mem_cons, List.not_mem_nil, or_false] at hh ⊢
    tauto
  · exact hm.shadow h hh

/-- The values on the stack of a machine are live. -/
theorem Sound.live_of_spine (hm : m.Sound) (hspine : m.heap.Spine m.registers.stack values) :
    ∀ h ∈ values, m.Live h := by
  intro h hh
  have hstack : m.Live m.registers.stack := hm.live_of_mem_roots (by simp [Registers.roots])
  exact hm.live_of_reaches (List.forall_mem_singleton.mpr hstack) (hspine.reaches h hh)

end Machine

/-- A renamed object is like the object it was. -/
theorem Object.Alike.rename {R Q : Handle → Handle → Prop} {f : Handle → Handle} {o : Object}
    (ho : o.Alike Q o) (hR : ∀ k ∈ o.references, R k (f k)) : o.Alike R (o.rename f) := by
  cases ho with
  | nil => exact .nil
  | atom s => exact .atom s
  | number n => exact .number n
  | pair => exact .pair (hR _ (by simp [Object.references])) (hR _ (by simp [Object.references]))
  | closure => exact .closure (hR _ (by simp [Object.references])) (hR _ (by simp [Object.references]))
  | primitive hraw => exact .primitive hraw
  | string b => exact .string b

namespace Simulation

open Machine

variable {quiet failing : Bool} {f : Handle → Handle} {given values extra : List Handle} {m₁ m₂ : Machine}
  {fresh : Handle → Prop} {R : Handle → Handle → Prop}

/-! ## Start and end -/

/-- The ground of two runs, of which the second starts on a deeper stack. -/
def groundOf (f : Handle → Handle) (given values extra : List Handle) (m₁ m₂ : Machine)
    (fresh : Handle → Prop) : Ground where
  base := m₂
  extra := extra
  given k h := m₁.Accessible given values k ∧ f k = h
  fresh := fresh

/-- Lists that a function relates. -/
theorem forall₂_iff_eq_map {l₁ l₂ : List Handle} :
    List.Forall₂ (fun h k => f h = k) l₁ l₂ ↔ l₂ = l₁.map f := by
  rw [← List.forall₂_map_left_iff, List.forall₂_eq_eq_eq, eq_comm]

/-- The roots off the stack are related exactly if the registers other than the stack and the held roots
are. -/
theorem forall₂_offStack_iff :
    List.Forall₂ R m₁.offStack m₂.offStack ↔
      m₁.registers.Alike R m₂.registers (fun _ _ => True) ∧ List.Forall₂ R m₁.shadow m₂.shadow := by
  simp only [offStack, Registers.roots, List.cons_append, List.nil_append, List.forall₂_cons]
  constructor
  · rintro ⟨hnil, hqueue, hregistry, htrue, hquote, hpush, hpop, _, henv, hprogram, hshadow⟩
    exact ⟨⟨hnil, hqueue, hregistry, htrue, hquote, hpush, hpop, trivial, henv, hprogram⟩, hshadow⟩
  · rintro ⟨h, hshadow⟩
    exact ⟨h.nil, h.readQueue, h.registry, h.atomTrue, h.atomQuote, h.atomPush, h.atomPop, h.nil, h.env,
      h.program, hshadow⟩

/-- Two machines correspond from the start, if the second is the first on a deeper stack. -/
theorem deepens_of_deepened (fresh : Handle → Prop) (hm₁ : m₁.Intact) (hm₂ : m₂.Intact)
    (hgiven : ∀ h ∈ given, m₁.Live h) (h : Deepened f given values extra m₁ m₂)
    (hsinks : SinksAlike quiet failing m₁.sink m₂.sink) :
    Deepens quiet failing (groundOf f given values extra m₁ m₂ fresh)
      (fun k h => m₁.Accessible given values k ∧ f k = h) m₁ m₂ := by
  have hlive₁ : ∀ k, m₁.Accessible given values k → m₁.Live k := by
    intro k hk
    refine hm₁.sound.live_of_reaches (fun l hl => ?_) hk
    simp only [List.mem_append] at hl
    rcases hl with hl | hl | hl
    · exact hm₁.live_offStack l hl
    · exact hgiven l hl
    · exact hm₁.sound.live_of_spine h.stack₁ l hl
  have hlive₂ : ∀ k ∈ extra, m₂.Live k := fun k hk =>
    hm₂.sound.live_of_spine h.stack₂ k (List.mem_append_right _ hk)
  have hroots : List.Forall₂ (fun k h => m₁.Accessible given values k ∧ f k = h) m₁.offStack m₂.offStack := by
    rw [h.offStack_eq, List.forall₂_map_right_iff, List.forall₂_same]
    exact fun k hk => ⟨.root (List.mem_append_left _ hk), rfl⟩
  have hregisters := (forall₂_offStack_iff.mp hroots).1
  refine ⟨⟨?_, ?_, ?_, hregisters, hm₁.sound.unmarked, hm₂.sound.unmarked, hm₁.sound.capacity_le,
    hm₂.sound.capacity_le, h.source_eq.symm, h.tracing_eq.symm, h.grants_eq.symm, hsinks⟩,
      hm₁.sound.object?_nil, ?_, ?_, ?_, ?_⟩
  · have hnil := hregisters.nil
    rwa [hm₁.sound.nil_eq, hm₂.sound.nil_eq] at hnil
  · intro h₁ h₂ k₁ k₂ ⟨hh, hf⟩ ⟨hk, hf'⟩
    rw [← hf, ← hf']
    exact (h.injOn.eq_iff hh hk).symm
  · intro h₁ h₂ ⟨hh, hf⟩
    obtain ⟨o, ho⟩ := Option.isSome_iff_exists.mp (hlive₁ h₁ hh)
    have halike : o.Alike (fun k h => m₁.Accessible given values k ∧ f k = h) (o.rename f) :=
      (hm₁.sound.cells ho).rename fun k hk => ⟨.reference hh ho hk, rfl⟩
    exact ⟨o, o.rename f, ho, hf ▸ h.object?_eq hh ho, halike⟩
  · refine ⟨values, values.map f, h.stack₁, h.stack₂, ?_⟩
    rw [List.forall₂_map_right_iff, List.forall₂_same]
    exact fun k hk => ⟨.root (by simp [hk]), rfl⟩
  · intro k hk
    obtain ⟨o, ho⟩ := Option.isSome_iff_exists.mp (hm₂.sound.live_of_reaches hlive₂ hk)
    exact ⟨o, o, ho, ho, .refl o⟩
  · exact fun {h₁ _} hR _ => ⟨h₁, hR⟩
  · exact fun hR _ => hR

/-- Machines that correspond are the same up to renaming, the second on a deeper stack. -/
theorem Rel.exists_deepened {G : Ground} {Γ : Held} (hrel : (deepening quiet failing G).Rel Γ R m₁ m₂) :
    ∃ f values, Deepened f [] values G.extra m₁ m₂ ∧ ∀ {k}, m₁.Accessible [] values k → R k (f k) := by
  have hcore : Deepens quiet failing G R m₁ m₂ := hrel.core
  obtain ⟨f, hf⟩ := hcore.exists_rename
  obtain ⟨values₁, values₂, hspine₁, hspine₂, hvalues⟩ := hcore.values
  have hmap : ∀ {l₁ l₂ : List Handle}, List.Forall₂ R l₁ l₂ → l₂ = l₁.map f := fun h =>
    forall₂_iff_eq_map.mp (h.imp hf)
  have hroots : List.Forall₂ R m₁.offStack m₂.offStack :=
    forall₂_offStack_iff.mpr ⟨hcore.registers, hrel.forall₂_shadow trivial⟩
  have hpartner : ∀ {k}, m₁.Accessible [] values₁ k → R k (f k) := by
    intro k hk
    obtain ⟨k', -, hR⟩ := hcore.object.exists_reaches (List.rel_append hroots hvalues) hk
    rwa [hf k k' hR]
  refine ⟨f, values₁, ⟨hspine₁, hmap hvalues ▸ hspine₂, hmap hroots, ?_, ?_, hcore.source.symm,
    hcore.tracing.symm, hcore.grants.symm⟩, hpartner⟩
  · intro k hk l hl heq
    exact (hcore.same (hpartner hk) (hpartner hl)).mpr heq
  · intro k o hk ho
    obtain ⟨o₁, o₂, ho₁, ho₂, halike⟩ := hcore.object _ _ (hpartner hk)
    cases ho.symm.trans ho₁
    exact rename_of_alike hf halike ▸ ho₂

/-- Running a sequence agrees with running it on a deeper stack. -/
theorem agree_compute_deepened {seq env : Handle} (bound : ℕ) (fresh : Handle → Prop) (hm₁ : m₁.Intact)
    (hm₂ : m₂.Intact) (hseq : m₁.Live seq) (henv : m₁.Live env) (h : Deepened f [seq, env] values extra m₁ m₂)
    (hsinks : SinksAlike quiet failing m₁.sink m₂.sink) :
    (deepening quiet failing (groundOf f [seq, env] values extra m₁ m₂ fresh)).AgreeOver
      (m₁.shadow.map fun k => (k, f k)) (fun _ _ _ => True) (compute bound seq env) m₁
      (compute bound (f seq) (f env)) m₂ := by
  have hcore := deepens_of_deepened fresh hm₁ hm₂ (by simpa using ⟨hseq, henv⟩) h hsinks
  have hroot : ∀ k ∈ m₁.offStack ++ ([seq, env] ++ values),
      m₁.Accessible [seq, env] values k ∧ f k = f k := fun k hk => ⟨.root hk, rfl⟩
  have hshadow : m₂.shadow = m₁.shadow.map f := forall₂_iff_eq_map.mp
    ((forall₂_offStack_iff (R := fun k h => f k = h)).mp (forall₂_iff_eq_map.mpr h.offStack_eq)).2
  have hrel : (deepening quiet failing (groundOf f [seq, env] values extra m₁ m₂ fresh)).Rel
      (m₁.shadow.map fun k => (k, f k)) (fun k h => m₁.Accessible [seq, env] values k ∧ f k = h) m₁ m₂ := by
    refine ⟨hcore, ?_, ?_⟩
    · rw [hshadow]
      simp [Tied, Function.comp_def]
    · intro p hp
      obtain ⟨k, hk, rfl⟩ := List.mem_map.mp hp
      exact hroot k (by simp [offStack, hk])
  exact Agree.over (agree_compute lawful_deepening bound hrel (hroot seq (by simp)) (hroot env (by simp)))

/-- A run that stops does so when it is attempted. -/
theorem exists_attempt_of_stopped {α : Type} {act : Run α} {m : Machine} {reason : Stop} {sink : Sink}
    (h : (act.trail m).stopped = some (reason, sink)) : ∃ n, attempt act m = .ok (.error reason) n := by
  cases hact : act.run m with
  | ok a n =>
    simp only [Run.trail, hact, Outcome.stopped] at h
    cases h
  | error r n =>
    simp only [Run.trail, hact, Outcome.stopped, Option.some.injEq, Prod.mk.injEq] at h
    exact ⟨n, h.1 ▸ run_attempt_of_error hact⟩

/-- Where the first run ends without running out of values or slots, and never calls `stack`, a comparison
ends only because the second runs out of slots. -/
theorem exhausted_of_incomparable {x₁ x₂ : Run Unit} {ended : Except Stop Unit} {n₁ : Machine}
    (hrun : attempt x₁ m₁ = .ok ended n₁) (hvalues : ended ≠ .error (.fault .stackUnderflow))
    (hroom : ∀ slots, ended ≠ .error (.fault (.exhausted slots))) (hstack : ¬ Performs x₁ m₁ .stack)
    (hquiet : quiet = true → ShowsNoClosure x₁ m₁)
    (hfresh : ∀ t k, x₁.passes m₁ t → ¬ t.machine.Live k → fresh k)
    (h : Incomparable quiet fresh (x₁.trail m₁) (x₂.trail m₂)) :
    ∃ slots n₂, attempt x₂ m₂ = .ok (.error (.fault (.exhausted slots))) n₂ := by
  have hended : ∀ {reason sink}, (x₁.trail m₁).stopped = some (reason, sink) → ended = .error reason := by
    intro reason sink hstopped
    obtain ⟨n, hn⟩ := exists_attempt_of_stopped hstopped
    cases hrun.symm.trans hn
    rfl
  cases h with
  | underflow h => exact absurd (hended h) hvalues
  | exhausted₁ h => exact absurd (hended h) (hroom _)
  | exhausted₂ h =>
    obtain ⟨n₂, hn₂⟩ := exists_attempt_of_stopped h
    exact ⟨_, n₂, hn₂⟩
  | reflects h => exact absurd ⟨_, _, h⟩ hstack
  | shows hq h =>
    obtain ⟨k, n, hn, hshows⟩ := h
    exact absurd hshows (hquiet hq k n hn)
  | unforeseen ht hk hnot => exact absurd (hfresh _ _ ht hk) hnot

end Simulation

namespace Machine

variable {m : Machine}

/-- Handles that are held may be pushed. -/
theorem Reachable.push {n : Machine} {h : Handle} (hm : m.Reachable) (hh : h ∈ m.shadow)
    (hrun : push h m = .ok () n) : n.Reachable := by
  let op : Operation := .primitive ⟨⟨"env", .env⟩, by decide⟩ h
  have hact : op.act m = .ok () n := by
    have hperform : perform .env h m = .ok h n :=
      (Run.run_bind_of_ok (x := observe _) rfl).trans (Run.run_bind_of_ok hrun)
    exact Run.run_bind_of_ok hperform
  have hfits : op.Fits m := hh
  exact after_of_ok hact ▸ hm.ended op hfits

/-- If the one value on a stack is pushed once more, then the first copy lies at the bottom. -/
theorem deepened_push {v : Handle} {i : ℕ} (given : List Handle) (hcap : m.heap.capacity ≤ 2 ^ 64)
    (hspine : m.heap.Spine m.registers.stack [v]) (hfree : m.heap.findFree? = some i) :
    ∃ n, push v m = .ok () n ∧ n.sink = m.sink ∧ Deepened id given [v] [v] m n := by
  have hget := Heap.get?_place hfree hcap (.pair v m.registers.stack)
  have hkept : ∀ {k o}, m.heap.get? k = some o →
      (m.heap.place i (.pair v m.registers.stack)).get? k = some o := by
    intro k o ho
    rw [hget, if_neg (Heap.ne_ofSlot_of_findFree? hfree hcap (Option.isSome_of_eq_some ho)), ho]
  refine ⟨{ m with
      heap := m.heap.place i (.pair v m.registers.stack)
      registers := { m.registers with stack := .ofSlot i } }, ?_, rfl, hspine, ?_, ?_, ?_, ?_, rfl, rfl, rfl⟩
  · exact (Run.run_bind_of_ok (x := getRegisters) rfl).trans (Run.run_bind_of_ok (run_allocate_of_free hfree))
  · exact .cons ((hget _).trans (if_pos rfl)) (hspine.congr fun _ => hkept)
  · simp [offStack, Registers.roots]
  · exact Set.injOn_id _
  · intro k o _ ho
    have hid : o.rename id = o := by cases o <;> rfl
    rw [hid]
    exact hkept ho

/-- Running a sequence in a reachable state, without a call of `stack`, compared with the same run in another
reachable state, on a table of any size, that is the same up to renaming except that it has more values at
the bottom of its stack. If the first run ends without running out of values or slots, then the second
runs out of slots or ends alike. It leaves the same values up to renaming, above those at the bottom, where
handles that are not given to new objects are renamed as before. If no closure is shown it writes the same
output. What is reached from the values at the bottom is as it was, but for the bytes of strings that the
first state has too. As in a run on a larger table, a limited output is only taken into account where no
closure is shown. -/
theorem compute_deepened {m₁ m₂ : Machine} (hm₁ : m₁.Reachable) (hm₂ : m₂.Reachable)
    {f : Handle → Handle} {seq env : Handle} {values extra : List Handle} (hseq : m₁.Live seq)
    (henv : m₁.Live env) (h : Deepened f [seq, env] values extra m₁ m₂) (hsink : m₂.sink = m₁.sink)
    (bound : ℕ) (hstack : ¬ Performs (compute bound seq env) m₁ .stack)
    (hlimit : m₁.sink.limit = none ∨ ShowsNoClosure (compute bound seq env) m₁)
    {ended : Except Stop Unit} {n₁ : Machine} (hrun : attempt (compute bound seq env) m₁ = .ok ended n₁)
    (hvalues : ended ≠ .error (.fault .stackUnderflow))
    (hroom : ∀ slots, ended ≠ .error (.fault (.exhausted slots))) :
    ∃ ended' n₂, attempt (compute bound (f seq) (f env)) m₂ = .ok ended' n₂ ∧
      ((∃ slots, ended' = .error (.fault (.exhausted slots))) ∨
        ended' = ended ∧
        (∃ f' values', Deepened f' [] values' extra n₁ n₂ ∧
          ∀ {k}, n₁.Accessible [] values' k →
            (∀ t, (compute bound seq env).passes m₁ t → t.machine.Live k) → f' k = f k) ∧
        (∀ {k}, m₂.heap.Reaches extra k →
          Kept (∃ l, m₁.Accessible [seq, env] values l ∧ f l = k) m₂ n₂ k) ∧
        (ShowsNoClosure (compute bound seq env) m₁ → n₂.sink.written = n₁.sink.written)) := by
  obtain ⟨quiet, hquiet, hlimit⟩ : ∃ quiet : Bool,
      (quiet = true ↔ ShowsNoClosure (compute bound seq env) m₁) ∧
      (quiet = false → m₁.sink.limit = none) := by
    by_cases hshows : ShowsNoClosure (compute bound seq env) m₁
    · exact ⟨true, by simpa using hshows, nofun⟩
    · exact ⟨false, by simpa using hshows, fun _ => hlimit.resolve_right hshows⟩
  have hsinks : Simulation.SinksAlike quiet m₁.sink.flushFails m₁.sink m₂.sink := by
    rw [hsink]
    exact ⟨rfl, rfl, fun _ => rfl, fun hq => ⟨hlimit hq, hlimit hq⟩⟩
  -- handles that are ever free may be given to new objects
  have hagree := Simulation.agree_compute_deepened bound
    (fun k => ∃ t, (compute bound seq env).passes m₁ t ∧ ¬ t.machine.Live k)
    (reliable_of_reachable hm₁).intact (reliable_of_reachable hm₂).intact hseq henv h hsinks
  rcases hagree with hexc | ⟨-, -, hmatch⟩
  · obtain ⟨slots, n₂, hrun₂⟩ := Simulation.exhausted_of_incomparable hrun hvalues hroom hstack hquiet.mp
      (fun t k ht hk => ⟨t, ht, hk⟩) hexc
    exact ⟨_, n₂, hrun₂, .inl ⟨slots, rfl⟩⟩
  obtain ⟨r, k₁, n₂, Γ, R, hrun₁, hrun₂, -, hrel, -⟩ := Simulation.Matched.attempt id hmatch
  cases hrun.symm.trans hrun₁
  have hcore : Simulation.Deepens quiet m₁.sink.flushFails _ R n₁ n₂ := hrel.core
  obtain ⟨f', values', hdeepened, hpartner⟩ := hrel.exists_deepened
  refine ⟨ended, n₂, hrun₂, .inr ⟨rfl, ⟨f', values', hdeepened, ?_⟩, hcore.ground, ?_⟩⟩
  · intro k hk hlive
    have hold : ¬ ∃ t, (compute bound seq env).passes m₁ t ∧ ¬ t.machine.Live k := by
      intro ⟨t, ht, hdead⟩
      exact hdead (hlive t ht)
    exact (hcore.given (hpartner hk) hold).2.symm
  · intro hshows
    rw [hcore.sinks.same (hquiet.mpr hshows)]

/-- Whether a sequence is read and, on a stack of one value, run in the empty environment, with a slot free
before. -/
def runsOverNil (m : Machine) : Bool :=
  match readTerm m with
  | .ok seq m =>
    match push .nil { m with shadow := [.nil] ++ m.shadow } with
    | .ok _ m₁ =>
      decide (m₁.object? m₁.registers.stack = some (.pair .nil .nil) ∧ .nil ∈ m₁.shadow ∧
        (m₁.object? seq).isSome ∧ m₁.heap.findFree?.isSome ∧ m₁.sink.limit = none) &&
      match compute 8 seq .nil m₁ with
      | .ok _ _ => true
      | .error _ _ => false
    | .error _ _ => false
  | .error _ _ => false

/-- A sequence of a number, a list and a quoted atom is run in the empty environment, on a stack of one value
and on a stack that has that value twice. -/
theorem compute_deepened_literals : ∃ m₁ m₂ seq n₁, m₁.Reachable ∧ m₂.Reachable ∧
    Deepened id [seq, .nil] [.nil] [.nil] m₁ m₂ ∧ attempt (compute 8 seq .nil) m₁ = .ok (.ok ()) n₁ ∧
    ∃ ended' n₂, attempt (compute 8 seq .nil) m₂ = .ok ended' n₂ ∧
      ((∃ slots, ended' = .error (.fault (.exhausted slots))) ∨
        ended' = .ok () ∧
        (∃ f' values', Deepened f' [] values' [.nil] n₁ n₂ ∧
          ∀ {k}, n₁.Accessible [] values' k →
            (∀ t, (compute 8 seq .nil).passes m₁ t → t.machine.Live k) → f' k = k) ∧
        (∀ {k}, m₂.heap.Reaches [.nil] k →
          Kept (∃ l, m₁.Accessible [seq, .nil] [.nil] l ∧ l = k) m₂ n₂ k) ∧
        (ShowsNoClosure (compute 8 seq .nil) m₁ → n₂.sink.written = n₁.sink.written)) := by
  obtain ⟨m, hm, hcheck⟩ : ∃ m : Machine, m.Reachable ∧ runsOverNil m = true :=
    ⟨_, .start 256 (Bytes.ofString "(7 (8 9) 'a)") {} false {}, by decide +kernel⟩
  rw [runsOverNil] at hcheck
  split at hcheck
  case h_2 => cases hcheck
  rename_i seq m' hread
  split at hcheck
  case h_2 => cases hcheck
  rename_i m₁ hpush
  rw [Bool.and_eq_true, decide_eq_true_eq] at hcheck
  obtain ⟨⟨hstack, hshadow, hlive, hfree, hlimit⟩, hcompute⟩ := hcheck
  split at hcompute
  case h_2 => cases hcompute
  rename_i n₁ hrun
  have hm' : m'.Reachable := by
    have hact : Operation.read.act m = .ok () m' := Run.run_bind_of_ok hread
    exact after_of_ok hact ▸ hm.ended .read trivial
  have hnil : ∀ k ∈ [Handle.nil], m'.Live k :=
    List.forall_mem_singleton.mpr (reliable_of_reachable hm').intact.sound.live_nil
  have hm₁ : m₁.Reachable := (hm'.hold [.nil] hnil).push (by simp) hpush
  have hsound := (reliable_of_reachable hm₁).intact.sound
  obtain ⟨i, hi⟩ := Option.isSome_iff_exists.mp hfree
  obtain ⟨m₂, hpush₂, hsink, hdeepened⟩ :=
    deepened_push [seq, .nil] hsound.capacity_le (.cons hstack .nil) hi
  have hm₂ : m₂.Reachable := hm₁.push hshadow hpush₂
  refine ⟨m₁, m₂, seq, n₁, hm₁, hm₂, hdeepened, run_attempt_of_ok hrun, ?_⟩
  exact compute_deepened hm₁ hm₂ hlive hsound.live_nil hdeepened hsink 8
    ((uncalled_compute_nil 8 seq).not_performs .stack) (.inl hlimit) (run_attempt_of_ok hrun) (by simp)
      (by simp)

end Machine

end PushLisp
