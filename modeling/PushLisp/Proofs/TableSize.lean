import Mathlib.Data.Set.Function
import PushLisp.Proofs.Session
import PushLisp.Proofs.Simulation.Resizing

/-!
# A larger table does no harm

A program that has room enough on a table runs alike on every larger one, whatever is collected when. It
ends the same way, leaves the same text unread, and the values on its stack unfold to the same graph. It
writes the same output too, unless it shows a closure: the text of a closure has the handle of its
environment in it, the only place where a slot number can be seen.

## Main definitions

* `Machine.launch`: setting up and running the first term.
* `Machine.Ample`: a run that is not cut short.
* `Machine.ShowsNoClosure`: a run that shows no closure.
* `Machine.Isomorphic`: values that unfold to the same graph.

## Main statements

* `Machine.launch_eq_of_le`: a run on a larger table.
-/
namespace PushLisp

/-- An object with other references. -/
def Object.rename (f : Handle → Handle) : Object → Object
  | .pair car cdr => .pair (f car) (f cdr)
  | .closure body env => .closure (f body) (f env)
  | o => o

namespace Machine

/-- Sets a machine up without raw access, and runs the first term of its source. -/
def launch (bound : ℕ) : Run Unit := do
  prepare false
  runNext bound

/-- A run ends for other reasons than that its table or its bound on steps was too small. If its output
cannot be flushed, which hides how a run ends, nothing of the kind happens on the way either. -/
def Ample (act : Run Unit) (m : Machine) : Prop :=
  ∀ reason, reason.Short → (∀ n, act m ≠ .error reason n) ∧
    (m.sink.flushFails = true → ∀ n, ¬ act.passes m ⟨.stops reason, n⟩)

/-- No value that a run writes out shows a closure. -/
def ShowsNoClosure (act : Run Unit) (m : Machine) : Prop :=
  ∀ h n, act.passes m ⟨.prints h, n⟩ → ¬ n.ShowsClosure h

/-- Two values unfold to the same graph: what they reach corresponds one to one, and what corresponds
differs in corresponding references only. -/
def Isomorphic (m₁ : Machine) (h₁ : Handle) (m₂ : Machine) (h₂ : Handle) : Prop :=
  ∃ f : Handle → Handle, f h₁ = h₂ ∧
    Set.BijOn f {k | m₁.heap.Reaches [h₁] k} {k | m₂.heap.Reaches [h₂] k} ∧
    ∀ k, m₁.heap.Reaches [h₁] k → ∃ o, m₁.object? k = some o ∧ m₂.object? (f k) = some (o.rename f)

end Machine

namespace Simulation

open Machine

variable {moving quiet failing : Bool} {Γ : Held} {R : Handle → Handle → Prop} {m m₁ m₂ : Machine}
  {h₁ h₂ : Handle}

/-! ## Graphs -/

theorem rename_of_alike {f : Handle → Handle} {o₁ o₂ : Object} (hf : ∀ h k, R h k → f h = k)
    (halike : o₁.Alike R o₂) : o₂ = o₁.rename f := by
  cases halike with
  | pair hcar hcdr => rw [Object.rename, hf _ _ hcar, hf _ _ hcdr]
  | closure hbody henv => rw [Object.rename, hf _ _ hbody, hf _ _ henv]
  | _ => rfl

/-- Values that correspond under a renaming unfold to the same graph. -/
theorem Renames.isomorphic (h : Renames quiet failing R m₁ m₂) (hR : R h₁ h₂) :
    Isomorphic m₁ h₁ m₂ h₂ := by
  obtain ⟨f, hf⟩ := h.exists_rename
  have hright : ∀ {k}, m₁.heap.Reaches [h₁] k → ∃ k', m₂.heap.Reaches [h₂] k' ∧ R k k' :=
    h.object.exists_reaches (.cons hR .nil)
  have hleft : ∀ {k'}, m₂.heap.Reaches [h₂] k' → ∃ k, m₁.heap.Reaches [h₁] k ∧ R k k' :=
    h.object.flip.exists_reaches (.cons hR .nil)
  refine ⟨f, hf _ _ hR, ⟨?_, ?_, ?_⟩, ?_⟩
  · intro k hk
    obtain ⟨k', hk', hkk'⟩ := hright hk
    rw [hf _ _ hkk']
    exact hk'
  · intro k hk l hl heq
    obtain ⟨k', -, hkk'⟩ := hright hk
    obtain ⟨l', -, hll'⟩ := hright hl
    rw [hf _ _ hkk', hf _ _ hll'] at heq
    exact (h.same hkk' hll').mpr heq
  · intro k' hk'
    obtain ⟨k, hk, hkk'⟩ := hleft hk'
    exact ⟨k, hk, hf _ _ hkk'⟩
  · intro k hk
    obtain ⟨k', -, hkk'⟩ := hright hk
    obtain ⟨o₁, o₂, ho₁, ho₂, halike⟩ := h.object _ _ hkk'
    rw [hf _ _ hkk']
    exact ⟨o₁, ho₁, rename_of_alike hf halike ▸ ho₂⟩

/-! ## Endings -/

/-- Passing the output on does not hide that a run was cut short, if flushing works. -/
theorem stopped_flushAfter {x : Run Unit} {reason : Stop} {sink : Sink}
    (hstopped : (x.trail m).stopped = some (reason, sink)) (hflush : sink.flushFails = false) :
    ((flushAfter x).trail m).stopped = some (reason, sink) := by
  cases hx : x.run m with
  | ok a n =>
    simp only [Run.trail, hx, Outcome.stopped] at hstopped
    cases hstopped
  | error r n =>
    simp only [Run.trail, hx, Outcome.stopped, Option.some.injEq, Prod.mk.injEq] at hstopped
    obtain ⟨rfl, rfl⟩ := hstopped
    have hattempt : (attempt x).run m = .ok (.error r) n := by simp only [attempt, hx]
    have hnone : n.sink.flush = none := by simp [Sink.flush, hflush]
    simp only [Run.trail, flushAfter, Run.run_bind_of_ok hattempt]
    cases r with
    | unfinished => rfl
    | fault f =>
      have hget : (get : Run Machine).run n = .ok n n := rfl
      simp only [passOn, Run.run_bind_of_ok hget, hnone]
      rfl

/-- Excuses stay excuses when the output is passed on. -/
theorem resizing_excuses_flushAfter {x₁ x₂ : Run Unit}
    (h : (resizing moving quiet failing).excuses (x₁.trail m₁) (x₂.trail m₂)) :
    (resizing moving quiet failing).excuses ((flushAfter x₁).trail m₁) ((flushAfter x₂).trail m₂) := by
  rcases h with ⟨reason, hshort, ⟨n, hn⟩, hstopped⟩ | ⟨hquiet, k, n, hn, hshows⟩ |
    ⟨hstays, ⟨n, hn⟩ | ⟨n, hn⟩⟩
  · refine .inl ⟨reason, hshort, ⟨n, .inl hn⟩, fun hfailing => ?_⟩
    obtain ⟨sink, hsink, hflush⟩ := hstopped hfailing
    exact ⟨sink, stopped_flushAfter hsink hflush, hflush⟩
  · exact .inr (.inl ⟨hquiet, k, n, .inl hn, hshows⟩)
  · exact .inr (.inr ⟨hstays, .inl ⟨n, .inl hn⟩⟩)
  · exact .inr (.inr ⟨hstays, .inr ⟨n, .inl hn⟩⟩)

/-! ## Launches -/

section Launch

variable {slots slots' : UInt64} {source : Bytes} {sink : Sink} {tracing : Bool} {platform : Platform}
    {bound : ℕ}

/-- Blank machines correspond. -/
theorem renames_blank (hle : slots ≤ slots') (hlimit : quiet = false → sink.limit = none) :
    Renames quiet sink.flushFails (fun h k => h = .nil ∧ k = .nil)
      (blank slots.toNat source sink tracing platform) (blank slots'.toNat source sink tracing platform) := by
  have hsound := (intact_blank slots source sink tracing platform).sound
  have hsound' := (intact_blank slots' source sink tracing platform).sound
  refine ⟨⟨⟨rfl, rfl⟩, ?_, ?_, ?_, hsound.unmarked, hsound'.unmarked, hsound.capacity_le,
    hsound'.capacity_le, rfl, rfl, rfl, ?_⟩, ?_⟩
  · rintro h₁ h₂ k₁ k₂ ⟨rfl, rfl⟩ ⟨rfl, rfl⟩
    exact ⟨fun _ => rfl, fun _ => rfl⟩
  · rintro h₁ h₂ ⟨rfl, rfl⟩
    exact ⟨.nil, .nil, hsound.object?_nil, hsound'.object?_nil, .nil⟩
  · rw [Registers.alike_iff]
    simp [Registers.roots, blank]
  · exact ⟨rfl, rfl, fun _ => rfl, fun hquiet => ⟨hlimit hquiet, hlimit hquiet⟩⟩
  · show (Heap.new slots.toNat platform).capacity ≤ (Heap.new slots'.toNat platform).capacity
    rw [Heap.capacity_new, Heap.capacity_new]
    exact max_le_max_right _ hle

/-- Setting up on two tables ends alike, for nothing is collected. -/
theorem matched_prepare (hle : slots ≤ slots') (hlimit : quiet = false → sink.limit = none)
    (hcompared : ¬ (resizing true quiet sink.flushFails).excuses
      ((launch bound).trail (blank slots.toNat source sink tracing platform))
      ((launch bound).trail (blank slots'.toNat source sink tracing platform))) :
    (resizing false quiet sink.flushFails).Matched [] ([] <:+ ·)
      (resizing false quiet sink.flushFails).anything
      (prepare false (blank slots.toNat source sink tracing platform))
      (prepare false (blank slots'.toNat source sink tracing platform)) := by
  have hrel : (resizing false quiet sink.flushFails).Rel [] _ (blank slots.toNat source sink tracing platform)
      (blank slots'.toNat source sink tracing platform) :=
    ⟨renames_blank hle hlimit, ⟨⟨List.nil_subset _, List.nil_subset _⟩, nofun⟩, nofun⟩
  rcases agree_prepare lawful_resizing Bool.false_ne_true hrel with hexc | ⟨-, -, hmatch⟩
  · refine absurd ((resizing true quiet sink.flushFails).excuses_mono Run.trail_le_bind
      Run.trail_le_bind ?_) hcompared
    rcases hexc with hshort | hshows | ⟨-, ⟨n, hn⟩ | ⟨n, hn⟩⟩
    · exact .inl hshort
    · exact .inr (.inl hshows)
    · exact absurd hn (not_collects_prepare n)
    · exact absurd hn (not_collects_prepare n)
  · exact hmatch

/-- Machines that are set up run alike, for no roots are held on them. -/
theorem agree_launch {R : Handle → Handle → Prop} {k₁ k₂ : Machine}
    (h₁ : (prepare false).run m₁ = .ok () k₁) (h₂ : (prepare false).run m₂ = .ok () k₂)
    (hshadow₁ : k₁.shadow = []) (hshadow₂ : k₂.shadow = []) (hcore : Renames quiet failing R k₁ k₂) :
    (resizing true quiet failing).AgreeOver [] (resizing true quiet failing).anything (launch bound) m₁
      (launch bound) m₂ := by
  have hrel : (resizing true quiet failing).Rel [] R k₁ k₂ := by
    refine ⟨hcore, ?_, nofun⟩
    rw [hshadow₁, hshadow₂]
    exact ⟨⟨List.nil_subset _, List.nil_subset _⟩, fun _ => ⟨rfl, rfl⟩⟩
  exact agree_bind_of_ok h₁ h₂ (fun _ _ => trivial) (fun _ _ => trivial)
    (agree_runNext lawful_resizing bound (fun _ => resizing_excuses_flushAfter) hrel)

/-- Runs on two tables end alike, unless they are excused. -/
theorem attempt_launch (hle : slots ≤ slots') (hlimit : quiet = false → sink.limit = none)
    (hcompared : ¬ (resizing true quiet sink.flushFails).excuses
      ((launch bound).trail (blank slots.toNat source sink tracing platform))
      ((launch bound).trail (blank slots'.toNat source sink tracing platform))) :
    ∃ r n₁ n₂ R, attempt (launch bound) (blank slots.toNat source sink tracing platform) = .ok r n₁ ∧
      attempt (launch bound) (blank slots'.toNat source sink tracing platform) = .ok r n₂ ∧
      Renames quiet sink.flushFails R n₁ n₂ := by
  obtain ⟨r, k₁, k₂, _, R, hrun₁, hrun₂, -, hrel, -⟩ :=
    (matched_prepare hle hlimit hcompared).attempt id
  cases r with
  | error reason =>
    have h₁ : (launch bound).run _ = .error reason k₁ :=
      Run.run_bind_of_error (run_of_attempt_error hrun₁)
    have h₂ : (launch bound).run _ = .error reason k₂ :=
      Run.run_bind_of_error (run_of_attempt_error hrun₂)
    exact ⟨.error reason, k₁, k₂, R, run_attempt_of_error h₁, run_attempt_of_error h₂, hrel.core⟩
  | ok =>
    have h₁ := run_of_attempt_ok hrun₁
    have h₂ := run_of_attempt_ok hrun₂
    rcases agree_launch h₁ h₂ (shadow_prepare h₁) (shadow_prepare h₂) hrel.core with
      hexc | ⟨-, -, hmatch⟩
    · exact absurd hexc hcompared
    · obtain ⟨r, n₁, n₂, _, R, hrun₁, hrun₂, -, hrel, -⟩ := hmatch.attempt id
      exact ⟨r, n₁, n₂, R, hrun₁, hrun₂, hrel.core⟩

/-- A run that is not cut short has no such excuse. -/
theorem not_cutShort_of_ample {act : Run Unit} (h : Ample act m) :
    ¬ CutShort m.sink.flushFails (act.trail m) := by
  rintro ⟨reason, hshort, ⟨n, hn⟩, hstopped⟩
  obtain ⟨hends, hpasses⟩ := h reason hshort
  cases hflush : m.sink.flushFails with
  | true => exact hpasses hflush n hn
  | false =>
    obtain ⟨sink, hsink, -⟩ := hstopped hflush
    cases hact : act.run m with
    | ok a n =>
      simp only [Run.trail, hact, Outcome.stopped] at hsink
      cases hsink
    | error r n =>
      simp only [Run.trail, hact, Outcome.stopped, Option.some.injEq, Prod.mk.injEq] at hsink
      exact hends n (hsink.1 ▸ hact)

end Launch

end Simulation

namespace Machine

/-- A run that has room enough on a table runs alike on every larger one: it ends the same way and leaves
the same text unread, the two stacks unfold to the same graph, and unless a closure is shown the outputs
are the same. A limited output is only taken into account where no closure is shown, since the text of a
closure may be longer on a larger table. -/
theorem launch_eq_of_le {slots slots' : UInt64} (hle : slots ≤ slots') (source : Bytes) (sink : Sink)
    (tracing : Bool) (platform : Platform) (bound : ℕ)
    (hends : Ample (launch bound) (blank slots.toNat source sink tracing platform))
    (hlimit : sink.limit = none ∨
      ShowsNoClosure (launch bound) (blank slots.toNat source sink tracing platform)) :
    ∃ r n₁ n₂, attempt (launch bound) (blank slots.toNat source sink tracing platform) = .ok r n₁ ∧
      attempt (launch bound) (blank slots'.toNat source sink tracing platform) = .ok r n₂ ∧
      (∀ reason, r = .error reason → ¬ reason.Short) ∧ n₁.source = n₂.source ∧
      Isomorphic n₁ n₁.registers.stack n₂ n₂.registers.stack ∧
      (ShowsNoClosure (launch bound) (blank slots.toNat source sink tracing platform) →
        n₁.sink.written = n₂.sink.written) := by
  obtain ⟨quiet, hquiet, hlimit⟩ : ∃ quiet : Bool,
      (quiet = true ↔ ShowsNoClosure (launch bound) (blank slots.toNat source sink tracing platform)) ∧
      (quiet = false → sink.limit = none) := by
    by_cases hshows : ShowsNoClosure (launch bound) (blank slots.toNat source sink tracing platform)
    · exact ⟨true, by simpa using hshows, nofun⟩
    · exact ⟨false, by simpa using hshows, fun _ => hlimit.resolve_right hshows⟩
  have hcompared : ¬ (Simulation.resizing true quiet sink.flushFails).excuses
      ((launch bound).trail (blank slots.toNat source sink tracing platform))
      ((launch bound).trail (blank slots'.toNat source sink tracing platform)) := by
    rintro (hshort | ⟨hq, h, n, hn, hshows⟩ | ⟨hstays, -⟩)
    · exact Simulation.not_cutShort_of_ample hends hshort
    · exact hquiet.mp hq h n hn hshows
    · cases hstays
  obtain ⟨r, n₁, n₂, R, hrun₁, hrun₂, hcore⟩ := Simulation.attempt_launch hle hlimit hcompared
  refine ⟨r, n₁, n₂, hrun₁, hrun₂, ?_, hcore.source, hcore.isomorphic hcore.registers.stack, ?_⟩
  · rintro reason rfl hshort
    exact (hends reason hshort).1 n₁ (run_of_attempt_error hrun₁)
  · intro hshows
    rw [hcore.sinks.same (hquiet.mpr hshows)]

/-- Whether a run ended well and collected once. -/
def collectedOnce : Outcome Unit → Bool
  | .ok _ m => decide (m.heap.stats.collections = 1)
  | .error _ _ => false

/-- A program that binds a closure, collects, and calls the closure runs alike on two tables. -/
theorem launch_eq_of_le_collecting :
    Ample (launch 20)
        (blank (256 : UInt64).toNat (Bytes.ofString "((1 print) $f gc f)") {} false {}) ∧
      ∃ r n₁ n₂,
        attempt (launch 20)
            (blank (256 : UInt64).toNat (Bytes.ofString "((1 print) $f gc f)") {} false {}) = .ok r n₁ ∧
        attempt (launch 20)
            (blank (5000 : UInt64).toNat (Bytes.ofString "((1 print) $f gc f)") {} false {}) = .ok r n₂ ∧
        (∀ reason, r = .error reason → ¬ reason.Short) ∧ n₁.source = n₂.source ∧
        Isomorphic n₁ n₁.registers.stack n₂ n₂.registers.stack ∧
        (ShowsNoClosure (launch 20)
            (blank (256 : UInt64).toNat (Bytes.ofString "((1 print) $f gc f)") {} false {}) →
          n₁.sink.written = n₂.sink.written) := by
  have hanswers : collectedOnce (launch 20
      (blank (256 : UInt64).toNat (Bytes.ofString "((1 print) $f gc f)") {} false {})) =
        true := by decide +kernel
  have hends : Ample (launch 20)
      (blank (256 : UInt64).toNat (Bytes.ofString "((1 print) $f gc f)") {} false {}) := by
    refine fun reason _ => ⟨fun n hstop => ?_, fun hflush => ?_⟩
    · rw [hstop] at hanswers
      cases hanswers
    · cases hflush
  exact ⟨hends, launch_eq_of_le (by decide) _ {} false {} 20 hends (.inl rfl)⟩

end Machine

end PushLisp
