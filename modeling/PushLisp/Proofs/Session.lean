import PushLisp.Proofs.Simulation.Diagonal
import PushLisp.Proofs.Startup

/-!
# Sessions without raw access

A session sets a machine up and runs the terms of its source one after another, whether the runs end
well or not. At no moment of a session does anything name an empty slot: no reference of an object, no
register and no root held by an operation. This is read off the agreement of a run with itself. Setting
up collects nothing, and every later operation holds what it still needs while room is made.

## Main definitions

* `Machine.session`: setting up and running.
* `Machine.Reached`: the states of all sessions.
* `Machine.NoDangling`, `Moment.NoDangling`: nothing names an empty slot.

## Main statements

* `Machine.intact_of_reached`: the states of sessions are intact.
* `Machine.session_noDangling`: nothing dangles at any moment of a session.
-/
namespace PushLisp

/-! ## Absence of dangling handles -/

/-- No reference of an object, no register and no root held by an operation names an empty slot. -/
structure Machine.NoDangling (m : Machine) : Prop where
  cells : ∀ {i o}, m.heap.slot? i = some o → ∀ h ∈ o.references, m.Live h
  registers : ∀ h ∈ m.registers.roots, m.Live h
  shadow : ∀ h ∈ m.shadow, m.Live h

/-- Moreover what is used is there, and so is all that is met when a value is written out. No complaint
is about an absent object, and none comes from asking for a kind. -/
structure Moment.NoDangling (t : Moment) : Prop where
  machine : t.machine.NoDangling
  uses : ∀ {hs}, t.step = .uses hs → ∀ h ∈ hs, t.machine.Live h
  prints : ∀ {h k}, t.step = .prints h → t.machine.Shown h k → t.machine.Live k
  stops : ∀ {op expected found}, t.step = .stops (.fault (.typeMismatch op expected found)) →
    op ≠ "tag" ∧ found.isSome

namespace Machine

/-- Nothing dangles on an intact machine. -/
theorem Intact.noDangling {m : Machine} (h : m.Intact) : m.NoDangling where
  cells {i o} ho k hk := by
    have hi := Heap.lt_capacity_of_slot? ho
    have hcap := h.sound.capacity_le
    have hobject : m.object? (.ofSlot i) = some o := by
      rw [object?, Heap.get?, Handle.slot_ofSlot (by omega), ho]
    exact h.sound.live_of_mem_references hobject hk
  registers _ hk := h.sound.live_of_mem_roots hk
  shadow := h.shadow

/-- All that is met when a value is written out is there if the value is. -/
theorem Sound.live_of_shown {m : Machine} (h : m.Sound) {k k' : Handle} (hshown : m.Shown k k')
    (hk : m.Live k) : m.Live k' := by
  induction hshown with
  | self => exact hk
  | car ho _ ih => exact ih (h.live_of_mem_references ho (by simp [Object.references]))
  | cdr ho _ ih => exact ih (h.live_of_mem_references ho (by simp [Object.references]))
  | body ho _ ih => exact ih (h.live_of_mem_references ho (by simp [Object.references]))

end Machine

theorem Moment.Sound.noDangling {t : Moment} (h : t.Sound) : t.NoDangling := by
  obtain ⟨step, m⟩ := t
  refine ⟨h.machine.noDangling, ?_, ?_, ?_⟩
  · rintro hs rfl
    exact h.step
  · rintro k k' rfl hshown
    exact h.machine.sound.live_of_shown hshown h.step
  · rintro op expected found rfl
    exact h.step op expected found rfl

/-! ## Operations that keep a machine intact -/

namespace Machine

variable {α β : Type} {m : Machine}

/-- An operation that is sound at every moment from a machine on, and leaves an intact machine. -/
structure Safe (act : Run α) (m : Machine) : Prop where
  passes : ∀ t, act.passes m t → t.Sound
  after : (after act m).Intact
  tame : ∀ {reason m'}, act m = .error reason m' → reason.Tame

/-- An operation that agrees with itself is safe, if it is not excused. -/
theorem safe_of_agree {collecting : Bool} {Γ : Held} {act : Run Unit}
    (h : (Simulation.diagonal collecting).AgreeOver Γ (Simulation.diagonal collecting).anything act m
      act m)
    (hcalm : collecting = false → ∀ n, ¬ act.passes m ⟨.collects, n⟩) : Safe act m := by
  rcases h with ⟨hstays, ⟨n, hn⟩, -⟩ | ⟨hsees, -, hmatch⟩
  · exact absurd hn (hcalm hstays n)
  obtain ⟨r, n₁, n₂, Γ', w, hrun, -, -, hrel, htame⟩ := hmatch.attempt id
  refine ⟨fun t ht => (hsees t ht).1, ?_, ?_⟩
  · rw [after_of_attempt hrun]
    exact hrel.intact.1
  · intro reason m' hstop
    rw [run_attempt_of_error hstop] at hrun
    cases hrun
    exact htame reason rfl

/-- One safe operation after another is safe. -/
theorem Safe.bind {x : Run α} {f : α → Run β} (hx : Safe x m)
    (hf : ∀ {a m'}, x m = .ok a m' → m'.Intact → Safe (f a) m') : Safe (x >>= f) m := by
  cases hrun : x.run m with
  | ok a m' =>
    have hintact : m'.Intact := by simpa only [Machine.after, hrun] using hx.after
    have hnext := hf hrun hintact
    refine ⟨?_, ?_, ?_⟩
    · intro t ht
      rcases (Run.passes_bind_of_ok hrun).mp ht with ht | ht
      · exact hx.passes t ht
      · exact hnext.passes t ht
    · simpa only [Machine.after, Run.run_bind_of_ok hrun] using hnext.after
    · intro reason n hstop
      rw [Run.run_bind_of_ok hrun] at hstop
      exact hnext.tame hstop
  | error r m' =>
    refine ⟨?_, ?_, ?_⟩
    · intro t ht
      exact hx.passes t ((Run.passes_bind_of_error hrun).mp ht)
    · simpa only [Machine.after, Run.run_bind_of_error hrun, hrun] using hx.after
    · intro reason n hstop
      rw [Run.run_bind_of_error hrun] at hstop
      cases hstop
      exact hx.tame hrun

theorem safe_pure (h : m.Intact) (a : α) : Safe (pure a) m where
  passes t ht := absurd ht (Run.not_passes_pure a m t)
  after := h
  tame := nofun

/-- A safe operation is safe however it ends. -/
theorem Safe.attempt {act : Run α} (h : Safe act m) : Safe (attempt act) m := by
  cases hact : act.run m with
  | ok a m' =>
    have hrun := run_attempt_of_ok hact
    refine ⟨h.passes, ?_, ?_⟩
    · simpa only [Machine.after, hrun, hact] using h.after
    · intro reason n hstop
      rw [hrun] at hstop
      cases hstop
  | error r m' =>
    have hrun := run_attempt_of_error hact
    refine ⟨h.passes, ?_, ?_⟩
    · simpa only [Machine.after, hrun, hact] using h.after
    · intro reason n hstop
      rw [hrun] at hstop
      cases hstop

/-! ## Sessions -/

/-- Runs a term of the source for each bound, whether those before ended well or not. -/
def runAll : List ℕ → Run Unit
  | [] => return ()
  | bound :: bounds => do
    let _ ← attempt (runNext bound)
    runAll bounds

/-- Sets a machine up without raw access, and runs terms of its source. -/
def session (bounds : List ℕ) : Run Unit := do
  prepare false
  runAll bounds

/-- The states of all sessions: at their moments, and at their ends. -/
inductive Reached : Machine → Prop
  | during {slots : UInt64} {source : Bytes} {sink : Sink} {tracing : Bool} {platform : Platform}
      {bounds : List ℕ}
      {t : Moment} (ht : (session bounds).passes (blank slots.toNat source sink tracing platform) t) :
      Reached t.machine
  | ended (slots : UInt64) (source : Bytes) (sink : Sink) (tracing : Bool) (platform : Platform)
      (bounds : List ℕ) :
      Reached (after (session bounds) (blank slots.toNat source sink tracing platform))

theorem intact_blank (slots : UInt64) (source : Bytes) (sink : Sink) (tracing : Bool) (platform : Platform) :
    (blank slots.toNat source sink tracing platform).Intact where
  sound := sound_blank slots.toNat_lt.le source sink tracing platform
  shadow := nofun

/-- Setting up is safe. The atom of a primitive is not held while the primitive is bound, so this needs
that nothing is collected. -/
theorem safe_prepare (slots : UInt64) (source : Bytes) (sink : Sink) (tracing : Bool) (platform : Platform) :
    Safe (prepare false) (blank slots.toNat source sink tracing platform) := by
  have hrel : (Simulation.diagonal false).Rel _ _ _ _ :=
    Simulation.rel_self (intact_blank slots source sink tracing platform)
  have hstays : ¬ (Simulation.diagonal false).moving := Bool.false_ne_true
  exact safe_of_agree (Simulation.agree_prepare (Simulation.lawful_diagonal false) hstays hrel)
    fun _ => not_collects_prepare

/-- Reading a term and running it is safe on an intact machine, whatever is collected. -/
theorem safe_runNext (bound : ℕ) (h : m.Intact) : Safe (runNext bound) m := by
  have hagree := Simulation.agree_runNext (Simulation.lawful_diagonal true) bound
    (fun _ hexc => nomatch hexc.1) (Simulation.rel_self h)
  exact safe_of_agree hagree nofun

theorem safe_runAll (bounds : List ℕ) (h : m.Intact) : Safe (runAll bounds) m := by
  induction bounds generalizing m with
  | nil => exact safe_pure h ()
  | cons bound bounds ih => exact (safe_runNext bound h).attempt.bind fun _ h => ih h

theorem safe_session (slots : UInt64) (source : Bytes) (sink : Sink) (tracing : Bool) (platform : Platform)
    (bounds : List ℕ) : Safe (session bounds) (blank slots.toNat source sink tracing platform) :=
  (safe_prepare slots source sink tracing platform).bind fun _ h => safe_runAll bounds h

/-- The states of sessions are intact. -/
theorem intact_of_reached (h : m.Reached) : m.Intact := by
  cases h with
  | during ht => exact ((safe_session _ _ _ _ _ _).passes _ ht).machine
  | ended slots source sink tracing platform bounds =>
    exact (safe_session slots source sink tracing platform bounds).after

/-- Without raw access nothing ever names an empty slot, at any moment of a session and after it, and
no later run complains about an absent object or about asking for a kind. -/
theorem session_noDangling (slots : UInt64) (source : Bytes) (sink : Sink) (tracing : Bool)
    (platform : Platform) (bounds : List ℕ) :
    (∀ t, (session bounds).passes (blank slots.toNat source sink tracing platform) t → t.NoDangling) ∧
      (after (session bounds) (blank slots.toNat source sink tracing platform)).NoDangling ∧
      ∀ {bound op expected found m'},
        runNext bound (after (session bounds) (blank slots.toNat source sink tracing platform)) =
          .error (.fault (.typeMismatch op expected found)) m' → op ≠ "tag" ∧ found.isSome := by
  have hsafe := safe_session slots source sink tracing platform bounds
  refine ⟨fun t ht => (hsafe.passes t ht).noDangling, hsafe.after.noDangling, ?_⟩
  intro bound op expected found m' hstop
  exact (safe_runNext bound hsafe.after).tame hstop op expected found rfl

end Machine

end PushLisp
