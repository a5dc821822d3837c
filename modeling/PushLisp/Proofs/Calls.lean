import PushLisp.Proofs.Runs
import PushLisp.Proofs.Session
import PushLisp.Proofs.Setup
import PushLisp.Proofs.Simulation.Canonical

/-!
# Calls on a machine

Whoever has set up a machine may intern atoms, read terms, run terms and collect, in any order and whether
the calls before ended well or not. Without raw access all that is asked of a machine stays true of it:
nothing dangles, no atom but the registered ones is referred to, reading finds its atoms, and the
environment that programs start in binds registered atoms.

## Main definitions

* `Call`, `Machine.answer`: what may be asked for.
* `Machine.serve`, `Machine.history`: calls one after another.
* `Machine.Orderly`: what stays true.

## Main statements

* `Machine.orderly_history`: machines are orderly after any calls.
* `Machine.Compositional.serve`: what holds of the parts of evaluation holds of calls.
-/
namespace PushLisp

/-- What may be asked of a machine. -/
inductive Call where
  /-- The atom of a spelling. -/
  | intern (spelling : Bytes)
  /-- The next term. -/
  | read
  /-- Running the next term, within a step bound. -/
  | run (bound : ℕ)
  /-- A collection. -/
  | collect
  deriving Repr, DecidableEq

namespace Machine

variable {poking : Prop} {base : List Handle} {m m' : Machine}

/-- Does what a call asks for. -/
def answer : Call → Run Unit
  | .intern spelling => do
    let _ ← intern spelling
    return ()
  | .read => do
    let _ ← readTerm
    return ()
  | .run bound => runNext bound
  | .collect => do
    let _ ← collect
    return ()

/-- Answers calls one after another, whether those before ended well or not. -/
def serve : List Call → Run Unit
  | [] => return ()
  | call :: calls => do
    let _ ← attempt (answer call)
    serve calls

/-- Sets a machine up without raw access, and answers calls. -/
def history (calls : List Call) : Run Unit := do
  prepare false
  serve calls

theorem after_serve_cons (call : Call) (calls : List Call) (m : Machine) :
    after (serve (call :: calls)) m = after (serve calls) (after (answer call) m) := by
  cases hrun : (answer call).run m with
  | ok a n =>
    rw [serve, after_bind_of_ok (run_attempt_of_ok hrun), after_of_ok hrun]
  | error reason n =>
    rw [serve, after_bind_of_ok (run_attempt_of_error hrun), after_of_error hrun]

/-! ## What stays -/

section Serve

variable {J : (α : Type) → List Handle → Run α → Machine → Prop} (R : Compositional poking J)
include R

/-- A property that passes from the parts of evaluation to the whole holds of calls. -/
theorem Compositional.answer {call : Call} (hrun : ∀ bound, call = .run bound → poking) :
    J Unit base (answer call) m := by
  cases call with
  | intern spelling => exact R.bind (R.intern spelling) fun _ => R.pure ()
  | read => exact R.bind R.readTerm fun _ => R.pure ()
  | run bound => exact R.runNext (hrun bound rfl) bound
  | collect => exact R.bind R.collect fun _ => R.pure ()

theorem Compositional.serve {calls : List Call} (hrun : ∀ bound, .run bound ∈ calls → poking) :
    J Unit base (serve calls) m := by
  induction calls generalizing m with
  | nil => exact R.pure ()
  | cons call calls ih =>
    refine R.bind (R.attempt (R.answer fun bound hcall => hrun bound ?_)) fun _ => ih fun bound hmem => ?_
    · exact List.mem_cons.mpr (.inl hcall.symm)
    · exact hrun bound (List.mem_cons_of_mem call hmem)

end Serve

/-- A call agrees with itself where only registered atoms are related. -/
theorem agree_answer (call : Call) (hintact : m.Intact) (hcanonical : m.Canonical) :
    Simulation.canonical.AgreeOver (Simulation.doubled m.shadow) Simulation.canonical.anything
      (answer call) m (answer call) m := by
  have L := Simulation.lawful_canonical
  have hrel := Simulation.rel_canonical hintact hcanonical
  have hdone : ∀ {Γ w n₁ n₂}, Simulation.canonical.Rel Γ w n₁ n₂ →
      Simulation.canonical.AgreeOver Γ Simulation.canonical.anything (pure ()) n₁ (pure ()) n₂ :=
    fun hrel => Simulation.agree_pure hrel (List.suffix_refl _) trivial
  cases call with
  | intern spelling => exact (L.intern spelling hrel).bind fun hrel _ => hdone hrel
  | read => exact (Simulation.agree_readTerm L hrel).bind fun hrel _ => hdone hrel
  | run bound => exact Simulation.agree_runNext L bound (fun _ hexc => hexc.elim) hrel
  | collect => exact (L.collect hrel).bind fun hrel _ => hdone hrel

/-- A machine without raw access as calls leave it. -/
structure Orderly (m : Machine) : Prop where
  intact : m.Intact
  canonical : m.Canonical
  literate : Literate [] m
  scope : ∃ bindings, Scope m m.registers.env bindings

theorem Orderly.ready (hm : m.Orderly) : Ready True m.shadow m := hm.intact.ready hm.canonical.enrolled

/-- What the registers that are set once name is anchored. -/
theorem anchored_of_mem_constants {h : Handle} (hh : h ∈ m.registers.constants) : Anchored base m h :=
  .root (List.mem_cons_of_mem _ (List.mem_append_left _ hh))

/-- An environment that is anchored goes on to bind the same. -/
theorem Scope.lasts {env : Handle} {bindings : List (Bytes × Handle)} (hscope : Scope m env bindings)
    (henv : Anchored base m env) (hlasts : Lasts poking base m m') : Scope m' env bindings := by
  refine hscope.congr (fun {k car cdr} hk ho => ?_) fun hk => hk.lasts hlasts
  have hk : Anchored base m k := hk.trans (List.forall_mem_singleton.mpr henv)
  obtain ⟨o', ho', hres⟩ := hlasts.object?_eq hk ho
  rw [hres.eq_of_ne_string (by simp [Object.kind])] at ho'
  exact ho'

/-- The initial environment stays. -/
theorem Lasts.env_eq (hlasts : Lasts poking base m m') : m'.registers.env = m.registers.env := by
  have hconstants := hlasts.constants_eq
  simp only [Registers.constants, List.cons.injEq, and_true] at hconstants
  exact hconstants.2.2.2.2.2

/-- A call leaves an orderly machine, and the moments it passes are sound and can be relied on. -/
theorem Orderly.answer (hm : m.Orderly) (call : Call) :
    (after (answer call) m).Orderly ∧ ∀ t, (Machine.answer call).passes m t →
      t.machine.Intact ∧ ∃ entries, t.machine.heap.Enrolled t.machine.registers.registry entries := by
  obtain ⟨hintact, hcanonical, hsound⟩ :=
    Simulation.canonical_after (agree_answer call hm.intact hm.canonical)
  have hlasting : Lasting True [] (Machine.answer call) m :=
    (compositional_lasting True).answer fun _ _ => trivial
  obtain ⟨hready, hlasts, hmoments⟩ := hlasting (hm.ready.of_suffix List.nil_suffix)
  obtain ⟨bindings, hscope⟩ := hm.scope
  have henv : Anchored [] m m.registers.env := anchored_of_mem_constants (by simp [Registers.constants])
  refine ⟨⟨hintact, hcanonical, hm.literate.lasts hready.strict hlasts, bindings, ?_⟩, ?_⟩
  · rw [hlasts.env_eq]
    exact hscope.lasts henv hlasts
  · intro t ht
    exact ⟨(hsound t ht).machine, (hmoments t ht).enrolled⟩

theorem Orderly.serve (hm : m.Orderly) (calls : List Call) : (after (serve calls) m).Orderly := by
  induction calls generalizing m with
  | nil => exact hm
  | cons call calls ih =>
    rw [after_serve_cons]
    exact ih (hm.answer call).1

/-- A machine that was set up without raw access is orderly. -/
theorem exists_orderly (slots : UInt64) (source : Bytes) (sink : Sink) (tracing : Bool)
    (platform : Platform) :
    ∃ m, prepare false (blank slots.toNat source sink tracing platform) = .ok () m ∧ m.Orderly ∧
      m.registers.readQueue = .nil ∧ m.source = Source.new source := by
  obtain ⟨m, hrun, hfresh, hsource⟩ := exists_fresh false slots source sink tracing platform
  have hintact : m.Intact := by
    have hsafe := safe_prepare slots source sink tracing platform
    rw [← after_of_ok hrun]
    exact hsafe.after
  -- all atoms are registered, whether anything refers to them or not
  have hknown : ∀ {k}, m.Live k → m.Known k := fun hk => ⟨hk, fun _ hatom => hfresh.atoms hatom⟩
  refine ⟨m, hrun, ⟨hintact, ⟨hfresh.ready.enrolled, ?_, ?_⟩, hfresh.literate, hfresh.scope⟩, hfresh.queue,
    hsource⟩
  · intro h o ho k hk
    exact hknown (hintact.sound.live_of_mem_references ho hk)
  · intro k hk
    rcases List.mem_append.mp hk with hregister | hshadow
    · exact hknown (hintact.sound.live_of_mem_roots hregister)
    · exact hknown (hintact.shadow k hshadow)

/-- Machines are orderly after any calls. -/
theorem orderly_history (slots : UInt64) (source : Bytes) (sink : Sink) (tracing : Bool) (platform : Platform)
    (calls : List Call) :
    (after (history calls) (blank slots.toNat source sink tracing platform)).Orderly := by
  obtain ⟨m, hrun, hm, -⟩ := exists_orderly slots source sink tracing platform
  rw [history, after_bind_of_ok hrun]
  exact hm.serve calls

end Machine

end PushLisp
