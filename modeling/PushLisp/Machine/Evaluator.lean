import PushLisp.Machine.Action

/-!
# Evaluation

A sequence of terms runs left to right against the value stack. An atom is looked up: a closure
found is run, a primitive is performed, anything else is pushed. A list is not run but captured
with the environment into a closure, and any other term is pushed. The quoting atom pushes the
term after it.

Each running sequence is a frame. What is left of it and its environment are held as the two
innermost roots. A closure called by the last term of a sequence takes over the frame of its
caller, so that a chain of such calls needs no more room however long it gets.

The step bound of the functions here counts steps down every path of nested calls; an answer does
not depend on it.

## Main definitions

* `Machine.evaluateWith`: the meaning of one term, given how to run a closure.
* `Machine.enter`, `Machine.frame`: a running sequence.
* `Machine.compute`, `Machine.evaluate`, `Machine.force`: the entry points.
-/
namespace PushLisp.Machine

/-! ## The log -/

/-- Notes a sequence about to be run. -/
def traceSequence (seq : Handle) : Run Unit := do
  if (← get).tracing then
    observe (.uses [seq])
    let text ← ask (render seq)
    let depth ← ask stackDepth
    note (.computing text depth)

/-- Notes a term about to be evaluated. -/
def traceTerm (term : Handle) : Run Unit := do
  if (← get).tracing then
    observe (.uses [term])
    note (.evaluating (← ask (render term)))

/-! ## Terms and sequences -/

/-- Evaluates a term in an environment, and answers the environment to go on with. `call` runs the
body of a closure in the environment it captured. -/
@[inline] def evaluateWith (call : Handle → Handle → Run Unit) (term env : Handle) :
    Run Handle := do
  traceTerm term
  match (← get).object? term with
  | some (.atom _) =>
    let value ← ask (lookup env term)
    match (← get).object? value with
    | some (.closure body captured) =>
      call body captured
      return env
    | some (.primitive p) => perform p.action env
    | _ =>
      push value
      return env
  | some .nil | some (.pair _ _) =>
    push (← makeClosure term env)
    return env
  | _ =>
    push term
    return env

/-- The closure that the last term of a sequence calls, as its body and environment; nothing if
the term is not the last, no atom, or not bound to a closure. -/
def tailCallee? (term rest env : Handle) (m : Machine) : Except Stop (Option (Handle × Handle)) :=
  if rest = m.registers.nil ∧ m.isAtom term then
    match lookup env term m with
    | .error stop => .error stop
    | .ok callee =>
      match m.object? callee with
      | some (.closure body captured) => .ok (some (body, captured))
      | _ => .ok none
  else .ok none

/-- Holds what is left of a sequence and its environment as the two roots of a frame, above those of
the callers. -/
@[inline] def holdFrame (callers : List Handle) (seq env : Handle) : Run Unit := do
  observe (.replaces callers)
  modify fun m => { m with shadow := env :: seq :: callers }

theorem passes_holdFrame {callers : List Handle} {seq env : Handle} {m : Machine} {t : Moment} :
    (holdFrame callers seq env).passes m t ↔ t = ⟨.replaces callers, m⟩ ∨
      t = ⟨.changes m, { m with shadow := env :: seq :: callers }⟩ := by
  have hobserve : (observe (.replaces callers)).run m = .ok () m := rfl
  rw [holdFrame, Run.passes_bind_of_ok hobserve]
  exact Iff.rfl

/-- Opens a frame for a sequence and its environment, and closes it however the run ends. `run` is
told the roots of the callers. -/
@[inline] def enter (run : List Handle → Run Unit) (seq env : Handle) : Run Unit :=
  keepingRoots do
    let callers := (← get).shadow
    root [env, seq]
    run callers

/-- Runs what is left of a sequence, whose two roots are the innermost, above those of the
callers. -/
def frame : Nat → List Handle → Handle → Handle → Run Unit
  | 0, _, _, _ => stop .unfinished
  | n + 1, callers, seq, env => do
    observe (.iterates callers seq env)
    if seq = (← getRegisters).nil then return ()
    traceSequence seq
    let term ← ask (car seq)
    let rest ← ask (cdr seq)
    holdFrame callers rest env
    let r ← getRegisters
    if term = r.atomQuote then
      if rest = r.nil then fail .danglingQuote
      let literal ← ask (car rest)
      let rest ← ask (cdr rest)
      holdFrame callers rest env
      push literal
      frame n callers rest env
    else
      match ← ask (tailCallee? term rest env) with
      | some (body, captured) =>
        holdFrame callers body captured
        frame n callers body captured
      | none =>
        let call (body captured : Handle) : Run Unit :=
          enter (fun callers => frame n callers body captured) body captured
        let env ← evaluateWith call term env
        holdFrame callers rest env
        frame n callers rest env

/-- Runs a sequence in an environment, within a step bound. -/
def compute (bound : Nat) (seq env : Handle) : Run Unit :=
  enter (fun callers => frame bound callers seq env) seq env

/-- Evaluates a term in an environment, within a step bound, and answers the environment to go on
with. -/
def evaluate (bound : Nat) (term env : Handle) : Run Handle := evaluateWith (compute bound) term env

/-- Runs the closure on top of the stack, within a step bound. -/
def force (bound : Nat) : Run Unit := do
  let callee ← pop
  observe (.uses [callee])
  match (← get).object? callee with
  | some (.closure body env) => compute bound body env
  | _ => stop ((← get).mismatch "force" "closure" callee)

@[simp] theorem shadow_after_enter (run : List Handle → Run Unit) (seq env : Handle)
    (m : Machine) : (after (enter run seq env) m).shadow = m.shadow :=
  shadow_after_keepingRoots _ m

/-- Running a sequence leaves the held roots as they were, however it ends. -/
@[simp] theorem shadow_after_compute (bound : Nat) (seq env : Handle) (m : Machine) :
    (after (compute bound seq env) m).shadow = m.shadow :=
  shadow_after_enter _ seq env m

end PushLisp.Machine
