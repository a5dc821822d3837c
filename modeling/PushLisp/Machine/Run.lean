import PushLisp.Machine.Basic

/-!
# Operations on a machine

An operation either answers or stops, and leaves the machine as it made it in both cases. Beside its
outcome it has a history: the moments it passes through on the way, each a state of the machine and
what happens there. Histories are propositions, so that they can be spoken about in theorems and cost
nothing when an operation is run.

## Main definitions

* `Step`, `Moment`: what happens, and to which machine.
* `Outcome`, `Run`: operations.
* `Machine.ask`, `Machine.stop`, `Machine.observe`: operations that change nothing.
* `Machine.withRoots`: an operation under additional roots.
-/
namespace PushLisp

/-- What happens at a moment of a run. -/
inductive Step where
  /-- The state was changed from what it was before. -/
  | changes (before : Machine)
  /-- A collection begins. -/
  | collects
  /-- The objects that handles name are about to be used. -/
  | uses (hs : List Handle)
  /-- A value is about to be written to the output. -/
  | prints (h : Handle)
  /-- A builtin begins, in an environment. -/
  | performs (b : Builtin) (env : Handle)
  /-- A frame above the roots of its callers goes on with what is left of its sequence. -/
  | iterates (callers : List Handle) (seq env : Handle)
  /-- A frame above the roots of its callers is about to replace its two roots. -/
  | replaces (callers : List Handle)
  /-- Roots are about to be let go of, down to those that are kept. -/
  | releases (kept : List Handle)
  /-- There will be no answer. -/
  | stops (stop : Stop)

/-- A moment of a run. -/
structure Moment where
  step : Step
  machine : Machine

/-- How an operation ends: an answer or the reason why there is none, with the machine it leaves. -/
abbrev Outcome (α : Type) := EStateM.Result Stop Machine α

/-- An operation on a machine. -/
@[ext]
structure Run (α : Type) where
  /-- The outcome on a machine. -/
  run : Machine → Outcome α
  /-- The moments passed through from a machine on. -/
  passes : Machine → Moment → Prop

namespace Run

variable {α β : Type}

instance : CoeFun (Run α) fun _ => Machine → Outcome α := ⟨Run.run⟩

/-- Answers at once. -/
@[always_inline, inline] protected def pure (a : α) : Run α where
  run m := .ok a m
  passes _ _ := False

/-- Runs one operation after another. The second starts where the first left the machine, and only
if the first answered. -/
@[always_inline, inline] protected def bind (x : Run α) (f : α → Run β) : Run β where
  run m :=
    match x.run m with
    | .ok a m => (f a).run m
    | .error stop m => .error stop m
  passes m t := x.passes m t ∨ ∃ a m', x.run m = .ok a m' ∧ (f a).passes m' t

@[always_inline] instance : Monad Run where
  pure := Run.pure
  bind := Run.bind

@[always_inline] instance : MonadStateOf Machine Run where
  get :=
    { run := fun m => .ok m m
      passes := fun _ _ => False }
  set m :=
    { run := fun _ => .ok () m
      passes := fun before t => t = ⟨.changes before, m⟩ }
  modifyGet f :=
    { run := fun m =>
        match f m with
        | (a, m) => .ok a m
      passes := fun m t => t = ⟨.changes m, (f m).2⟩ }

@[simp] theorem run_pure (a : α) (m : Machine) : (pure a : Run α).run m = .ok a m := rfl

@[simp] theorem not_passes_pure (a : α) (m : Machine) (t : Moment) :
    ¬ (pure a : Run α).passes m t := fun h => h

theorem run_bind (x : Run α) (f : α → Run β) (m : Machine) :
    (x >>= f).run m =
      match x.run m with
      | .ok a m => (f a).run m
      | .error stop m => .error stop m := rfl

theorem run_bind_of_ok {x : Run α} {f : α → Run β} {m m' : Machine} {a : α}
    (h : x.run m = .ok a m') : (x >>= f).run m = (f a).run m' := by
  rw [run_bind, h]

theorem run_bind_of_error {x : Run α} {f : α → Run β} {m m' : Machine} {stop : Stop}
    (h : x.run m = .error stop m') : (x >>= f).run m = .error stop m' := by
  rw [run_bind, h]

/-- A sequence of two operations passes what the first does, and then what the second does. -/
theorem passes_bind {x : Run α} {f : α → Run β} {m : Machine} {t : Moment} :
    (x >>= f).passes m t ↔ x.passes m t ∨ ∃ a m', x.run m = .ok a m' ∧ (f a).passes m' t := Iff.rfl

theorem passes_bind_of_ok {x : Run α} {f : α → Run β} {m m' : Machine} {a : α} {t : Moment}
    (h : x.run m = .ok a m') : (x >>= f).passes m t ↔ x.passes m t ∨ (f a).passes m' t := by
  rw [passes_bind]
  constructor
  · rintro (hx | ⟨_, _, h', hf⟩)
    · exact .inl hx
    · rw [h] at h'
      cases h'
      exact .inr hf
  · rintro (hx | hf)
    · exact .inl hx
    · exact .inr ⟨a, m', h, hf⟩

theorem passes_bind_of_error {x : Run α} {f : α → Run β} {m m' : Machine} {stop : Stop} {t : Moment}
    (h : x.run m = .error stop m') : (x >>= f).passes m t ↔ x.passes m t := by
  rw [passes_bind]
  constructor
  · rintro (hx | ⟨_, _, h', -⟩)
    · exact hx
    · rw [h] at h'
      cases h'
  · exact .inl

protected theorem pure_bind (a : α) (f : α → Run β) : pure a >>= f = f a := by
  ext m t
  · rfl
  · rw [passes_bind_of_ok (run_pure a m)]
    simp

protected theorem bind_pure (x : Run α) : x >>= pure = x := by
  ext m t
  · rw [run_bind]
    cases x.run m <;> rfl
  · rw [passes_bind]
    simp

/-- Operations compose associatively, and so do their histories. -/
protected theorem bind_assoc {γ : Type} (x : Run α) (f : α → Run β) (g : β → Run γ) :
    x >>= f >>= g = x >>= fun a => f a >>= g := by
  ext m t
  · simp only [run_bind]
    cases x.run m <;> rfl
  · cases hx : x.run m with
    | ok a m' =>
      rw [passes_bind_of_ok hx, passes_bind, passes_bind_of_ok hx, run_bind_of_ok hx, passes_bind,
        or_assoc]
    | error r m' =>
      rw [passes_bind_of_error (run_bind_of_error hx), passes_bind_of_error hx, passes_bind_of_error hx]

/-- Looking at the state is no moment of its own. -/
theorem passes_get_bind (f : Machine → Run α) (m : Machine) :
    (get >>= f).passes m = (f m).passes m := by
  funext t
  apply propext
  constructor
  · rintro (h | ⟨_, _, h, ht⟩)
    · exact h.elim
    · cases h
      exact ht
  · intro ht
    exact .inr ⟨m, m, rfl, ht⟩

end Run

namespace Machine

variable {α : Type}

/-- The machine that an operation leaves behind, however it ends. -/
def after (act : Run α) (m : Machine) : Machine :=
  match act m with
  | .ok _ m => m
  | .error _ m => m

/-! ## Operations that change nothing -/

/-- Stops for a reason. -/
@[inline] def stop (reason : Stop) : Run α where
  run m := .error reason m
  passes m t := t = ⟨.stops reason, m⟩

/-- Stops with a fault. -/
def fail (f : Fault) : Run α := stop (.fault f)

/-- Does nothing, at a moment worth mention. -/
@[inline] def observe (step : Step) : Run Unit where
  run m := .ok () m
  passes m t := t = ⟨step, m⟩

/-- Answers a question about the state. -/
@[inline] def ask (question : Machine → Except Stop α) : Run α where
  run m :=
    match question m with
    | .ok a => .ok a m
    | .error reason => .error reason m
  passes m t := ∃ reason, question m = .error reason ∧ t = ⟨.stops reason, m⟩

/-- Runs an operation, and answers how it ended. -/
@[inline] def attempt (act : Run α) : Run (Except Stop α) where
  run m :=
    match act m with
    | .ok a m => .ok (.ok a) m
    | .error reason m => .ok (.error reason) m
  passes := act.passes

section Attempt

variable {act : Run α} {m n : Machine}

theorem run_attempt_of_ok {a : α} (h : act m = .ok a n) : attempt act m = .ok (.ok a) n := by
  simp only [attempt, h]

theorem run_attempt_of_error {reason : Stop} (h : act m = .error reason n) :
    attempt act m = .ok (.error reason) n := by
  simp only [attempt, h]

theorem run_of_attempt {r : Except Stop α} (h : attempt act m = .ok r n) :
    (∃ a, r = .ok a ∧ act m = .ok a n) ∨ ∃ reason, r = .error reason ∧ act m = .error reason n := by
  cases hact : act.run m with
  | ok a n' =>
    rw [run_attempt_of_ok hact] at h
    cases h
    exact .inl ⟨a, rfl, rfl⟩
  | error reason n' =>
    rw [run_attempt_of_error hact] at h
    cases h
    exact .inr ⟨reason, rfl, rfl⟩

theorem run_of_attempt_ok {a : α} (h : attempt act m = .ok (.ok a) n) : act m = .ok a n := by
  rcases run_of_attempt h with ⟨_, ⟨⟩, hact⟩ | ⟨_, ⟨⟩, -⟩
  exact hact

theorem run_of_attempt_error {reason : Stop} (h : attempt act m = .ok (.error reason) n) :
    act m = .error reason n := by
  rcases run_of_attempt h with ⟨_, ⟨⟩, -⟩ | ⟨_, ⟨⟩, hact⟩
  exact hact

/-- An attempt leaves the machine that the operation leaves. -/
theorem after_of_attempt {r : Except Stop α} (h : attempt act m = .ok r n) : after act m = n := by
  rcases run_of_attempt h with ⟨a, -, hact⟩ | ⟨reason, -, hact⟩ <;> simp only [after, hact]

end Attempt

/-! ## The parts of the state -/

/-- The state block. -/
@[inline] def getRegisters : Run Registers := do return (← get).registers

/-- Changes the state block. -/
@[inline] def modifyRegisters (f : Registers → Registers) : Run Unit :=
  modify fun m => { m with registers := f m.registers }

theorem passes_getRegisters_bind (f : Registers → Run α) (m : Machine) :
    (getRegisters >>= f).passes m = (f m.registers).passes m := by
  funext t
  apply propext
  have hrun : getRegisters.run m = .ok m.registers m := rfl
  rw [Run.passes_bind_of_ok hrun, getRegisters, Run.passes_get_bind]
  simp

/-- Adds an entry to the log, if one is kept. -/
def note (e : Event) : Run Unit :=
  modify fun m => if m.tracing then { m with events := m.events.push e } else m

/-! ## Roots held by operations -/

/-- Holds more roots. -/
@[inline] def root (hs : List Handle) : Run Unit :=
  modify fun m => { m with shadow := hs ++ m.shadow }

/-- Runs an operation and lets go of the roots it held, however it ends. -/
@[inline] def keepingRoots (act : Run α) : Run α where
  run m :=
    let saved := m.shadow
    match act m with
    | .ok a m => .ok a { m with shadow := saved }
    | .error reason m => .error reason { m with shadow := saved }
  passes m t := act.passes m t ∨ t = ⟨.releases m.shadow, after act m⟩ ∨
    t = ⟨.changes (after act m), { after act m with shadow := m.shadow }⟩

/-- Runs an operation under additional roots. -/
@[inline] def withRoots (hs : List Handle) (act : Run α) : Run α :=
  keepingRoots do
    root hs
    act

@[simp] theorem after_ask (question : Machine → Except Stop α) (m : Machine) :
    after (ask question) m = m := by
  simp only [after, ask]
  cases question m <;> rfl

@[simp] theorem shadow_after_keepingRoots (act : Run α) (m : Machine) :
    (after (keepingRoots act) m).shadow = m.shadow := by
  simp only [after, keepingRoots]
  cases act m <;> rfl

/-- An operation under additional roots leaves the roots as they were. -/
@[simp] theorem shadow_after_withRoots (hs : List Handle) (act : Run α) (m : Machine) :
    (after (withRoots hs act) m).shadow = m.shadow :=
  shadow_after_keepingRoots _ m

end Machine

end PushLisp
