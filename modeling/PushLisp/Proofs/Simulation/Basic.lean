import Mathlib.Data.List.Forall2
import PushLisp.Program

/-!
# Simulations

Properties of runs often compare two of them: a run on a small table with one on a large table, a run
whose calls share frames with one whose calls do not, or a run with itself. A simulation says which
machines and which handles correspond. Two operations agree under it if they lead corresponding
machines to corresponding machines and end alike, unless their histories excuse them.

A collection may free whatever is not held as a root. So the judgement names the pairs of handles that
the two runs hold, like the context of a typing judgement: handles in it stay related through any
operation, other handles only as long as nothing is allocated.

## Main definitions

* `Object.Alike`, `Registers.Alike`, `Step.Alike`: equality up to a relation on handles.
* `Trail`: what a run leaves to be seen of it.
* `Simulation`: what corresponds, and what excuses a run.
* `Simulation.Rel`: corresponding machines that hold given roots.
* `Simulation.AgreeIn`, `Simulation.Agree`, `Simulation.AgreeOver`: the judgement.

## Main statements

* `Simulation.Matched.attempt`: operations that correspond end with the same result.
* `Simulation.AgreeIn.bind`, `Simulation.Agree.bind`: agreement of sequences.
-/
namespace PushLisp

/-! ## Equality up to a relation on handles -/

/-- Whether a builtin has raw access to memory. -/
def Builtin.isRaw : Builtin → Bool
  | .stateAddress | .readWord | .writeWord | .objectOfHandle | .handleOfObject | .memoryView => true
  | _ => false

/-- Objects that differ in related references only. Strings that look into memory and primitives with
raw access to it are like nothing. -/
inductive Object.Alike (R : Handle → Handle → Prop) : Object → Object → Prop
  | nil : Alike R .nil .nil
  | atom (spelling : Bytes) : Alike R (.atom spelling) (.atom spelling)
  | number (value : Int64) : Alike R (.number value) (.number value)
  | pair {car car' cdr cdr' : Handle} (hcar : R car car') (hcdr : R cdr cdr') :
      Alike R (.pair car cdr) (.pair car' cdr')
  | closure {body body' env env' : Handle} (hbody : R body body') (henv : R env env') :
      Alike R (.closure body env) (.closure body' env')
  | primitive {p : Primitive} (hraw : p.action.isRaw = false) : Alike R (.primitive p) (.primitive p)
  | string (bytes : Array UInt8) : Alike R (.string (.owned bytes)) (.string (.owned bytes))

namespace Object.Alike

variable {R R' : Handle → Handle → Prop} {o₁ o₂ : Object}

theorem mono (hsub : ∀ h k, R h k → R' h k) (h : o₁.Alike R o₂) : o₁.Alike R' o₂ := by
  cases h with
  | nil => exact .nil
  | atom s => exact .atom s
  | number n => exact .number n
  | pair hcar hcdr => exact .pair (hsub _ _ hcar) (hsub _ _ hcdr)
  | closure hbody henv => exact .closure (hsub _ _ hbody) (hsub _ _ henv)
  | primitive hraw => exact .primitive hraw
  | string b => exact .string b

theorem kind_eq (h : o₁.Alike R o₂) : o₁.kind = o₂.kind := by cases h <;> rfl

/-- Alike objects hold related references, one by one. -/
theorem references (h : o₁.Alike R o₂) : List.Forall₂ R o₁.references o₂.references := by
  cases h with
  | pair hcar hcdr => exact .cons hcar (.cons hcdr .nil)
  | closure hbody henv => exact .cons hbody (.cons henv .nil)
  | _ => exact .nil

end Object.Alike

/-- State blocks whose roots are related one by one. The value stacks may be related in another way
than the rest. -/
structure Registers.Alike (R : Handle → Handle → Prop) (r₁ r₂ : Registers)
    (Q : Handle → Handle → Prop := R) : Prop where
  nil : R r₁.nil r₂.nil
  readQueue : R r₁.readQueue r₂.readQueue
  registry : R r₁.registry r₂.registry
  atomTrue : R r₁.atomTrue r₂.atomTrue
  atomQuote : R r₁.atomQuote r₂.atomQuote
  atomPush : R r₁.atomPush r₂.atomPush
  atomPop : R r₁.atomPop r₂.atomPop
  stack : Q r₁.stack r₂.stack
  env : R r₁.env r₂.env
  program : R r₁.program r₂.program

/-- State blocks are related if their roots are, one by one. -/
theorem Registers.alike_iff {R : Handle → Handle → Prop} {r₁ r₂ : Registers} :
    r₁.Alike R r₂ ↔ List.Forall₂ R r₁.roots r₂.roots := by
  simp only [Registers.roots, List.forall₂_cons, List.forall₂_nil_left_iff, and_true]
  constructor
  · intro h
    exact ⟨h.nil, h.readQueue, h.registry, h.atomTrue, h.atomQuote, h.atomPush, h.atomPop, h.stack,
      h.env, h.program⟩
  · rintro ⟨hnil, hqueue, hregistry, htrue, hquote, hpush, hpop, hstack, henv, hprogram⟩
    exact ⟨hnil, hqueue, hregistry, htrue, hquote, hpush, hpop, hstack, henv, hprogram⟩

/-- A reason to stop in which no absent object has a part, and that is no complaint about the kind of
a value whose kind was asked for. -/
def Stop.Tame (reason : Stop) : Prop :=
  ∀ op expected found, reason = .fault (.typeMismatch op expected found) →
    op ≠ "tag" ∧ found.isSome

/-- The same step, with related handles. The start of a collection is not among these: it is up to
each of two runs when to collect. -/
inductive Step.Alike (R : Handle → Handle → Prop) : Step → Step → Prop
  | changes (before₁ before₂ : Machine) : Alike R (.changes before₁) (.changes before₂)
  | uses {hs₁ hs₂ : List Handle} (h : List.Forall₂ R hs₁ hs₂) : Alike R (.uses hs₁) (.uses hs₂)
  | prints {h₁ h₂ : Handle} (h : R h₁ h₂) : Alike R (.prints h₁) (.prints h₂)
  | stops {reason : Stop} (h : reason.Tame) : Alike R (.stops reason) (.stops reason)
  | performs {b : Builtin} {e₁ e₂ : Handle} (h : R e₁ e₂) :
      Alike R (.performs b e₁) (.performs b e₂)
  | iterates {callers₁ callers₂ : List Handle} {s₁ s₂ e₁ e₂ : Handle} (hseq : R s₁ s₂) (henv : R e₁ e₂) :
      Alike R (.iterates callers₁ s₁ e₁) (.iterates callers₂ s₂ e₂)
  | replaces (callers₁ callers₂ : List Handle) : Alike R (.replaces callers₁) (.replaces callers₂)
  | releases (kept₁ kept₂ : List Handle) : Alike R (.releases kept₁) (.releases kept₂)

/-! ## Trails -/

/-- Why an operation gave no answer, and the output at that time. -/
def Outcome.stopped {α : Type} : Outcome α → Option (Stop × Sink)
  | .ok _ _ => none
  | .error reason m => some (reason, m.sink)

/-- What a run leaves to be seen of it: the moments it passed, and how it stopped if it did. -/
structure Trail where
  passes : Moment → Prop
  stopped : Option (Stop × Sink)

namespace Trail

/-- A trail that goes on where another ended. -/
protected structure le (T T' : Trail) : Prop where
  passes : ∀ t, T.passes t → T'.passes t
  stopped : ∀ e, T.stopped = some e → T'.stopped = some e

instance : LE Trail := ⟨Trail.le⟩

protected theorem le_refl (T : Trail) : T ≤ T := ⟨fun _ => id, fun _ => id⟩

end Trail

namespace Run

variable {α β : Type} {x : Run α} {f : α → Run β} {m m' : Machine} {a : α}

/-- The trail of an operation on a machine. -/
def trail (x : Run α) (m : Machine) : Trail := ⟨x.passes m, Outcome.stopped (x m)⟩

theorem trail_le_bind : x.trail m ≤ (x >>= f).trail m where
  passes _ := .inl
  stopped _ h := by
    cases hx : x.run m with
    | ok a n => simp [trail, hx, Outcome.stopped] at h
    | error r n => simpa only [trail, run_bind_of_error hx, hx, Outcome.stopped] using h

theorem trail_le_bind_of_ok (h : x.run m = .ok a m') : (f a).trail m' ≤ (x >>= f).trail m where
  passes _ ht := (passes_bind_of_ok h).mpr (.inr ht)
  stopped _ hr := by simpa only [trail, run_bind_of_ok h] using hr

theorem trail_le_keepingRoots : x.trail m ≤ (Machine.keepingRoots x).trail m where
  passes _ := .inl
  stopped _ h := by
    cases hx : x.run m with
    | ok a n => simp [trail, hx, Outcome.stopped] at h
    | error r n => simpa [trail, Machine.keepingRoots, hx, Outcome.stopped] using h

end Run

/-! ## Simulations -/

/-- The pairs of handles that two machines hold as roots, innermost first. -/
abbrev Held := List (Handle × Handle)

/-- A way to compare two runs. -/
structure Simulation where
  /-- What is known at a moment about the correspondence. -/
  World : Type
  /-- The handles that correspond. -/
  handle : World → Handle → Handle → Prop
  /-- The value stacks that correspond. -/
  stack : World → Handle → Handle → Prop := handle
  /-- The machines that correspond, the roots they hold apart. -/
  core : World → Machine → Machine → Prop
  /-- Whether the runs may collect. -/
  moving : Prop
  /-- The trails after which the runs are not compared. -/
  excuses : Trail → Trail → Prop
  /-- What excuses two runs still does so when they go on. -/
  excuses_mono : ∀ {T₁ T₂ T₁' T₂' : Trail}, T₁ ≤ T₁' → T₂ ≤ T₂' → excuses T₁ T₂ → excuses T₁' T₂'
  /-- What holds at every moment of the first run. -/
  sees₁ : Moment → Prop
  /-- What holds at every moment of the second run. -/
  sees₂ : Moment → Prop

namespace Simulation

variable {S : Simulation} {α β α' β' : Type} {Γ Γ' : Held} {w : S.World} {m₁ m₂ : Machine}

/-- The roots of two machines as held pairs. Runs that collect hold those pairs and no others; else
more pairs may be counted as held, since nothing is ever freed. -/
def Tied (S : Simulation) (Γ : Held) (shadow₁ shadow₂ : List Handle) : Prop :=
  (shadow₁ ⊆ Γ.map Prod.fst ∧ shadow₂ ⊆ Γ.map Prod.snd) ∧
    (S.moving → shadow₁ = Γ.map Prod.fst ∧ shadow₂ = Γ.map Prod.snd)

/-- Corresponding machines that hold given roots. -/
structure Rel (S : Simulation) (Γ : Held) (w : S.World) (m₁ m₂ : Machine) : Prop where
  core : S.core w m₁ m₂
  tied : S.Tied Γ m₁.shadow m₂.shadow
  held : ∀ p ∈ Γ, S.handle w p.1 p.2

/-- Outcomes that correspond. Answers are related by `V`, under held roots of which `P` is true. After
a stop, the roots that were held are held still. -/
def Matched (S : Simulation) (Γ : Held) (P : Held → Prop) (V : S.World → α → β → Prop) :
    Outcome α → Outcome β → Prop
  | .ok a₁ m₁, .ok a₂ m₂ => ∃ Γ' w, P Γ' ∧ S.Rel Γ' w m₁ m₂ ∧ V w a₁ a₂
  | .error r₁ m₁, .error r₂ m₂ => r₁ = r₂ ∧ r₁.Tame ∧ ∃ Γ' w, Γ <:+ Γ' ∧ S.Rel Γ' w m₁ m₂
  | _, _ => False

/-- Two operations agree from two machines on. -/
def AgreeIn (S : Simulation) (Γ : Held) (P : Held → Prop) (V : S.World → α → β → Prop)
    (x₁ : Run α) (m₁ : Machine) (x₂ : Run β) (m₂ : Machine) : Prop :=
  S.excuses (x₁.trail m₁) (x₂.trail m₂) ∨
    (∀ t, x₁.passes m₁ t → S.sees₁ t) ∧ (∀ t, x₂.passes m₂ t → S.sees₂ t) ∧
      S.Matched Γ P V (x₁ m₁) (x₂ m₂)

/-- Two operations agree and hold the same roots before and after. -/
abbrev Agree (S : Simulation) (Γ : Held) (V : S.World → α → β → Prop)
    (x₁ : Run α) (m₁ : Machine) (x₂ : Run β) (m₂ : Machine) : Prop :=
  S.AgreeIn Γ (· = Γ) V x₁ m₁ x₂ m₂

/-- Two operations agree and may hold more roots afterwards. -/
abbrev AgreeOver (S : Simulation) (Γ : Held) (V : S.World → α → β → Prop)
    (x₁ : Run α) (m₁ : Machine) (x₂ : Run β) (m₂ : Machine) : Prop :=
  S.AgreeIn Γ (Γ <:+ ·) V x₁ m₁ x₂ m₂

/-- Answers of which nothing is claimed. -/
def anything (S : Simulation) : S.World → α → β → Prop := fun _ _ _ => True

/-- Answers that are related, while the correspondence is as it was. -/
def still (S : Simulation) (w : S.World) (A : α → β → Prop) : S.World → α → β → Prop :=
  fun w' a₁ a₂ => w' = w ∧ A a₁ a₂

theorem Matched.of_suffix {P : Held → Prop} {V : S.World → α → β → Prop} {r₁ : Outcome α}
    {r₂ : Outcome β} (hsuf : Γ <:+ Γ') (h : S.Matched Γ' P V r₁ r₂) : S.Matched Γ P V r₁ r₂ := by
  cases r₁ with
  | ok a₁ m₁ =>
    cases r₂ with
    | ok a₂ m₂ => exact h
    | error => exact h
  | error r₁ m₁ =>
    cases r₂ with
    | ok => exact h
    | error r₂ m₂ =>
      obtain ⟨hr, htame, Γ'', w, hsuf', hrel⟩ := h
      exact ⟨hr, htame, Γ'', w, hsuf.trans hsuf', hrel⟩

theorem AgreeIn.of_suffix {P : Held → Prop} {V : S.World → α → β → Prop} {x₁ : Run α} {x₂ : Run β}
    (hsuf : Γ <:+ Γ') (h : S.AgreeIn Γ' P V x₁ m₁ x₂ m₂) : S.AgreeIn Γ P V x₁ m₁ x₂ m₂ := by
  rcases h with hexc | ⟨hsee₁, hsee₂, hmatch⟩
  · exact .inl hexc
  · exact .inr ⟨hsee₁, hsee₂, hmatch.of_suffix hsuf⟩

/-- Agreement may be weakened, with the machines at hand that the operations lead to. -/
theorem AgreeIn.imp {P P' : Held → Prop} {V V' : S.World → α → β → Prop} {x₁ : Run α} {x₂ : Run β}
    (h : S.AgreeIn Γ P V x₁ m₁ x₂ m₂)
    (himp : ∀ {Γ' w n₁ n₂ a₁ a₂}, P Γ' → S.Rel Γ' w n₁ n₂ → V w a₁ a₂ → P' Γ' ∧ V' w a₁ a₂) :
    S.AgreeIn Γ P' V' x₁ m₁ x₂ m₂ := by
  rcases h with hexc | ⟨hsee₁, hsee₂, hmatch⟩
  · exact .inl hexc
  refine .inr ⟨hsee₁, hsee₂, ?_⟩
  cases h₁ : x₁.run m₁ with
  | ok a₁ n₁ =>
    cases h₂ : x₂.run m₂ with
    | ok a₂ n₂ =>
      rw [h₁, h₂] at hmatch
      obtain ⟨Γ', w, hP, hrel, hV⟩ := hmatch
      obtain ⟨hP', hV'⟩ := himp hP hrel hV
      exact ⟨Γ', w, hP', hrel, hV'⟩
    | error => rw [h₁, h₂] at hmatch; exact hmatch.elim
  | error r₁ n₁ =>
    cases h₂ : x₂.run m₂ with
    | ok => rw [h₁, h₂] at hmatch; exact hmatch.elim
    | error r₂ n₂ => rw [h₁, h₂] at hmatch; exact hmatch

/-- Operations that agree without holding more roots agree. -/
theorem Agree.over {V : S.World → α → β → Prop} {x₁ : Run α} {x₂ : Run β}
    (h : S.Agree Γ V x₁ m₁ x₂ m₂) : S.AgreeOver Γ V x₁ m₁ x₂ m₂ := by
  apply h.imp
  rintro _ w n₁ n₂ a₁ a₂ rfl _ hV
  exact ⟨List.suffix_refl _, hV⟩

/-- Operations without an answer that correspond end with the same result, on corresponding machines. -/
theorem Matched.attempt {P : Held → Prop} {x₁ x₂ : Run Unit} (hP : ∀ {Γ'}, P Γ' → Γ <:+ Γ')
    (h : S.Matched Γ P S.anything (x₁ m₁) (x₂ m₂)) :
    ∃ r n₁ n₂ Γ' w, Machine.attempt x₁ m₁ = .ok r n₁ ∧ Machine.attempt x₂ m₂ = .ok r n₂ ∧
      Γ <:+ Γ' ∧ S.Rel Γ' w n₁ n₂ ∧ ∀ reason, r = .error reason → reason.Tame := by
  cases h₁ : x₁.run m₁ with
  | ok a₁ n₁ =>
    cases h₂ : x₂.run m₂ with
    | error => rw [h₁, h₂] at h; exact h.elim
    | ok a₂ n₂ =>
      rw [h₁, h₂] at h
      obtain ⟨Γ', w, hΓ', hrel, -⟩ := h
      exact ⟨.ok (), n₁, n₂, Γ', w, Machine.run_attempt_of_ok h₁, Machine.run_attempt_of_ok h₂, hP hΓ',
        hrel, nofun⟩
  | error r₁ n₁ =>
    cases h₂ : x₂.run m₂ with
    | ok => rw [h₁, h₂] at h; exact h.elim
    | error r₂ n₂ =>
      rw [h₁, h₂] at h
      obtain ⟨rfl, htame, Γ', w, hsuf, hrel⟩ := h
      refine ⟨.error r₁, n₁, n₂, Γ', w, Machine.run_attempt_of_error h₁, Machine.run_attempt_of_error h₂,
        hsuf, hrel, ?_⟩
      rintro _ ⟨⟩
      exact htame

/-! ## Sequences -/

section Sequences

variable {P P' : Held → Prop} {V : S.World → α → β → Prop} {V' : S.World → α' → β' → Prop}
  {x₁ : Run α} {x₂ : Run β} {f₁ : α → Run α'} {f₂ : β → Run β'} {a₁ : α} {a₂ : β}
  {n₁ n₂ : Machine}

theorem agree_of_ok (h₁ : x₁.run m₁ = .ok a₁ n₁) (h₂ : x₂.run m₂ = .ok a₂ n₂)
    (hsee₁ : ∀ t, x₁.passes m₁ t → S.sees₁ t) (hsee₂ : ∀ t, x₂.passes m₂ t → S.sees₂ t)
    (hP : P Γ') (hrel : S.Rel Γ' w n₁ n₂) (hV : V w a₁ a₂) : S.AgreeIn Γ P V x₁ m₁ x₂ m₂ := by
  refine .inr ⟨hsee₁, hsee₂, ?_⟩
  rw [h₁, h₂]
  exact ⟨Γ', w, hP, hrel, hV⟩

theorem agree_bind_of_ok (h₁ : x₁.run m₁ = .ok a₁ n₁) (h₂ : x₂.run m₂ = .ok a₂ n₂)
    (hsee₁ : ∀ t, x₁.passes m₁ t → S.sees₁ t) (hsee₂ : ∀ t, x₂.passes m₂ t → S.sees₂ t)
    (hf : S.AgreeIn Γ P' V' (f₁ a₁) n₁ (f₂ a₂) n₂) :
    S.AgreeIn Γ P' V' (x₁ >>= f₁) m₁ (x₂ >>= f₂) m₂ := by
  rcases hf with hexc | ⟨hsee₁', hsee₂', hmatch⟩
  · exact .inl (S.excuses_mono (Run.trail_le_bind_of_ok h₁) (Run.trail_le_bind_of_ok h₂) hexc)
  refine .inr ⟨?_, ?_, ?_⟩
  · intro t ht
    rcases (Run.passes_bind_of_ok h₁).mp ht with ht | ht
    · exact hsee₁ t ht
    · exact hsee₁' t ht
  · intro t ht
    rcases (Run.passes_bind_of_ok h₂).mp ht with ht | ht
    · exact hsee₂ t ht
    · exact hsee₂' t ht
  · rw [Run.run_bind_of_ok h₁, Run.run_bind_of_ok h₂]
    exact hmatch

/-- The first run may do something on its own. -/
theorem agree_left_of_ok (h₁ : x₁.run m₁ = .ok a₁ n₁) (hsee₁ : ∀ t, x₁.passes m₁ t → S.sees₁ t)
    {x₂ : Run β'} (hf : S.AgreeIn Γ P' V' (f₁ a₁) n₁ x₂ m₂) :
    S.AgreeIn Γ P' V' (x₁ >>= f₁) m₁ x₂ m₂ := by
  rw [← Run.pure_bind () fun _ => x₂]
  exact agree_bind_of_ok h₁ rfl hsee₁ (fun t ht => absurd ht (Run.not_passes_pure () m₂ t)) hf

/-- The second run may do something on its own. -/
theorem agree_right_of_ok (h₂ : x₂.run m₂ = .ok a₂ n₂) (hsee₂ : ∀ t, x₂.passes m₂ t → S.sees₂ t)
    {x₁ : Run α'} (hf : S.AgreeIn Γ P' V' x₁ m₁ (f₂ a₂) n₂) :
    S.AgreeIn Γ P' V' x₁ m₁ (x₂ >>= f₂) m₂ := by
  rw [← Run.pure_bind () fun _ => x₁]
  exact agree_bind_of_ok rfl h₂ (fun t ht => absurd ht (Run.not_passes_pure () m₁ t)) hsee₂ hf

/-- Sequences agree if their first operations do, and their second operations do wherever the first
ones may lead. -/
theorem AgreeIn.bind (hx : S.AgreeIn Γ P V x₁ m₁ x₂ m₂)
    (hf : ∀ {Γ' w a₁ a₂ n₁ n₂}, P Γ' → S.Rel Γ' w n₁ n₂ → V w a₁ a₂ →
      S.AgreeIn Γ P' V' (f₁ a₁) n₁ (f₂ a₂) n₂) :
    S.AgreeIn Γ P' V' (x₁ >>= f₁) m₁ (x₂ >>= f₂) m₂ := by
  rcases hx with hexc | ⟨hsee₁, hsee₂, hmatch⟩
  · exact .inl (S.excuses_mono Run.trail_le_bind Run.trail_le_bind hexc)
  cases h₁ : x₁.run m₁ with
  | error r₁ n₁ =>
    cases h₂ : x₂.run m₂ with
    | ok a₂ n₂ => rw [h₁, h₂] at hmatch; exact hmatch.elim
    | error r₂ n₂ =>
      rw [h₁, h₂] at hmatch
      refine .inr ⟨fun t ht => hsee₁ t ((Run.passes_bind_of_error h₁).mp ht),
        fun t ht => hsee₂ t ((Run.passes_bind_of_error h₂).mp ht), ?_⟩
      rw [Run.run_bind_of_error h₁, Run.run_bind_of_error h₂]
      exact hmatch
  | ok a₁ n₁ =>
    cases h₂ : x₂.run m₂ with
    | error r₂ n₂ => rw [h₁, h₂] at hmatch; exact hmatch.elim
    | ok a₂ n₂ =>
      rw [h₁, h₂] at hmatch
      obtain ⟨Γ', w, hΓ', hrel, hval⟩ := hmatch
      exact agree_bind_of_ok h₁ h₂ hsee₁ hsee₂ (hf hΓ' hrel hval)

/-- Sequences agree if their first operations do under the same roots. -/
theorem Agree.bind (hx : S.Agree Γ V x₁ m₁ x₂ m₂)
    (hf : ∀ {w a₁ a₂ n₁ n₂}, S.Rel Γ w n₁ n₂ → V w a₁ a₂ →
      S.AgreeIn Γ P' V' (f₁ a₁) n₁ (f₂ a₂) n₂) :
    S.AgreeIn Γ P' V' (x₁ >>= f₁) m₁ (x₂ >>= f₂) m₂ := by
  refine AgreeIn.bind hx ?_
  rintro Γ' w a₁ a₂ n₁ n₂ rfl hrel hval
  exact hf hrel hval

/-- Sequences agree under fewer roots than their first operations hold. -/
theorem Agree.bind_over (hx : S.Agree Γ' V x₁ m₁ x₂ m₂) (hsuf : Γ <:+ Γ')
    (hf : ∀ {w a₁ a₂ n₁ n₂}, S.Rel Γ' w n₁ n₂ → V w a₁ a₂ →
      S.AgreeIn Γ P' V' (f₁ a₁) n₁ (f₂ a₂) n₂) :
    S.AgreeIn Γ P' V' (x₁ >>= f₁) m₁ (x₂ >>= f₂) m₂ := by
  refine (AgreeIn.of_suffix hsuf hx).bind ?_
  rintro _ w a₁ a₂ n₁ n₂ rfl hrel hval
  exact hf hrel hval

/-- After operations that leave the correspondence as it was, whatever was related still is. -/
theorem Agree.bind_still {A : α → β → Prop} (hx : S.Agree Γ (S.still w A) x₁ m₁ x₂ m₂)
    (hf : ∀ {a₁ a₂ n₁ n₂}, S.Rel Γ w n₁ n₂ → A a₁ a₂ →
      S.AgreeIn Γ P' V' (f₁ a₁) n₁ (f₂ a₂) n₂) :
    S.AgreeIn Γ P' V' (x₁ >>= f₁) m₁ (x₂ >>= f₂) m₂ := by
  refine hx.bind ?_
  rintro w' a₁ a₂ n₁ n₂ hrel ⟨rfl, hA⟩
  exact hf hrel hA

theorem Agree.bind_still_over {A : α → β → Prop} (hx : S.Agree Γ' (S.still w A) x₁ m₁ x₂ m₂)
    (hsuf : Γ <:+ Γ')
    (hf : ∀ {a₁ a₂ n₁ n₂}, S.Rel Γ' w n₁ n₂ → A a₁ a₂ →
      S.AgreeIn Γ P' V' (f₁ a₁) n₁ (f₂ a₂) n₂) :
    S.AgreeIn Γ P' V' (x₁ >>= f₁) m₁ (x₂ >>= f₂) m₂ := by
  refine hx.bind_over hsuf ?_
  rintro w' a₁ a₂ n₁ n₂ hrel ⟨rfl, hA⟩
  exact hf hrel hA

theorem agree_pure (hrel : S.Rel Γ w m₁ m₂) (hP : P Γ) (hV : V w a₁ a₂) :
    S.AgreeIn Γ P V (pure a₁) m₁ (pure a₂) m₂ :=
  agree_of_ok rfl rfl (fun t ht => absurd ht (Run.not_passes_pure a₁ m₁ t))
    (fun t ht => absurd ht (Run.not_passes_pure a₂ m₂ t)) hP hrel hV

/-- Operations that branch on equivalent conditions agree if their branches do. -/
theorem agree_ite {c₁ c₂ : Prop} [Decidable c₁] [Decidable c₂] {y₁ : Run α} {y₂ : Run β}
    (hc : c₁ ↔ c₂) (hx : c₁ → c₂ → S.AgreeIn Γ P V x₁ m₁ x₂ m₂)
    (hy : ¬ c₁ → ¬ c₂ → S.AgreeIn Γ P V y₁ m₁ y₂ m₂) :
    S.AgreeIn Γ P V (if c₁ then x₁ else y₁) m₁ (if c₂ then x₂ else y₂) m₂ := by
  by_cases h : c₁
  · rw [if_pos h, if_pos (hc.mp h)]
    exact hx h (hc.mp h)
  · rw [if_neg h, if_neg (mt hc.mpr h)]
    exact hy h (mt hc.mpr h)

end Sequences

section States

variable {P : Held → Prop} {V : S.World → α → β → Prop}

theorem agree_get {f₁ : Machine → Run α} {f₂ : Machine → Run β}
    (hf : S.AgreeIn Γ P V (f₁ m₁) m₁ (f₂ m₂) m₂) :
    S.AgreeIn Γ P V (get >>= f₁) m₁ (get >>= f₂) m₂ := by
  unfold AgreeIn Run.trail
  rw [Run.passes_get_bind, Run.passes_get_bind]
  exact hf

theorem agree_getRegisters {f₁ : Registers → Run α} {f₂ : Registers → Run β}
    (hf : S.AgreeIn Γ P V (f₁ m₁.registers) m₁ (f₂ m₂.registers) m₂) :
    S.AgreeIn Γ P V (Machine.getRegisters >>= f₁) m₁ (Machine.getRegisters >>= f₂) m₂ := by
  unfold AgreeIn Run.trail
  rw [Machine.passes_getRegisters_bind, Machine.passes_getRegisters_bind]
  exact hf

end States

end Simulation

end PushLisp
