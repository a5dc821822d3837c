import Mathlib.Data.Nat.Notation
import PushLisp.Program

/-!
# The empty environment

Primitives are called by name. Nothing is bound in the empty environment, so a sequence that is run there
calls none: it pushes its numbers, strings and quoted terms, and captures its lists.

## Main definitions

* `Machine.Performs`: a run calls a primitive.
* `Machine.Uncalled`: a run calls nothing.

## Main statements

* `Machine.uncalled_compute_nil`: running a sequence in the empty environment.
-/
namespace PushLisp

/-- A primitive is called. -/
def Step.IsCall : Step → Prop
  | .performs _ _ => True
  | _ => False

namespace Machine

/-- A run calls a primitive, in whatever environment. -/
def Performs {α : Type} (act : Run α) (m : Machine) (b : Builtin) : Prop :=
  ∃ env n, act.passes m ⟨.performs b env, n⟩

variable {m : Machine}

/-- A run calls no primitive, and what it answers has a property. -/
def Uncalled {α : Type} (act : Run α) (m : Machine) (Q : α → Prop := fun _ => True) : Prop :=
  (∀ t, act.passes m t → ¬ t.step.IsCall) ∧ ∀ a n, act m = .ok a n → Q a

section Uncalled

variable {α β : Type} {Q : α → Prop} {Q' : β → Prop}

/-- A run without calls does not call this primitive or that. -/
theorem Uncalled.not_performs {act : Run α} (h : Uncalled act m Q) (b : Builtin) : ¬ Performs act m b := by
  intro ⟨env, n, hpasses⟩
  exact h.1 _ hpasses trivial

/-- Calls are made by neither of two operations. What the first answers may be used for the second. -/
theorem Uncalled.bind {x : Run α} {g : α → Run β} (hx : Uncalled x m Q)
    (hg : ∀ a n, Q a → Uncalled (g a) n Q') : Uncalled (x >>= g) m Q' := by
  constructor
  · intro t ht
    rcases ht with ht | ⟨a, n, hrun, ht⟩
    · exact hx.1 t ht
    · exact (hg a n (hx.2 a n hrun)).1 t ht
  · intro c n hrun
    cases hfirst : x.run m with
    | ok a m' => exact (hg a m' (hx.2 a m' hfirst)).2 c n (Run.run_bind_of_ok hfirst ▸ hrun)
    | error reason m' =>
      rw [Run.run_bind_of_error hfirst] at hrun
      cases hrun

theorem uncalled_pure {a : α} (ha : Q a) : Uncalled (pure a) m Q := by
  refine ⟨fun t ht => ht.elim, ?_⟩
  intro a n hrun
  cases hrun
  exact ha

theorem uncalled_get : Uncalled (get : Run Machine) m := ⟨fun _ ht => ht.elim, fun _ _ _ => trivial⟩

theorem uncalled_getRegisters : Uncalled getRegisters m :=
  uncalled_get.bind fun _ _ _ => uncalled_pure trivial

/-- A run that stops answers nothing, so its answers have any property. -/
theorem uncalled_stop (reason : Stop) : Uncalled (stop reason : Run α) m Q := by
  refine ⟨fun t ht => ?_, nofun⟩
  cases ht
  exact id

/-- Other steps than calls may be observed. -/
theorem uncalled_observe {step : Step} (hstep : ¬ step.IsCall) : Uncalled (observe step) m := by
  refine ⟨fun t ht => ?_, fun _ _ _ => trivial⟩
  cases ht
  exact hstep

theorem uncalled_modifyGet (g : Machine → α × Machine) : Uncalled (modifyGet g : Run α) m := by
  refine ⟨fun t ht => ?_, fun _ _ _ => trivial⟩
  cases ht
  exact id

/-- A question is not a call. What it answers is what the machine says. -/
theorem uncalled_ask {question : Machine → Except Stop α} (hQ : ∀ a, question m = .ok a → Q a) :
    Uncalled (ask question) m Q := by
  constructor
  · intro t ⟨reason, _, ht⟩
    cases ht
    exact id
  · intro a n hrun
    cases hanswer : question m with
    | ok a' =>
      simp only [ask, hanswer] at hrun
      cases hrun
      exact hQ a hanswer
    | error reason =>
      simp only [ask, hanswer] at hrun
      cases hrun

/-- The same where the answer does not matter. -/
theorem uncalled_askAny (question : Machine → Except Stop α) : Uncalled (ask question) m :=
  uncalled_ask fun _ _ => trivial

/-- A scope is observed when it is left, and that is not a call either. -/
theorem uncalled_keepingRoots {act : Run α} (hact : Uncalled act m) : Uncalled (keepingRoots act) m := by
  refine ⟨fun t ht => ?_, fun _ _ _ => trivial⟩
  rcases ht with ht | rfl | rfl
  · exact hact.1 t ht
  · exact id
  · exact id

theorem uncalled_collect : Uncalled collect m := by
  refine (uncalled_observe id).bind fun _ _ _ => (uncalled_modifyGet _).bind fun _ _ _ => ?_
  exact uncalled_get.bind fun _ _ _ => (uncalled_modifyGet _).bind fun _ _ _ => uncalled_pure trivial

theorem uncalled_tryAllocate (o : Object) : Uncalled (tryAllocate o) m := by
  refine ⟨fun t ⟨i, _, ht⟩ => ?_, fun _ _ _ => trivial⟩
  rcases ht with rfl | rfl
  · exact id
  · exact id

/-- Making an object may lead to a collection, but to no call. -/
theorem uncalled_allocate (o : Object) : Uncalled (allocate o) m := by
  refine (uncalled_tryAllocate o).bind fun found _ _ => ?_
  cases found with
  | some h => exact uncalled_pure trivial
  | none =>
    have hcollect : ∀ {n}, Uncalled (withRoots o.references collect) n :=
      uncalled_keepingRoots ((uncalled_modifyGet _).bind fun _ _ _ => uncalled_collect)
    refine hcollect.bind fun _ _ _ => (uncalled_tryAllocate o).bind fun found _ _ => ?_
    cases found with
    | some h => exact uncalled_pure trivial
    | none => exact uncalled_get.bind fun _ _ _ => uncalled_stop _

theorem uncalled_push (value : Handle) : Uncalled (push value) m := by
  refine uncalled_getRegisters.bind fun _ _ _ => ?_
  exact (uncalled_allocate _).bind fun _ _ _ => uncalled_modifyGet _

/-- The stack is a list, and popping takes it apart by hand. -/
theorem uncalled_tryPop : Uncalled tryPop m := by
  refine uncalled_getRegisters.bind fun _ _ _ => ?_
  dsimp only
  split
  · exact uncalled_pure trivial
  · refine (uncalled_askAny _).bind fun _ _ _ => (uncalled_askAny _).bind fun _ _ _ => ?_
    exact (uncalled_modifyGet _).bind fun _ _ _ => uncalled_pure trivial

theorem uncalled_pop : Uncalled pop m := by
  refine uncalled_tryPop.bind fun top _ _ => ?_
  cases top with
  | some value => exact uncalled_pure trivial
  | none => exact uncalled_stop _

/-- The value that is popped is looked at, which is observed. -/
theorem uncalled_popNumber : Uncalled popNumber m := by
  refine uncalled_pop.bind fun _ _ _ => (uncalled_observe id).bind fun _ _ _ => ?_
  exact uncalled_get.bind fun _ _ _ => uncalled_pure trivial

theorem uncalled_traceTerm (term : Handle) : Uncalled (traceTerm term) m := by
  refine uncalled_get.bind fun _ _ _ => ?_
  split
  · refine (uncalled_observe id).bind fun _ _ _ => ?_
    exact (uncalled_askAny _).bind fun _ _ _ => uncalled_modifyGet _
  · exact uncalled_pure trivial

/-- Tracing notes an event, or does not. -/
theorem uncalled_traceSequence (seq : Handle) : Uncalled (traceSequence seq) m := by
  refine uncalled_get.bind fun _ _ _ => ?_
  split
  · refine (uncalled_observe id).bind fun _ _ _ => (uncalled_askAny _).bind fun _ _ _ => ?_
    exact (uncalled_askAny _).bind fun _ _ _ => uncalled_modifyGet _
  · exact uncalled_pure trivial

/-- A frame that replaces its roots calls nothing by it. -/
theorem uncalled_holdFrame (callers : List Handle) (seq env : Handle) :
    Uncalled (holdFrame callers seq env) m :=
  (uncalled_observe id).bind fun _ _ _ => uncalled_modifyGet _

/-- Nothing is bound in the empty environment. -/
theorem lookup_nil_ne_ok (key value : Handle) : lookup .nil key m ≠ .ok value := by
  unfold lookup
  split
  · exact nofun
  · simp [walkBound, lookupFrom, Handle.isNil_iff]

/-- In the empty environment a term calls nothing, and the environment stays empty. -/
theorem uncalled_evaluateWith_nil (call : Handle → Handle → Run Unit) (term : Handle) :
    Uncalled (evaluateWith call term .nil) m (· = .nil) := by
  have hpush : ∀ {n} value, Uncalled (do push value; return Handle.nil) n (· = .nil) := fun value =>
    (uncalled_push value).bind fun _ _ _ => uncalled_pure rfl
  have hcapture : ∀ {n}, Uncalled (do push (← makeClosure term .nil); return Handle.nil) n (· = .nil) :=
    (uncalled_allocate _).bind fun _ _ _ => hpush _
  refine (uncalled_traceTerm term).bind fun _ _ _ => uncalled_get.bind fun _ _ _ => ?_
  split
  · have hlookup : ∀ {n}, Uncalled (ask (lookup .nil term)) n fun _ => False :=
      uncalled_ask fun value hvalue => lookup_nil_ne_ok term value hvalue
    exact hlookup.bind fun _ _ hfalse => hfalse.elim
  · exact hcapture
  · exact hcapture
  · exact hpush term

/-- In the empty environment no term is a call in tail position. -/
theorem uncalled_tailCallee?_nil (term rest : Handle) :
    Uncalled (ask (tailCallee? term rest .nil)) m (· = none) := by
  apply uncalled_ask
  intro callee hcallee
  unfold tailCallee? at hcallee
  split at hcallee
  · split at hcallee
    · cases hcallee
    · rename_i hlookup
      exact absurd hlookup (lookup_nil_ne_ok _ _)
  · cases hcallee
    rfl

/-- In the empty environment what is left of a sequence calls nothing. The induction is on the bound. -/
theorem uncalled_frame_nil (bound : ℕ) (callers : List Handle) (seq : Handle) :
    Uncalled (frame bound callers seq .nil) m := by
  induction bound generalizing seq m with
  | zero => exact uncalled_stop _
  | succ bound ih =>
    rw [frame]
    refine (uncalled_observe id).bind fun _ _ _ => uncalled_getRegisters.bind fun _ _ _ => ?_
    split
    · exact uncalled_pure trivial
    refine (uncalled_traceSequence seq).bind fun _ _ _ => (uncalled_askAny _).bind fun _ _ _ => ?_
    refine (uncalled_askAny _).bind fun _ _ _ => (uncalled_holdFrame callers _ _).bind fun _ _ _ => ?_
    refine uncalled_getRegisters.bind fun _ _ _ => ?_
    split
    · split
      · exact Uncalled.bind (Q := fun _ => False) (uncalled_stop _) fun _ _ hfalse => hfalse.elim
      refine (uncalled_askAny _).bind fun _ _ _ => (uncalled_askAny _).bind fun _ _ _ => ?_
      refine (uncalled_holdFrame callers _ _).bind fun _ _ _ => ?_
      exact (uncalled_push _).bind fun _ _ _ => ih _
    · refine (uncalled_tailCallee?_nil _ _).bind fun callee _ hnone => ?_
      subst hnone
      refine (uncalled_evaluateWith_nil _ _).bind fun env _ henv => ?_
      subst henv
      exact (uncalled_holdFrame callers _ _).bind fun _ _ _ => ih _

/-- In the empty environment a sequence calls nothing. -/
theorem uncalled_compute_nil (bound : ℕ) (seq : Handle) : Uncalled (compute bound seq .nil) m := by
  refine uncalled_keepingRoots (uncalled_get.bind fun _ _ _ => ?_)
  exact (uncalled_modifyGet _).bind fun _ _ _ => uncalled_frame_nil bound _ seq

end Uncalled

end Machine

end PushLisp
