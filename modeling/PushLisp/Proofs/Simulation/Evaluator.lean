import PushLisp.Proofs.Simulation.Operations

/-!
# Evaluation under a simulation

Running a sequence agrees with itself under a lawful simulation. A frame holds what is left of its
sequence and its environment, and nothing else: the term just taken off the sequence is used before
anything is allocated.

## Main statements

* `Simulation.agree_evaluateWith`: terms, for any two ways to run a closure that agree.
* `Simulation.agree_frame`, `Simulation.agree_compute`: sequences.
* `Simulation.agree_runNext`: programs.
-/
namespace PushLisp

namespace Machine

/-- What all steps of a frame have in common: the end of the sequence and quoted terms. `next` goes on
with the sequence after a quoted term, and `other` with any other term and the sequence after it. -/
def frameStep (callers : List Handle) (seq env : Handle) (next : Handle → Run Unit)
    (other : Handle → Handle → Run Unit) : Run Unit := do
  if seq = (← getRegisters).nil then return ()
  traceSequence seq
  let term ← ask (car seq)
  let rest ← ask (cdr seq)
  holdFrame callers rest env
  let r ← getRegisters
  if term = r.atomQuote then
    if rest = r.nil then fail .danglingQuote
    let literal ← ask (car rest)
    let rest ← ask (cdr rest)
    holdFrame callers rest env
    push literal
    next rest
  else other term rest

/-- How a frame goes on with a term that is not quoted: the last one may hand the frame over. -/
def frameTerm (n : ℕ) (callers : List Handle) (env term rest : Handle) : Run Unit := do
  match ← ask (tailCallee? term rest env) with
  | some (body, captured) =>
    holdFrame callers body captured
    frame n callers body captured
  | none =>
    let env ← evaluateWith (compute n) term env
    holdFrame callers rest env
    frame n callers rest env

theorem frame_succ (n : ℕ) (callers : List Handle) (seq env : Handle) :
    frame (n + 1) callers seq env = (do
      observe (.iterates callers seq env)
      frameStep callers seq env (frame n callers · env) (frameTerm n callers env)) := rfl

end Machine

namespace Simulation

open Machine

variable {S : Simulation} (L : S.Lawful) {Γ Γ' : Held} {w : S.World} {m₁ m₂ : Machine}
  {s₁ s₂ e₁ e₂ h₁ h₂ : Handle}
include L

/-! ## The log -/

theorem agree_traceTerm (hrel : S.Rel Γ w m₁ m₂) (h : S.handle w h₁ h₂) :
    S.Agree Γ (S.still w fun _ _ => True) (traceTerm h₁) m₁ (traceTerm h₂) m₂ := by
  refine agree_get (agree_ite ?_ (fun _ _ => ?_) fun _ _ => ?_)
  · rw [L.tracing hrel.core]
  · refine agree_observe L hrel (.uses (.cons h .nil)) ?_
    refine agree_ask L hrel (answers_render L hrel.core h) fun text₁ text₂ _ => ?_
    exact agree_note L _ _ hrel
  · exact agree_pure hrel rfl ⟨rfl, trivial⟩

theorem agree_traceSequence (hrel : S.Rel Γ w m₁ m₂) (h : S.handle w h₁ h₂) :
    S.Agree Γ (S.still w fun _ _ => True) (traceSequence h₁) m₁ (traceSequence h₂) m₂ := by
  refine agree_get (agree_ite ?_ (fun _ _ => ?_) fun _ _ => ?_)
  · rw [L.tracing hrel.core]
  · refine agree_observe L hrel (.uses (.cons h .nil)) ?_
    refine agree_ask L hrel (answers_render L hrel.core h) fun text₁ text₂ _ => ?_
    refine agree_ask L hrel (L.depth hrel.core) fun depth₁ depth₂ _ => ?_
    exact agree_note L _ _ hrel
  · exact agree_pure hrel rfl ⟨rfl, trivial⟩

/-! ## Terms -/

/-- Terms are evaluated alike in environments that are held, if closures are run alike. -/
theorem agree_evaluateWith {call₁ call₂ : Handle → Handle → Run Unit}
    (hcall : ∀ {w n₁ n₂ b₁ b₂ c₁ c₂}, S.Rel Γ w n₁ n₂ → S.handle w b₁ b₂ → S.handle w c₁ c₂ →
      S.Agree Γ S.anything (call₁ b₁ c₁) n₁ (call₂ b₂ c₂) n₂)
    (hrel : S.Rel Γ w m₁ m₂) (hterm : S.handle w h₁ h₂) (henv : (e₁, e₂) ∈ Γ) :
    S.Agree Γ S.handle (evaluateWith call₁ h₁ e₁) m₁ (evaluateWith call₂ h₂ e₂) m₂ := by
  refine (agree_traceTerm L hrel hterm).bind_still fun hrel _ => agree_get ?_
  have hpush : ∀ {w n₁ n₂ v₁ v₂}, S.Rel Γ w n₁ n₂ → S.handle w v₁ v₂ →
      S.Agree Γ S.handle (do push v₁; return e₁) n₁ (do push v₂; return e₂) n₂ := fun hrel hvalue =>
    (L.push hrel hvalue).bind fun hrel _ => agree_pure hrel rfl (hrel.held _ henv)
  have hcapture : S.Agree Γ S.handle (do push (← makeClosure h₁ e₁); return e₁) _
      (do push (← makeClosure h₂ e₂); return e₂) _ :=
    (L.allocate hrel (.closure hterm (hrel.held _ henv)) nofun).bind fun hrel ⟨hclosure, _⟩ =>
      hpush hrel hclosure
  obtain ⟨o₁, o₂, ho₁, ho₂, halike⟩ := L.object hrel.core hterm
  rw [ho₁, ho₂]
  cases halike with
  | atom spelling =>
    have hlookup := answers_lookup L hrel.core (hrel.held _ henv) hterm
    refine agree_ask L hrel hlookup fun v₁ v₂ hvalue => agree_get ?_
    obtain ⟨o₁, o₂, ho₁, ho₂, halike⟩ := L.object hrel.core hvalue
    rw [ho₁, ho₂]
    cases halike with
    | closure hbody hcaptured =>
      exact (hcall hrel hbody hcaptured).bind fun hrel _ => agree_pure hrel rfl (hrel.held _ henv)
    | primitive hraw => exact agree_perform L hraw hrel henv
    | _ => exact hpush hrel hvalue
  | nil => exact hcapture
  | pair => exact hcapture
  | _ => exact hpush hrel hterm

/-- The closures that the last terms of two sequences call are related part by part. -/
theorem answers_tailCallee? {r₁ r₂ : Handle} (hcore : S.core w m₁ m₂) (hterm : S.handle w h₁ h₂)
    (hrest : S.handle w r₁ r₂) (henv : S.handle w e₁ e₂) :
    S.Answers (Option.Rel fun c₁ c₂ => S.handle w c₁.1 c₂.1 ∧ S.handle w c₁.2 c₂.2)
      (tailCallee? h₁ r₁ e₁ m₁) (tailCallee? h₂ r₂ e₂ m₂) := by
  have hlast : (r₁ = m₁.registers.nil ∧ m₁.isAtom h₁) ↔ (r₂ = m₂.registers.nil ∧ m₂.isAtom h₂) := by
    rw [isAtom_eq L hcore hterm, L.same hcore hrest (L.registers hcore).nil]
  unfold tailCallee?
  by_cases h : r₁ = m₁.registers.nil ∧ m₁.isAtom h₁
  · rw [if_pos h, if_pos (hlast.mp h)]
    have hlookup := answers_lookup L hcore henv hterm
    generalize lookup e₁ h₁ m₁ = v₁ at hlookup ⊢
    generalize lookup e₂ h₂ m₂ = v₂ at hlookup ⊢
    cases hlookup with
    | error htame => exact .error htame
    | ok hvalue =>
      obtain ⟨o₁, o₂, ho₁, ho₂, halike⟩ := L.object hcore hvalue
      simp only [ho₁, ho₂]
      cases halike with
      | closure hbody hcaptured => exact .ok (.some ⟨hbody, hcaptured⟩)
      | _ => exact .ok .none
  · rw [if_neg h, if_neg (mt hlast.mpr h)]
    exact .ok .none

/-! ## Sequences -/

omit L in
/-- The roots of a frame lie above those of its callers. -/
theorem suffix_frame (p q : Handle × Handle) (Γ : Held) : Γ <:+ p :: q :: Γ :=
  List.suffix_append [p, q] Γ

/-- The roots of a frame may be replaced by related handles. -/
theorem Rel.holdFrame {callers₁ callers₂ : List Handle} (hrel : S.Rel Γ' w m₁ m₂)
    (hsuf : Γ <:+ Γ') (hcallers : S.Tied Γ callers₁ callers₂) (hseq : S.handle w s₁ s₂)
    (henv : S.handle w e₁ e₂) :
    S.Rel ((e₁, e₂) :: (s₁, s₂) :: Γ) w { m₁ with shadow := e₁ :: s₁ :: callers₁ }
      { m₂ with shadow := e₂ :: s₂ :: callers₂ } where
  core := L.setShadow _ _ hrel.core
  tied := hcallers.append [(e₁, e₂), (s₁, s₂)]
  held p hp := by
    rcases List.mem_cons.mp hp with rfl | hp
    · exact henv
    rcases List.mem_cons.mp hp with rfl | hp
    · exact hseq
    exact hrel.held p (hsuf.subset hp)

/-- Frames may replace their roots by related handles. -/
theorem agree_holdFrame {callers₁ callers₂ : List Handle} {P : Held → Prop}
    {V : S.World → Unit → Unit → Prop} {f₁ f₂ : Unit → Run Unit} (hsuf : Γ <:+ Γ')
    (hcallers : S.Tied Γ callers₁ callers₂) (hrel : S.Rel Γ' w m₁ m₂) (hseq : S.handle w s₁ s₂)
    (henv : S.handle w e₁ e₂)
    (hf : ∀ {n₁ n₂}, S.Rel ((e₁, e₂) :: (s₁, s₂) :: Γ) w n₁ n₂ →
      S.AgreeIn Γ P V (f₁ ()) n₁ (f₂ ()) n₂) :
    S.AgreeIn Γ P V (holdFrame callers₁ s₁ e₁ >>= f₁) m₁ (holdFrame callers₂ s₂ e₂ >>= f₂) m₂ := by
  rw [holdFrame, holdFrame, Run.bind_assoc, Run.bind_assoc]
  refine agree_observe L hrel (.replaces callers₁ callers₂) ?_
  have hrel := hrel.holdFrame L hsuf hcallers hseq henv
  exact agree_modify L hrel (hf hrel)

theorem agree_enter {run₁ run₂ : List Handle → Run Unit} (hrel : S.Rel Γ w m₁ m₂)
    (hseq : S.handle w s₁ s₂) (henv : S.handle w e₁ e₂)
    (hrun : ∀ {n₁ n₂}, S.Rel ((e₁, e₂) :: (s₁, s₂) :: Γ) w n₁ n₂ →
      S.AgreeOver Γ S.anything (run₁ m₁.shadow) n₁ (run₂ m₂.shadow) n₂) :
    S.Agree Γ S.anything (enter run₁ s₁ e₁) m₁ (enter run₂ s₂ e₂) m₂ := by
  refine agree_keepingRoots L hrel (agree_get ?_)
  have hframe := hrel.holdFrame L (List.suffix_refl Γ) hrel.tied hseq henv
  exact agree_modify L hframe (hrun hframe)

/-- What steps of a frame have in common agrees. The frame is held anew whenever something is taken off
its sequence. -/
theorem agree_frameStep {callers₁ callers₂ : List Handle} {next₁ next₂ : Handle → Run Unit}
    {other₁ other₂ : Handle → Handle → Run Unit} (hcallers : S.Tied Γ callers₁ callers₂)
    (hnext : ∀ {w r₁ r₂ n₁ n₂}, S.Rel ((e₁, e₂) :: (r₁, r₂) :: Γ) w n₁ n₂ →
      S.AgreeOver Γ S.anything (next₁ r₁) n₁ (next₂ r₂) n₂)
    (hother : ∀ {w t₁ t₂ r₁ r₂ n₁ n₂}, S.Rel ((e₁, e₂) :: (r₁, r₂) :: Γ) w n₁ n₂ →
      S.handle w t₁ t₂ → S.AgreeOver Γ S.anything (other₁ t₁ r₁) n₁ (other₂ t₂ r₂) n₂)
    (hrel : S.Rel ((e₁, e₂) :: (s₁, s₂) :: Γ) w m₁ m₂) :
    S.AgreeOver Γ S.anything (frameStep callers₁ s₁ e₁ next₁ other₁) m₁
      (frameStep callers₂ s₂ e₂ next₂ other₂) m₂ := by
  have hseq : S.handle w s₁ s₂ := hrel.held (s₁, s₂) (by simp)
  have henv : S.handle w e₁ e₂ := hrel.held (e₁, e₂) (by simp)
  refine agree_getRegisters (agree_ite ?_ (fun _ _ => ?_) fun _ _ => ?_)
  · exact L.same hrel.core hseq (L.registers hrel.core).nil
  · exact (agree_pure hrel (suffix_frame _ _ Γ) trivial).of_suffix (suffix_frame _ _ Γ)
  refine (agree_traceSequence L hrel hseq).bind_still_over (suffix_frame _ _ Γ) fun hrel _ => ?_
  have hcar := answers_car L hrel.core hseq
  refine (agree_ask_still L hrel hcar).bind_still_over (suffix_frame _ _ Γ) fun hrel hterm => ?_
  have hcdr := answers_cdr L hrel.core hseq
  refine (agree_ask_still L hrel hcdr).bind_still_over (suffix_frame _ _ Γ) fun hrel hrest => ?_
  refine agree_holdFrame L (suffix_frame _ _ Γ) hcallers hrel hrest henv fun hrel => ?_
  refine agree_getRegisters ?_
  have hregs := L.registers hrel.core
  refine agree_ite (L.same hrel.core hterm hregs.atomQuote) (fun _ _ => ?_) fun _ _ => hother hrel hterm
  refine agree_ite (L.same hrel.core hrest hregs.nil) (fun _ _ => ?_) fun _ _ => ?_
  · exact AgreeIn.of_suffix (suffix_frame _ _ Γ) (agree_fail_bind L nofun hrel)
  have hcar := answers_car L hrel.core hrest
  refine (agree_ask_still L hrel hcar).bind_still_over (suffix_frame _ _ Γ) fun hrel hliteral => ?_
  have hcdr := answers_cdr L hrel.core hrest
  refine (agree_ask_still L hrel hcdr).bind_still_over (suffix_frame _ _ Γ) fun hrel hrest => ?_
  refine agree_holdFrame L (suffix_frame _ _ Γ) hcallers hrel hrest henv fun hrel => ?_
  exact (L.push hrel hliteral).bind_over (suffix_frame _ _ Γ) fun hrel _ => hnext hrel

/-- Frames agree. The induction is on the bound. -/
theorem agree_frame {callers₁ callers₂ : List Handle} (n : ℕ)
    (hcallers : S.Tied Γ callers₁ callers₂) (hrel : S.Rel ((e₁, e₂) :: (s₁, s₂) :: Γ) w m₁ m₂) :
    S.AgreeOver Γ S.anything (frame n callers₁ s₁ e₁) m₁ (frame n callers₂ s₂ e₂) m₂ := by
  induction n generalizing Γ callers₁ callers₂ s₁ s₂ e₁ e₂ w m₁ m₂ with
  | zero => exact (agree_stop L hrel Stop.tame_unfinished).of_suffix (suffix_frame _ _ Γ)
  | succ n ih =>
    rw [frame_succ, frame_succ]
    have hseq : S.handle w s₁ s₂ := hrel.held (s₁, s₂) (by simp)
    have henv : S.handle w e₁ e₂ := hrel.held (e₁, e₂) (by simp)
    refine agree_observe L hrel (.iterates hseq henv) ?_
    refine agree_frameStep L hcallers (fun hrel => ih hcallers hrel) ?_ hrel
    intro w t₁ t₂ r₁ r₂ n₁ n₂ hrel hterm
    have hrest : S.handle w r₁ r₂ := hrel.held (r₁, r₂) (by simp)
    have henv : S.handle w e₁ e₂ := hrel.held (e₁, e₂) (by simp)
    have htail := answers_tailCallee? L hrel.core hterm hrest henv
    refine (agree_ask_still L hrel htail).bind_still_over (suffix_frame _ _ Γ) fun hrel hcallee => ?_
    cases hcallee with
    | some hcallee =>
      exact agree_holdFrame L (suffix_frame _ _ Γ) hcallers hrel hcallee.1 hcallee.2 (ih hcallers)
    | none =>
      refine Agree.bind_over (agree_evaluateWith L ?_ hrel hterm List.mem_cons_self)
        (suffix_frame _ _ Γ) fun hrel henv => ?_
      · intro w n₁ n₂ b₁ b₂ c₁ c₂ hrel hbody hcaptured
        exact agree_enter L hrel hbody hcaptured (ih hrel.tied)
      · have hrest : S.handle _ r₁ r₂ := hrel.held (r₁, r₂) (by simp)
        exact agree_holdFrame L (suffix_frame _ _ Γ) hcallers hrel hrest henv (ih hcallers)

/-- Running a sequence agrees with itself. -/
theorem agree_compute (n : ℕ) (hrel : S.Rel Γ w m₁ m₂) (hseq : S.handle w s₁ s₂)
    (henv : S.handle w e₁ e₂) :
    S.Agree Γ S.anything (compute n s₁ e₁) m₁ (compute n s₂ e₂) m₂ :=
  agree_enter L hrel hseq henv (agree_frame L n hrel.tied)

/-- The closures on top of two stacks are run alike. -/
theorem agree_force (n : ℕ) (hrel : S.Rel Γ w m₁ m₂) :
    S.Agree Γ S.anything (force n) m₁ (force n) m₂ := by
  refine (L.pop hrel).bind_still fun hrel hcallee => ?_
  refine agree_observe L hrel (.uses (.cons hcallee .nil)) (agree_get ?_)
  obtain ⟨o₁, o₂, ho₁, ho₂, halike⟩ := L.object hrel.core hcallee
  rw [ho₁, ho₂]
  cases halike with
  | closure hbody henv => exact agree_compute L n hrel hbody henv
  | _ =>
    refine agree_get ?_
    rw [← mismatch_eq L hrel.core hcallee]
    exact agree_stop L hrel (tame_mismatch L _ (by decide) hrel.core hcallee)

/-! ## Programs -/

theorem agree_passOn {ended : Except Stop Unit} (htame : ∀ reason, ended = .error reason → reason.Tame)
    (hrel : S.Rel Γ w m₁ m₂) : S.Agree Γ S.anything (passOn ended) m₁ (passOn ended) m₂ := by
  have hflush : m₁.sink.flush = m₂.sink.flush := by
    rw [Sink.flush, Sink.flush, L.flushFails hrel.core]
  unfold passOn
  split
  · exact agree_stop L hrel Stop.tame_unfinished
  · refine agree_get ?_
    rw [hflush]
    split
    · exact agree_fail L nofun hrel
    · exact agree_pure hrel rfl trivial
    · exact agree_stop L hrel (htame _ rfl)

/-- Passing the output on afterwards keeps operations in agreement, if it keeps their excuses. -/
theorem agree_flushAfter {x₁ x₂ : Run Unit} (hx : S.Agree Γ S.anything x₁ m₁ x₂ m₂)
    (hexc : S.excuses (x₁.trail m₁) (x₂.trail m₂) →
      S.excuses ((flushAfter x₁).trail m₁) ((flushAfter x₂).trail m₂)) :
    S.AgreeOver Γ S.anything (flushAfter x₁) m₁ (flushAfter x₂) m₂ := by
  rcases hx with hx | ⟨hsee₁, hsee₂, hmatch⟩
  · exact .inl (hexc hx)
  obtain ⟨r, n₁, n₂, Γ', w, hrun₁, hrun₂, hsuf, hrel, htame⟩ :=
    hmatch.attempt fun h => h ▸ List.suffix_refl Γ
  refine agree_bind_of_ok hrun₁ hrun₂ hsee₁ hsee₂ (((agree_passOn L htame hrel).imp ?_).of_suffix hsuf)
  rintro _ _ _ _ _ _ rfl - -
  exact ⟨hsuf, trivial⟩

/-- Programs agree, if passing the output on keeps the excuses of their runs. -/
theorem agree_runNext (n : ℕ)
    (hexc : ∀ {w m₁ m₂ s₁ s₂ e₁ e₂}, S.Rel Γ w m₁ m₂ →
      S.excuses ((compute n s₁ e₁).trail m₁) ((compute n s₂ e₂).trail m₂) →
      S.excuses ((flushAfter (compute n s₁ e₁)).trail m₁) ((flushAfter (compute n s₂ e₂)).trail m₂))
    (hrel : S.Rel Γ w m₁ m₂) :
    S.AgreeOver Γ S.anything (runNext n) m₁ (runNext n) m₂ := by
  refine (agree_readTerm L hrel).bind fun hrel hprogram => ?_
  refine (agree_modifyRegisters L hrel ?_ ⟨rfl, rfl, rfl, rfl, rfl⟩
    ⟨rfl, rfl, rfl, rfl, rfl⟩).bind_still fun hrel _ => ?_
  · exact { L.registers hrel.core with program := hprogram }
  refine agree_getRegisters (agree_flushAfter L ?_ (hexc hrel))
  exact agree_compute L n hrel hprogram (L.registers hrel.core).env

end Simulation

end PushLisp
