import PushLisp.Proofs.Session

/-!
# Tail calls keep the meaning of programs

A closure called by the last term of a sequence takes over the frame of its caller. Without this, every
call opens a frame of its own and returns to its caller, which then finds nothing left to do. The two
ways to run a sequence hold different roots, so they may differ in what is collected. As long as nothing
is collected they do the same.

## Main definitions

* `Machine.plainFrame`, `Machine.plainCompute`: running a sequence without taking frames over.
* `Machine.Settles`: an operation that ends without a collection.

## Main statements

* `Simulation.agree_plainFrame`: the two ways agree.
* `Machine.settles_compute_iff`: they end alike, from any state of a session.
-/
namespace PushLisp

namespace Machine

/-! ## Running without tail calls -/

/-- Runs what is left of a sequence. Every closure that is called gets a frame of its own. -/
def plainFrame : ℕ → List Handle → Handle → Handle → Run Unit
  | 0, _, _, _ => stop .unfinished
  | n + 1, callers, seq, env =>
    frameStep callers seq env (plainFrame n callers · env) fun term rest => do
      let call (body captured : Handle) : Run Unit :=
        enter (fun callers => plainFrame n callers body captured) body captured
      let env ← evaluateWith call term env
      holdFrame callers rest env
      plainFrame n callers rest env

/-- Runs a sequence in an environment, within a step bound, without tail calls. -/
def plainCompute (bound : ℕ) (seq env : Handle) : Run Unit :=
  enter (fun callers => plainFrame bound callers seq env) seq env

/-- How a frame goes on with a term that is not quoted, if none is handed over. -/
def plainTerm (n : ℕ) (callers : List Handle) (env term rest : Handle) : Run Unit := do
  let env ← evaluateWith (plainCompute n) term env
  holdFrame callers rest env
  plainFrame n callers rest env

theorem plainFrame_succ (n : ℕ) (callers : List Handle) (seq env : Handle) :
    plainFrame (n + 1) callers seq env =
      frameStep callers seq env (plainFrame n callers · env) (plainTerm n callers env) := rfl

/-- An operation ends with a result, in a machine, and nothing was collected on the way. -/
structure Settles (act : Run Unit) (m : Machine) (r : Except Stop Unit) (m' : Machine) : Prop where
  run : attempt act m = .ok r m'
  finished : r ≠ .error .unfinished
  calm : ∀ n, ¬ act.passes m ⟨.collects, n⟩

variable {m : Machine} {term rest env : Handle}

/-! ## The term in question -/

/-- A frame that has nothing left to run is done. -/
theorem frameStep_nil {callers : List Handle} {seq : Handle} {next : Handle → Run Unit}
    {other : Handle → Handle → Run Unit} (hseq : seq = m.registers.nil) :
    frameStep callers seq env next other m = .ok () m ∧
      ∀ t, ¬ (frameStep callers seq env next other).passes m t := by
  constructor
  · have hrun : getRegisters.run m = .ok m.registers m := rfl
    rw [frameStep, Run.run_bind_of_ok hrun, if_pos hseq]
    rfl
  · intro t
    rw [frameStep, passes_getRegisters_bind, if_pos hseq]
    exact Run.not_passes_pure () m t

/-- Only the last term can be a tail call, and only if it is an atom. -/
theorem tailCallee?_eq_error {reason : Stop} (h : tailCallee? term rest env m = .error reason) :
    rest = m.registers.nil ∧ m.isAtom term ∧ lookup env term m = .error reason := by
  unfold tailCallee? at h
  split at h
  · rename_i hlast
    refine ⟨hlast.1, hlast.2, ?_⟩
    split at h
    · rename_i hlookup
      rw [hlookup]
      cases h
      rfl
    · split at h <;> cases h
  · cases h

/-- A tail call calls a closure that its atom is bound to. -/
theorem tailCallee?_eq_some {body captured : Handle}
    (h : tailCallee? term rest env m = .ok (some (body, captured))) :
    rest = m.registers.nil ∧ m.isAtom term ∧
      ∃ callee, lookup env term m = .ok callee ∧ m.object? callee = some (.closure body captured) := by
  unfold tailCallee? at h
  split at h
  · rename_i hlast
    refine ⟨hlast.1, hlast.2, ?_⟩
    split at h
    · cases h
    · rename_i callee hlookup
      refine ⟨callee, hlookup, ?_⟩
      split at h
      · rename_i ho
        cases h
        exact ho
      · cases h
  · cases h

theorem exists_atom_of_isAtom {h : Handle} (hatom : m.isAtom h) :
    ∃ spelling, m.object? h = some (.atom spelling) := by
  simp only [isAtom, kind?, decide_eq_true_eq, Option.map_eq_some_iff] at hatom
  obtain ⟨o, ho, hkind⟩ := hatom
  cases o with
  | atom spelling => exact ⟨spelling, ho⟩
  | _ => cases hkind

/-- An atom is always noted in the log, and nothing but the log changes. -/
theorem traceTerm_of_atom {spelling : Bytes} (ho : m.object? term = some (.atom spelling)) :
    ∃ events, traceTerm term m = .ok () { m with events := events } ∧
      ∀ t, (traceTerm term).passes m t →
        t = ⟨.uses [term], m⟩ ∨ t = ⟨.changes m, { m with events := events }⟩ := by
  obtain ⟨text, htext⟩ : ∃ text, render term m = .ok text := by
    simp only [render, textOf, pieces, piecesWithin, printBound, printFrom, ho]
    exact ⟨_, rfl⟩
  have hask : (ask (render term)).run m = .ok text m := by simp only [ask, htext]
  have hget : (get : Run Machine).run m = .ok m m := rfl
  have hobserve : (observe (.uses [term])).run m = .ok () m := rfl
  by_cases htr : m.tracing = true
  · refine ⟨m.events.push (.evaluating text), ?_, ?_⟩
    · rw [traceTerm, Run.run_bind_of_ok hget, if_pos htr, Run.run_bind_of_ok hobserve,
        Run.run_bind_of_ok hask]
      show EStateM.Result.ok () (if m.tracing = true then _ else _) = _
      rw [if_pos htr]
    · intro t ht
      rw [traceTerm, Run.passes_get_bind, if_pos htr] at ht
      rcases (Run.passes_bind_of_ok hobserve).mp ht with rfl | ht
      · exact .inl rfl
      rcases (Run.passes_bind_of_ok hask).mp ht with ⟨reason, hreason, -⟩ | ht
      · rw [htext] at hreason
        cases hreason
      · have ht : t = ⟨.changes m, if m.tracing = true then _ else _⟩ := ht
        rw [if_pos htr] at ht
        exact .inr ht
  · refine ⟨m.events, ?_, ?_⟩
    · rw [traceTerm, Run.run_bind_of_ok hget, if_neg htr]
      rfl
    · intro t ht
      rw [traceTerm, Run.passes_get_bind, if_neg htr] at ht
      exact absurd ht (Run.not_passes_pure () m t)

end Machine

namespace Simulation

open Machine

variable {α β : Type} {S : Simulation} (L : S.Lawful) (hstays : ¬ S.moving) {Γ Γ' : Held}
  {P : Held → Prop} {V : S.World → α → β → Prop} {w : S.World} {m₁ m₂ : Machine}
  {s₁ s₂ e₁ e₂ h₁ h₂ t₁ t₂ r₁ r₂ : Handle}

/-! ## One run on its own -/

theorem agree_right_get {x₁ : Run α} {f₂ : Machine → Run β}
    (hf : S.AgreeIn Γ P V x₁ m₁ (f₂ m₂) m₂) : S.AgreeIn Γ P V x₁ m₁ (get >>= f₂) m₂ :=
  agree_right_of_ok rfl (fun _ ht => False.elim ht) hf

theorem agree_left_ask {γ : Type} {x₂ : Run β} {q₁ : Machine → Except Stop γ} {a₁ : γ}
    {f₁ : γ → Run α} (hq : q₁ m₁ = .ok a₁) (hf : S.AgreeIn Γ P V (f₁ a₁) m₁ x₂ m₂) :
    S.AgreeIn Γ P V (ask q₁ >>= f₁) m₁ x₂ m₂ := by
  refine agree_left_of_ok (by simp only [ask, hq]) ?_ hf
  rintro t ⟨reason, hreason, -⟩
  rw [hq] at hreason
  cases hreason

theorem agree_right_ask {γ : Type} {x₁ : Run α} {q₂ : Machine → Except Stop γ} {a₂ : γ}
    {f₂ : γ → Run β} (hq : q₂ m₂ = .ok a₂) (hf : S.AgreeIn Γ P V x₁ m₁ (f₂ a₂) m₂) :
    S.AgreeIn Γ P V x₁ m₁ (ask q₂ >>= f₂) m₂ := by
  refine agree_right_of_ok (by simp only [ask, hq]) ?_ hf
  rintro t ⟨reason, hreason, -⟩
  rw [hq] at hreason
  cases hreason

include L

/-- The second run may note an atom in its log. -/
theorem agree_right_traceTerm {x₁ : Run α} {f₂ : Unit → Run β} (hrel : S.Rel Γ' w m₁ m₂)
    (hterm : S.handle w t₁ t₂) (hatom : m₁.isAtom t₁)
    (hf : ∀ events, S.Rel Γ' w m₁ { m₂ with events := events } →
      S.AgreeIn Γ P V x₁ m₁ (f₂ ()) { m₂ with events := events }) :
    S.AgreeIn Γ P V x₁ m₁ (traceTerm t₂ >>= f₂) m₂ := by
  have hatom₂ : m₂.isAtom t₂ := isAtom_eq L hrel.core hterm ▸ hatom
  obtain ⟨spelling, ho⟩ := exists_atom_of_isAtom hatom₂
  obtain ⟨events, hrun, hpasses⟩ := traceTerm_of_atom ho
  have hrel' : S.Rel Γ' w m₁ { m₂ with events := events } :=
    hrel.update (L.setEvents m₁.events events hrel.core) rfl rfl
  refine agree_right_of_ok hrun (fun t ht => ?_) (hf events hrel')
  rcases hpasses t ht with rfl | rfl
  · exact (L.sees hrel (.uses (.cons hterm .nil))).2
  · exact (L.sees_changes hrel').2 _ _ rfl

/-- A term that cannot be looked up stops both runs. -/
theorem agree_evaluateWith_of_error {f₁ : Option (Handle × Handle) → Run α} {k : Handle → Run β}
    {call : Handle → Handle → Run Unit} {reason : Stop} (hrel : S.Rel Γ w m₁ m₂)
    (hterm : S.handle w t₁ t₂) (hrest : S.handle w r₁ r₂) (henv : S.handle w e₁ e₂)
    (hcallee : tailCallee? t₁ r₁ e₁ m₁ = .error reason) :
    S.AgreeIn Γ P V (ask (tailCallee? t₁ r₁ e₁) >>= f₁) m₁ (evaluateWith call t₂ e₂ >>= k) m₂ := by
  obtain ⟨-, hatom, -⟩ := tailCallee?_eq_error hcallee
  rw [evaluateWith, Run.bind_assoc]
  refine agree_right_traceTerm L hrel hterm hatom fun events hrel => ?_
  obtain ⟨spelling, ho⟩ := exists_atom_of_isAtom ((isAtom_eq L hrel.core hterm).symm.trans hatom)
  rw [Run.bind_assoc]
  refine agree_right_get ?_
  simp only [ho]
  rw [Run.bind_assoc]
  refine agree_ask L (A := fun _ _ => False) hrel ?_ fun _ _ h => h.elim
  have htail := answers_tailCallee? L hrel.core hterm hrest henv
  rw [hcallee] at htail ⊢
  generalize hcallee₂ : tailCallee? t₂ r₂ e₂ _ = callee₂ at htail
  cases htail with
  | error htame =>
    rw [(tailCallee?_eq_error hcallee₂).2.2]
    exact .error htame

/-- A call whose term is looked up runs a closure, and then what comes after. -/
theorem agree_evaluateWith_of_callee {x₁ : Run α} {k : Handle → Run β}
    {call : Handle → Handle → Run Unit} {c₁ : Handle × Handle} (hrel : S.Rel Γ' w m₁ m₂)
    (hterm : S.handle w t₁ t₂) (hrest : S.handle w r₁ r₂) (henv : S.handle w e₁ e₂)
    (hcallee : tailCallee? t₁ r₁ e₁ m₁ = .ok (some c₁))
    (hcall : ∀ {c₂ : Handle × Handle} {n₂ : Machine}, S.Rel Γ' w m₁ n₂ → n₂.shadow = m₂.shadow →
      S.handle w c₁.1 c₂.1 → S.handle w c₁.2 c₂.2 → r₂ = n₂.registers.nil →
      S.AgreeIn Γ P V x₁ m₁ (call c₂.1 c₂.2 >>= fun _ => k e₂) n₂) :
    S.AgreeIn Γ P V x₁ m₁ (evaluateWith call t₂ e₂ >>= k) m₂ := by
  obtain ⟨-, hatom, -⟩ := tailCallee?_eq_some hcallee
  rw [evaluateWith, Run.bind_assoc]
  refine agree_right_traceTerm L hrel hterm hatom fun events hrel => ?_
  have htail := answers_tailCallee? L hrel.core hterm hrest henv
  rw [hcallee] at htail
  generalize hcallee₂ : tailCallee? t₂ r₂ e₂ _ = callee₂ at htail
  cases htail with
  | ok hsome =>
    cases hsome with
    | some hparts =>
      obtain ⟨hlast, hatom₂, value, hlookup, hclosure⟩ := tailCallee?_eq_some hcallee₂
      obtain ⟨spelling, ho⟩ := exists_atom_of_isAtom hatom₂
      rw [Run.bind_assoc]
      refine agree_right_get ?_
      simp only [ho]
      rw [Run.bind_assoc]
      refine agree_right_ask hlookup ?_
      rw [Run.bind_assoc]
      refine agree_right_get ?_
      simp only [hclosure]
      rw [Run.bind_assoc]
      simp only [Run.pure_bind]
      exact hcall hrel rfl hparts.1 hparts.2 hlast

include hstays

/-- Where nothing is collected, the second run may let go of roots on its own. -/
theorem agree_right_keepingRoots {x₁ : Run α} {x₂ : Run β} (hsub : m₂.shadow ⊆ Γ.map Prod.snd)
    (hx : S.AgreeOver Γ V x₁ m₁ x₂ m₂) : S.AgreeOver Γ V x₁ m₁ (keepingRoots x₂) m₂ := by
  have hback : ∀ {Γ' w n₁ n₂}, Γ <:+ Γ' → S.Rel Γ' w n₁ n₂ →
      S.Rel Γ' w n₁ { n₂ with shadow := m₂.shadow } := by
    intro Γ' w n₁ n₂ hsuf hrel
    exact hrel.reroot L hstays hrel.tied.1.1 (List.Subset.trans hsub (List.map_subset _ hsuf.subset))
  rcases hx with hexc | ⟨hsee₁, hsee₂, hmatch⟩
  · exact .inl (S.excuses_mono (Trail.le_refl _) Run.trail_le_keepingRoots hexc)
  cases h₁ : x₁.run m₁ with
  | ok a₁ n₁ =>
    cases h₂ : x₂.run m₂ with
    | error => rw [h₁, h₂] at hmatch; exact hmatch.elim
    | ok a₂ n₂ =>
      rw [h₁, h₂] at hmatch
      obtain ⟨Γ', w', hsuf, hrel', hV⟩ := hmatch
      have hleast := (L.sees hrel' (.releases m₁.shadow m₂.shadow)).2
      have hrel' := hback hsuf hrel'
      refine .inr ⟨hsee₁, ?_, ?_⟩
      · rintro t (ht | rfl | rfl)
        · exact hsee₂ t ht
        · simpa only [after, h₂] using hleast
        · exact (L.sees_changes hrel').2 n₂ _ (by simp only [after, h₂])
      · simp only [keepingRoots, h₁, h₂]
        exact ⟨Γ', w', hsuf, hrel', hV⟩
  | error r₁ n₁ =>
    cases h₂ : x₂.run m₂ with
    | ok => rw [h₁, h₂] at hmatch; exact hmatch.elim
    | error r₂ n₂ =>
      rw [h₁, h₂] at hmatch
      obtain ⟨hr, htame, Γ', w', hsuf, hrel'⟩ := hmatch
      have hleast := (L.sees hrel' (.releases m₁.shadow m₂.shadow)).2
      have hrel' := hback hsuf hrel'
      refine .inr ⟨hsee₁, ?_, ?_⟩
      · rintro t (ht | rfl | rfl)
        · exact hsee₂ t ht
        · simpa only [after, h₂] using hleast
        · exact (L.sees_changes hrel').2 n₂ _ (by simp only [after, h₂])
      · simp only [keepingRoots, h₁, h₂]
        exact ⟨hr, htame, Γ', w', hsuf, hrel'⟩

/-- Where nothing is collected, the second run may open a frame on its own. -/
theorem agree_right_enter {V : S.World → Unit → Unit → Prop} {x₁ : Run Unit}
    {run₂ : List Handle → Run Unit} (hrel : S.Rel Γ' w m₁ m₂) (hsub : m₂.shadow ⊆ Γ.map Prod.snd)
    (hseq : (s₁, s₂) ∈ Γ') (henv : (e₁, e₂) ∈ Γ')
    (hrun : ∀ {n₂}, S.Rel Γ' w m₁ n₂ → S.AgreeOver Γ V x₁ m₁ (run₂ m₂.shadow) n₂) :
    S.AgreeOver Γ V x₁ m₁ (enter run₂ s₂ e₂) m₂ := by
  refine agree_right_keepingRoots L hstays hsub (agree_right_get ?_)
  have hroots : e₂ :: s₂ :: m₂.shadow ⊆ Γ'.map Prod.snd := by
    refine List.cons_subset.mpr ⟨List.mem_map_of_mem henv, ?_⟩
    exact List.cons_subset.mpr ⟨List.mem_map_of_mem hseq, hrel.tied.1.2⟩
  have hframe := hrel.reroot L hstays hrel.tied.1.1 hroots
  refine agree_right_of_ok rfl ?_ (hrun hframe)
  rintro t rfl
  exact (L.sees_changes hframe).2 _ _ rfl

omit L hstays

/-! ## The two ways to run a sequence -/

section Frames

variable {Γ : Held} {w : Handle → Prop} {callers₁ callers₂ : List Handle}

/-- Taking over a frame agrees with opening one and returning from it. The frame returned to has nothing
left to run. -/
theorem agree_handOver {n : ℕ} {c₁ : Handle × Handle}
    (ih : ∀ {Γ : Held} {w m₁ m₂ callers₁ callers₂ s₁ s₂ e₁ e₂},
      (diagonal false).Tied Γ callers₁ callers₂ →
      (diagonal false).Rel ((e₁, e₂) :: (s₁, s₂) :: Γ) w m₁ m₂ →
      (diagonal false).AgreeOver Γ (diagonal false).anything (frame n callers₁ s₁ e₁) m₁
        (plainFrame n callers₂ s₂ e₂) m₂)
    (hcallers : (diagonal false).Tied Γ callers₁ callers₂)
    (hrel : (diagonal false).Rel ((e₁, e₂) :: (r₁, r₂) :: Γ) w m₁ m₂)
    (hterm : (diagonal false).handle w t₁ t₂)
    (hcallee : tailCallee? t₁ r₁ e₁ m₁ = .ok (some c₁)) :
    (diagonal false).AgreeOver Γ (diagonal false).anything
      (do holdFrame callers₁ c₁.1 c₁.2; frame n callers₁ c₁.1 c₁.2) m₁
      (plainTerm n callers₂ e₂ t₂ r₂) m₂ := by
  have L := lawful_diagonal false
  have hstays : ¬ (diagonal false).moving := Bool.false_ne_true
  have hrest := hrel.held (r₁, r₂) (by simp)
  have henv := hrel.held (e₁, e₂) (by simp)
  refine agree_evaluateWith_of_callee L hrel hterm hrest henv hcallee ?_
  intro c₂ n₂ hrel hshadow hbody hcaptured hlast
  have hlast : r₂ = .nil := hlast.trans (Twins.sound₂ hrel.core).nil_eq
  have hsub := hrel.tied.1.2
  have hcallers₁ : callers₁ ⊆ ((e₁, e₂) :: (r₁, r₂) :: Γ).map Prod.fst :=
    List.Subset.trans hcallers.1.1 (List.subset_append_right [e₁, r₁] _)
  have hrel := (hrel.count hstays hbody).count hstays hcaptured
  have hframe := hrel.reroot L hstays
    (List.cons_subset_cons c₁.2 (List.cons_subset_cons c₁.1 hcallers₁)) hrel.tied.1.2
  refine agree_left_of_ok rfl ?_ ?_
  · intro t ht
    rcases passes_holdFrame.mp ht with rfl | rfl
    · exact (L.sees hrel (.replaces callers₁ callers₂)).1
    · exact (L.sees_changes hframe).1 _ _ rfl
  -- a closure that returns has been run with a positive bound, as the caller then needs
  have hcall : (diagonal false).AgreeOver ((e₁, e₂) :: (r₁, r₂) :: Γ) (fun _ _ _ => 0 < n)
      (frame n callers₁ c₁.1 c₁.2) { m₁ with shadow := c₁.2 :: c₁.1 :: callers₁ }
      (plainCompute n c₂.1 c₂.2) n₂ := by
    have hbody : (c₁.1, c₂.1) ∈ (c₁.2, c₂.2) :: (c₁.1, c₂.1) :: (e₁, e₂) :: (r₁, r₂) :: Γ := by simp
    refine agree_right_enter L hstays hframe hsub hbody List.mem_cons_self ?_
    intro n₂ hrel
    cases n with
    | zero => exact (agree_stop L hrel Stop.tame_unfinished).of_suffix (suffix_frame _ _ _)
    | succ n =>
      refine (ih ⟨⟨hcallers₁, hsub⟩, fun hmoving => absurd hmoving hstays⟩ hrel).imp ?_
      exact fun hsuf _ _ => ⟨hsuf, n.succ_pos⟩
  rw [← Run.bind_pure (frame n callers₁ c₁.1 c₁.2)]
  refine AgreeIn.bind (hcall.of_suffix (suffix_frame _ _ Γ)) ?_
  intro Γ' w' _ _ n₁' n₂' hsuf hrel hpos
  have hsub' : e₂ :: r₂ :: callers₂ ⊆ Γ'.map Prod.snd :=
    List.Subset.trans (List.cons_subset_cons e₂ (List.cons_subset_cons r₂ hcallers.1.2))
      (List.map_subset Prod.snd hsuf.subset)
  have hbefore := L.sees hrel (.replaces callers₁ callers₂)
  have hrel := hrel.reroot L hstays hrel.tied.1.1 hsub'
  refine agree_right_of_ok rfl ?_ ?_
  · intro t ht
    rcases passes_holdFrame.mp ht with rfl | rfl
    · exact hbefore.2
    · exact (L.sees_changes hrel).2 _ _ rfl
  obtain ⟨n, rfl⟩ := Nat.exists_eq_succ_of_ne_zero hpos.ne'
  have hdone := hlast.trans (Twins.sound₂ hrel.core).nil_eq.symm
  exact agree_of_ok rfl (frameStep_nil hdone).1 (fun t ht => absurd ht (Run.not_passes_pure () _ t))
    (fun t ht => absurd ht ((frameStep_nil hdone).2 t)) ((suffix_frame _ _ Γ).trans hsuf) hrel trivial

/-- Running a sequence agrees with running it without tail calls. The induction is on the bound. -/
theorem agree_plainFrame (n : ℕ) (hcallers : (diagonal false).Tied Γ callers₁ callers₂)
    (hrel : (diagonal false).Rel ((e₁, e₂) :: (s₁, s₂) :: Γ) w m₁ m₂) :
    (diagonal false).AgreeOver Γ (diagonal false).anything (frame n callers₁ s₁ e₁) m₁
      (plainFrame n callers₂ s₂ e₂) m₂ := by
  have L := lawful_diagonal false
  induction n generalizing Γ callers₁ callers₂ s₁ s₂ e₁ e₂ w m₁ m₂ with
  | zero => exact (agree_stop L hrel Stop.tame_unfinished).of_suffix (suffix_frame _ _ Γ)
  | succ n ih =>
    rw [frame_succ, plainFrame_succ]
    have hseq := hrel.held (s₁, s₂) (by simp)
    have henv := hrel.held (e₁, e₂) (by simp)
    refine agree_left_of_ok rfl ?_ ?_
    · rintro t rfl
      have hstep : Step.Alike ((diagonal false).handle w) (.iterates callers₁ s₁ e₁)
          (.iterates callers₂ s₂ e₂) := .iterates hseq henv
      exact (L.sees hrel hstep).1
    refine agree_frameStep L hcallers (fun hrel => ih hcallers hrel) ?_ hrel
    intro w t₁ t₂ r₁ r₂ n₁ n₂ hrel hterm
    have hrest := hrel.held (r₁, r₂) (by simp)
    have henv := hrel.held (e₁, e₂) (by simp)
    cases hcallee : tailCallee? t₁ r₁ e₁ n₁ with
    | error reason =>
      refine AgreeIn.of_suffix (suffix_frame (e₁, e₂) (r₁, r₂) Γ) ?_
      exact agree_evaluateWith_of_error L hrel hterm hrest henv hcallee
    | ok callee =>
      refine agree_left_ask hcallee ?_
      cases callee with
      | some c => exact agree_handOver ih hcallers hrel hterm hcallee
      | none =>
        refine Agree.bind_over (agree_evaluateWith L ?_ hrel hterm List.mem_cons_self)
          (suffix_frame _ _ Γ) fun hrel henv => ?_
        · intro w n₁ n₂ b₁ b₂ c₁ c₂ hrel hbody hcaptured
          exact agree_enter L hrel hbody hcaptured (ih hrel.tied)
        · have hrest := hrel.held (r₁, r₂) (by simp)
          exact agree_holdFrame L (suffix_frame _ _ Γ) hcallers hrel hrest henv (ih hcallers)

end Frames

theorem agree_plainCompute (bound : ℕ) {m : Machine} {seq env : Handle} (h : m.Intact)
    (hseq : m.Live seq) (henv : m.Live env) :
    (diagonal false).Agree (doubled m.shadow) (diagonal false).anything (compute bound seq env) m
      (plainCompute bound seq env) m :=
  agree_enter (lawful_diagonal false) (rel_self h) ⟨rfl, hseq⟩ ⟨rfl, henv⟩
    (agree_plainFrame bound (rel_self h).tied)

/-- Operations that agree and let go of their roots end with the same result, on machines that differ in
the log at most. -/
theorem attempt_eq_of_agree {Γ : Held} {m : Machine} {x₁ x₂ : Run Unit}
    (hmatch : (diagonal false).Matched Γ (· = Γ) (diagonal false).anything (x₁ m) (x₂ m))
    (hshadow : (after x₂ m).shadow = (after x₁ m).shadow) :
    ∃ r n events, attempt x₁ m = .ok r n ∧ attempt x₂ m = .ok r { n with events := events } := by
  obtain ⟨r, n₁, n₂, _, w, hrun₁, hrun₂, -, hrel, -⟩ := hmatch.attempt fun h => h ▸ List.suffix_refl Γ
  rw [after_of_attempt hrun₁, after_of_attempt hrun₂] at hshadow
  have hsame : n₂ = { n₁ with events := n₂.events } := by
    rw [Twins.same hrel.core, hshadow]
  exact ⟨r, n₁, n₂.events, hrun₁, hsame ▸ hrun₂⟩

end Simulation

namespace Machine

/-- From any state of a session, running a sequence and running it without tail calls end alike: if one
ends and collects nothing then so does the other, with the same result and in the same state, apart from
the log. -/
theorem settles_compute_iff {m : Machine} {seq env : Handle} (h : m.Reached) (hseq : m.Live seq)
    (henv : m.Live env) (bound : ℕ) (r : Except Stop Unit) (m' : Machine) :
    (∃ events, Settles (compute bound seq env) m r { m' with events := events }) ↔
      ∃ events, Settles (plainCompute bound seq env) m r { m' with events := events } := by
  rcases Simulation.agree_plainCompute bound (intact_of_reached h) hseq henv with
    ⟨-, ⟨n₁, hn₁⟩, n₂, hn₂⟩ | ⟨hsees₁, hsees₂, hmatch⟩
  · constructor
    · rintro ⟨events, hsettles⟩
      exact absurd hn₁ (hsettles.calm n₁)
    · rintro ⟨events, hsettles⟩
      exact absurd hn₂ (hsettles.calm n₂)
  have hshadow : (after (plainCompute bound seq env) m).shadow =
      (after (compute bound seq env) m).shadow := by
    rw [shadow_after_compute, plainCompute, shadow_after_enter]
  obtain ⟨r₀, n, events₀, hrun₁, hrun₂⟩ := Simulation.attempt_eq_of_agree hmatch hshadow
  constructor
  · rintro ⟨events, hrun, hfinished, -⟩
    rw [hrun₁] at hrun
    cases hrun
    exact ⟨events₀, hrun₂, hfinished, fun n hn => (hsees₂ _ hn).2 rfl rfl⟩
  · rintro ⟨events, hrun, hfinished, -⟩
    rw [hrun₂] at hrun
    injection hrun with hr hm
    have hn : n = { m' with events := n.events } :=
      congrArg (fun k : Machine => { k with events := n.events }) hm
    refine ⟨n.events, ?_, hfinished, fun n hn => (hsees₁ _ hn).2 rfl rfl⟩
    rw [← hn, ← hr]
    exact hrun₁

/-- A program whose last term calls a closure that it has bound itself, from the state in which it has
just been read. -/
theorem settles_compute_iff_read :
    let m := after (session [0])
      (blank (256 : UInt64).toNat (Bytes.ofString "((1 print) $f f)") {} false {})
    m.Reached ∧ m.Live m.registers.program ∧ m.Live m.registers.env ∧
      (after (compute 8 m.registers.program m.registers.env) m).sink.written.toList = [49, 10] ∧
      ((∃ events, Settles (compute 8 m.registers.program m.registers.env) m (.ok ())
          { after (compute 8 m.registers.program m.registers.env) m with events := events }) ↔
        ∃ events, Settles (plainCompute 8 m.registers.program m.registers.env) m (.ok ())
          { after (compute 8 m.registers.program m.registers.env) m with events := events }) := by
  intro m
  have hreached : m.Reached := .ended 256 (Bytes.ofString "((1 print) $f f)") {} false {} [0]
  have hprogram : m.Live m.registers.program :=
    (intact_of_reached hreached).sound.live_of_mem_roots (by simp [Registers.roots])
  have henv : m.Live m.registers.env :=
    (intact_of_reached hreached).sound.live_of_mem_roots (by simp [Registers.roots])
  have houtput : (after (compute 8 m.registers.program m.registers.env) m).sink.written.toList =
      [49, 10] := by decide +kernel
  exact ⟨hreached, hprogram, henv, houtput, settles_compute_iff hreached hprogram henv 8 _ _⟩

end Machine

end PushLisp
