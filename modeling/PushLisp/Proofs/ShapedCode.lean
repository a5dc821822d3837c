import PushLisp.Proofs.Balance
import PushLisp.Proofs.Demands
import PushLisp.Proofs.Runs
import PushLisp.Proofs.SuccessiveReads
import PushLisp.Proofs.TableSize

/-!
# Evaluation runs well-shaped code

If the first term of a text is a list then running it never runs anything but lists from inside that term.
Whenever a frame goes on, what each frame has left to run is a list that ends, each environment in use or
captured is a list of pairs, and the value stack is a list. The walks of the evaluator along these structures
therefore never meet an object of the wrong kind. Every complaint about a kind comes from one of five
builtins, about a value that the program had put on the stack.

## Main definitions

* `Machine.culprits`: complaints that come from builtins.
* `Machine.Standing`: a machine with frames that can go on.
* `Grammar.BeginsWithList`: texts whose first term is a list.
* `Machine.Tidy`: what is carried along a whole run.
* `Machine.WellShaped`, `Machine.BuiltinComplains`: what is said of the moments of a run.

## Main statements

* `Machine.shaped_frame`: running what is left of a sequence.
* `Machine.launch_shaped`: setting up and running the first term of a text.
-/
namespace PushLisp

/-- A term that was read is a list if it is the empty list or a pair on a later machine. -/
theorem Code.isList_of_object? {code : Code} {heap : Heap} {h : Handle} {o : Object}
    (hloaded : code.heap.Keeps heap code.term) (hh : code.heap.Inside code.term h)
    (ho : heap.get? h = some o) (hkind : o.kind ∈ [.nil, .pair]) : code.heap.IsList h := by
  cases code.written.inside code.nil_eq hh with
  | list hspine _ => exact ⟨_, hspine⟩
  | scalar ho' hkind' =>
    obtain ⟨o'', ho'', hres⟩ := hloaded hh.reaches ho'
    cases ho.symm.trans ho''
    rw [← hres.kind_eq] at hkind'
    simp only [List.mem_cons, List.not_mem_nil, or_false] at hkind hkind'
    rcases hkind with hkind | hkind <;> simp [hkind] at hkind'

namespace Machine

variable {α β : Type} {code : Code} {frames outer : List Frame} {m m' : Machine}

/-! ## Complaints -/

/-- A complaint comes from a builtin that was performed and found a value of the wrong kind on the stack.
The other possibility is that a kind was asked for of something that is not there. -/
def culprits : Blame where
  on P reason := (∃ b env n, P ⟨.performs b env, n⟩ ∧ Refuses b n reason) ∨
    ∃ found, reason = .fault (.typeMismatch "tag" "object" found)
  mono hP := Or.imp_left fun ⟨b, env, n, ht, hrefuses⟩ => ⟨b, env, n, hP _ ht, hrefuses⟩

theorem shaped_perform {b : Builtin} {env : Handle} (hraw : b.isRaw = false) (henv : m.heap.IsScope env) :
    Shaped code culprits (perform b env) m fun env' n => env' = env ∨ n.heap.IsScope env' := by
  have hbegins : Shaped code culprits (observe (.performs b env)) m fun _ n => n = m :=
    shaped_observe (fun hm => ⟨hm, nofun⟩) nofun
  apply hbegins.bindAfter
  rintro _ _ - rfl
  refine shaped_effect hraw henv ?_ ?_
  · intro reason hrefuses P
    exact .inl ⟨b, env, _, .inl rfl, hrefuses⟩
  · intro found P
    exact .inr ⟨found, rfl⟩

/-! ## Frames -/

/-- A machine that can be relied on, and on which frames can go on. -/
structure Standing (code : Code) (frames : List Frame) (m : Machine) : Prop where
  ready : Ready True m.shadow m
  holds : m.HoldsFrames code frames

theorem Lasts.keeps {base : List Handle} {h : Handle} (hlasts : Lasts True base m m') (hh : h ∈ base) :
    m.heap.Keeps m'.heap h := by
  intro k o hk ho
  refine hlasts.object?_eq ?_ ho
  apply hk.mono
  simp [hh]

/-- Frames can still go on after an operation that leaves alone what is held. -/
theorem Standing.after {act : Run α} (h : Standing code frames m) (hlasting : Lasting True m.shadow act m)
    (hshadow : (after act m).shadow = m.shadow) : Standing code frames (after act m) := by
  obtain ⟨hready, hlasts, -⟩ := hlasting h.ready
  refine ⟨?_, ?_, h.holds.runs, ?_⟩
  · rwa [hshadow]
  · rw [hshadow, h.holds.shadow_eq]
  · intro f hf
    apply (h.holds.scopes f hf).keeps
    apply hlasts.keeps
    rw [h.holds.shadow_eq]
    exact List.mem_flatMap.mpr ⟨f, hf, by simp [Frame.roots]⟩

/-- One operation after another, the first of which leaves alone what is held. -/
theorem Standing.bind {x : Run α} {f : α → Run β} {B : Blame} {Q : α → Machine → Prop}
    {R : β → Machine → Prop} (h : Standing code frames m) (hx : Shaped code B x m Q)
    (hlasting : Lasting True m.shadow x m) (hbalanced : Balanced x m)
    (hf : ∀ {a m'}, x m = .ok a m' → Q a m' → Standing code frames m' → Shaped code B (f a) m' R) :
    Shaped code B (x >>= f) m R := by
  have hafter := h.after hlasting hbalanced.shadow_eq
  apply hx.bind
  intro a m' hrun hq
  rw [after_of_ok hrun] at hafter
  exact hf hrun hq hafter

/-- The innermost frame may be replaced. -/
theorem Standing.replace {f : Frame} {seq env : Handle} (h : Standing code (f :: outer) m)
    (hruns : code.Runs seq) (hscope : m.heap.IsScope env) :
    Standing code (⟨env, seq⟩ :: outer)
      { m with shadow := env :: seq :: outer.flatMap Frame.roots } where
  ready := { h.ready with held := List.suffix_refl _ }
  holds := by
    refine ⟨rfl, ?_, ?_⟩
    · simp only [List.mem_cons, forall_eq_or_imp]
      exact ⟨hruns, fun g hg => h.holds.runs g (List.mem_cons_of_mem f hg)⟩
    · simp only [List.mem_cons, forall_eq_or_imp]
      exact ⟨hscope, fun g hg => h.holds.scopes g (List.mem_cons_of_mem f hg)⟩

/-- A frame may be opened above all others. -/
theorem Standing.open {seq env : Handle} (h : Standing code frames m) (hruns : code.Runs seq)
    (hscope : m.heap.IsScope env) :
    Standing code (⟨env, seq⟩ :: frames) { m with shadow := env :: seq :: m.shadow } where
  ready := { h.ready with held := List.suffix_refl _ }
  holds := by
    refine ⟨?_, ?_, ?_⟩
    · simp [Frame.roots, h.holds.shadow_eq]
    · simp only [List.mem_cons, forall_eq_or_imp]
      exact ⟨hruns, h.holds.runs⟩
    · simp only [List.mem_cons, forall_eq_or_imp]
      exact ⟨hscope, h.holds.scopes⟩

section Evaluation

variable {B : Blame} {seq env term : Handle}

theorem shaped_holdFrame (callers : List Handle) (seq env : Handle) :
    Shaped code B (holdFrame callers seq env) m fun _ n =>
      n = { m with shadow := env :: seq :: callers } := by
  have hbegins : Shaped code B (observe (.replaces callers)) m fun _ n => n = m :=
    shaped_observe (fun hm => ⟨hm, nofun⟩) nofun
  apply hbegins.bind
  rintro _ _ - rfl
  exact shaped_modify fun hm => hm.of_eq rfl rfl

theorem render_error {h : Handle} {reason : Stop} (herror : render h m = .error reason) :
    ¬ reason.IsMismatch := by
  unfold render at herror
  split at herror
  · cases herror
  · rename_i stop hstop
    cases herror
    rw [textOf_error hstop]
    exact id

theorem itemsFrom_error {n : ℕ} {list : Handle} {met : List Handle} {reason : Stop}
    (herror : itemsFrom m n list met = .error reason) : ¬ reason.IsMismatch := by
  induction n generalizing list met with
  | zero =>
    cases herror
    exact id
  | succ n ih =>
    unfold itemsFrom at herror
    split at herror
    · exact ih herror
    · cases herror

theorem stackDepth_error {reason : Stop} (herror : stackDepth m = .error reason) : ¬ reason.IsMismatch := by
  unfold stackDepth at herror
  split at herror
  · cases herror
  · cases herror
    exact itemsFrom_error ‹_›

theorem shaped_traceSequence (seq : Handle) : Shaped code B (traceSequence seq) m := by
  apply shaped_get
  split
  · apply (shaped_uses [seq]).bind
    intro _ _ _ _
    apply (shaped_ask fun _ _ herror hmismatch => absurd hmismatch (render_error herror)).bind
    intro text _ _ _
    apply (shaped_ask fun _ _ herror hmismatch => absurd hmismatch (stackDepth_error herror)).bind
    intro depth _ _ _
    exact shaped_note _
  · exact shaped_pure trivial

theorem shaped_traceTerm (term : Handle) : Shaped code B (traceTerm term) m := by
  apply shaped_get
  split
  · apply (shaped_uses [term]).bind
    intro _ _ _ _
    apply (shaped_ask fun _ _ herror hmismatch => absurd hmismatch (render_error herror)).bind
    intro text _ _ _
    exact shaped_note _
  · exact shaped_pure trivial

/-- An atom is looked up in an environment. -/
theorem shaped_lookup {spelling : Bytes} (hscope : m.heap.IsScope env)
    (hterm : m.object? term = some (.atom spelling)) :
    Shaped code B (ask (lookup env term)) m fun _ n => n = m := by
  refine (shaped_ask fun _ _ herror hmismatch => ?_).imp fun _ _ hq => hq.1
  exact absurd (by simp [kind?, hterm, Object.kind]) (lookup_error hscope herror hmismatch).1

/-- Evaluating a term of the code, if calls leave a machine in shape. -/
theorem shaped_evaluateWith {call : Handle → Handle → Run Unit} {rest : Handle}
    (h : Standing code (⟨env, rest⟩ :: outer) m) (hterm : code.heap.IsElement code.term term)
    (hcall : ∀ {body captured n}, Standing code (⟨env, rest⟩ :: outer) n → code.Runs body →
      n.heap.IsScope captured → Shaped code culprits (call body captured) n) :
    Shaped code culprits (evaluateWith call term env) m fun env' n =>
      env' = env ∨ n.heap.IsScope env' := by
  have hlasting : Lasting True m.shadow (traceTerm term) m := (compositional_lasting True).traceTerm term
  apply h.bind (shaped_traceTerm term) hlasting (balanced_traceTerm term)
  intro _ m₁ _ _ h₁
  have hscope : m₁.heap.IsScope env := h₁.holds.scopes _ List.mem_cons_self
  have hlast : ∀ {act : Run Unit}, Shaped code culprits act m₁ →
      Shaped code culprits (do act; return env) m₁ fun env' n => env' = env ∨ n.heap.IsScope env' :=
    fun hact => hact.bind fun _ _ => shaped_pure (.inl rfl)
  -- a list is captured with the environment
  have hcapture : ∀ {o}, m₁.object? term = some o → o.kind ∈ [.nil, .pair] →
      Shaped code culprits (do push (← makeClosure term env); return env) m₁
        fun env' n => env' = env ∨ n.heap.IsScope env' := by
    intro o ho hkind
    apply Shaped.of_shapely
    intro hm₁
    have hlist := Code.isList_of_object? hm₁.loaded hterm.inside ho hkind
    have hmake : Shaped code culprits (makeClosure term env) m₁ fun c n =>
        Placed (.closure term env) m₁ c n := by
      refine shaped_allocate trivial nofun ?_
      rintro - body captured ⟨⟩
      exact ⟨hterm, hlist, hscope⟩
    exact hmake.bind fun _ _ => (shaped_push _).bind fun _ _ => shaped_pure (.inl rfl)
  apply shaped_get
  split
  · rename_i spelling hatom
    apply (shaped_lookup hscope hatom).bind
    rintro value _ - rfl
    apply shaped_get
    split
    · rename_i body captured hclosure
      apply Shaped.of_shapely
      intro hm₁
      have hcaptures := hm₁.closures hclosure
      exact hlast (hcall h₁ hcaptures.runs hcaptures.scope)
    · rename_i p hprimitive
      apply Shaped.of_shapely
      intro hm₁
      exact shaped_perform (hm₁.plain hprimitive) hscope
    · exact hlast (shaped_push value)
  · exact hcapture ‹_› (by simp [Object.kind])
  · exact hcapture ‹_› (by simp [Object.kind])
  · exact hlast (shaped_push term)

theorem tailCallee?_error {rest : Handle} {reason : Stop} (hscope : m.heap.IsScope env)
    (herror : tailCallee? term rest env m = .error reason) : ¬ reason.IsMismatch := by
  unfold tailCallee? at herror
  split at herror
  · rename_i hcond
    intro hmismatch
    split at herror
    · cases herror
      refine (lookup_error hscope ‹_› hmismatch).1 ?_
      simpa [isAtom] using hcond.2
    · split at herror <;> cases herror
  · cases herror

/-- What a tail call runs was captured by a closure. -/
theorem object?_of_tailCallee? {rest body captured : Handle}
    (hcallee : tailCallee? term rest env m = .ok (some (body, captured))) :
    ∃ h, m.object? h = some (.closure body captured) := by
  unfold tailCallee? at hcallee
  split at hcallee
  · split at hcallee
    · cases hcallee
    · split at hcallee
      · cases hcallee
        exact ⟨_, ‹_›⟩
      · cases hcallee
  · cases hcallee

/-- Opening a frame for a sequence, if what it runs there leaves the machine in shape. -/
theorem shaped_enter {run : List Handle → Run Unit} (h : Standing code frames m) (hruns : code.Runs seq)
    (hscope : m.heap.IsScope env)
    (hrun : ∀ {n}, Standing code (⟨env, seq⟩ :: frames) n →
      Shaped code B (run (frames.flatMap Frame.roots)) n) :
    Shaped code B (enter run seq env) m := by
  apply Shaped.keepingRoots
  apply shaped_get
  apply (shaped_root [env, seq]).bind
  rintro _ _ - rfl
  have hopened := hrun (h.open hruns hscope)
  rw [← h.holds.shadow_eq] at hopened
  exact hopened

/-- Running what is left of a sequence leaves a machine in shape, and whenever a frame goes on all frames are
as they should be. The induction is on the bound, over all frames at once: a call that is not the last of its
sequence opens a frame above the others. -/
theorem shaped_frame (bound : ℕ) (h : Standing code (⟨env, seq⟩ :: outer) m) :
    Shaped code culprits (frame bound (outer.flatMap Frame.roots) seq env) m := by
  induction bound generalizing outer seq env m with
  | zero =>
    rw [frame]
    exact shaped_stop False.elim
  | succ bound ih =>
    have hread : ∀ {n : Machine} {seq first rest : Handle}, n.Shapely code → code.Runs seq →
        code.heap.get? seq = some (.pair first rest) → car seq n = .ok first ∧ cdr seq n = .ok rest := by
      intro n seq first rest hn hruns ho
      have ho' := hn.loaded.pair hruns.inside.reaches ho
      simp [car, cdr, object?, ho']
    have hgoesOn : ∀ {n : Machine} {f : Frame} {seq env : Handle}, Standing code (f :: outer) n →
        code.Runs seq → n.heap.IsScope env → Shaped code culprits (do
          holdFrame (outer.flatMap Frame.roots) seq env
          frame bound (outer.flatMap Frame.roots) seq env) n := by
      intro n f seq env hn hruns hscope
      apply (shaped_holdFrame _ seq env).bind
      rintro _ _ - rfl
      exact ih (hn.replace hruns hscope)
    have hruns : code.Runs seq := h.holds.runs _ List.mem_cons_self
    rw [frame]
    have hbegins : Shaped code culprits (observe (.iterates (outer.flatMap Frame.roots) seq env)) m
        fun _ n => n = m := by
      refine shaped_observe (fun hm => ⟨hm, ?_⟩) (by simp)
      rintro _ _ _ ⟨⟩
      exact ⟨outer, h.holds⟩
    apply hbegins.bind
    intro _ _ hrun _
    cases hrun
    apply Shaped.of_shapely
    intro hm
    apply shaped_getRegisters
    split
    · exact shaped_pure trivial
    rename_i hne
    rw [hm.nil_eq] at hne
    obtain ⟨term, rest, ho⟩ := hruns.isList.exists_pair hne
    have hlasting : Lasting True m.shadow (traceSequence seq) m :=
      (compositional_lasting True).traceSequence seq
    apply h.bind (shaped_traceSequence seq) hlasting (balanced_traceSequence seq)
    intro _ m₁ _ _ h₁
    apply Shaped.of_shapely
    intro hm₁
    obtain ⟨hcar, hcdr⟩ := hread hm₁ hruns ho
    apply shaped_ask_of_ok hcar
    apply shaped_ask_of_ok hcdr
    have hscope₁ : m₁.heap.IsScope env := h₁.holds.scopes _ List.mem_cons_self
    have hrest : code.Runs rest := hruns.rest ho
    apply (shaped_holdFrame _ rest env).bind
    intro _ m₂ _ hm₂
    have h₂ : Standing code (⟨env, rest⟩ :: outer) m₂ := hm₂ ▸ h₁.replace hrest hscope₁
    have hscope₂ : m₂.heap.IsScope env := h₂.holds.scopes _ List.mem_cons_self
    clear hm₂
    apply Shaped.of_shapely
    intro hm₂
    apply shaped_getRegisters
    split
    · -- a literal: it is pushed, and the frame goes on behind it
      split
      · have hfail : Shaped code culprits (fail .danglingQuote : Run PUnit) m₂ := shaped_fail id
        refine hfail.bind fun hrun => ?_
        cases hrun
      · rename_i hne
        rw [hm₂.nil_eq] at hne
        obtain ⟨literal, rest', ho'⟩ := hrest.isList.exists_pair hne
        obtain ⟨hcar', hcdr'⟩ := hread hm₂ hrest ho'
        apply shaped_ask_of_ok hcar'
        apply shaped_ask_of_ok hcdr'
        apply (shaped_holdFrame _ rest' env).bind
        intro _ m₃ _ hm₃
        have h₃ : Standing code (⟨env, rest'⟩ :: outer) m₃ := hm₃ ▸ h₂.replace (hrest.rest ho') hscope₂
        have hlasting : Lasting True m₃.shadow (push literal) m₃ := (compositional_lasting True).push literal
        apply h₃.bind (shaped_push literal) hlasting (balanced_push literal)
        intro _ _ _ _ h₄
        exact ih h₄
    · apply (shaped_ask fun _ _ herror hmismatch => absurd hmismatch (tailCallee?_error hscope₂ herror)).bind
      intro callee m₃ _ hcallee
      obtain ⟨rfl, hcallee⟩ := hcallee
      cases callee with
      | some callee =>
        obtain ⟨closure, hclosure⟩ := object?_of_tailCallee? hcallee
        have hcaptures := hm₂.closures hclosure
        exact hgoesOn h₂ hcaptures.runs hcaptures.scope
      | none =>
        have hcall : ∀ {body captured : Handle} {n : Machine}, Standing code (⟨env, rest⟩ :: outer) n →
            code.Runs body → n.heap.IsScope captured → Shaped code culprits (compute bound body captured) n :=
          fun hn hbody hcaptured => shaped_enter hn hbody hcaptured ih
        have hlasting : Lasting True m₃.shadow (evaluateWith (compute bound) term env) m₃ :=
          (compositional_lasting True).evaluate trivial bound term env
        have hbalanced : Balanced (evaluateWith (compute bound) term env) m₃ :=
          balanced_evaluate bound term env
        apply h₂.bind (shaped_evaluateWith h₂ (hruns.element ho) hcall) hlasting hbalanced
        intro env' m₄ _ henv' h₄
        apply hgoesOn h₄ hrest
        rcases henv' with rfl | henv'
        · exact h₄.holds.scopes _ List.mem_cons_self
        · exact henv'

theorem shaped_compute (bound : ℕ) (h : Standing code frames m) (hruns : code.Runs seq)
    (hscope : m.heap.IsScope env) : Shaped code culprits (compute bound seq env) m :=
  shaped_enter h hruns hscope (shaped_frame bound)

/-- Passing the output on repeats the complaint of a run, if there is one. -/
theorem shaped_flushAfter {act : Run Unit} (hact : Shaped code B act m) :
    Shaped code B (flushAfter act) m := by
  apply hact.attempt.bindAfter
  intro ended n _ hblame
  have hrepeat : ∀ {reason}, ended = .error reason → Shaped code (B.after ((attempt act).passes m))
      (stop reason : Run Unit) n := by
    intro reason hended
    refine shaped_stop fun hmismatch P => B.mono (fun _ => .inl) (hblame hended hmismatch)
  unfold passOn
  split
  · exact hrepeat rfl
  · apply shaped_get
    split
    · exact shaped_fail id
    · exact shaped_pure trivial
    · exact hrepeat rfl

end Evaluation

/-! ## Setting up -/

theorem shaped_internOwn {B : Blame} : Shaped code B internOwn m := by
  apply (shaped_intern _).bind
  intro atomTrue _ _ _
  refine Shaped.bind (shaped_modifyRegisters rfl rfl Shapely.stack Shapely.queue Shapely.scope) ?_
  intro _ _ _ _
  apply (shaped_intern _).bind
  intro atomQuote _ _ _
  refine Shaped.bind (shaped_modifyRegisters rfl rfl Shapely.stack Shapely.queue Shapely.scope) ?_
  intro _ _ _ _
  apply (shaped_intern _).bind
  intro atomPush _ _ _
  refine Shaped.bind (shaped_modifyRegisters rfl rfl Shapely.stack Shapely.queue Shapely.scope) ?_
  intro _ _ _ _
  apply (shaped_intern _).bind
  intro atomPop _ _ _
  exact (shaped_modifyRegisters rfl rfl Shapely.stack Shapely.queue Shapely.scope).imp fun _ _ _ => trivial

theorem shaped_definePrimitives {B : Blame} (env : Handle) {ps : List Primitive}
    (hps : ∀ p ∈ ps, p.action.isRaw = false) : Shaped code B (definePrimitives env ps) m := by
  induction ps generalizing env m with
  | nil => exact shaped_pure trivial
  | cons p ps ih =>
    simp only [List.mem_cons, forall_eq_or_imp] at hps
    exact (shaped_definePrimitive env hps.1).bind fun _ _ => ih _ hps.2

/-- Setting up without raw access leaves a machine in shape, given that it makes an environment. -/
theorem shaped_prepare {B : Blame}
    (hscope : ∀ {n}, prepare false m = .ok () n → n.heap.IsScope n.registers.env) :
    Shaped code B (prepare false) m := by
  have hassoc : prepare false = (do
      note (.started (← get).heap.capacity)
      internOwn
      definePrimitives .nil (Primitive.installed false)) >>= fun env =>
        modifyRegisters fun r => { r with env := env } := by
    simp only [prepare, Run.bind_assoc]
  have hmake : Shaped code B (do
      note (.started (← get).heap.capacity)
      internOwn
      definePrimitives .nil (Primitive.installed false)) m := by
    apply shaped_get
    apply (shaped_note _).bind
    intro _ _ _ _
    apply shaped_internOwn.bind
    intro _ _ _ _
    exact shaped_definePrimitives .nil (by decide)
  rw [hassoc] at hscope ⊢
  apply hmake.bind
  intro env m₁ hrun _
  have henv := hscope (Run.run_bind_of_ok hrun)
  exact (shaped_modifyRegisters rfl rfl Shapely.stack Shapely.queue fun _ => henv).imp fun _ _ _ => trivial

/-! ## The program -/

/-- The empty list as code. There is nothing in it to run. -/
def idle (slots : ℕ) (platform : Platform) : Code where
  heap := Heap.new slots platform
  term := .nil
  nil_eq := Heap.slot?_new_zero slots platform
  written := .list .nil (by simp)

theorem not_isElement_idle {slots : ℕ} {platform : Platform} {h : Handle} :
    ¬ (idle slots platform).heap.IsElement (idle slots platform).term h := by
  have hinside : ∀ {k : Handle}, (idle slots platform).heap.Inside .nil k → k = .nil := by
    intro k hk
    induction hk with
    | self => rfl
    | car _ ho ih =>
      rw [ih] at ho
      cases (idle slots platform).nil_eq.symm.trans ho
    | cdr _ ho ih =>
      rw [ih] at ho
      cases (idle slots platform).nil_eq.symm.trans ho
  intro hh
  obtain ⟨cell, rest, hcell, ho⟩ := hh
  rw [hinside hcell] at ho
  cases (idle slots platform).nil_eq.symm.trans ho

theorem shapely_blank (slots : UInt64) (source : Bytes) (sink : Sink) (tracing : Bool) (platform : Platform) :
    (blank slots.toNat source sink tracing platform).Shapely (idle slots.toNat platform) := by
  have hready : Ready True [] (blank slots.toNat source sink tracing platform) :=
    ready_blank slots source sink tracing platform
  refine ⟨hready.unmarked, hready.capacity_le, hready.object?_nil, hready.plain trivial, ?_, rfl, rfl,
    .refl _ _, Heap.isList_nil, Heap.isList_nil, Heap.isScope_nil, ?_⟩
  · intro h ho
    apply Handle.eq_of_slot_eq
    by_contra hslot
    cases (Heap.slot?_new_of_ne hslot slots.toNat platform).symm.trans ho
  · intro h body env ho
    cases eq_nil_of_get?_new ho

/-- A term that was read may become the program, if there was none before. -/
theorem Shapely.load {slots : ℕ} {platform : Platform} {program : Handle}
    (hm : m.Shapely (idle slots platform)) (hwritten : m.heap.IsWritten program) :
    Shapely ⟨m.heap, program, hm.object?_nil, hwritten⟩
      { m with registers := { m.registers with program := program } } :=
  { hm with
    program_eq := rfl
    loaded := .refl _ _
    closures := fun ho => absurd (hm.closures ho).element not_isElement_idle }

end Machine

/-! ## Texts -/

/-- The terms that can be written: numbers, atoms, strings, and lists of such terms. -/
inductive Term.Proper : Term → Prop
  | number (n : Int64) : Proper (.number n)
  | atom (s : Bytes) : Proper (.atom s)
  | string (bytes : Bytes) : Proper (.string bytes)
  | list {ts : List Term} : (∀ t ∈ ts, Proper t) → Proper (.list ts)

namespace Grammar

theorem Scalar.proper {word : Bytes} {t : Term} (h : Scalar word t) : t.Proper := by
  cases h with
  | number _ _ => exact .number _
  | atom _ => exact .atom _

mutual

/-- The terms of a phrase can be written. -/
theorem Phrase.proper : ∀ {s rest : Bytes} {r : Except Fault (List Term)}, Phrase s r rest →
    ∀ {ts}, r = .ok ts → ∀ t ∈ ts, t.Proper
  | _, _, _, .quote _, _, h => by
    cases h
    exact List.forall_mem_singleton.mpr (.atom _)
  | _, _, _, .directive _ _ hscalar, _, h => by
    cases h
    simpa using ⟨.atom _, hscalar.proper, .atom _⟩
  | _, _, _, .list hitems, _, h => by
    cases h
    exact List.forall_mem_singleton.mpr (.list (Items.proper hitems rfl))
  | _, _, _, .string _, _, h => by
    cases h
    exact List.forall_mem_singleton.mpr (.string _)
  | _, _, _, .scalar _ hscalar, _, h => by
    cases h
    exact List.forall_mem_singleton.mpr hscalar.proper

theorem Items.proper : ∀ {s rest : Bytes} {r : Except Fault (List Term)}, Items s r rest →
    ∀ {ts}, r = .ok ts → ∀ t ∈ ts, t.Proper
  | _, _, _, .close _, _, h => by
    cases h
    simp
  | _, _, _, .more _ hphrase hitems, _, h => by
    cases h
    exact List.forall_mem_append.mpr ⟨Phrase.proper hphrase rfl, Items.proper hitems rfl⟩

end

/-- The first term of a text is a list: behind blanks and comments there is an opening parenthesis. -/
def BeginsWithList (source : Bytes) : Prop := ∃ rest, Gap source (Ascii.openParen :: rest)

/-- A phrase that begins with an opening parenthesis is a list, unless it is broken. -/
theorem Phrase.of_openParen {s rest : Bytes} {ts : List Term}
    (h : Phrase (Ascii.openParen :: s) (.ok ts) rest) : ∃ us, ts = [.list us] := by
  cases h with
  | directive hsign => rcases mem_directives.mp hsign with ⟨h, -⟩ | ⟨h, -⟩ <;> cases h
  | list _ => exact ⟨_, rfl⟩
  | scalar hword =>
    obtain ⟨c, tail, heq, hc⟩ := hword.exists_cons
    cases heq
    exact absurd (by decide) hc

end Grammar

/-- A handle that stands for a term that can be written is what reading makes, as there is one empty
list. -/
theorem Term.Proper.isWritten {heap : Heap} {known : Handle → Bytes → Prop} {h : Handle} {t : Term}
    (hnil : ∀ {h}, heap.get? h = some .nil → h = .nil) (ht : t.Proper) (hh : heap.UnfoldsWith known h t) :
    heap.IsWritten h := by
  induction ht generalizing h with
  | number n =>
    cases hh with
    | number ho => exact .scalar ho (by simp [Object.kind])
  | atom s =>
    cases hh with
    | atom ho _ => exact .scalar ho (by simp [Object.kind])
  | string bytes =>
    cases hh with
    | string ho => exact .scalar ho (by simp [Object.kind])
  | @list ts hts ih =>
    clear hts
    suffices hlist : ∃ hs, heap.Spine h hs ∧ ∀ k ∈ hs, heap.IsWritten k by
      obtain ⟨hs, hspine, hall⟩ := hlist
      exact .list hspine hall
    induction ts generalizing h with
    | nil =>
      cases hh with
      | nil ho => exact ⟨[], hnil ho ▸ .nil, by simp⟩
    | cons t ts ihts =>
      simp only [List.mem_cons, forall_eq_or_imp] at ih
      cases hh with
      | @pair _ car cdr _ _ ho hcar hcdr =>
        obtain ⟨hs, hspine, hall⟩ := ihts ih.2 hcdr
        refine ⟨car :: hs, .cons ho hspine, ?_⟩
        simp only [List.mem_cons, forall_eq_or_imp]
        exact ⟨ih.1 hcar, hall⟩

namespace Machine

variable {α β : Type} {code : Code} {m m' : Machine}

/-! ## The first term of a text -/

/-- If the first term of a text is a list, then so is the term that is read. -/
theorem exists_list_of_readTerm {source : Bytes} {program : Handle} (hlist : Grammar.BeginsWithList source)
    (hfresh : Fresh True m) (hsource : m.source.rest = source) (hrun : readTerm m = .ok program m') :
    ∃ ts, (Term.list ts).Proper ∧ Stands m' program (.list ts) := by
  obtain ⟨s, hgap⟩ := hlist
  rw [← hsource] at hgap
  have hsolid : Grammar.Solid (Ascii.openParen :: s) := Grammar.solid_cons (by decide) (by decide)
  have hqueue : Pending m [] := pending_nil_iff.mpr hfresh.queue
  have hbound : 4 * m.source.rest.length < m.readBound := by
    simp only [readBound]
    omega
  rcases Grammar.exists_phrase _ le_rfl hsolid with ⟨r, rest, hphrase⟩ | ⟨rest, heq⟩
  · cases r with
    | error f =>
      rcases (faithful _).termFails hfresh.literate hqueue hgap hphrase hbound with
        ⟨_, _, hfails, -⟩ | ⟨_, hfails, -⟩
      · cases hrun.symm.trans hfails
      · cases hrun.symm.trans hfails
    | ok ts =>
      obtain ⟨us, rfl⟩ := hphrase.of_openParen
      obtain ⟨t, vs, heq, hstands, -⟩ :=
        ((faithful _).term hfresh.literate hqueue hgap hphrase hbound).of_ok hrun
      cases heq
      exact ⟨us, hphrase.proper rfl _ List.mem_cons_self, hstands⟩
  · cases heq

/-! ## Whole runs -/

/-- An operation is in shape at all its moments, whatever it runs then, and its complaints come from
builtins. -/
structure Tidy (act : Run α) (m : Machine) : Prop where
  moments : ∀ t, act.passes m t → ∃ code, t.Shapely code
  stops : ∀ {reason n}, act.passes m ⟨.stops reason, n⟩ → reason.IsMismatch →
    culprits.on (act.passes m) reason
  error : ∀ {reason n}, act m = .error reason n → reason.IsMismatch → culprits.on (act.passes m) reason

theorem Fares.tidy {act : Run α} {Q : α → Machine → Prop} (h : Fares code culprits act m Q) : Tidy act m where
  moments t ht := ⟨code, h.moments t ht⟩
  stops := h.stops
  error hrun := (h.error hrun).2

theorem Tidy.bind {x : Run α} {f : α → Run β} (hx : Tidy x m)
    (hf : ∀ {a m'}, x m = .ok a m' → Tidy (f a) m') : Tidy (x >>= f) m := by
  have hleft : ∀ t, x.passes m t → (x >>= f).passes m t := fun t ht => .inl ht
  have hright : ∀ {a m'}, x m = .ok a m' → ∀ t, (f a).passes m' t → (x >>= f).passes m t :=
    fun hrun t ht => .inr ⟨_, _, hrun, ht⟩
  refine ⟨?_, ?_, ?_⟩
  · intro t ht
    rcases ht with ht | ⟨a, m', hrun, ht⟩
    · exact hx.moments t ht
    · exact (hf hrun).moments t ht
  · intro reason n ht hmismatch
    rcases ht with ht | ⟨a, m', hrun, ht⟩
    · exact culprits.mono hleft (hx.stops ht hmismatch)
    · exact culprits.mono (hright hrun) ((hf hrun).stops ht hmismatch)
  · intro reason n hbind hmismatch
    cases hrun : x.run m with
    | ok a m' =>
      rw [Run.run_bind_of_ok hrun] at hbind
      exact culprits.mono (hright hrun) ((hf hrun).error hbind hmismatch)
    | error reason' m' =>
      rw [Run.run_bind_of_error hrun] at hbind
      cases hbind
      exact culprits.mono hleft (hx.error hrun hmismatch)

theorem Scope.isScope {env : Handle} {bindings : List (Bytes × Handle)} (h : Scope m env bindings) :
    m.heap.IsScope env := by
  induction h with
  | nil => exact Heap.isScope_nil
  | binding henv hbinding _ _ ih => exact ih.cons henv hbinding

/-- Running a term that was read as a list, on a machine that had no program before. -/
theorem tidy_run {slots : ℕ} {platform : Platform} {program : Handle}
    (hm : m.Shapely (idle slots platform)) (hready : Ready True [] m)
    (hshadow : m.shadow = []) (hwritten : m.heap.IsWritten program) (hlist : m.heap.IsList program)
    (bound : ℕ) :
    Tidy (do
      modifyRegisters fun r => { r with program := program }
      flushAfter (compute bound program (← getRegisters).env)) m := by
  have hloaded := hm.load hwritten
  have hset : Tidy (modifyRegisters fun r => { r with program := program }) m := by
    refine ⟨?_, nofun, nofun⟩
    rintro t rfl
    exact ⟨_, hloaded, nofun⟩
  apply hset.bind
  intro _ n hrun
  cases hrun
  have hstanding : Standing ⟨m.heap, program, hm.object?_nil, hwritten⟩ []
      { m with registers := { m.registers with program := program } } := by
    refine ⟨{ hready with held := List.suffix_refl _ }, ⟨hshadow, ?_, ?_⟩⟩ <;> simp
  have hcompute := shaped_compute bound hstanding ⟨.self, hlist⟩ hloaded.scope
  exact (shaped_getRegisters (shaped_flushAfter hcompute) hloaded).tidy

theorem tidy_launch {source : Bytes} (hlist : Grammar.BeginsWithList source) (slots : UInt64) (sink : Sink)
    (tracing : Bool) (platform : Platform) (bound : ℕ) :
    Tidy (launch bound) (blank slots.toNat source sink tracing platform) := by
  obtain ⟨m₁, hprepare, hfresh, hsource⟩ := exists_fresh false slots source sink tracing platform
  replace hfresh : Fresh True m₁ := by simpa using hfresh
  have hsetup : Fares (idle slots.toNat platform) culprits (prepare false)
      (blank slots.toNat source sink tracing platform)
      fun _ _ => True := by
    refine shaped_prepare ?_ (shapely_blank slots source sink tracing platform)
    intro n hrun
    cases hprepare.symm.trans hrun
    obtain ⟨bindings, hscope⟩ := hfresh.scope
    exact hscope.isScope
  apply hsetup.tidy.bind
  intro _ n hrun
  cases hprepare.symm.trans hrun
  have hread : Fares (idle slots.toNat platform) culprits readTerm m₁ fun _ _ => True :=
    shaped_readTerm (hsetup.ok hprepare).1
  apply hread.tidy.bind
  intro program m₂ hrun₂
  have hm₂ := (hread.ok hrun₂).1
  have hready₂ : Ready True [] m₂ := by
    have hready := (lasting_readTerm hfresh.ready).1
    rwa [after_of_ok hrun₂] at hready
  have hshadow₂ : m₂.shadow = [] := by
    have hshadow : (after readTerm m₁).shadow = m₁.shadow := balanced_readTerm.shadow_eq
    rwa [after_of_ok hrun₂, shadow_prepare hprepare] at hshadow
  obtain ⟨ts, hproper, hstands⟩ := exists_list_of_readTerm hlist hfresh (by rw [hsource]; rfl) hrun₂
  have hwritten := hproper.isWritten hm₂.eq_nil hstands
  refine tidy_run hm₂ hready₂ hshadow₂ hwritten ?_ bound
  cases ts with
  | nil =>
    cases hstands with
    | nil ho => exact hwritten.isList ho (by simp [Object.kind])
  | cons t ts =>
    cases hstands with
    | pair ho _ _ => exact hwritten.isList ho (by simp [Object.kind])

/-- The structures that evaluation works on are in shape while a frame goes on with what is left of its
sequence in an environment: all roots held are those of frames, the innermost one that frame. -/
structure WellShaped (m : Machine) (seq env : Handle) : Prop where
  frames : ∃ frames, m.shadow = (⟨env, seq⟩ :: frames).flatMap Frame.roots ∧
    ∀ f ∈ (⟨env, seq⟩ :: frames : List Frame), m.heap.IsList f.seq ∧ m.heap.IsScope f.env
  closures : ∀ {h body captured}, m.heap.Reaches m.roots h → m.object? h = some (.closure body captured) →
    m.heap.IsScope captured ∧ m.heap.IsList body ∧ m.heap.IsElement m.registers.program body
  stack : m.heap.IsList m.registers.stack

/-- A complaint comes from a builtin that was performed: it looked at a value on the stack, found it not of
the kind it asks for, and said so. -/
def BuiltinComplains (act : Run α) (m : Machine) (reason : Stop) : Prop :=
  ∃ b env n n', act.passes m ⟨.performs b env, n⟩ ∧ Refuses b n reason ∧ perform b env n = .error reason n'

theorem wellShaped_of_iterates {callers : List Handle} {seq env : Handle} {t : Moment} (h : t.Shapely code)
    (hstep : t.step = .iterates callers seq env) : t.machine.WellShaped seq env := by
  have hm := h.machine
  obtain ⟨frames, hholds⟩ := h.frames hstep
  refine ⟨⟨frames, hholds.shadow_eq, ?_⟩, ?_, hm.stack⟩
  · intro f hf
    have hruns := hholds.runs f hf
    exact ⟨hruns.isList.keeps (hm.loaded.of_reaches hruns.inside.reaches), hholds.scopes f hf⟩
  · intro h body captured _ ho
    have hcaptures := hm.closures ho
    refine ⟨hcaptures.scope, ?_, ?_⟩
    · exact hcaptures.isList.keeps (hm.loaded.of_reaches hcaptures.element.inside.reaches)
    · rw [hm.program_eq]
      exact hcaptures.element.keeps hm.loaded

/-- Where nothing is asked of absent objects, complaints come from builtins. -/
theorem Tidy.builtinComplains {act : Run α} {reason : Stop} (h : Tidy act m) (htame : reason.Tame)
    (hblame : culprits.on (act.passes m) reason) : BuiltinComplains act m reason := by
  rcases hblame with ⟨b, env, n, ht, hrefuses⟩ | ⟨found, rfl⟩
  · obtain ⟨code, hshapely⟩ := h.moments _ ht
    obtain ⟨n', hrun⟩ := exists_perform_of_refuses hshapely.machine.object?_nil hrefuses env
    exact ⟨b, env, n, n', ht, hrefuses, hrun⟩
  · exact absurd rfl (htame _ _ _ rfl).1

/-- Without raw access, and if the first term of a text is a list, running it only ever runs well-shaped
code: whenever a frame goes on, what is left to run in each frame is a list, each environment of a frame or a
closure in reach is a list of pairs, the body of each such closure is a list inside the program, and the value
stack is a list. Every complaint about the kind of an object, on the way or at the end, comes from a builtin
that demands one of a value on the stack. -/
theorem launch_shaped {source : Bytes} (hlist : Grammar.BeginsWithList source) (slots : UInt64) (sink : Sink)
    (tracing : Bool) (platform : Platform) (bound : ℕ) :
    (∀ {t callers seq env}, (launch bound).passes (blank slots.toNat source sink tracing platform) t →
      t.step = .iterates callers seq env → t.machine.WellShaped seq env) ∧
    (∀ {reason n}, (launch bound).passes (blank slots.toNat source sink tracing platform) ⟨.stops reason, n⟩ →
      reason.IsMismatch →
        BuiltinComplains (launch bound) (blank slots.toNat source sink tracing platform) reason) ∧
    ∀ {reason n}, launch bound (blank slots.toNat source sink tracing platform) = .error reason n →
      reason.IsMismatch →
        BuiltinComplains (launch bound) (blank slots.toNat source sink tracing platform) reason := by
  have htidy := tidy_launch hlist slots sink tracing platform bound
  have hsafe : Safe (launch bound) (blank slots.toNat source sink tracing platform) :=
    (safe_prepare slots source sink tracing platform).bind fun _ hm => safe_runNext bound hm
  refine ⟨?_, ?_, ?_⟩
  · intro t callers seq env ht hstep
    obtain ⟨code, hshapely⟩ := htidy.moments t ht
    exact wellShaped_of_iterates hshapely hstep
  · intro reason n ht hmismatch
    exact htidy.builtinComplains (hsafe.passes _ ht).step (htidy.stops ht hmismatch)
  · intro reason n hrun hmismatch
    exact htidy.builtinComplains (hsafe.tame hrun) (htidy.error hrun hmismatch)

/-- A program that makes a closure, calls it and takes a component of a number. -/
theorem launch_shaped_car :
    Grammar.BeginsWithList (Ascii.openParen :: Bytes.ofString "($x ^x ^x) $double 1 double car)") ∧
      ∀ {t callers seq env}, (launch 100).passes (blank (1024 : UInt64).toNat
          (Ascii.openParen :: Bytes.ofString "($x ^x ^x) $double 1 double car)") {} false {}) t →
        t.step = .iterates callers seq env → t.machine.WellShaped seq env := by
  have hlist : Grammar.BeginsWithList
      (Ascii.openParen :: Bytes.ofString "($x ^x ^x) $double 1 double car)") := ⟨_, .none _⟩
  exact ⟨hlist, (launch_shaped hlist 1024 {} false {} 100).1⟩

end Machine

end PushLisp
