import PushLisp.Proofs.Shapes
import PushLisp.Proofs.Walks

/-!
# Operations that leave a machine in shape

The operations that evaluation is put together from pass through machines in shape and leave such a
machine. While they do, the walks that a machine makes on its own structures never meet an object of the
wrong kind. An operation that complains about the kind of an object has to account for it: the rules here
carry along what such a complaint may be put down to.

## Main definitions

* `Blame`: what complaints about the kinds of objects may be put down to.
* `Machine.HoldsFrames`: the roots held are those of running sequences.
* `Machine.Shaped`: an operation that leaves a machine in shape.

## Main statements

* `Machine.Shaped.bind`: one operation after another.
* `Machine.shaped_allocate`: making objects.
* `Machine.shaped_pop`, `Machine.shaped_push`: the value stack.
* `Machine.lookup_error`, `Machine.shaped_define`: environments.
* `Machine.shaped_readTerm`: reading.
-/
namespace PushLisp

/-- A complaint about the kind of an object. -/
def Stop.IsMismatch : Stop → Prop
  | .fault (.typeMismatch ..) => True
  | _ => False

theorem Fault.OfText.not_isMismatch {f : Fault} (hf : f.OfText) : ¬ (Stop.fault f).IsMismatch := by
  cases f <;> simp_all [Fault.OfText, Stop.IsMismatch]

/-- What a complaint may be put down to, given the moments passed through so far. More moments leave room
for more complaints. -/
structure Blame where
  on : (Moment → Prop) → Stop → Prop
  mono : ∀ {P P' : Moment → Prop} {reason : Stop}, (∀ t, P t → P' t) → on P reason → on P' reason

/-- Blame after some moments have passed. -/
def Blame.after (B : Blame) (past : Moment → Prop) : Blame where
  on P := B.on fun t => past t ∨ P t
  mono hP := B.mono fun t => Or.imp_right (hP t)

/-- A running sequence: what is left of it, and its environment. -/
structure Frame where
  env : Handle
  seq : Handle

/-- The roots of a frame, the inner one first. -/
def Frame.roots (f : Frame) : List Handle := [f.env, f.seq]

/-- The roots held are those of frames, each with a list of the code left to run and an environment. -/
structure Machine.HoldsFrames (code : Code) (m : Machine) (frames : List Frame) : Prop where
  shadow_eq : m.shadow = frames.flatMap Frame.roots
  runs : ∀ f ∈ frames, code.Runs f.seq
  scopes : ∀ f ∈ frames, m.heap.IsScope f.env

/-- A moment with a machine in shape; when a frame goes on, all roots held are those of frames. -/
structure Moment.Shapely (code : Code) (t : Moment) : Prop where
  machine : t.machine.Shapely code
  frames : ∀ {callers seq env}, t.step = .iterates callers seq env →
    ∃ frames, t.machine.HoldsFrames code (⟨env, seq⟩ :: frames)

namespace Machine

variable {α β : Type} {code : Code} {B : Blame} {m m' : Machine}

/-! ## Rules -/

/-- How an operation fares on a machine in shape. -/
structure Fares (code : Code) (B : Blame) (act : Run α) (m : Machine) (Q : α → Machine → Prop) : Prop where
  moments : ∀ t, act.passes m t → t.Shapely code
  stops : ∀ {reason n}, act.passes m ⟨.stops reason, n⟩ → reason.IsMismatch → B.on (act.passes m) reason
  ok : ∀ {a m'}, act m = .ok a m' → m'.Shapely code ∧ Q a m'
  error : ∀ {reason m'}, act m = .error reason m' →
    m'.Shapely code ∧ (reason.IsMismatch → B.on (act.passes m) reason)

/-- From a machine in shape an operation passes through such machines to such a machine. If it answers then
as `Q` says, and if it complains about the kind of an object, at its end or on the way, then with good
reason. -/
def Shaped (code : Code) (B : Blame) (act : Run α) (m : Machine)
    (Q : α → Machine → Prop := fun _ _ => True) : Prop :=
  m.Shapely code → Fares code B act m Q

/-- However an operation ends, the machine that it leaves is in shape. -/
theorem Fares.after_shapely {act : Run α} {Q : α → Machine → Prop} (h : Fares code B act m Q) :
    (after act m).Shapely code := by
  unfold after
  cases hrun : act.run m with
  | ok a m' => exact (h.ok hrun).1
  | error reason m' => exact (h.error hrun).1

/-- That the machine is in shape may be used. -/
theorem Shaped.of_shapely {act : Run α} {Q : α → Machine → Prop}
    (h : m.Shapely code → Shaped code B act m Q) : Shaped code B act m Q :=
  fun hm => h hm hm

theorem Shaped.imp {act : Run α} {Q R : α → Machine → Prop} (h : Shaped code B act m Q)
    (hQ : ∀ {a m'}, m.Shapely code → act m = .ok a m' → Q a m' → R a m') : Shaped code B act m R := by
  intro hm
  have hact := h hm
  exact { hact with ok := fun hrun => ⟨(hact.ok hrun).1, hQ hm hrun (hact.ok hrun).2⟩ }

/-- One operation after another. The second may put its complaints down to what the first passed
through. -/
theorem Shaped.bindAfter {x : Run α} {f : α → Run β} {Q : α → Machine → Prop} {R : β → Machine → Prop}
    (hx : Shaped code B x m Q)
    (hf : ∀ {a m'}, x m = .ok a m' → Q a m' → Shaped code (B.after (x.passes m)) (f a) m' R) :
    Shaped code B (x >>= f) m R := by
  intro hm
  have hX := hx hm
  have hleft : ∀ t, x.passes m t → (x >>= f).passes m t := fun t ht => .inl ht
  cases hrun : x.run m with
  | ok a m' =>
    obtain ⟨hm', hq⟩ := hX.ok hrun
    have hF := hf hrun hq hm'
    have hpasses : ∀ t, (x >>= f).passes m t ↔ x.passes m t ∨ (f a).passes m' t :=
      fun t => Run.passes_bind_of_ok hrun
    have hboth : ∀ {reason}, (B.after (x.passes m)).on ((f a).passes m') reason →
        B.on ((x >>= f).passes m) reason := B.mono fun t => (hpasses t).mpr
    refine ⟨?_, ?_, ?_, ?_⟩
    · intro t ht
      rcases (hpasses t).mp ht with ht | ht
      · exact hX.moments t ht
      · exact hF.moments t ht
    · intro reason n ht hmismatch
      rcases (hpasses _).mp ht with ht | ht
      · exact B.mono hleft (hX.stops ht hmismatch)
      · exact hboth (hF.stops ht hmismatch)
    · intro b n hbind
      rw [Run.run_bind_of_ok hrun] at hbind
      exact hF.ok hbind
    · intro reason n hbind
      rw [Run.run_bind_of_ok hrun] at hbind
      exact ⟨(hF.error hbind).1, fun hmismatch => hboth ((hF.error hbind).2 hmismatch)⟩
  | error reason m' =>
    have hpasses : ∀ t, (x >>= f).passes m t ↔ x.passes m t := fun t => Run.passes_bind_of_error hrun
    refine ⟨?_, ?_, ?_, ?_⟩
    · intro t ht
      exact hX.moments t ((hpasses t).mp ht)
    · intro reason n ht hmismatch
      exact B.mono hleft (hX.stops ((hpasses _).mp ht) hmismatch)
    · intro b n hbind
      rw [Run.run_bind_of_error hrun] at hbind
      cases hbind
    · intro reason' n hbind
      rw [Run.run_bind_of_error hrun] at hbind
      cases hbind
      exact ⟨(hX.error hrun).1, fun hmismatch => B.mono hleft ((hX.error hrun).2 hmismatch)⟩

/-- Blame may be put on what was seen before. -/
theorem Shaped.after {act : Run α} {Q : α → Machine → Prop} (h : Shaped code B act m Q)
    (past : Moment → Prop) : Shaped code (B.after past) act m Q := by
  have hpast : ∀ {reason}, B.on (act.passes m) reason → (B.after past).on (act.passes m) reason :=
    B.mono fun _ => .inr
  intro hm
  have hact := h hm
  exact { hact with
    stops := fun ht hmismatch => hpast (hact.stops ht hmismatch)
    error := fun hrun => (hact.error hrun).imp_right fun hblame hmismatch => hpast (hblame hmismatch) }

/-- One operation after another, where the second needs nothing of the past of the first. -/
theorem Shaped.bind {x : Run α} {f : α → Run β} {Q : α → Machine → Prop} {R : β → Machine → Prop}
    (hx : Shaped code B x m Q) (hf : ∀ {a m'}, x m = .ok a m' → Q a m' → Shaped code B (f a) m' R) :
    Shaped code B (x >>= f) m R :=
  hx.bindAfter fun hrun hq => (hf hrun hq).after _

/-- Operations that answer at once. -/
theorem shaped_of_ok {act : Run α} {a : α} {Q : α → Machine → Prop} (hrun : act m = .ok a m')
    (hmoments : m.Shapely code → ∀ t, act.passes m t → t.Shapely code ∧ ∀ reason, t.step ≠ .stops reason)
    (hm' : m.Shapely code → m'.Shapely code) (hq : Q a m') : Shaped code B act m Q := by
  intro hm
  refine ⟨?_, ?_, ?_, ?_⟩
  · intro t ht
    exact (hmoments hm t ht).1
  · intro reason n ht
    exact absurd rfl ((hmoments hm _ ht).2 reason)
  · intro b n hrun'
    cases hrun.symm.trans hrun'
    exact ⟨hm' hm, hq⟩
  · intro reason n hrun'
    cases hrun.symm.trans hrun'

theorem shaped_pure {Q : α → Machine → Prop} {a : α} (hq : Q a m) : Shaped code B (pure a) m Q :=
  shaped_of_ok rfl (fun _ t ht => absurd ht (Run.not_passes_pure a m t)) id hq

/-- A run may stop with a mismatch only if there is something to blame for it. -/
theorem shaped_stop {Q : α → Machine → Prop} {reason : Stop}
    (hblame : reason.IsMismatch → ∀ P, B.on P reason) : Shaped code B (stop reason) m Q := by
  intro hm
  refine ⟨?_, ?_, nofun, ?_⟩
  · rintro t rfl
    exact ⟨hm, nofun⟩
  · rintro _ n ⟨⟩ hmismatch
    exact hblame hmismatch _
  · intro _ n hrun
    cases hrun
    exact ⟨hm, fun hmismatch => hblame hmismatch _⟩

theorem shaped_fail {Q : α → Machine → Prop} {f : Fault} (hf : ¬ (Stop.fault f).IsMismatch) :
    Shaped code B (fail f) m Q :=
  shaped_stop fun hmismatch => absurd hmismatch hf

/-- A step is observed, and its moment is in shape. -/
theorem shaped_observe {step : Step} (hstep : m.Shapely code → Moment.Shapely code ⟨step, m⟩)
    (hstop : ∀ reason, step ≠ .stops reason) : Shaped code B (observe step) m fun _ n => n = m := by
  refine shaped_of_ok rfl ?_ id rfl
  rintro hm t rfl
  exact ⟨hstep hm, hstop⟩

theorem shaped_uses (hs : List Handle) : Shaped code B (observe (.uses hs)) m fun _ n => n = m :=
  shaped_observe (fun hm => ⟨hm, nofun⟩) nofun

/-- A question changes nothing, and complains only if there is something to blame. -/
theorem shaped_ask {question : Machine → Except Stop α}
    (hblame : m.Shapely code → ∀ {reason}, question m = .error reason → reason.IsMismatch →
      ∀ P, B.on P reason) :
    Shaped code B (ask question) m fun a n => n = m ∧ question m = .ok a := by
  intro hm
  refine ⟨?_, ?_, ?_, ?_⟩
  · rintro t ⟨reason, -, rfl⟩
    refine ⟨hm, ?_⟩
    rintro _ _ _ ⟨⟩
  · rintro _ n ⟨reason, herror, ⟨⟩⟩ hmismatch
    exact hblame hm herror hmismatch _
  · intro a n hask
    simp only [ask] at hask
    split at hask <;> cases hask
    exact ⟨hm, rfl, ‹_›⟩
  · intro reason n hask
    simp only [ask] at hask
    split at hask <;> cases hask
    exact ⟨hm, fun hmismatch => hblame hm ‹_› hmismatch _⟩

/-- A question that is known to have an answer. -/
theorem shaped_ask_of_ok {question : Machine → Except Stop α} {a : α} {f : α → Run β}
    {Q : β → Machine → Prop} (hquestion : question m = .ok a) (hf : Shaped code B (f a) m Q) :
    Shaped code B (ask question >>= f) m Q := by
  apply (shaped_ask fun _ _ herror => nomatch hquestion.symm.trans herror).bind
  intro b n _ hanswer
  obtain ⟨rfl, hanswer⟩ := hanswer
  cases hquestion.symm.trans hanswer
  exact hf

theorem shaped_get {f : Machine → Run α} {Q : α → Machine → Prop} (hf : Shaped code B (f m) m Q) :
    Shaped code B (get >>= f) m Q := by
  have hget : Shaped code B (get : Run Machine) m := shaped_of_ok rfl (fun _ _ ht => ht.elim) id trivial
  apply hget.bind
  intro a m' hrun _
  cases hrun
  exact hf

theorem shaped_getRegisters {f : Registers → Run α} {Q : α → Machine → Prop}
    (hf : Shaped code B (f m.registers) m Q) : Shaped code B (getRegisters >>= f) m Q := by
  have hget : Shaped code B getRegisters m := shaped_get (shaped_pure trivial)
  apply hget.bind
  intro a m' hrun _
  cases hrun
  exact hf

theorem shaped_modifyGet {g : Machine → α × Machine} {Q : α → Machine → Prop}
    (hg : m.Shapely code → (g m).2.Shapely code) (hq : Q (g m).1 (g m).2) :
    Shaped code B (modifyGet g) m Q := by
  refine shaped_of_ok rfl ?_ hg hq
  rintro hm t rfl
  exact ⟨⟨hg hm, nofun⟩, nofun⟩

theorem shaped_modify {g : Machine → Machine} (hg : m.Shapely code → (g m).Shapely code) :
    Shaped code B (modify g : Run PUnit) m fun _ n => n = g m :=
  shaped_modifyGet hg rfl

theorem shaped_note (e : Event) : Shaped code B (note e) m := by
  refine (shaped_modify fun hm => hm.of_eq ?_ ?_).imp fun _ _ _ => trivial
  · split <;> rfl
  · split <;> rfl

theorem shaped_root (hs : List Handle) :
    Shaped code B (root hs) m fun _ n => n = { m with shadow := hs ++ m.shadow } :=
  shaped_modify fun hm => hm.of_eq rfl rfl

/-- The stack and the queue have to stay lists, and the environment a scope. -/
theorem shaped_modifyRegisters {f : Registers → Registers} (hnil : (f m.registers).nil = m.registers.nil)
    (hprogram : (f m.registers).program = m.registers.program)
    (hstack : m.Shapely code → m.heap.IsList (f m.registers).stack)
    (hqueue : m.Shapely code → m.heap.IsList (f m.registers).readQueue)
    (hscope : m.Shapely code → m.heap.IsScope (f m.registers).env) :
    Shaped code B (modifyRegisters f) m fun _ n => n = { m with registers := f m.registers } :=
  shaped_modify fun hm => hm.setRegisters hnil hprogram (hstack hm) (hqueue hm) (hscope hm)

/-- A list may become the stack. -/
theorem shaped_setStack {stack : Handle} (hstack : m.Shapely code → m.heap.IsList stack) :
    Shaped code B (modifyRegisters fun r => { r with stack := stack }) m fun _ n =>
      n = { m with registers := { m.registers with stack := stack } } :=
  shaped_modifyRegisters rfl rfl hstack Shapely.queue Shapely.scope

theorem shaped_setQueue {queue : Handle} (hqueue : m.Shapely code → m.heap.IsList queue) :
    Shaped code B (modifyRegisters fun r => { r with readQueue := queue }) m :=
  (shaped_modifyRegisters rfl rfl Shapely.stack hqueue Shapely.scope).imp fun _ _ _ => trivial

/-- Roots have no part in the shape, so a scope may let go of them. -/
theorem Shaped.keepingRoots {act : Run α} {Q : α → Machine → Prop}
    (h : Shaped code B act m fun a n => Q a { n with shadow := m.shadow }) :
    Shaped code B (keepingRoots act) m Q := by
  intro hm
  have hact := h hm
  have hmore : ∀ {reason}, B.on (act.passes m) reason →
      B.on ((Machine.keepingRoots act).passes m) reason := B.mono fun _ => .inl
  refine ⟨?_, ?_, ?_, ?_⟩
  · rintro t (ht | rfl | rfl)
    · exact hact.moments t ht
    · exact ⟨hact.after_shapely, nofun⟩
    · exact ⟨hact.after_shapely.of_eq rfl rfl, nofun⟩
  · rintro reason n (ht | ht | ht) hmismatch
    · exact hmore (hact.stops ht hmismatch)
    · cases ht
    · cases ht
  · intro a n hrun
    cases hact' : act.run m with
    | ok b m' =>
      simp only [Machine.keepingRoots, hact'] at hrun
      cases hrun
      exact ⟨(hact.ok hact').1.of_eq rfl rfl, (hact.ok hact').2⟩
    | error reason m' =>
      simp only [Machine.keepingRoots, hact'] at hrun
      cases hrun
  · intro reason n hrun
    cases hact' : act.run m with
    | ok b m' =>
      simp only [Machine.keepingRoots, hact'] at hrun
      cases hrun
    | error reason m' =>
      simp only [Machine.keepingRoots, hact'] at hrun
      cases hrun
      exact ⟨(hact.error hact').1.of_eq rfl rfl, fun hmismatch => hmore ((hact.error hact').2 hmismatch)⟩

theorem Shaped.withRoots {hs : List Handle} {act : Run α} {Q : α → Machine → Prop}
    (h : Shaped code B act { m with shadow := hs ++ m.shadow } fun a n => Q a { n with shadow := m.shadow }) :
    Shaped code B (withRoots hs act) m Q := by
  apply Shaped.keepingRoots
  apply (shaped_root hs).bind
  rintro _ _ - rfl
  exact h

/-- An operation may be asked how it ended, and then a complaint of its may be repeated. -/
theorem Shaped.attempt {act : Run α} {Q : α → Machine → Prop} (h : Shaped code B act m Q) :
    Shaped code B (attempt act) m fun ended _ => ∀ {reason}, ended = .error reason →
      reason.IsMismatch → B.on (act.passes m) reason := by
  intro hm
  have hact := h hm
  refine ⟨hact.moments, hact.stops, ?_, ?_⟩
  · intro ended n hrun
    rcases run_of_attempt hrun with ⟨a, rfl, hact'⟩ | ⟨reason, rfl, hact'⟩
    · exact ⟨(hact.ok hact').1, nofun⟩
    · refine ⟨(hact.error hact').1, ?_⟩
      rintro _ ⟨⟩ hmismatch
      exact (hact.error hact').2 hmismatch
  · intro reason n hrun
    cases hact' : act.run m with
    | ok a m' =>
      rw [run_attempt_of_ok hact'] at hrun
      cases hrun
    | error reason m' =>
      rw [run_attempt_of_error hact'] at hrun
      cases hrun

/-! ## Objects -/

/-- A collection keeps all that the shape is about. -/
theorem shaped_collect : Shaped code B collect m := by
  have hreclaim : Shaped code B (modifyGet fun m : Machine =>
      ((m.heap.collect m.roots).1, { m with heap := (m.heap.collect m.roots).2 })) m :=
    shaped_modifyGet (fun hm => hm.collect m.shadow m.events) trivial
  have hbegins : Shaped code B (observe .collects) m fun _ n => n = m :=
    shaped_observe (fun hm => ⟨hm, nofun⟩) nofun
  apply hbegins.bind
  rintro _ _ - rfl
  apply hreclaim.bind
  intro _ _ _ _
  apply shaped_get
  exact (shaped_note _).bind fun _ _ => shaped_pure trivial

/-- A closure that is placed has captured a scope. -/
theorem shaped_tryAllocate {o : Object} (hplain : o.Plain) (hnil : o ≠ .nil)
    (hcaptures : m.Shapely code → ∀ {body env}, o = .closure body env → Captures code m body env) :
    Shaped code B (tryAllocate o) m := by
  cases hfind : m.heap.findFree? with
  | none =>
    refine shaped_of_ok (run_tryAllocate_of_full hfind) ?_ id trivial
    rintro hm t ⟨i, hi, -⟩
    rw [hfind] at hi
    cases hi
  | some i =>
    have hplace := fun hm : m.Shapely code => hm.place hfind hplain hnil (hcaptures hm)
    refine shaped_of_ok (run_tryAllocate_of_free hfind) ?_ hplace trivial
    rintro hm t ⟨j, hj, ht⟩
    rw [hfind] at hj
    cases hj
    rcases ht with rfl | rfl
    · exact ⟨⟨hm, nofun⟩, nofun⟩
    · exact ⟨⟨hplace hm, nofun⟩, nofun⟩

/-- What the references of a new object and the roots lead to is kept. -/
theorem Placed.keeps_of_mem {o : Object} {h k : Handle} (hplaced : Placed o m h m')
    (hk : k ∈ o.references ++ m.roots) : m.heap.Keeps m'.heap k := by
  intro j o' hj ho'
  refine ⟨o', hplaced.spares.object?_eq ho' ?_, .refl o'⟩
  apply hj.mono
  simpa using .inr (List.mem_append.mp hk)

/-- What a closure is to capture stays in shape while room is made for the closure. -/
theorem captures_of_withRoots_collect {hs : List Handle} {body env : Handle} {freed : ℕ}
    (hm : m.Shapely code) (hcaptures : Captures code m body env) (henv : env ∈ hs)
    (hrun : withRoots hs collect m = .ok freed m') : Captures code m' body env := by
  obtain ⟨freed', events, hrun'⟩ := run_withRoots_collect hs m
  cases hrun.symm.trans hrun'
  refine { hcaptures with scope := hcaptures.scope.keeps (Heap.keeps_collect hm.unmarked (.root ?_)) }
  simp [henv]

/-- Objects may be made. What a closure captures must be of the right shape, and there is one empty list. -/
theorem shaped_allocate {o : Object} (hplain : o.Plain) (hnil : o ≠ .nil)
    (hcaptures : m.Shapely code → ∀ {body env}, o = .closure body env → Captures code m body env) :
    Shaped code B (allocate o) m fun h n => Placed o m h n := by
  have hshaped : Shaped code B (allocate o) m := by
    apply Shaped.of_shapely
    intro hm
    apply (shaped_tryAllocate hplain hnil hcaptures).bind
    intro placed m₁ hrun _
    cases placed with
    | some h => exact shaped_pure trivial
    | none =>
      have heq : m₁ = m := by
        cases hfind : m.heap.findFree? with
        | none => cases hrun.symm.trans (run_tryAllocate_of_full hfind); rfl
        | some i => cases hrun.symm.trans (run_tryAllocate_of_free hfind)
      subst heq
      have hcollect : Shaped code B (withRoots o.references collect) m₁ := Shaped.withRoots shaped_collect
      apply hcollect.bind
      intro freed m₂ hrun₂ _
      refine Shaped.bind (shaped_tryAllocate hplain hnil fun _ body env heq => ?_) ?_
      · refine captures_of_withRoots_collect hm (hcaptures hm heq) ?_ hrun₂
        simp [heq, Object.references]
      · intro placed _ _ _
        cases placed with
        | some h => exact shaped_pure trivial
        | none => exact shaped_get (shaped_fail id)
  apply hshaped.imp
  intro h n hm hrun _
  rcases allocate_spares o hm.unmarked hm.capacity_le with ⟨h', n', hrun', hplaced⟩ | ⟨n', hrun', -⟩
  · cases hrun.symm.trans hrun'
    exact hplaced
  · cases hrun.symm.trans hrun'

/-- Any object that is neither a closure nor the empty list may be made. -/
theorem shaped_make (o : Object) (hplain : o.Plain) (hkind : o.kind ∉ [.closure, .nil]) :
    Shaped code B (allocate o) m fun h n => Placed o m h n := by
  refine shaped_allocate hplain ?_ ?_
  · rintro rfl
    simp [Object.kind] at hkind
  · rintro - body env rfl
    simp [Object.kind] at hkind

/-- A pair is made of whatever there is. -/
theorem shaped_makePair (car cdr : Handle) :
    Shaped code B (makePair car cdr) m fun h n => Placed (.pair car cdr) m h n :=
  shaped_make (.pair car cdr) trivial (by simp [Object.kind])

theorem shaped_makeNumber (n : Int64) : Shaped code B (makeNumber n) m :=
  (shaped_make (.number n) trivial (by simp [Object.kind])).imp fun _ _ _ => trivial

theorem Placed.registers_eq {o : Object} {h : Handle} (hplaced : Placed o m h m') :
    m'.registers = m.registers := by
  rw [hplaced.spares.rest_eq]

/-! ## Lists and the stack -/

/-- What is put in front of a list makes a list. The induction is on the values. -/
theorem shaped_consAll {list : Handle} (hlist : m.heap.IsList list) (values : List Handle) :
    Shaped code B (consAll list values) m fun h n => n.heap.IsList h := by
  induction values generalizing list m with
  | nil => exact shaped_pure hlist
  | cons v values ih =>
    apply (shaped_makePair v list).bind
    intro h m₁ _ hplaced
    apply ih
    apply Heap.IsList.cons hplaced.object?_eq
    apply hlist.keeps
    exact hplaced.keeps_of_mem (by simp [Object.references])

theorem shaped_makeList (values : List Handle) :
    Shaped code B (makeList values) m fun h n => n.heap.IsList h :=
  Shaped.withRoots (shaped_consAll Heap.isList_nil values.reverse)

/-- The stack is a list with one value more. -/
theorem shaped_push (value : Handle) : Shaped code B (push value) m := by
  apply shaped_getRegisters
  apply (shaped_makePair value m.registers.stack).bind
  intro stack m₁ _ hplaced
  refine (shaped_setStack fun hm₁ => ?_).imp fun _ _ _ => trivial
  have hstack := hm₁.stack
  rw [hplaced.registers_eq] at hstack
  exact hstack.cons hplaced.object?_eq

theorem shaped_pushNumber (n : Int64) : Shaped code B (pushNumber n) m :=
  (shaped_makeNumber n).bind fun _ _ => shaped_push _

/-- A value was taken off the stack, and nothing else happened. -/
structure Popped (m : Machine) (value : Handle) (m' : Machine) : Prop where
  object?_eq : m.object? m.registers.stack = some (.pair value m'.registers.stack)
  rest_eq : m' = { m with registers := { m.registers with stack := m'.registers.stack } }

theorem Popped.heap_eq {value : Handle} (hpopped : Popped m value m') : m'.heap = m.heap := by
  rw [hpopped.rest_eq]

/-- The stack is a list, and so is what is left of it. -/
theorem shaped_tryPop : Shaped code B tryPop m fun top n => ∀ {value}, top = some value →
    Popped m value n := by
  apply Shaped.of_shapely
  intro hm
  apply shaped_getRegisters
  dsimp only
  by_cases hempty : m.registers.stack.isNil = true
  · rw [if_pos hempty]
    exact shaped_pure nofun
  rw [if_neg hempty]
  obtain ⟨value, rest, ho⟩ := hm.stack.exists_pair fun heq => hempty (by simp [heq])
  have hcar : car m.registers.stack m = .ok value := by simp [car, object?, ho]
  have hcdr : cdr m.registers.stack m = .ok rest := by simp [cdr, object?, ho]
  apply shaped_ask_of_ok hcar
  apply shaped_ask_of_ok hcdr
  apply (shaped_setStack fun hm => hm.stack.rest hm.object?_nil ho).bind
  rintro _ _ - rfl
  refine shaped_pure fun heq => ?_
  cases heq
  exact ⟨ho, rfl⟩

theorem shaped_pop : Shaped code B pop m fun value n => Popped m value n := by
  apply shaped_tryPop.bind
  intro top _ _ hpopped
  cases top with
  | some value => exact shaped_pure (hpopped rfl)
  | none => exact shaped_fail id

/-- A value is popped and looked at. -/
theorem shaped_popUsing {f : Handle → Run α} {Q : α → Machine → Prop}
    (hf : ∀ {value n}, Popped m value n → Shaped code B (f value) n Q) :
    Shaped code B (do
      let value ← pop
      observe (.uses [value])
      f value) m Q := by
  apply shaped_pop.bind
  intro value n _ hpopped
  apply (shaped_uses [value]).bind
  rintro _ _ - rfl
  exact hf hpopped

theorem shaped_popNumber : Shaped code B popNumber m fun _ n => ∃ value, Popped m value n :=
  shaped_popUsing fun hpopped => shaped_get (shaped_pure ⟨_, hpopped⟩)

/-! ## Atoms and environments -/

/-- The search for an atom does not complain of anything. -/
theorem findAtomFrom_error {spelling : Bytes} {n : ℕ} {list : Handle} {reason : Stop}
    (h : findAtomFrom m spelling n list = .error reason) : reason = .unfinished := by
  induction n generalizing list with
  | zero =>
    cases h
    rfl
  | succ n ih =>
    unfold findAtomFrom at h
    split at h
    · split at h
      · cases h
      · exact ih h
    · cases h

/-- At most one atom is made, and put in front of the registry. -/
theorem shaped_intern (spelling : Bytes) : Shaped code B (intern spelling) m := by
  have hfind : Shaped code B (ask (findAtom spelling)) m fun _ n => n = m :=
    (shaped_ask fun _ reason herror hmismatch => by
      cases findAtomFrom_error herror
      exact hmismatch.elim).imp fun _ _ hq => hq.1
  apply hfind.bind
  intro found _ _ _
  cases found with
  | some atom => exact shaped_pure trivial
  | none =>
    apply (shaped_make (.atom spelling) trivial (by simp [Object.kind])).bind
    intro atom m₁ _ _
    apply shaped_getRegisters
    apply (shaped_makePair _ _).bind
    intro registry m₂ _ _
    have hset : Shaped code B (modifyRegisters fun r => { r with registry := registry }) m₂ :=
      (shaped_modifyRegisters rfl rfl Shapely.stack Shapely.queue Shapely.scope).imp fun _ _ _ => trivial
    exact hset.bind fun _ _ => shaped_pure trivial

/-- A lookup in an environment does not meet an object of the wrong kind. -/
theorem lookupFrom_error {key : Handle} {name : Bytes} {n : ℕ} {env : Handle} {reason : Stop}
    (henv : m.heap.IsScope env) (h : lookupFrom m key name n env = .error reason) : ¬ reason.IsMismatch := by
  induction n generalizing env with
  | zero =>
    cases h
    exact id
  | succ n ih =>
    rcases henv.cases with rfl | ⟨binding, rest, key', value, ho, hbinding, hrest⟩
    · cases h
      exact id
    · have hcar : car env m = .ok binding := by simp [car, object?, ho]
      have hcdr : cdr env m = .ok rest := by simp [cdr, object?, ho]
      have hkey : car binding m = .ok key' := by simp [car, object?, hbinding]
      have hvalue : cdr binding m = .ok value := by simp [cdr, object?, hbinding]
      simp only [lookupFrom, hcar, hcdr, hkey, hvalue, bind, Except.bind] at h
      split at h
      · cases h
        exact id
      · split at h
        · cases h
        · exact ih hrest h

/-- Looking up complains of the key, if it is no atom, and never of a scope. -/
theorem lookup_error {env key : Handle} {reason : Stop} (henv : m.heap.IsScope env)
    (h : lookup env key m = .error reason) (hmismatch : reason.IsMismatch) :
    m.kind? key ≠ some .atom ∧ reason = m.mismatch "env_find" "atom key" key := by
  unfold lookup at h
  split at h
  · rename_i hatom
    cases h
    refine ⟨?_, rfl⟩
    intro hkind
    simp only [kind?, Option.map_eq_some_iff] at hkind
    obtain ⟨o, ho, hkind⟩ := hkind
    cases o <;> simp_all [atom?, Object.kind]
  · exact absurd hmismatch (lookupFrom_error henv h)

/-- A scope with one binding more is a scope. -/
theorem shaped_define {env : Handle} (key value : Handle) (henv : m.heap.IsScope env) :
    Shaped code B (define env key value) m fun env' n => n.heap.IsScope env' := by
  have hbinding : Shaped code B (withRoots [env] (makePair key value)) m fun binding n =>
      n.object? binding = some (.pair key value) ∧ n.heap.IsScope env := by
    refine Shaped.withRoots ((shaped_makePair key value).imp ?_)
    intro binding n _ _ hplaced
    refine ⟨hplaced.object?_eq, henv.keeps (hplaced.keeps_of_mem ?_)⟩
    simp [roots]
  apply hbinding.bind
  intro binding m₁ _ hm₁
  apply (shaped_makePair binding env).imp
  intro env' n _ _ hplaced
  have hkeeps : ∀ k ∈ [binding, env], m₁.heap.Keeps n.heap k := by
    intro k hk
    exact hplaced.keeps_of_mem (List.mem_append_left _ hk)
  have hpair := (hkeeps binding (by simp)).pair (.root List.mem_cons_self) hm₁.1
  exact (hm₁.2.keeps (hkeeps env (by simp))).cons hplaced.object?_eq hpair

theorem shaped_definePrimitive (env : Handle) {p : Primitive} (hp : p.action.isRaw = false) :
    Shaped code B (definePrimitive env p) m := by
  apply (shaped_intern _).bind
  intro key m₁ _ _
  have hprimitive : Shaped code B (withRoots [env] (allocate (.primitive p))) m₁ :=
    Shaped.withRoots ((shaped_make (.primitive p) hp (by simp [Object.kind])).imp fun _ _ _ => trivial)
  apply hprimitive.bind
  intro value m₂ _ _
  have hpair : Shaped code B (withRoots [env] (makePair key value)) m₂ :=
    Shaped.withRoots ((shaped_makePair key value).imp fun _ _ _ => trivial)
  exact hpair.bind fun _ _ => (shaped_makePair _ env).imp fun _ _ _ => trivial

/-! ## Reading -/

theorem shaped_scalar (word : Bytes) : Shaped code B (scalar word) m := by
  unfold scalar
  split
  · exact shaped_makeNumber _
  · exact shaped_intern word

/-- Where something is queued, the queue begins with a pair. -/
theorem shaped_dequeue (hne : m.registers.readQueue ≠ m.registers.nil) :
    Shaped code B (dequeue m.registers.readQueue) m := by
  apply Shaped.of_shapely
  intro hm
  rw [hm.nil_eq] at hne
  obtain ⟨first, rest, ho⟩ := hm.queue.exists_pair hne
  have hcar : ∀ r, car m.registers.readQueue { m with registers := r } = .ok first := by
    intro r
    simp [car, object?, ho]
  have hcdr : cdr m.registers.readQueue m = .ok rest := by simp [cdr, object?, ho]
  apply shaped_ask_of_ok hcdr
  apply (shaped_setQueue fun hm => hm.queue.rest hm.object?_nil ho).bind
  intro _ _ hrun _
  cases hrun
  refine (shaped_ask fun _ reason herror => ?_).imp fun _ _ _ => trivial
  cases (hcar _).symm.trans herror

theorem shaped_takeWord : Shaped code B takeWord m :=
  shaped_modifyGet (fun hm => hm.of_eq rfl rfl) trivial

/-- What is wrong with a string is found in the text. -/
theorem scanStringFrom_fault {position : ℕ} {decoded s : Bytes} {f : Fault}
    (h : (Source.scanStringFrom position decoded s).1 = .error f) : f.OfText := by
  fun_induction Source.scanStringFrom position decoded s <;> simp_all <;> subst h <;> trivial

theorem shaped_takeString : Shaped code B takeString m := by
  have hscan : Shaped code B (modifyGet fun m : Machine =>
      (m.source.scanString.1, { m with source := m.source.scanString.2 })) m fun result _ =>
        ∀ {f}, result = .error f → f.OfText := by
    exact shaped_modifyGet (fun hm => hm.of_eq rfl rfl) scanStringFrom_fault
  apply hscan.bind
  intro result _ _ hfault
  cases result with
  | ok bytes => exact shaped_pure trivial
  | error f => exact shaped_fail (hfault rfl).not_isMismatch

/-- The queue is a list of three terms. -/
theorem shaped_queueDirective (sign : UInt8) (op : Registers → Handle) :
    Shaped code B (queueDirective sign op) m := by
  apply shaped_takeWord.bind
  intro word m₁ _ _
  dsimp only
  split
  · have hfail : Shaped code B (fail (.emptyDirective sign) : Run PUnit) m₁ := shaped_fail id
    exact hfail.bind fun hrun => nomatch hrun
  · apply (shaped_scalar word).bind
    intro name _ _ _
    apply shaped_getRegisters
    apply (shaped_makeList _).bind
    intro queue _ _ hqueue
    exact shaped_setQueue fun _ => hqueue

/-- Reading leaves a machine in shape. The induction is on the bound, for terms and for the items of lists at
once since each calls the other. -/
theorem shaped_readFrom (n : ℕ) :
    (∀ {m}, Shaped code B (readTermFrom n) m) ∧
      ∀ {m} (items : List Handle), Shaped code B (readItemsFrom n items) m := by
  have hunfinished : ∀ {α : Type} {m : Machine}, Shaped code B (stop .unfinished : Run α) m :=
    shaped_stop False.elim
  have hskip : ∀ {m}, Shaped code B skipBlank m := fun {m} =>
    shaped_modifyGet (fun hm => hm.of_eq rfl rfl) trivial
  have hpeek : ∀ {m}, Shaped code B peek m := shaped_get (shaped_pure trivial)
  have hadvance : ∀ {m}, Shaped code B advance m := fun {m} =>
    shaped_modifyGet (fun hm => hm.of_eq rfl rfl) trivial
  induction n with
  | zero => exact ⟨hunfinished, fun _ => hunfinished⟩
  | succ n ih =>
    obtain ⟨hterm, hitems⟩ := ih
    have hlist : ∀ {m} (values : List Handle), Shaped code B (makeList values) m := fun values =>
      (shaped_makeList values).imp fun _ _ _ => trivial
    constructor
    · intro m
      rw [readTermFrom]
      apply shaped_getRegisters
      split
      · exact shaped_dequeue ‹_›
      apply hskip.bind
      intro _ _ _ _
      apply hpeek.bind
      intro c _ _ _
      cases c with
      | none => exact shaped_fail id
      | some c =>
        dsimp only
        split
        · exact hadvance.bind fun _ _ => shaped_pure trivial
        split
        · exact hadvance.bind fun _ _ => (shaped_queueDirective _ _).bind fun _ _ => hterm
        split
        · exact hadvance.bind fun _ _ => (shaped_queueDirective _ _).bind fun _ _ => hterm
        split
        · apply hadvance.bind
          intro _ _ _ _
          apply Shaped.keepingRoots
          exact (hitems []).bind fun _ _ => hlist _
        split
        · apply hadvance.bind
          intro _ _ _ _
          apply shaped_takeString.bind
          intro bytes _ _ _
          exact (shaped_make (.string (.owned bytes.toArray)) trivial (by simp [Object.kind])).imp
            fun _ _ _ => trivial
        split
        · apply shaped_get
          exact hadvance.bind fun _ _ => shaped_fail id
        · exact shaped_takeWord.bind fun _ _ => shaped_scalar _
    · intro m items
      have hmore : ∀ {m'}, Shaped code B (do
          let item ← readTermFrom n
          root [item]
          readItemsFrom n (item :: items)) m' :=
        hterm.bind fun _ _ => (shaped_root _).bind fun _ _ => hitems _
      rw [readItemsFrom]
      apply shaped_getRegisters
      split
      · apply hskip.bind
        intro _ _ _ _
        apply hpeek.bind
        intro c _ _ _
        split
        · exact hadvance.bind fun _ _ => shaped_pure trivial
        · exact hmore
      · exact hmore

/-- A read leaves a machine in shape, whatever the text. -/
theorem shaped_readTerm : Shaped code B readTerm m := shaped_get (shaped_readFrom _).1

/-! ## Output -/

theorem shaped_write (pieces : List Bytes) : Shaped code B (write pieces) m := by
  have hwrite : Shaped code B (modifyGet fun m : Machine =>
      ((m.sink.writeAll pieces).1, { m with sink := (m.sink.writeAll pieces).2 })) m :=
    shaped_modifyGet (fun hm => hm.of_eq rfl rfl) trivial
  apply hwrite.bind
  intro result _ _ _
  cases result with
  | none => exact shaped_pure trivial
  | some cause => exact shaped_fail id

theorem shaped_printValue (h : Handle) : Shaped code B (printValue h) m := by
  have hprints : Shaped code B (observe (.prints h)) m fun _ n => n = m :=
    shaped_observe (fun hm => ⟨hm, nofun⟩) nofun
  apply hprints.bind
  rintro _ _ - rfl
  apply (shaped_ask fun _ reason herror => by rw [printout_error herror]; exact False.elim).bind
  exact fun _ _ => shaped_write _

end Machine

end PushLisp
