import PushLisp.Proofs.Persistence

/-!
# The roots held by operations

Operations hold values as roots while they need them, on a stack that grows from the outermost caller
inwards. Every operation leaves this stack as it found it, entry for entry, whether it answers or stops.
This is so on every machine, raw access or not, since memory has no address for the roots held.

A machine restores the roots of a scope from what they were, and a frame puts its two roots above those of
its callers. The theorems here say that neither ever has anything to repair. When a scope is left the old
roots are still there under the new ones, so that it would do to cut the stack back to its old length. And
whenever a frame replaces its roots or begins an iteration, they are the two innermost ones.

## Main definitions

* `Moment.Above`: roots that are still held at a moment, and how frames and scopes find theirs.
* `Machine.Balanced`, `Machine.Overlays`: operations that leave roots as they were, or hold more.
* `Service`: what may be asked of a machine in any state.

## Main statements

* `Machine.balanced_perform`: builtins.
* `Machine.overlays_frame`: running sequences.
* `Machine.service_balanced`: all services.
-/
namespace PushLisp

/-- Whether a step says nothing about the roots held. -/
def Step.Rootless : Step → Prop
  | .iterates .. | .replaces _ | .releases _ => False
  | _ => True

/-- A moment at which some roots are held under all others. A frame that begins an iteration or replaces
its roots finds them innermost, above those of its callers, and the callers include the roots in question. A
scope that is left finds what it is to keep under what it is to let go of. -/
structure Moment.Above (base : List Handle) (t : Moment) : Prop where
  held : base <:+ t.machine.shadow
  iterates : ∀ {callers seq env}, t.step = .iterates callers seq env →
    base <:+ callers ∧ t.machine.shadow = env :: seq :: callers
  replaces : ∀ {callers}, t.step = .replaces callers →
    base <:+ callers ∧ ∃ seq env, t.machine.shadow = env :: seq :: callers
  releases : ∀ {kept}, t.step = .releases kept → base <:+ kept ∧ kept <:+ t.machine.shadow

namespace Moment.Above

variable {base base' : List Handle} {t : Moment}

/-- Where nothing is said about the roots, they only have to be held. -/
theorem of_rootless (hstep : t.step.Rootless) (hheld : base <:+ t.machine.shadow) : t.Above base := by
  refine ⟨hheld, ?_, ?_, ?_⟩
  · intro callers seq env h
    rw [h] at hstep
    exact hstep.elim
  · intro callers h
    rw [h] at hstep
    exact hstep.elim
  · intro kept h
    rw [h] at hstep
    exact hstep.elim

/-- Some of the roots that lie under all others also lie under all others. -/
theorem of_suffix (h : t.Above base') (hsuf : base <:+ base') : t.Above base where
  held := hsuf.trans h.held
  iterates hstep := ⟨hsuf.trans (h.iterates hstep).1, (h.iterates hstep).2⟩
  replaces hstep := ⟨hsuf.trans (h.replaces hstep).1, (h.replaces hstep).2⟩
  releases hstep := ⟨hsuf.trans (h.releases hstep).1, (h.releases hstep).2⟩

end Moment.Above

/-- A moment of a frame above its callers, or of one that was opened above the frame. -/
structure Moment.Within (callers : List Handle) (t : Moment) : Prop extends t.Above callers where
  depth : ∀ {callers' seq env}, t.step = .iterates callers' seq env →
    callers' = callers ∨ callers.length + 2 ≤ callers'.length

/-- What goes on above both roots of a frame goes on two roots at least above its callers. -/
theorem Moment.Above.within {callers : List Handle} {seq env : Handle} {t : Moment}
    (h : t.Above (env :: seq :: callers)) : t.Within callers where
  toAbove := h.of_suffix (List.suffix_append [env, seq] callers)
  depth hstep := by
    have hlength := (h.iterates hstep).1.length_le
    simp only [List.length_cons] at hlength
    omega

namespace Machine

variable {α β : Type} {m : Machine} {base : List Handle}

/-- An operation leaves the roots as they were, and at all its moments they are held. -/
structure Balanced (act : Run α) (m : Machine) : Prop where
  shadow_eq : (after act m).shadow = m.shadow
  moments : ∀ t, act.passes m t → t.Above m.shadow

/-- An operation may leave more roots than there were, but at all its moments some are held. -/
structure Overlays (base : List Handle) (act : Run α) (m : Machine) : Prop where
  held : base <:+ (after act m).shadow
  moments : ∀ t, act.passes m t → t.Above base

/-- An operation that leaves the roots as they were holds all that lie under them. -/
theorem Balanced.overlays {act : Run α} (h : Balanced act m) (hbase : base <:+ m.shadow) :
    Overlays base act m where
  held := by rwa [h.shadow_eq]
  moments t ht := (h.moments t ht).of_suffix hbase

/-! ## Sequences and scopes -/

/-- Of two operations that leave the roots as they were, the second begins with the roots that the first
began with. -/
theorem Balanced.bind {x : Run α} {f : α → Run β} (hx : Balanced x m)
    (hf : ∀ {a m'}, x m = .ok a m' → Balanced (f a) m') : Balanced (x >>= f) m := by
  cases hrun : x.run m with
  | ok a m' =>
    have hshadow : m'.shadow = m.shadow := by rw [← hx.shadow_eq, after_of_ok hrun]
    obtain ⟨heq, hmoments⟩ := hf hrun
    rw [hshadow] at heq hmoments
    constructor
    · rw [after_bind_of_ok hrun, heq]
    · intro t ht
      rcases (Run.passes_bind_of_ok hrun).mp ht with ht | ht
      · exact hx.moments t ht
      · exact hmoments t ht
  | error reason m' =>
    constructor
    · rw [after_bind_of_error hrun, ← hx.shadow_eq, after_of_error hrun]
    · intro t ht
      exact hx.moments t ((Run.passes_bind_of_error hrun).mp ht)

/-- Roots are held by two operations if the second holds them wherever the first leaves off. -/
theorem Overlays.bind {x : Run α} {f : α → Run β} (hx : Overlays base x m)
    (hf : ∀ {a m'}, x m = .ok a m' → base <:+ m'.shadow → Overlays base (f a) m') :
    Overlays base (x >>= f) m := by
  cases hrun : x.run m with
  | ok a m' =>
    have hheld : base <:+ m'.shadow := by simpa only [after_of_ok hrun] using hx.held
    obtain ⟨hafter, hmoments⟩ := hf hrun hheld
    constructor
    · rwa [after_bind_of_ok hrun]
    · intro t ht
      rcases (Run.passes_bind_of_ok hrun).mp ht with ht | ht
      · exact hx.moments t ht
      · exact hmoments t ht
  | error reason m' =>
    constructor
    · rw [after_bind_of_error hrun, ← after_of_error hrun]
      exact hx.held
    · intro t ht
      exact hx.moments t ((Run.passes_bind_of_error hrun).mp ht)

/-- A scope is left with the roots that there were when it was entered. -/
theorem Overlays.keepingRoots {act : Run α} (h : Overlays m.shadow act m) :
    Balanced (keepingRoots act) m := by
  refine ⟨shadow_after_keepingRoots act m, ?_⟩
  intro t ht
  rcases ht with ht | rfl | rfl
  · exact h.moments t ht
  · refine ⟨h.held, nofun, nofun, ?_⟩
    intro kept hkept
    cases hkept
    exact ⟨List.suffix_refl _, h.held⟩
  · exact .of_rootless trivial (List.suffix_refl _)

/-- An operation that changes neither the roots nor the machine of a moment. -/
theorem balanced_of_still {act : Run α} (hafter : (after act m).shadow = m.shadow)
    (hmoments : ∀ t, act.passes m t → t.step.Rootless ∧ t.machine.shadow = m.shadow) :
    Balanced act m where
  shadow_eq := hafter
  moments t ht := by
    obtain ⟨hstep, hshadow⟩ := hmoments t ht
    apply Moment.Above.of_rootless hstep
    rw [hshadow]

theorem balanced_pure (a : α) : Balanced (pure a) m :=
  balanced_of_still rfl fun t ht => absurd ht (Run.not_passes_pure a m t)

/-- Stopping leaves the roots to the scopes that it breaks out of. -/
theorem balanced_stop (reason : Stop) : Balanced (stop reason : Run α) m := by
  apply balanced_of_still rfl
  intro t ht
  subst ht
  exact ⟨trivial, rfl⟩

theorem balanced_fail (f : Fault) : Balanced (fail f : Run α) m := balanced_stop _

/-- Observing a step does nothing, but it makes a moment, which here says nothing about roots. -/
theorem balanced_observe {step : Step} (hstep : step.Rootless) : Balanced (observe step) m := by
  apply balanced_of_still rfl
  intro t ht
  subst ht
  exact ⟨hstep, rfl⟩

/-- A question changes nothing. -/
theorem balanced_ask (question : Machine → Except Stop α) : Balanced (ask question) m := by
  apply balanced_of_still
  · rw [after_ask]
  · rintro t ⟨reason, -, rfl⟩
    exact ⟨trivial, rfl⟩

theorem balanced_get {f : Machine → Run α} (hf : Balanced (f m) m) : Balanced (get >>= f) m := by
  apply Balanced.bind (balanced_of_still rfl fun t ht => False.elim ht)
  intro a m' hrun
  cases hrun
  exact hf

/-- Reading the registers changes nothing, and what follows is given those of the machine. -/
theorem balanced_getRegisters {f : Registers → Run α} (hf : Balanced (f m.registers) m) :
    Balanced (getRegisters >>= f) m := by
  apply Balanced.bind (balanced_get (balanced_pure m.registers))
  intro a m' hrun
  cases hrun
  exact hf

theorem overlays_getRegisters {f : Registers → Run α} (hf : Overlays base (f m.registers) m) :
    Overlays base (getRegisters >>= f) m := by
  have hrun : getRegisters.run m = .ok m.registers m := rfl
  constructor
  · rw [after_bind_of_ok hrun]
    exact hf.held
  · rw [passes_getRegisters_bind]
    exact hf.moments

/-- A change that leaves the roots alone. -/
theorem balanced_modifyGet {g : Machine → α × Machine} (hg : (g m).2.shadow = m.shadow) :
    Balanced (modifyGet g) m := by
  refine balanced_of_still hg ?_
  intro t ht
  subst ht
  exact ⟨trivial, hg⟩

theorem balanced_modify {g : Machine → Machine} (hg : (g m).shadow = m.shadow) :
    Balanced (modify g) m :=
  balanced_modifyGet hg

theorem balanced_set {m' : Machine} (h : m'.shadow = m.shadow) : Balanced (set m' : Run PUnit) m := by
  refine balanced_of_still h ?_
  intro t ht
  subst ht
  exact ⟨trivial, h⟩

theorem balanced_modifyRegisters (f : Registers → Registers) : Balanced (modifyRegisters f) m :=
  balanced_modify rfl

/-- An event is written down, or is not, and the roots have no part in it. -/
theorem balanced_note (e : Event) : Balanced (note e) m := by
  apply balanced_modify
  split <;> rfl

/-- Catching a failure does not touch the roots. They are as they were because the operation saw to it. -/
theorem Balanced.attempt {act : Run α} (h : Balanced act m) : Balanced (attempt act) m where
  shadow_eq := by rw [after_attempt, h.shadow_eq]
  moments := h.moments

/-- Roots that are added lie above the others. -/
theorem overlays_root (hs : List Handle) (hbase : base <:+ m.shadow) : Overlays base (root hs) m where
  held := hbase.trans (List.suffix_append hs _)
  moments t ht := by
    subst ht
    exact .of_rootless trivial (hbase.trans (List.suffix_append hs _))

/-- Holding further roots during an operation is a scope of its own. -/
theorem balanced_withRoots {hs : List Handle} {act : Run α} (hact : ∀ {m}, Balanced act m) :
    Balanced (withRoots hs act) m := by
  apply Overlays.keepingRoots
  apply (overlays_root hs (List.suffix_refl _)).bind
  intro _ m' _ hheld
  exact hact.overlays hheld

/-! ## Objects and lists -/

/-- A collection reads the roots and leaves them. -/
theorem balanced_collect : Balanced collect m := by
  refine Balanced.bind (balanced_observe trivial) ?_
  intro _ _ _
  apply (balanced_modifyGet rfl).bind
  intro _ _ _
  exact balanced_get ((balanced_note _).bind fun _ => balanced_pure _)

theorem balanced_tryAllocate (o : Object) : Balanced (tryAllocate o) m := by
  apply balanced_of_still
  · simp only [after, tryAllocate]
    cases m.heap.findFree? <;> rfl
  · rintro t ⟨i, -, rfl | rfl⟩
    · exact ⟨trivial, rfl⟩
    · exact ⟨trivial, rfl⟩

/-- An allocation holds what the new object leads to during a collection, and no longer. -/
theorem balanced_allocate (o : Object) : Balanced (allocate o) m := by
  apply (balanced_tryAllocate o).bind
  intro placed _ _
  cases placed with
  | some h => exact balanced_pure h
  | none =>
    apply (balanced_withRoots balanced_collect).bind
    intro _ _ _
    apply (balanced_tryAllocate o).bind
    intro placed _ _
    cases placed with
    | some h => exact balanced_pure h
    | none => exact balanced_get (balanced_fail _)

theorem balanced_makePair (car cdr : Handle) : Balanced (makePair car cdr) m := balanced_allocate _

theorem balanced_makeNumber (n : Int64) : Balanced (makeNumber n) m := balanced_allocate _

theorem balanced_consAll (list : Handle) (values : List Handle) : Balanced (consAll list values) m := by
  induction values generalizing list m with
  | nil => exact balanced_pure list
  | cons v rest ih => exact (balanced_makePair v list).bind fun _ => ih _

/-- The values of a list are held while it is made. -/
theorem balanced_makeList (values : List Handle) : Balanced (makeList values) m :=
  balanced_withRoots (balanced_consAll _ _)

/-! ## The value stack -/

theorem balanced_push (value : Handle) : Balanced (push value) m :=
  balanced_getRegisters ((balanced_makePair _ _).bind fun _ => balanced_modifyRegisters _)

/-- Nothing is held on behalf of the value stack, which is a register. -/
theorem balanced_tryPop : Balanced tryPop m := by
  apply balanced_getRegisters
  dsimp only
  split
  · exact balanced_pure none
  · apply (balanced_ask _).bind
    intro _ _ _
    apply (balanced_ask _).bind
    intro _ _ _
    exact (balanced_modifyRegisters _).bind fun _ => balanced_pure _

theorem balanced_pop : Balanced pop m := by
  apply balanced_tryPop.bind
  intro top _ _
  cases top with
  | some value => exact balanced_pure value
  | none => exact balanced_fail _

/-- Something is popped, looked at, and then the rest. -/
theorem balanced_popUsing {f : Handle → Run α} (hf : ∀ {value m}, Balanced (f value) m) :
    Balanced (do
      let value ← pop
      observe (.uses [value])
      f value) m :=
  balanced_pop.bind fun _ => Balanced.bind (balanced_observe trivial) fun _ => hf

theorem balanced_popNumber : Balanced popNumber m :=
  balanced_popUsing (balanced_get (balanced_pure _))

theorem balanced_pushNumber (n : Int64) : Balanced (pushNumber n) m :=
  (balanced_makeNumber n).bind fun _ => balanced_push _

/-! ## Atoms and environments -/

/-- An atom that is made is kept by the registry. -/
theorem balanced_intern (spelling : Bytes) : Balanced (intern spelling) m := by
  apply (balanced_ask _).bind
  intro found _ _
  cases found with
  | some atom => exact balanced_pure atom
  | none =>
    apply (balanced_allocate _).bind
    intro _ _ _
    apply balanced_getRegisters
    apply (balanced_makePair _ _).bind
    intro _ _ _
    exact (balanced_modifyRegisters _).bind fun _ => balanced_pure _

/-- The environment is held while the binding is made, and the binding is part of what is made next. -/
theorem balanced_define (env key value : Handle) : Balanced (define env key value) m :=
  (balanced_withRoots (balanced_makePair key value)).bind fun _ => balanced_makePair _ env

theorem balanced_definePrimitive (env : Handle) (p : Primitive) :
    Balanced (definePrimitive env p) m := by
  apply (balanced_intern _).bind
  intro _ _ _
  apply (balanced_withRoots (balanced_allocate _)).bind
  intro _ _ _
  exact balanced_define _ _ _

/-! ## Reading -/

/-- A word gives a number or an atom. -/
theorem balanced_scalar (word : Bytes) : Balanced (scalar word) m := by
  unfold scalar
  split
  · exact balanced_makeNumber _
  · exact balanced_intern word

/-- A term that is taken off the queue is handed out, and not held. -/
theorem balanced_dequeue (queue : Handle) : Balanced (dequeue queue) m :=
  (balanced_ask _).bind fun _ => (balanced_modifyRegisters _).bind fun _ => balanced_ask _

theorem balanced_takeWord : Balanced takeWord m := balanced_modifyGet rfl

/-- A string that does not end is a failure like any other. -/
theorem balanced_takeString : Balanced takeString m := by
  apply (balanced_modifyGet rfl).bind
  intro result _ _
  cases result with
  | ok bytes => exact balanced_pure bytes
  | error f => exact balanced_fail f

/-- The terms of a directive are kept by the queue. -/
theorem balanced_queueDirective (sign : UInt8) (op : Registers → Handle) :
    Balanced (queueDirective sign op) m := by
  apply balanced_takeWord.bind
  intro word _ _
  dsimp only
  split
  · exact (balanced_fail _).bind fun h => nomatch h
  · apply (balanced_scalar _).bind
    intro _ _ _
    apply balanced_getRegisters
    exact (balanced_makeList _).bind fun _ => balanced_modifyRegisters _

/-- Terms leave the roots as they were, and the items of a list hold more. The induction is on the bound, for
both at once since each calls the other. -/
theorem balanced_readFrom (n : ℕ) :
    (∀ {m}, Balanced (readTermFrom n) m) ∧
      ∀ {m base} (items : List Handle), base <:+ m.shadow → Overlays base (readItemsFrom n items) m := by
  induction n with
  | zero => exact ⟨balanced_stop _, fun _ hbase => (balanced_stop _).overlays hbase⟩
  | succ n ih =>
    obtain ⟨hterm, hitems⟩ := ih
    have hskip : ∀ {m}, Balanced skipBlank m := balanced_modify rfl
    have hpeek : ∀ {m}, Balanced peek m := balanced_get (balanced_pure _)
    have hadvance : ∀ {m}, Balanced advance m := balanced_modify rfl
    constructor
    · intro m
      rw [readTermFrom]
      apply balanced_getRegisters
      split
      · exact balanced_dequeue _
      apply hskip.bind
      intro _ _ _
      apply hpeek.bind
      intro c _ _
      cases c with
      | none => exact balanced_fail _
      | some c =>
        dsimp only
        split
        · exact hadvance.bind fun _ => balanced_pure _
        split
        · exact hadvance.bind fun _ => (balanced_queueDirective _ _).bind fun _ => hterm
        split
        · exact hadvance.bind fun _ => (balanced_queueDirective _ _).bind fun _ => hterm
        split
        · apply hadvance.bind
          intro _ m' _
          apply Overlays.keepingRoots
          apply (hitems [] (List.suffix_refl _)).bind
          intro values _ _ hheld
          exact (balanced_makeList values).overlays hheld
        split
        · exact hadvance.bind fun _ => balanced_takeString.bind fun _ => balanced_allocate _
        split
        · exact balanced_get (hadvance.bind fun _ => balanced_fail _)
        · exact balanced_takeWord.bind fun _ => balanced_scalar _
    · intro m base items hbase
      have hmore : ∀ {m'}, base <:+ m'.shadow → Overlays base (do
          let item ← readTermFrom n
          root [item]
          readItemsFrom n (item :: items)) m' := by
        intro m' hbase
        apply (hterm.overlays hbase).bind
        intro item _ _ hbase
        apply (overlays_root [item] hbase).bind
        intro _ _ _ hbase
        exact hitems (item :: items) hbase
      rw [readItemsFrom]
      apply overlays_getRegisters
      split
      · apply (hskip.overlays hbase).bind
        intro _ _ _ hbase
        apply (hpeek.overlays hbase).bind
        intro c _ _ hbase
        split
        · exact (hadvance.overlays hbase).bind fun _ hbase => (balanced_pure _).overlays hbase
        · exact hmore hbase
      · exact hmore hbase

/-- A read leaves the roots as they were, also one that fails in the middle of lists. -/
theorem balanced_readTerm : Balanced readTerm m := balanced_get (balanced_readFrom _).1

/-! ## Builtins -/

theorem balanced_write (pieces : List Bytes) : Balanced (write pieces) m := by
  apply (balanced_modifyGet rfl).bind
  intro result _ _
  cases result with
  | none => exact balanced_pure ()
  | some cause => exact balanced_fail _

/-- Printing follows references without holding anything. -/
theorem balanced_printValue (h : Handle) : Balanced (printValue h) m := by
  refine Balanced.bind (balanced_observe trivial) ?_
  intro _ _ _
  exact (balanced_ask _).bind fun _ => balanced_write _

theorem balanced_arithmetic (f : Int64 → Int64 → Int64) : Balanced (arithmetic f) m :=
  balanced_popNumber.bind fun _ => balanced_popNumber.bind fun _ => balanced_pushNumber _

theorem balanced_pushBound (env : Handle) : Balanced (pushBound env) m :=
  balanced_popUsing ((balanced_ask _).bind fun _ => balanced_push _)

/-- The value that is bound is off the stack by then. The definition holds it. -/
theorem balanced_popBound (env : Handle) : Balanced (popBound env) m :=
  balanced_pop.bind fun _ => balanced_pop.bind fun _ => balanced_define env _ _

theorem balanced_consPair : Balanced consPair m :=
  balanced_pop.bind fun _ => balanced_pop.bind fun _ =>
    (balanced_makePair _ _).bind fun _ => balanced_push _

theorem balanced_compareTop : Balanced compareTop m := by
  apply balanced_pop.bind
  intro _ _ _
  apply balanced_pop.bind
  intro _ _ _
  refine Balanced.bind (balanced_observe trivial) ?_
  intro _ _ _
  exact balanced_get (balanced_push _)

/-- The second operand is held while the first is put back. -/
theorem balanced_swapIf : Balanced swapIf m := by
  apply balanced_pop.bind
  intro _ _ _
  apply balanced_getRegisters
  split
  · apply balanced_pop.bind
    intro _ _ _
    apply balanced_pop.bind
    intro _ _ _
    exact (balanced_withRoots (balanced_push _)).bind fun _ => balanced_push _
  · exact balanced_pure _

theorem balanced_kindCode : Balanced kindCode m := by
  apply balanced_popUsing
  intro _ _
  apply balanced_get
  split
  · exact balanced_pushNumber _
  · exact balanced_get (balanced_stop _)

theorem balanced_newString : Balanced newString m := by
  apply balanced_popNumber.bind
  intro length _ _
  split
  · exact balanced_fail _
  · apply balanced_get
    split
    · exact (balanced_allocate _).bind fun _ => balanced_push _
    · exact balanced_fail _

theorem balanced_peekString : Balanced peekString m := by
  apply balanced_popNumber.bind
  intro _ _ _
  apply balanced_popUsing
  intro _ _
  apply balanced_get
  split
  · exact balanced_pushNumber _
  · exact balanced_stop _

/-- No address leads to the roots held. -/
theorem shadow_setWord (m : Machine) (l : Location) (word : UInt64) :
    (m.setWord l word).shadow = m.shadow := by
  cases l <;> rfl

/-- Neither do many stores. The induction is on the bytes. -/
theorem shadow_storeBytes (m : Machine) (address : UInt64) (bytes : Bytes) :
    (ByteMemory.storeBytes m address bytes).shadow = m.shadow := by
  induction bytes generalizing m address with
  | nil => rfl
  | cons b rest ih =>
    rw [ByteMemory.storeBytes, ih]
    exact shadow_setWord m _ _

/-- Nor does a store through a string, be it to its own bytes or to memory. -/
theorem shadow_pokeBuffer (m : Machine) (string : Handle) (buffer : Buffer) (offset : ℕ) (byte : UInt8) :
    (m.pokeBuffer string buffer offset byte).shadow = m.shadow := by
  cases buffer with
  | owned bytes => rfl
  | view address length =>
    by_cases hlt : offset < length
    · simp only [pokeBuffer, Buffer.set, if_pos hlt]
      exact shadow_setWord m _ _
    · simp only [pokeBuffer, Buffer.set, if_neg hlt]

theorem balanced_pokeString : Balanced pokeString m := by
  apply balanced_popNumber.bind
  intro _ _ _
  apply balanced_popNumber.bind
  intro _ _ _
  apply balanced_popUsing
  intro _ _
  apply balanced_get
  split
  · split
    · exact balanced_set (shadow_pokeBuffer _ _ _ _ _)
    · exact balanced_pure _
  · exact balanced_stop _

theorem balanced_loadWord : Balanced loadWord m :=
  balanced_popNumber.bind fun _ => balanced_get (balanced_pushNumber _)

theorem balanced_storeWord : Balanced storeWord m := by
  apply balanced_popNumber.bind
  intro _ _ _
  apply balanced_popNumber.bind
  intro _ _ _
  exact balanced_modify (shadow_storeBytes _ _ _)

theorem balanced_viewMemory : Balanced viewMemory m := by
  apply balanced_popNumber.bind
  intro _ _ _
  apply balanced_popNumber.bind
  intro _ _ _
  split
  · exact balanced_fail _
  · exact (balanced_allocate _).bind fun _ => balanced_push _

/-- Every builtin leaves the roots as they were, those with raw access too. -/
theorem balanced_effect (b : Builtin) (env : Handle) : Balanced (effect b env) m := by
  have hlast : ∀ {act : Run Unit}, Balanced act m → Balanced (do act; return env) m := by
    intro act hact
    exact hact.bind fun _ => balanced_pure env
  have hpart : ∀ question : Handle → Machine → Except Stop Handle, Balanced (do
      let pair ← pop
      observe (.uses [pair])
      push (← ask (question pair))
      return env) m := by
    intro question
    exact balanced_popUsing ((balanced_ask _).bind fun _ => (balanced_push _).bind fun _ => balanced_pure env)
  cases b with
  | push => exact hlast (balanced_pushBound env)
  | pop => exact balanced_popBound env
  | cons => exact hlast balanced_consPair
  | car => exact hpart car
  | cdr => exact hpart cdr
  | eq => exact hlast balanced_compareTop
  | cswap => exact hlast balanced_swapIf
  | tag => exact hlast balanced_kindCode
  | read => exact balanced_readTerm.bind fun _ => (balanced_push _).bind fun _ => balanced_pure env
  | print => exact balanced_pop.bind fun _ => (balanced_printValue _).bind fun _ => balanced_pure env
  | stack => exact balanced_getRegisters (hlast (balanced_push _))
  | env => exact hlast (balanced_push env)
  | sub | mul | nand | shiftLeft | shiftRight => exact hlast (balanced_arithmetic _)
  | makeString => exact hlast balanced_newString
  | stringPeek => exact hlast balanced_peekString
  | stringPoke => exact hlast balanced_pokeString
  | gc => exact balanced_collect.bind fun _ => balanced_pure env
  | stateAddress => exact balanced_get (hlast (balanced_pushNumber _))
  | readWord => exact hlast balanced_loadWord
  | writeWord => exact hlast balanced_storeWord
  | objectOfHandle => exact balanced_popNumber.bind fun _ => (balanced_push _).bind fun _ => balanced_pure env
  | handleOfObject => exact balanced_pop.bind fun _ => (balanced_pushNumber _).bind fun _ => balanced_pure env
  | memoryView => exact hlast balanced_viewMemory

/-- The call is observed first. -/
theorem balanced_perform (b : Builtin) (env : Handle) : Balanced (perform b env) m :=
  Balanced.bind (balanced_observe trivial) fun _ => balanced_effect b env

/-! ## Sequences -/

theorem balanced_traceSequence (seq : Handle) : Balanced (traceSequence seq) m := by
  apply balanced_get
  split
  · refine Balanced.bind (balanced_observe trivial) ?_
    intro _ _ _
    exact (balanced_ask _).bind fun _ => (balanced_ask _).bind fun _ => balanced_note _
  · exact balanced_pure _

/-- Tracing renders what is there, and notes it. -/
theorem balanced_traceTerm (term : Handle) : Balanced (traceTerm term) m := by
  apply balanced_get
  split
  · refine Balanced.bind (balanced_observe trivial) ?_
    intro _ _ _
    exact (balanced_ask _).bind fun _ => balanced_note _
  · exact balanced_pure _

/-- Evaluating a term leaves the roots as they were, if calls do. -/
theorem balanced_evaluateWith {call : Handle → Handle → Run Unit}
    (hcall : ∀ {m} body captured, Balanced (call body captured) m) (term env : Handle) :
    Balanced (evaluateWith call term env) m := by
  apply (balanced_traceTerm term).bind
  intro _ _ _
  apply balanced_get
  split
  · apply (balanced_ask _).bind
    intro _ _ _
    apply balanced_get
    split
    · exact (hcall _ _).bind fun _ => balanced_pure env
    · exact balanced_perform _ env
    · exact (balanced_push _).bind fun _ => balanced_pure env
  · exact (balanced_allocate _).bind fun _ => (balanced_push _).bind fun _ => balanced_pure env
  · exact (balanced_allocate _).bind fun _ => (balanced_push _).bind fun _ => balanced_pure env
  · exact (balanced_push _).bind fun _ => balanced_pure env

/-- Part of the run of a frame: the roots of its callers are held at all moments. -/
structure Framed (callers : List Handle) (act : Run α) (m : Machine) : Prop where
  held : callers <:+ (after act m).shadow
  moments : ∀ t, act.passes m t → t.Within callers

section Frames

variable {callers : List Handle} {seq env : Handle}

/-- An operation of a frame that leaves the roots as they were is part of its run. -/
theorem Balanced.framed {act : Run α} (h : Balanced act m) (hshadow : m.shadow = env :: seq :: callers) :
    Framed callers act m where
  held := by
    rw [h.shadow_eq, hshadow]
    exact List.suffix_append [env, seq] callers
  moments t ht := by
    have habove := h.moments t ht
    rw [hshadow] at habove
    exact habove.within

/-- A frame goes on after an operation that leaves the roots as they were. -/
theorem Framed.bind {x : Run α} {f : α → Run β} (hx : Balanced x m)
    (hshadow : m.shadow = env :: seq :: callers)
    (hf : ∀ {a m'}, x m = .ok a m' → m'.shadow = env :: seq :: callers → Framed callers (f a) m') :
    Framed callers (x >>= f) m := by
  have hfirst := hx.framed hshadow
  cases hrun : x.run m with
  | ok a m' =>
    have hshadow' : m'.shadow = env :: seq :: callers := by
      rw [← hshadow, ← hx.shadow_eq, after_of_ok hrun]
    constructor
    · rw [after_bind_of_ok hrun]
      exact (hf hrun hshadow').held
    · intro t ht
      rcases (Run.passes_bind_of_ok hrun).mp ht with ht | ht
      · exact hfirst.moments t ht
      · exact (hf hrun hshadow').moments t ht
  | error reason m' =>
    constructor
    · rw [after_bind_of_error hrun, ← after_of_error hrun]
      exact hfirst.held
    · intro t ht
      exact hfirst.moments t ((Run.passes_bind_of_error hrun).mp ht)

/-- Part of a run may begin with reading the registers. -/
theorem framed_getRegisters {f : Registers → Run α} (hf : Framed callers (f m.registers) m) :
    Framed callers (getRegisters >>= f) m := by
  have hrun : getRegisters.run m = .ok m.registers m := rfl
  constructor
  · rw [after_bind_of_ok hrun]
    exact hf.held
  · rw [passes_getRegisters_bind]
    exact hf.moments

/-- A frame finds its roots innermost when it begins an iteration. -/
theorem framed_iterates {f : Unit → Run β} (hshadow : m.shadow = env :: seq :: callers)
    (hf : Framed callers (f ()) m) : Framed callers (observe (.iterates callers seq env) >>= f) m := by
  have hrun : (observe (.iterates callers seq env)).run m = .ok () m := rfl
  have hheld : callers <:+ m.shadow := by
    rw [hshadow]
    exact List.suffix_append [env, seq] callers
  constructor
  · rw [after_bind_of_ok hrun]
    exact hf.held
  · intro t ht
    rcases (Run.passes_bind_of_ok hrun).mp ht with rfl | ht
    · refine ⟨⟨hheld, ?_, nofun, nofun⟩, ?_⟩
      · intro callers' seq' env' hstep
        cases hstep
        exact ⟨List.suffix_refl _, hshadow⟩
      · intro callers' seq' env' hstep
        cases hstep
        exact .inl rfl
    · exact hf.moments t ht

/-- A frame finds its roots innermost when it replaces them. -/
theorem framed_holdFrame {seq' env' : Handle} {f : Unit → Run β}
    (hshadow : m.shadow = env :: seq :: callers)
    (hf : ∀ {m'}, m'.shadow = env' :: seq' :: callers → Framed callers (f ()) m') :
    Framed callers (holdFrame callers seq' env' >>= f) m := by
  have hnext : Framed callers (f ()) { m with shadow := env' :: seq' :: callers } := hf rfl
  have hrun : (holdFrame callers seq' env').run m =
      .ok () { m with shadow := env' :: seq' :: callers } := rfl
  have hheld : callers <:+ m.shadow := by
    rw [hshadow]
    exact List.suffix_append [env, seq] callers
  constructor
  · rw [after_bind_of_ok hrun]
    exact hnext.held
  · intro t ht
    rcases (Run.passes_bind_of_ok hrun).mp ht with ht | ht
    · rcases passes_holdFrame.mp ht with rfl | rfl
      · refine ⟨⟨hheld, nofun, ?_, nofun⟩, nofun⟩
        intro callers' hstep
        cases hstep
        exact ⟨List.suffix_refl _, seq, env, hshadow⟩
      · exact ⟨.of_rootless trivial (List.suffix_append [env', seq'] callers), nofun⟩
    · exact hnext.moments t ht

/-- A frame that is opened is closed again, and the roots are as they were. -/
theorem balanced_enter {run : List Handle → Run Unit}
    (hrun : ∀ {m'}, m'.shadow = env :: seq :: m.shadow → Framed m.shadow (run m.shadow) m') :
    Balanced (enter run seq env) m ∧ ∀ t, (enter run seq env).passes m t → t.Within m.shadow := by
  have hopen : (root [env, seq]).run m = .ok () { m with shadow := env :: seq :: m.shadow } := rfl
  have hframe := hrun (show { m with shadow := env :: seq :: m.shadow }.shadow = _ from rfl)
  have hbody : Framed m.shadow (get >>= fun n : Machine => root [env, seq] >>= fun _ => run n.shadow) m := by
    constructor
    · rw [after_bind_of_ok rfl, after_bind_of_ok hopen]
      exact hframe.held
    · intro t ht
      rw [Run.passes_get_bind] at ht
      rcases (Run.passes_bind_of_ok hopen).mp ht with rfl | ht
      · exact ⟨.of_rootless trivial (List.suffix_append [env, seq] _), nofun⟩
      · exact hframe.moments t ht
  have hscope := Overlays.keepingRoots ⟨hbody.held, fun t ht => (hbody.moments t ht).toAbove⟩
  refine ⟨hscope, ?_⟩
  intro t ht
  rcases ht with ht | ht | ht
  · exact hbody.moments t ht
  · exact ⟨hscope.moments t (.inr (.inl ht)), by rw [ht]; nofun⟩
  · exact ⟨hscope.moments t (.inr (.inr ht)), by rw [ht]; nofun⟩

/-- Running what is left of a sequence. The induction is on the bound, over all callers at once: a call that
is not the last of its sequence opens a frame above the current one. -/
theorem framed_frame (bound : ℕ) (hshadow : m.shadow = env :: seq :: callers) :
    Framed callers (frame bound callers seq env) m := by
  induction bound generalizing callers seq env m with
  | zero =>
    rw [frame]
    exact (balanced_stop _).framed hshadow
  | succ bound ih =>
    rw [frame]
    apply framed_iterates hshadow
    apply framed_getRegisters
    split
    · exact (balanced_pure _).framed hshadow
    apply Framed.bind (balanced_traceSequence seq) hshadow
    intro _ _ _ hshadow
    apply Framed.bind (balanced_ask _) hshadow
    intro term _ _ hshadow
    apply Framed.bind (balanced_ask _) hshadow
    intro rest _ _ hshadow
    apply framed_holdFrame hshadow
    intro _ hshadow
    apply framed_getRegisters
    split
    · split
      · exact Framed.bind (balanced_fail _) hshadow fun h => nomatch h
      · apply Framed.bind (balanced_ask _) hshadow
        intro literal _ _ hshadow
        apply Framed.bind (balanced_ask _) hshadow
        intro rest _ _ hshadow
        apply framed_holdFrame hshadow
        intro _ hshadow
        exact Framed.bind (balanced_push literal) hshadow fun _ hshadow => ih hshadow
    · apply Framed.bind (balanced_ask _) hshadow
      intro callee _ _ hshadow
      cases callee with
      | some callee => exact framed_holdFrame hshadow fun hshadow => ih hshadow
      | none =>
        have hcall : ∀ {m : Machine} (body captured : Handle),
            Balanced (enter (fun callers => frame bound callers body captured) body captured) m := by
          intro m body captured
          exact (balanced_enter fun hshadow => ih hshadow).1
        apply Framed.bind (balanced_evaluateWith hcall term env) hshadow
        intro env _ _ hshadow
        exact framed_holdFrame hshadow fun hshadow => ih hshadow

/-- Running a sequence leaves the roots as they were, and is above the roots it found all along. -/
theorem balanced_compute (bound : ℕ) (seq env : Handle) :
    Balanced (compute bound seq env) m ∧ ∀ t, (compute bound seq env).passes m t → t.Within m.shadow :=
  balanced_enter fun hshadow => framed_frame bound hshadow

end Frames

theorem balanced_evaluate (bound : ℕ) (term env : Handle) : Balanced (evaluate bound term env) m :=
  balanced_evaluateWith (fun body captured => (balanced_compute bound body captured).1) term env

/-- A closure that is forced is off the stack by then. Its run holds what it needs. -/
theorem balanced_force (bound : ℕ) : Balanced (force bound) m := by
  apply balanced_popUsing
  intro _ _
  apply balanced_get
  split
  · exact (balanced_compute bound _ _).1
  · exact balanced_get (balanced_stop _)

/-- The output is passed on after the roots are as they were. -/
theorem balanced_passOn (ended : Except Stop Unit) : Balanced (passOn ended) m := by
  unfold passOn
  split
  · exact balanced_stop _
  · apply balanced_get
    split
    · exact balanced_fail _
    · exact balanced_pure ()
    · exact balanced_stop _

/-- A program is kept by its register while it runs. -/
theorem balanced_runNext (bound : ℕ) : Balanced (runNext bound) m := by
  apply balanced_readTerm.bind
  intro _ _ _
  apply (balanced_modifyRegisters _).bind
  intro _ _ _
  apply balanced_getRegisters
  exact (balanced_compute bound _ _).1.attempt.bind fun _ => balanced_passOn _

end Machine

/-! ## Services -/

/-- What may be asked of a machine, in any state and with any handles. -/
inductive Service where
  | allocate (o : Object)
  | makeList (values : List Handle)
  | define (env key value : Handle)
  | definePrimitive (env : Handle) (p : Primitive)
  | intern (spelling : Bytes)
  | read
  | evaluate (bound : ℕ) (term env : Handle)
  | compute (bound : ℕ) (seq env : Handle)
  | force (bound : ℕ)
  | run (bound : ℕ)
  | perform (b : Builtin) (env : Handle)
  deriving Repr

/-- The service on a machine, whatever it answers. -/
def Service.act : Service → Run Unit
  | allocate o => do let _ ← Machine.allocate o
  | makeList values => do let _ ← Machine.makeList values
  | define env key value => do let _ ← Machine.define env key value
  | definePrimitive env p => do let _ ← Machine.definePrimitive env p
  | intern spelling => do let _ ← Machine.intern spelling
  | read => do let _ ← Machine.readTerm
  | evaluate bound term env => do let _ ← Machine.evaluate bound term env
  | compute bound seq env => Machine.compute bound seq env
  | force bound => Machine.force bound
  | run bound => Machine.runNext bound
  | perform b env => do let _ ← Machine.perform b env

namespace Machine

variable {m : Machine}

/-- Each service leaves the roots as they were. -/
theorem balanced_act (service : Service) : Balanced service.act m := by
  have hunit : ∀ {α : Type} {act : Run α}, Balanced act m → Balanced (do let _ ← act) m := by
    intro α act hact
    exact hact.bind fun _ => balanced_pure _
  cases service with
  | allocate o => exact hunit (balanced_allocate o)
  | makeList values => exact hunit (balanced_makeList values)
  | define env key value => exact hunit (balanced_define env key value)
  | definePrimitive env p => exact hunit (balanced_definePrimitive env p)
  | intern spelling => exact hunit (balanced_intern spelling)
  | read => exact hunit balanced_readTerm
  | evaluate bound term env => exact hunit (balanced_evaluate bound term env)
  | compute bound seq env => exact (balanced_compute bound seq env).1
  | force bound => exact balanced_force bound
  | run bound => exact balanced_runNext bound
  | perform b env => exact hunit (balanced_perform b env)

/-- The root in a slot of the stack of roots, the outermost being in slot zero. -/
def slot? (m : Machine) (i : ℕ) : Option Handle := m.shadow.reverse[i]?

/-- The two roots of a frame are in the two slots above those of its callers. -/
theorem slots_of_frame {callers : List Handle} {seq env : Handle} (h : m.shadow = env :: seq :: callers) :
    m.shadow.length = callers.length + 2 ∧ m.slot? callers.length = some seq ∧
      m.slot? (callers.length + 1) = some env := by
  refine ⟨by simp [h], ?_, ?_⟩
  · simp [slot?, h]
  · simp [slot?, h]

/-- Every service leaves the roots as they were on every machine, however it ends. At all its moments these
roots lie under all others, and a scope that is left may as well cut the stack of roots back to the length
that it had. A frame whose callers hold `n` roots has its sequence and its environment in slots `n` and
`n + 1`, the last ones, whenever it begins an iteration or replaces them. All iterations of a frame are at
the same depth, tail calls included. -/
theorem service_balanced (m : Machine) :
    (∀ service : Service, (after service.act m).shadow = m.shadow ∧
      ∀ t, service.act.passes m t → m.shadow <:+ t.machine.shadow ∧
        (∀ kept, t.step = .releases kept →
          t.machine.shadow.drop (t.machine.shadow.length - kept.length) = kept) ∧
        (∀ callers, t.step = .replaces callers → ∃ seq env, t.machine.shadow = env :: seq :: callers) ∧
        ∀ callers seq env, t.step = .iterates callers seq env →
          t.machine.shadow.length = callers.length + 2 ∧ t.machine.slot? callers.length = some seq ∧
            t.machine.slot? (callers.length + 1) = some env) ∧
      ∀ bound seq env t callers seq' env', (compute bound seq env).passes m t →
        t.step = .iterates callers seq' env' →
          callers = m.shadow ∨ m.shadow.length + 2 ≤ callers.length := by
  constructor
  · intro service
    have hbalanced := balanced_act (m := m) service
    refine ⟨hbalanced.shadow_eq, ?_⟩
    intro t ht
    have habove := hbalanced.moments t ht
    refine ⟨habove.held, ?_, ?_, ?_⟩
    · intro kept hstep
      exact (List.suffix_iff_eq_drop.mp (habove.releases hstep).2).symm
    · intro callers hstep
      exact (habove.replaces hstep).2
    · intro callers seq env hstep
      exact slots_of_frame (habove.iterates hstep).2
  · intro bound seq env t callers seq' env' ht hstep
    exact ((balanced_compute bound seq env).2 t ht).depth hstep

end Machine

end PushLisp
