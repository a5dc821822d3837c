import PushLisp.Proofs.ReadRules
import PushLisp.Proofs.Startup
import PushLisp.Proofs.Terms

/-!
# What operations leave as it is

Objects are made and dropped, but what an operation has no business with stays as it was: whatever can be
reached from the roots held when it began and from the registers that are set once. This needs no knowledge
of the handles that the operation works on. It holds at every moment at which the operation may stop, and
so does not depend on how it ends.

The registry is the one structure that grows in place, always at its front. Its atoms stay, and keep their
spellings, which are all different.

## Main definitions

* `Object.Resembles`: two contents of a slot that differ at most in the bytes of a string.
* `Machine.Ready`: a machine on which operations can be relied on.
* `Machine.Lasts`: a later machine has left alone what it should.
* `Machine.Lasting`: an operation does so from some machine on.

## Main statements

* `Machine.Lasting.bind`, `Machine.Lasting.keepingRoots`: how the property is carried along.
* `Machine.lasting_allocate`, `Machine.intern_cases`: what makes objects and atoms.
* `Machine.lasting_readTerm`: reading.
-/
namespace PushLisp

namespace Object

/-- What may become of an object that is left alone: nothing, except that the bytes of a string may be
overwritten if `poking` holds. -/
inductive Resembles (poking : Prop) : Object → Object → Prop
  | refl (o : Object) : Resembles poking o o
  | poked {bytes bytes' : Array UInt8} : poking → bytes'.size = bytes.size →
      Resembles poking (.string (.owned bytes)) (.string (.owned bytes'))

namespace Resembles

variable {poking : Prop} {o o' o'' : Object}

theorem trans (h : o.Resembles poking o') (h' : o'.Resembles poking o'') : o.Resembles poking o'' := by
  cases h with
  | refl => exact h'
  | poked hpoking hsize =>
    cases h' with
    | refl => exact .poked hpoking hsize
    | poked _ hsize' => exact .poked hpoking (hsize'.trans hsize)

theorem references_eq (h : o.Resembles poking o') : o'.references = o.references := by
  cases h <;> rfl

/-- Only strings change. -/
theorem eq_of_ne_string (h : o.Resembles poking o') (hkind : o.kind ≠ .string) : o' = o := by
  cases h with
  | refl => rfl
  | poked => exact absurd rfl hkind

theorem eq_of_not_poking (h : o.Resembles False o') : o' = o := by
  cases h with
  | refl => rfl
  | poked hpoking => exact hpoking.elim

end Resembles

/-- An object that gives no access to raw memory. -/
def Plain : Object → Prop
  | .primitive p => p.action.isRaw = false
  | .string (.view _ _) => False
  | _ => True

end Object

/-- The registers that are set when a machine is set up, and never again. -/
def Registers.constants (r : Registers) : List Handle :=
  [r.nil, r.atomTrue, r.atomQuote, r.atomPush, r.atomPop, r.env]

namespace Source

/-- The length of the text that a source is the rest of. -/
def extent (s : Source) : ℕ := s.position + s.rest.length

theorem extent_skipBlank (s : Source) : s.skipBlank.extent = s.extent :=
  skipBlankFrom_position false s.position s.rest

theorem extent_advance (s : Source) : s.advance.extent = s.extent := by
  rw [advance]
  cases hrest : s.rest with
  | nil => simp only [extent, hrest]
  | cons c rest =>
    simp only [extent, hrest, List.length_cons]
    omega

theorem extent_scanWord (s : Source) : s.scanWord.2.extent = s.extent := by
  have hlen := congrArg List.length s.scanWord_append
  simp only [scanWord, List.length_append] at hlen
  simp only [scanWord, extent]
  omega

theorem extent_scanStringFrom (position : ℕ) (decoded s : Bytes) :
    (scanStringFrom position decoded s).2.extent = position + s.length := by
  fun_induction scanStringFrom position decoded s <;>
    simp_all only [extent, List.length_cons, List.length_nil] <;> omega

end Source

namespace Machine

variable {α β : Type} {poking : Prop} {base : List Handle} {m m' m'' : Machine} {h : Handle}

/-! ## The machine left behind -/

theorem after_of_ok {act : Run α} {a : α} (hrun : act m = .ok a m') : after act m = m' := by
  simp only [after, hrun]

theorem after_of_error {act : Run α} {reason : Stop} (hrun : act m = .error reason m') :
    after act m = m' := by
  simp only [after, hrun]

theorem after_eq_of_run_eq {act act' : Run α} (hrun : act m = act' m') : after act m = after act' m' := by
  simp only [after, hrun]

theorem after_bind_of_ok {x : Run α} {f : α → Run β} {a : α} (hrun : x m = .ok a m') :
    after (x >>= f) m = after (f a) m' := by
  simp only [after, Run.run_bind_of_ok hrun]

theorem after_bind_of_error {x : Run α} {f : α → Run β} {reason : Stop} (hrun : x m = .error reason m') :
    after (x >>= f) m = m' := by
  simp only [after, Run.run_bind_of_error hrun]

theorem after_get_bind (f : Machine → Run α) (m : Machine) : after (get >>= f) m = after (f m) m := rfl

theorem after_keepingRoots (act : Run α) (m : Machine) :
    after (keepingRoots act) m = { after act m with shadow := m.shadow } := by
  simp only [after, keepingRoots]
  cases act m <;> rfl

theorem after_attempt (act : Run α) (m : Machine) : after (attempt act) m = after act m := by
  simp only [after, attempt]
  cases act m <;> rfl

/-- An operation is seen to answer by evaluating it. -/
theorem run_eq_of_run' {act : Run α} {a : α} (hends : EStateM.run' act.run m = some a) :
    act m = .ok a (after act m) := by
  cases hrun : act.run m with
  | ok b n =>
    delta EStateM.run' EStateM.run at hends
    rw [hrun] at hends
    cases hends
    rw [after_of_ok hrun]
  | error reason n =>
    delta EStateM.run' EStateM.run at hends
    rw [hrun] at hends
    cases hends

/-- An operation is seen to fail by evaluating an attempt of it. -/
theorem run_eq_of_run'_attempt {act : Run α} {reason : Stop}
    (hends : EStateM.run' (attempt act).run m = some (.error reason)) :
    act m = .error reason (after act m) := by
  have hrun := run_of_attempt_error (run_eq_of_run' hends)
  rwa [after_attempt] at hrun

/-! ## Machines that last -/

/-- What the registers that are set once and some held handles lead to. -/
def Anchored (base : List Handle) (m : Machine) (h : Handle) : Prop :=
  m.heap.Reaches (.nil :: (m.registers.constants ++ base)) h

/-- A machine on which operations can be relied on: `base` is held, and the registry is in order. If
strings may be overwritten then nothing gives access to raw memory. -/
structure Ready (poking : Prop) (base : List Handle) (m : Machine) : Prop where
  held : base <:+ m.shadow
  unmarked : m.heap.Unmarked
  capacity_le : m.heap.capacity ≤ 2 ^ 64
  object?_nil : m.object? .nil = some .nil
  enrolled : ∃ entries, m.heap.Enrolled m.registers.registry entries
  plain : poking → ∀ {h o}, m.object? h = some o → o.Plain

/-- A later machine has left alone what is anchored, and has only put atoms in front of the registry.
Nothing of the text was lost. -/
structure Lasts (poking : Prop) (base : List Handle) (m m' : Machine) : Prop where
  object?_eq : ∀ {h o}, Anchored base m h → m.object? h = some o →
    ∃ o', m'.object? h = some o' ∧ o.Resembles poking o'
  constants_eq : m'.registers.constants = m.registers.constants
  enrolled : ∀ {entries}, m.heap.Enrolled m.registers.registry entries →
    ∃ new, m'.heap.Enrolled m'.registers.registry (new ++ entries)
  capacity_eq : m'.heap.capacity = m.heap.capacity
  extent_eq : m'.source.extent = m.source.extent

theorem Ready.of_suffix {base' : List Handle} (hready : Ready poking base m) (hsuf : base' <:+ base) :
    Ready poking base' m :=
  { hready with held := hsuf.trans hready.held }

/-- It can be relied on all the more if no string is overwritten. -/
theorem Ready.strict (hready : Ready poking base m) : Ready False base m :=
  { hready with plain := False.elim }

/-- A machine may be relied on as far as all the roots it holds. -/
theorem Ready.shadow (hready : Ready poking base m) : Ready poking m.shadow m :=
  { hready with held := List.suffix_refl _ }

namespace Lasts

theorem refl (m : Machine) : Lasts poking base m m where
  object?_eq _ ho := ⟨_, ho, .refl _⟩
  constants_eq := rfl
  enrolled henrolled := ⟨[], henrolled⟩
  capacity_eq := rfl
  extent_eq := rfl

/-- What is anchored stays so. -/
theorem anchored (hlasts : Lasts poking base m m') (hh : Anchored base m h) : Anchored base m' h := by
  induction hh with
  | root hmem =>
    rw [← hlasts.constants_eq] at hmem
    exact .root hmem
  | reference hk ho href ih =>
    obtain ⟨o', ho', hres⟩ := hlasts.object?_eq hk ho
    rw [← hres.references_eq] at href
    exact .reference ih ho' href

theorem trans (hlasts : Lasts poking base m m') (hlasts' : Lasts poking base m' m'') :
    Lasts poking base m m'' where
  object?_eq hh ho := by
    obtain ⟨o', ho', hres⟩ := hlasts.object?_eq hh ho
    obtain ⟨o'', ho'', hres'⟩ := hlasts'.object?_eq (hlasts.anchored hh) ho'
    exact ⟨o'', ho'', hres.trans hres'⟩
  constants_eq := hlasts'.constants_eq.trans hlasts.constants_eq
  enrolled henrolled := by
    obtain ⟨new, hnew⟩ := hlasts.enrolled henrolled
    obtain ⟨new', hnew'⟩ := hlasts'.enrolled hnew
    exact ⟨new' ++ new, by rwa [List.append_assoc]⟩
  capacity_eq := hlasts'.capacity_eq.trans hlasts.capacity_eq
  extent_eq := hlasts'.extent_eq.trans hlasts.extent_eq

/-- Less is anchored under fewer held handles. -/
theorem of_subset {base' : List Handle} (hlasts : Lasts poking base m m') (hsub : base' ⊆ base) :
    Lasts poking base' m m' :=
  { hlasts with
    object?_eq := fun hh ho => by
      refine hlasts.object?_eq (hh.mono ?_) ho
      intro k hk
      simp only [List.mem_cons, List.mem_append] at hk ⊢
      exact hk.imp_right (Or.imp_right fun hk => hsub hk) }

end Lasts

/-- A handle is the atom of a spelling in the registry. -/
def Registered (m : Machine) (h : Handle) (spelling : Bytes) : Prop :=
  ∃ entries, m.heap.Enrolled m.registers.registry entries ∧ (h, spelling) ∈ entries

theorem Registered.object?_eq {spelling : Bytes} (hh : Registered m h spelling) :
    m.object? h = some (.atom spelling) := by
  obtain ⟨entries, henrolled, hmem⟩ := hh
  exact henrolled.atom _ hmem

/-- What is registered stays so. -/
theorem Registered.lasts {spelling : Bytes} (hh : Registered m h spelling)
    (hlasts : Lasts poking base m m') : Registered m' h spelling := by
  obtain ⟨entries, henrolled, hmem⟩ := hh
  obtain ⟨new, hnew⟩ := hlasts.enrolled henrolled
  exact ⟨new ++ entries, hnew, List.mem_append_right new hmem⟩

/-! ## Operations that last -/

/-- From a machine that can be relied on, an operation leads through such machines to such a machine, and
leaves alone what it should, however it ends. -/
def Lasting (poking : Prop) (base : List Handle) (act : Run α) (m : Machine) : Prop :=
  Ready poking base m → Ready poking base (after act m) ∧ Lasts poking base m (after act m) ∧
    ∀ t, act.passes m t → Ready poking base t.machine

/-- What an operation that succeeds leaves. -/
theorem Lasting.of_ok {act : Run α} {a : α} (hact : Lasting poking base act m) (hready : Ready poking base m)
    (hrun : act m = .ok a m') : Ready poking base m' ∧ Lasts poking base m m' := by
  obtain ⟨hready', hlasts, -⟩ := hact hready
  rw [after_of_ok hrun] at hready' hlasts
  exact ⟨hready', hlasts⟩

/-- One operation after another. -/
theorem Lasting.bind {x : Run α} {f : α → Run β} (hx : Lasting poking base x m)
    (hf : ∀ {a m'}, x m = .ok a m' → Lasting poking base (f a) m') : Lasting poking base (x >>= f) m := by
  intro hready
  obtain ⟨hready', hlasts, hmoments⟩ := hx hready
  cases hrun : x.run m with
  | ok a m' =>
    rw [after_of_ok hrun] at hready' hlasts
    obtain ⟨hready'', hlasts', hmoments'⟩ := hf hrun hready'
    rw [after_bind_of_ok hrun]
    refine ⟨hready'', hlasts.trans hlasts', fun t ht => ?_⟩
    rcases (Run.passes_bind_of_ok hrun).mp ht with ht | ht
    · exact hmoments t ht
    · exact hmoments' t ht
  | error reason m' =>
    rw [after_of_error hrun] at hready' hlasts
    rw [after_bind_of_error hrun]
    exact ⟨hready', hlasts, fun t ht => hmoments t ((Run.passes_bind_of_error hrun).mp ht)⟩

/-- Operations that change nothing. -/
theorem lasting_of_after_eq {act : Run α} (hafter : after act m = m)
    (hpasses : ∀ t, act.passes m t → t.machine = m) : Lasting poking base act m := by
  intro hready
  rw [hafter]
  exact ⟨hready, .refl m, fun t ht => hpasses t ht ▸ hready⟩

theorem lasting_pure (a : α) : Lasting poking base (pure a) m :=
  lasting_of_after_eq rfl fun t ht => absurd ht (Run.not_passes_pure a m t)

theorem lasting_stop (reason : Stop) : Lasting poking base (stop reason : Run α) m :=
  lasting_of_after_eq rfl fun _ ht => congrArg Moment.machine ht

theorem lasting_fail (f : Fault) : Lasting poking base (fail f : Run α) m := lasting_stop (.fault f)

theorem lasting_observe (step : Step) : Lasting poking base (observe step) m :=
  lasting_of_after_eq rfl fun _ ht => congrArg Moment.machine ht

theorem lasting_ask (question : Machine → Except Stop α) : Lasting poking base (ask question) m := by
  refine lasting_of_after_eq (after_ask question m) ?_
  rintro t ⟨reason, -, rfl⟩
  rfl

theorem lasting_get {f : Machine → Run α} (hf : Lasting poking base (f m) m) :
    Lasting poking base (get >>= f) m := by
  rw [Lasting, Run.passes_get_bind]
  exact hf

theorem lasting_getRegisters {f : Registers → Run α} (hf : Lasting poking base (f m.registers) m) :
    Lasting poking base (getRegisters >>= f) m := by
  rw [Lasting, passes_getRegisters_bind]
  exact hf

/-- Operations that touch neither objects nor the registers that are set once, nor the registry. -/
theorem lasting_of_heap_eq {act : Run α} (hheap : (after act m).heap = m.heap)
    (hconstants : (after act m).registers.constants = m.registers.constants)
    (hregistry : (after act m).registers.registry = m.registers.registry)
    (hheld : base <:+ m.shadow → base <:+ (after act m).shadow)
    (hextent : (after act m).source.extent = m.source.extent)
    (hpasses : ∀ t, act.passes m t → t.machine = after act m) : Lasting poking base act m := by
  intro hready
  have hready' : Ready poking base (after act m) := by
    refine ⟨hheld hready.held, ?_, ?_, ?_, ?_, ?_⟩
    · rw [hheap]; exact hready.unmarked
    · rw [hheap]; exact hready.capacity_le
    · rw [object?, hheap]; exact hready.object?_nil
    · rw [hheap, hregistry]; exact hready.enrolled
    · simp only [object?, hheap]; exact hready.plain
  refine ⟨hready', ⟨fun {h o} _ ho => ⟨o, ?_, .refl o⟩, hconstants, ?_, by rw [hheap], hextent⟩,
    fun t ht => hpasses t ht ▸ hready'⟩
  · rw [object?, hheap]; exact ho
  · rw [hheap, hregistry]
    exact fun henrolled => ⟨[], henrolled⟩

theorem lasting_modify {g : Machine → Machine} (hheap : (g m).heap = m.heap)
    (hregisters : (g m).registers = m.registers) (hheld : base <:+ m.shadow → base <:+ (g m).shadow)
    (hextent : (g m).source.extent = m.source.extent) : Lasting poking base (modify g : Run PUnit) m :=
  lasting_of_heap_eq hheap (congrArg Registers.constants hregisters)
    (congrArg Registers.registry hregisters) hheld hextent fun _ ht => congrArg Moment.machine ht

theorem lasting_modifyRegisters {f : Registers → Registers}
    (hconstants : (f m.registers).constants = m.registers.constants)
    (hregistry : (f m.registers).registry = m.registers.registry) :
    Lasting poking base (modifyRegisters f) m :=
  lasting_of_heap_eq rfl hconstants hregistry id rfl fun _ ht => congrArg Moment.machine ht

theorem lasting_note (e : Event) : Lasting poking base (note e) m := by
  refine lasting_modify ?_ ?_ ?_ ?_
  · split <;> rfl
  · split <;> rfl
  · split <;> exact id
  · split <;> rfl

theorem lasting_root (hs : List Handle) : Lasting poking base (root hs) m :=
  lasting_modify rfl rfl (fun hheld => hheld.trans (List.suffix_append hs _)) rfl

/-- An operation that lets go of the roots it held. All that is held when it begins is left alone. -/
theorem Lasting.keepingRoots {act : Run α} (hact : Lasting poking m.shadow act m) :
    Lasting poking base (keepingRoots act) m := by
  intro hready
  obtain ⟨hready', hlasts, hmoments⟩ := hact hready.shadow
  have hback : Ready poking base { after act m with shadow := m.shadow } :=
    { hready' with held := hready.held }
  rw [after_keepingRoots]
  refine ⟨hback, { hlasts.of_subset hready.held.subset with }, ?_⟩
  rintro t (ht | rfl | rfl)
  · exact (hmoments t ht).of_suffix hready.held
  · exact hready'.of_suffix hready.held
  · exact hback

theorem Lasting.withRoots {hs : List Handle} {act : Run α}
    (hact : Lasting poking m.shadow act { m with shadow := hs ++ m.shadow }) :
    Lasting poking base (withRoots hs act) m := by
  refine Lasting.keepingRoots ((lasting_root hs).bind fun hrun => ?_)
  cases hrun
  exact hact

theorem Lasting.attempt {act : Run α} (hact : Lasting poking base act m) :
    Lasting poking base (attempt act) m := by
  rw [Lasting, after_attempt]
  exact hact

/-! ## Objects made and dropped -/

namespace Spares

variable {hs hs' : List Handle}

theorem roots_eq (hspares : Spares hs m m') : m'.roots = m.roots := by
  rw [hspares.rest_eq]
  rfl

theorem of_subset (hspares : Spares hs m m') (hsub : hs' ⊆ hs) : Spares hs' m m' :=
  { hspares with
    spared := fun ho hreach => by
      refine hspares.spared ho (hreach.mono ?_)
      intro k hk
      simp only [List.mem_cons, List.mem_append] at hk ⊢
      exact hk.imp_right (Or.imp_left fun hk => hsub hk) }

/-- Where room is made, what is reached stays reached. -/
theorem reaches (hspares : Spares hs m m') (hh : m.heap.Reaches (.nil :: (hs ++ m.roots)) h) :
    m'.heap.Reaches (.nil :: (hs ++ m'.roots)) h := by
  rw [hspares.roots_eq]
  exact hh.congr fun hk ho => hspares.object?_eq ho hk

/-- Room may be made again while what is to be spared is held. -/
theorem trans_held (hspares : Spares hs m m') (hspares' : Spares hs' m' m'')
    (hheld : ∀ k ∈ hs, m'.heap.Reaches (.nil :: (hs' ++ m'.roots)) k) : Spares hs m m'' where
  spared ho hreach := by
    obtain ⟨ho', hcell⟩ := hspares.spared ho hreach
    rw [← hcell]
    refine hspares'.spared ho' ((hspares.reaches hreach).trans ?_)
    intro k hk
    simp only [List.mem_cons, List.mem_append] at hk
    rcases hk with rfl | hk | hk
    · exact .root List.mem_cons_self
    · exact hheld k hk
    · exact .root (by simp [hk])
  unmarked := hspares'.unmarked
  capacity_eq := hspares'.capacity_eq.trans hspares.capacity_eq
  platform_eq := hspares'.platform_eq.trans hspares.platform_eq
  rest_eq := by rw [hspares'.rest_eq, hspares.rest_eq]

theorem trans (hspares : Spares [] m m') (hspares' : Spares [] m' m'') : Spares [] m m'' :=
  hspares.trans_held hspares' (by simp)

/-- Roots held meanwhile are spared too. -/
theorem withRoots (hspares : Spares hs' { m with shadow := hs ++ m.shadow } m') :
    Spares (hs ++ hs') m { m' with shadow := m.shadow } where
  spared ho hreach := by
    refine hspares.spared ho (hreach.mono ?_)
    intro k hk
    simp only [roots, List.mem_cons, List.mem_append] at hk ⊢
    tauto
  unmarked := hspares.unmarked
  capacity_eq := hspares.capacity_eq
  platform_eq := hspares.platform_eq
  rest_eq := by rw [hspares.rest_eq]

/-- Where room is made, the registry stays. -/
theorem enrolled {entries : List (Handle × Bytes)} (hspares : Spares hs m m')
    (henrolled : m.heap.Enrolled m.registers.registry entries) :
    m'.heap.Enrolled m.registers.registry entries := by
  refine henrolled.congr fun {k o} hk ho _ => hspares.object?_eq ho (hk.mono ?_)
  simp [roots, Registers.roots]

/-- Where room is made, what is anchored stays. -/
theorem lasts (hspares : Spares hs m m') (hheld : base <:+ m.shadow) : Lasts poking base m m' where
  object?_eq {h o} hh ho := by
    refine ⟨o, hspares.object?_eq ho (hh.mono ?_), .refl o⟩
    intro k hk
    simp only [Registers.constants, List.mem_cons, List.mem_append, List.not_mem_nil, or_false] at hk
    simp only [roots, Registers.roots, List.mem_cons, List.mem_append, List.not_mem_nil, or_false]
    have hbase : k ∈ base → k ∈ m.shadow := fun hk => hheld.subset hk
    tauto
  constants_eq := by rw [hspares.rest_eq]
  enrolled henrolled := by
    refine ⟨[], ?_⟩
    rw [hspares.rest_eq]
    exact hspares.enrolled henrolled
  capacity_eq := hspares.capacity_eq
  extent_eq := by rw [hspares.rest_eq]

theorem ready (hspares : Spares hs m m') (hready : Ready poking base m)
    (hplain : poking → ∀ {h o}, m'.object? h = some o → o.Plain) : Ready poking base m' where
  held := by
    rw [hspares.rest_eq]
    exact hready.held
  unmarked := hspares.unmarked
  capacity_le := hspares.capacity_eq ▸ hready.capacity_le
  object?_nil := hspares.object?_eq hready.object?_nil (.root List.mem_cons_self)
  enrolled := by
    obtain ⟨entries, henrolled⟩ := hready.enrolled
    rw [hspares.rest_eq]
    exact ⟨entries, hspares.enrolled henrolled⟩
  plain := hplain

end Spares

/-- A collection leaves no object that was not there. -/
theorem object?_of_collect {roots : List Handle} {events : Array Event} {o : Object}
    (ho : object? { m with heap := (m.heap.collect roots).2, events := events } h = some o) :
    m.object? h = some o :=
  Heap.get?_of_collect ho

theorem lasting_collect : Lasting poking base collect m := by
  have hreclaim : Lasting poking base (modifyGet fun m : Machine =>
      ((m.heap.collect m.roots).1, { m with heap := (m.heap.collect m.roots).2 })) m := by
    intro hready
    have hspares := spares_collect hready.unmarked [] m.events
    have hready' := hspares.ready hready fun hpoking {_ _} ho =>
      hready.plain hpoking (object?_of_collect ho)
    refine ⟨hready', hspares.lasts hready.held, ?_⟩
    rintro t rfl
    exact hready'
  refine (lasting_observe _).bind fun hrun => ?_
  cases hrun
  refine hreclaim.bind fun _ => lasting_get ?_
  exact (lasting_note _).bind fun _ => lasting_pure _

/-- An object was placed under a handle, and nothing else was made. With room for it, nothing was dropped
either. -/
structure Placed (o : Object) (m : Machine) (h : Handle) (m' : Machine) : Prop extends Takes o m h m' where
  room_le : m.heap.room ≤ m'.heap.room + 1
  origin : ∀ {k o'}, m'.object? k = some o' → k = h ∧ o' = o ∨ m.object? k = some o'
  keeps : 0 < m.heap.room → ∀ {k o'}, m.object? k = some o' → m'.object? k = some o'

/-- There was no room for an object, and nothing was made. -/
structure Denied (o : Object) (m m' : Machine) : Prop where
  spares : Spares o.references m m'
  room_eq : m.heap.room = 0
  origin : ∀ {k o'}, m'.object? k = some o' → m.object? k = some o'

theorem origin_place {i : ℕ} {o o' : Object} {n : Machine} (hfree : n.heap.findFree? = some i)
    (hcap : n.heap.capacity ≤ 2 ^ 64)
    (ho : object? { n with heap := n.heap.place i o } h = some o') :
    h = .ofSlot i ∧ o' = o ∨ n.object? h = some o' := by
  rw [object?, Heap.get?_place hfree hcap] at ho
  split at ho
  · cases ho
    exact .inl ⟨‹_›, rfl⟩
  · exact .inr ho

/-- What an allocation does. -/
theorem allocate_spares (o : Object) (hclear : m.heap.Unmarked) (hcap : m.heap.capacity ≤ 2 ^ 64) :
    (∃ h m', allocate o m = .ok h m' ∧ Placed o m h m') ∨
    ∃ m', allocate o m = .error (.fault (.exhausted m.heap.capacity)) m' ∧ Denied o m m' := by
  cases hfind : m.heap.findFree? with
  | some i =>
    refine .inl ⟨_, _, run_allocate_of_free hfind, (spares_refl hclear).takes hfind hcap,
      (Heap.room_place hfind o).ge, origin_place hfind hcap, fun _ {k o'} ho' => ?_⟩
    have hne := Heap.ne_ofSlot_of_findFree? hfind hcap (Option.isSome_of_eq_some ho')
    rw [object?, Heap.get?_place hfind hcap, if_neg hne]
    exact ho'
  | none =>
    have hroom : m.heap.room = 0 := by
      by_contra hne
      obtain ⟨i, hi⟩ := Heap.exists_findFree? (Nat.pos_of_ne_zero hne)
      rw [hfind] at hi
      cases hi
    obtain ⟨events, hagain, hfail⟩ := run_allocate_of_full (o := o) hfind
    have hspare := spares_collect hclear o.references events
    cases hfind' : (m.heap.collect (m.registers.roots ++ (o.references ++ m.shadow))).2.findFree? with
    | some i =>
      refine .inl ⟨_, _, hagain i hfind', hspare.takes hfind' hcap, by omega, fun {k o'} ho' => ?_, ?_⟩
      · exact (origin_place hfind' (hspare.capacity_eq ▸ hcap) ho').imp_right object?_of_collect
      · omega
    | none =>
      obtain ⟨hrun, -⟩ := hfail hfind'
      rw [hspare.capacity_eq] at hrun
      exact .inr ⟨_, hrun, hspare, hroom, object?_of_collect⟩

theorem lasting_tryAllocate {o : Object} (ho : poking → o.Plain) :
    Lasting poking base (tryAllocate o) m := by
  cases hfind : m.heap.findFree? with
  | none =>
    refine lasting_of_after_eq (after_of_ok (run_tryAllocate_of_full hfind)) ?_
    rintro t ⟨i, hi, -⟩
    rw [hfind] at hi
    cases hi
  | some i =>
    intro hready
    have hspares : Spares [] m { m with heap := m.heap.place i o } :=
      (spares_refl hready.unmarked).place hfind hready.capacity_le
    have hready' := hspares.ready hready fun hpoking {k o'} ho' => by
      rcases origin_place hfind hready.capacity_le ho' with ⟨-, rfl⟩ | hold
      · exact ho hpoking
      · exact hready.plain hpoking hold
    rw [after_of_ok (run_tryAllocate_of_free hfind)]
    refine ⟨hready', hspares.lasts hready.held, ?_⟩
    rintro t ⟨j, hj, ht⟩
    rw [hfind] at hj
    cases hj
    rcases ht with rfl | rfl
    · exact hready
    · exact hready'

theorem lasting_allocate {o : Object} (ho : poking → o.Plain) : Lasting poking base (allocate o) m := by
  refine (lasting_tryAllocate ho).bind fun {placed _} _ => ?_
  cases placed with
  | some h => exact lasting_pure h
  | none =>
    refine (Lasting.withRoots lasting_collect).bind fun _ => ?_
    refine (lasting_tryAllocate ho).bind fun {placed _} _ => ?_
    cases placed with
    | some h => exact lasting_pure h
    | none => exact lasting_get (lasting_fail _)

theorem lasting_makeNumber (n : Int64) : Lasting poking base (makeNumber n) m :=
  lasting_allocate fun _ => trivial

theorem lasting_makePair (car cdr : Handle) : Lasting poking base (makePair car cdr) m :=
  lasting_allocate fun _ => trivial

theorem lasting_makeString (bytes : Bytes) : Lasting poking base (makeString bytes) m :=
  lasting_allocate fun _ => trivial

/-! ## Strings that are overwritten -/

section PutString

variable {bytes bytes' : Array UInt8} {k : Handle} {o : Object}

theorem object?_of_putString (hh : m.object? h = some (.string (.owned bytes)))
    (ho : object? { m with heap := m.heap.put h (.string (.owned bytes')) } k = some o) :
    k = h ∧ o = .string (.owned bytes') ∨ m.object? k = some o := by
  rw [object?, Heap.get?_put hh] at ho
  split at ho
  · cases ho
    exact .inl ⟨‹_›, rfl⟩
  · exact .inr ho

/-- Overwriting a string changes no other object. -/
theorem object?_putString_iff (hh : m.object? h = some (.string (.owned bytes))) (hkind : o.kind ≠ .string) :
    object? { m with heap := m.heap.put h (.string (.owned bytes')) } k = some o ↔ m.object? k = some o := by
  constructor
  · intro ho
    rcases object?_of_putString hh ho with ⟨-, rfl⟩ | hold
    · exact absurd rfl hkind
    · exact hold
  · intro ho
    have hne : k ≠ h := by
      rintro rfl
      cases hh.symm.trans ho
      exact hkind rfl
    rw [object?, Heap.get?_put hh, if_neg hne]
    exact ho

theorem enrolled_putString_iff {registry : Handle} {entries : List (Handle × Bytes)}
    (hh : m.object? h = some (.string (.owned bytes))) :
    (m.heap.put h (.string (.owned bytes'))).Enrolled registry entries ↔
      m.heap.Enrolled registry entries := by
  constructor
  · intro henrolled
    exact henrolled.congr fun _ ho hkind => (object?_putString_iff hh hkind).mp ho
  · intro henrolled
    exact henrolled.congr fun _ ho hkind => (object?_putString_iff hh hkind).mpr ho

end PutString

/-! ## Lists -/

theorem lasting_consAll (list : Handle) (values : List Handle) :
    Lasting poking base (consAll list values) m := by
  induction values generalizing list m with
  | nil => exact lasting_pure list
  | cons v values ih => exact (lasting_makePair v list).bind fun _ => ih _

theorem lasting_makeList (values : List Handle) : Lasting poking base (makeList values) m :=
  Lasting.withRoots (lasting_consAll .nil _)

/-! ## Atoms -/

/-- An atom was made and put in front of the registry. With room for both, nothing was dropped. -/
structure Enters (entries : List (Handle × Bytes)) (spelling : Bytes) (m : Machine) (atom : Handle)
    (m' : Machine) : Prop where
  spares : Spares [] m { m' with registers := m.registers }
  registers_eq : m'.registers = { m.registers with registry := m'.registers.registry }
  enrolled : m'.heap.Enrolled m'.registers.registry ((atom, spelling) :: entries)
  room_le : m.heap.room ≤ m'.heap.room + 2
  origin : ∀ {k o}, m'.object? k = some o →
    k = atom ∨ o = .pair atom m.registers.registry ∨ m.object? k = some o
  keeps : 1 < m.heap.room → ∀ {k o}, m.object? k = some o → m'.object? k = some o

theorem Enters.shadow_eq {entries : List (Handle × Bytes)} {spelling : Bytes} {atom : Handle}
    (henters : Enters entries spelling m atom m') : m'.shadow = m.shadow := by
  have hrest := congrArg Machine.shadow henters.spares.rest_eq
  exact hrest

/-- There was no room for an atom and its entry in the registry, and at most the atom was made. -/
structure Barred (spelling : Bytes) (m m' : Machine) : Prop where
  spares : Spares [] m m'
  room_lt : m.heap.room < 2
  origin : (∀ {k o}, m'.object? k = some o → m.object? k = some o) ∨
    ∃ atom m₁, allocate (.atom spelling) m = .ok atom m₁ ∧ Placed (.atom spelling) m atom m₁ ∧
      m'.roots = m₁.roots ∧ ∀ {k o}, m'.object? k = some o → m₁.object? k = some o

/-- What interning does: it finds the entry of a spelling, or makes one, or fails after a collection. -/
theorem intern_cases {entries : List (Handle × Bytes)} (hready : Ready poking base m)
    (henrolled : m.heap.Enrolled m.registers.registry entries) (spelling : Bytes) :
    (∃ atom, intern spelling m = .ok atom m ∧ (atom, spelling) ∈ entries) ∨
    (∃ atom m', intern spelling m = .ok atom m' ∧ Enters entries spelling m atom m') ∨
    ∃ m', intern spelling m = .error (.fault (.exhausted m.heap.capacity)) m' ∧
      Barred spelling m m' := by
  have hask : (ask (findAtom spelling)).run m =
      .ok ((entries.find? fun e => e.2 = spelling).map Prod.fst) m := by
    simp only [ask, findAtom_of_enrolled hready.object?_nil henrolled]
  cases hfind : entries.find? fun e => e.2 = spelling with
  | some e =>
    have hmem := List.mem_of_find?_eq_some hfind
    have hspelling : e.2 = spelling := by simpa using List.find?_some hfind
    rw [hfind, Option.map_some] at hask
    exact .inl ⟨e.1, Run.run_bind_of_ok hask, hspelling ▸ hmem⟩
  | none =>
    have hnew : spelling ∉ entries.map Prod.snd := by
      intro hmem
      obtain ⟨e, he, hspelling⟩ := List.mem_map.mp hmem
      simpa [hspelling] using List.find?_eq_none.mp hfind e he
    rw [hfind, Option.map_none] at hask
    rcases allocate_spares (.atom spelling) hready.unmarked hready.capacity_le with
      ⟨atom, m₁, hrun₁, hplaced₁⟩ | ⟨m₁, hrun₁, hdenied₁⟩
    · have hroom₁ := hplaced₁.room_le
      have hcap₁ : m₁.heap.capacity ≤ 2 ^ 64 := hplaced₁.spares.capacity_eq ▸ hready.capacity_le
      have hregisters₁ : m₁.registers = m.registers := by rw [hplaced₁.spares.rest_eq]
      rcases allocate_spares (.pair atom m₁.registers.registry) hplaced₁.spares.unmarked hcap₁ with
        ⟨registry, m₂, hrun₂, hplaced₂⟩ | ⟨m₂, hrun₂, hdenied₂⟩
      · have hroom₂ := hplaced₂.room_le
        have hspares := hplaced₁.spares.trans (hplaced₂.spares.of_subset (List.nil_subset _))
        have hregisters₂ : m₂.registers = m.registers := by rw [hspares.rest_eq]
        have hold := hspares.enrolled henrolled
        refine .inr (.inl ⟨atom, { m₂ with registers := { m₂.registers with registry := registry } }, ?_,
          ⟨?_, ?_, ⟨?_, ?_, ?_⟩, ?_, ?_, ?_⟩⟩)
        · exact (Run.run_bind_of_ok hask).trans ((Run.run_bind_of_ok hrun₁).trans
            (Run.run_bind_of_ok hrun₂))
        · exact hregisters₂ ▸ hspares
        · rw [hregisters₂]
        · -- the new pair leads from the atom to the registry as it was
          rw [← hregisters₁] at hold
          exact .cons hplaced₂.object?_eq hold.spine
        · -- the atom was held while the pair was made
          intro e he
          rcases List.mem_cons.mp he with rfl | he
          · exact hplaced₂.spares.object?_eq hplaced₁.object?_eq (.root (by simp [Object.references]))
          · exact hold.atom e he
        · exact List.nodup_cons.mpr ⟨hnew, henrolled.nodup⟩
        · show m.heap.room ≤ m₂.heap.room + 2
          omega
        · intro k o ho
          rcases hplaced₂.origin ho with ⟨-, rfl⟩ | ho
          · exact .inr (.inl (by rw [hregisters₁]))
          · exact (hplaced₁.origin ho).imp And.left .inr
        · intro hroom k o ho
          exact hplaced₂.keeps (by omega) (hplaced₁.keeps (by omega) ho)
      · have hroom₂ := hdenied₂.room_eq
        refine .inr (.inr ⟨m₂, ?_, ?_, by omega, ?_⟩)
        · rw [← hplaced₁.spares.capacity_eq]
          exact (Run.run_bind_of_ok hask).trans ((Run.run_bind_of_ok hrun₁).trans
            ((Run.run_bind_of_ok rfl).trans (Run.run_bind_of_error hrun₂)))
        · exact hplaced₁.spares.trans (hdenied₂.spares.of_subset (List.nil_subset _))
        · exact .inr ⟨atom, m₁, hrun₁, hplaced₁, hdenied₂.spares.roots_eq, hdenied₂.origin⟩
    · have hroom₁ := hdenied₁.room_eq
      refine .inr (.inr ⟨m₁, ?_, hdenied₁.spares, by omega, .inl hdenied₁.origin⟩)
      exact (Run.run_bind_of_ok hask).trans (Run.run_bind_of_error hrun₁)

/-- Interning passes through machines that can be relied on. -/
theorem ready_of_passes_intern {spelling : Bytes} {t : Moment} (hready : Ready poking base m)
    (hafter : Ready poking base (after (intern spelling) m)) (ht : (intern spelling).passes m t) :
    Ready poking base t.machine := by
  have hask : Lasting poking base (ask (findAtom spelling)) m := lasting_ask _
  rcases ht with ht | ⟨found, m₁, hrun, ht⟩
  · exact (hask hready).2.2 t ht
  have hready₁ := (hask hready).1
  rw [after_of_ok hrun] at hready₁
  rw [intern, after_bind_of_ok hrun] at hafter
  cases found with
  | some atom => exact absurd ht (Run.not_passes_pure atom m₁ t)
  | none =>
    have hatom : Lasting poking base (allocate (.atom spelling)) m₁ := lasting_allocate fun _ => trivial
    rcases ht with ht | ⟨atom, m₂, hrun₂, ht⟩
    · exact (hatom hready₁).2.2 t ht
    have hready₂ := (hatom hready₁).1
    rw [after_of_ok hrun₂] at hready₂
    dsimp only at hafter
    rw [after_bind_of_ok hrun₂] at hafter
    rw [passes_getRegisters_bind] at ht
    have hpair : Lasting poking base (makePair atom m₂.registers.registry) m₂ := lasting_makePair _ _
    rcases ht with ht | ⟨registry, m₃, hrun₃, ht⟩
    · exact (hpair hready₂).2.2 t ht
    -- the last moment is the end
    have hregisters : getRegisters.run m₂ = .ok m₂.registers m₂ := rfl
    rw [after_bind_of_ok hregisters, after_bind_of_ok hrun₃] at hafter
    rcases ht with rfl | ⟨_, _, _, ht⟩
    · exact hafter
    · exact absurd ht (Run.not_passes_pure _ _ t)

theorem lasting_intern (spelling : Bytes) : Lasting poking base (intern spelling) m := by
  intro hready
  suffices hafter : Ready poking base (after (intern spelling) m) ∧
      Lasts poking base m (after (intern spelling) m) from
    ⟨hafter.1, hafter.2, fun _ => ready_of_passes_intern hready hafter.1⟩
  obtain ⟨entries, henrolled⟩ := hready.enrolled
  rcases intern_cases hready henrolled spelling with
    ⟨atom, hrun, -⟩ | ⟨atom, m', hrun, henters⟩ | ⟨m', hrun, hbarred⟩
  · rw [after_of_ok hrun]
    exact ⟨hready, .refl m⟩
  · have hready' := henters.spares.ready hready fun hpoking {k o} ho => by
      rcases henters.origin ho with rfl | rfl | hold
      · have hatom := henters.enrolled.atom _ List.mem_cons_self
        cases hatom.symm.trans ho
        trivial
      · trivial
      · exact hready.plain hpoking hold
    have hlasts : Lasts poking base m _ := henters.spares.lasts hready.held
    rw [after_of_ok hrun]
    refine ⟨{ hready' with enrolled := ⟨_, henters.enrolled⟩ }, { hlasts with
      constants_eq := by rw [henters.registers_eq]; rfl
      enrolled := fun hold => ⟨[(atom, spelling)], ?_⟩ }⟩
    rw [hold.unique hready.object?_nil henrolled]
    exact henters.enrolled
  · rw [after_of_error hrun]
    refine ⟨hbarred.spares.ready hready fun hpoking {k o} ho => ?_, hbarred.spares.lasts hready.held⟩
    rcases hbarred.origin with hold | ⟨atom, m₁, -, hplaced, -, hold⟩
    · exact hready.plain hpoking (hold ho)
    · rcases hplaced.origin (hold ho) with ⟨-, rfl⟩ | hold
      · trivial
      · exact hready.plain hpoking hold

/-! ## Reading -/

theorem lasting_skipBlank : Lasting poking base skipBlank m :=
  lasting_modify rfl rfl id (Source.extent_skipBlank m.source)

theorem lasting_peek : Lasting poking base peek m := lasting_get (lasting_pure _)

theorem lasting_advance : Lasting poking base advance m :=
  lasting_modify rfl rfl id (Source.extent_advance m.source)

theorem lasting_takeWord : Lasting poking base takeWord m :=
  lasting_of_heap_eq rfl rfl rfl id (Source.extent_scanWord m.source) fun _ ht =>
    congrArg Moment.machine ht

theorem lasting_takeString : Lasting poking base takeString m := by
  refine (lasting_of_heap_eq rfl rfl rfl id ?_ fun _ ht => congrArg Moment.machine ht).bind
    fun {result _} _ => ?_
  · exact Source.extent_scanStringFrom m.source.position [] m.source.rest
  · cases result with
    | ok bytes => exact lasting_pure bytes
    | error f => exact lasting_fail f

/-- What is anchored is left alone by all of reading. -/
theorem lexical_lasting : Lexical fun _ base act m => Lasting poking base act m where
  bind hx hf := hx.bind hf
  pure := lasting_pure
  unfinished := lasting_stop .unfinished
  fail _ := lasting_fail _
  component _ := ⟨lasting_ask _, lasting_ask _⟩
  getRegisters := lasting_getRegisters
  getPosition hf := lasting_get hf
  setQueue _ := lasting_modifyRegisters rfl rfl
  root := lasting_root
  keepingRoots := Lasting.keepingRoots
  makeNumber := lasting_makeNumber
  makePair := lasting_makePair
  makeString := lasting_makeString
  intern := lasting_intern
  skipBlank := lasting_skipBlank
  peek := lasting_peek
  advance := lasting_advance
  takeWord := lasting_takeWord
  takeString := lasting_takeString

theorem lasting_scalar (word : Bytes) : Lasting poking base (scalar word) m := lexical_lasting.scalar word

theorem lasting_queueDirective (sign : UInt8) (op : Registers → Handle) :
    Lasting poking base (queueDirective sign op) m := lexical_lasting.queueDirective sign op

theorem lasting_readFrom (n : ℕ) : (∀ {base m}, Lasting poking base (readTermFrom n) m) ∧
    ∀ {base m items}, Lasting poking base (readItemsFrom n items) m :=
  ⟨(lexical_lasting.readFrom n).1, (lexical_lasting.readFrom n).2 _⟩

/-- Reading lasts. -/
theorem lasting_readTerm : Lasting poking base readTerm m := lasting_get (lasting_readFrom _).1

end Machine

end PushLisp
