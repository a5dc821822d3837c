import PushLisp.Proofs.Reading

/-!
# What a machine starts with

Setting up needs less room than the smallest table has. Nothing is dropped meanwhile, so what is made early
is there in the end: the atoms that reading uses, and an environment that binds registered atoms.

## Main definitions

* `Machine.Grows`: a later machine has all that was there, and more atoms.
* `Machine.Adds`: an operation that has room for what it makes.
* `Machine.Scope`: an environment that binds registered atoms.
* `Machine.Installs`: a primitive that is bound to its name.
* `Machine.Fresh`: a machine that has been set up.

## Main statements

* `Machine.exists_prepared`, `Machine.exists_fresh`: setting up succeeds.
-/
namespace PushLisp.Machine

variable {α β : Type} {poking : Prop} {k l : ℕ} {m m' m'' : Machine} {h : Handle}

/-! ## Machines that grow -/

/-- A later machine has all objects that were there. What atoms came to it are registered, and nothing
was read. -/
structure Grows (m m' : Machine) : Prop where
  object?_eq : ∀ {h o}, m.object? h = some o → m'.object? h = some o
  registered : ∀ {h spelling}, Registered m h spelling → Registered m' h spelling
  atoms : ∀ {h spelling}, m'.object? h = some (.atom spelling) →
    Registered m' h spelling ∨ m.object? h = some (.atom spelling)
  source_eq : m'.source = m.source

theorem Grows.refl (m : Machine) : Grows m m where
  object?_eq ho := ho
  registered hh := hh
  atoms ho := .inr ho
  source_eq := rfl

theorem Grows.trans (hgrows : Grows m m') (hgrows' : Grows m' m'') : Grows m m'' where
  object?_eq ho := hgrows'.object?_eq (hgrows.object?_eq ho)
  registered hh := hgrows'.registered (hgrows.registered hh)
  atoms ho := by
    rcases hgrows'.atoms ho with hh | ho
    · exact .inl hh
    · exact (hgrows.atoms ho).imp_left hgrows'.registered
  source_eq := hgrows'.source_eq.trans hgrows.source_eq

/-- Two state blocks that differ in the registry at most. -/
def SameButRegistry (r r' : Registers) : Prop := r' = { r with registry := r'.registry }

/-- With room for `k` objects, an operation on a machine that is in order answers as `Q` says. It takes up
`k` slots at most, drops nothing, and sets no register but the registry. -/
def Adds (poking : Prop) (k : ℕ) (act : Run α) (m : Machine) (Q : α → Machine → Prop) : Prop :=
  Ready poking [] m → k ≤ m.heap.room → ∃ a m', act m = .ok a m' ∧ m.heap.room ≤ m'.heap.room + k ∧
    Ready poking [] m' ∧ Grows m m' ∧ SameButRegistry m.registers m'.registers ∧ Q a m'

theorem Adds.imp {act : Run α} {Q R : α → Machine → Prop} (hact : Adds poking k act m Q)
    (hQ : ∀ {a m'}, Grows m m' → Q a m' → R a m') : Adds poking k act m R := by
  intro hready hroom
  obtain ⟨a, m', hrun, hroom', hready', hgrows, hregisters, hq⟩ := hact hready hroom
  exact ⟨a, m', hrun, hroom', hready', hgrows, hregisters, hQ hgrows hq⟩

/-- One operation after another needs the sum of what they need. -/
theorem Adds.bind {x : Run α} {f : α → Run β} {Q : α → Machine → Prop} {R : β → Machine → Prop}
    (hx : Adds poking k x m Q) (hf : ∀ {a m'}, Grows m m' → Q a m' → Adds poking l (f a) m' R) :
    Adds poking (k + l) (x >>= f) m R := by
  intro hready hroom
  obtain ⟨a, m', hrun, hroom', hready', hgrows, hregisters, hq⟩ := hx hready (by omega)
  obtain ⟨b, m'', hrun', hroom'', hready'', hgrows', hregisters', hr⟩ := hf hgrows hq hready' (by omega)
  refine ⟨b, m'', (Run.run_bind_of_ok hrun).trans hrun', by omega, hready'', hgrows.trans hgrows', ?_, hr⟩
  rw [SameButRegistry, hregisters', hregisters]

theorem adds_pure {a : α} {Q : α → Machine → Prop} (hq : Q a m) : Adds poking 0 (pure a) m Q :=
  fun hready _ => ⟨a, m, rfl, le_rfl, hready, .refl m, rfl, hq⟩

/-- An operation may hold more roots meanwhile. -/
theorem Adds.withRoots {act : Run α} {Q : α → Machine → Prop} {hs : List Handle}
    (hact : Adds poking k act { m with shadow := hs ++ m.shadow } fun a m' =>
      Q a { m' with shadow := m.shadow }) : Adds poking k (withRoots hs act) m Q := by
  intro hready hroom
  obtain ⟨a, m', hrun, hroom', hready', hgrows, hregisters, hq⟩ :=
    hact { hready with held := List.nil_suffix } hroom
  exact ⟨a, { m' with shadow := m.shadow }, run_withRoots_of_ok hrun, hroom',
    { hready' with held := List.nil_suffix }, { hgrows with }, hregisters, hq⟩

/-- With room for it, an object other than an atom is placed. -/
theorem adds_allocate {o : Object} (hplain : poking → o.Plain) (hatom : o.kind ≠ .atom) :
    Adds poking 1 (allocate o) m fun h m' => m'.object? h = some o := by
  intro hready hroom
  rcases allocate_spares o hready.unmarked hready.capacity_le with
    ⟨h, m', hrun, hplaced⟩ | ⟨m', hrun, hdenied⟩
  · obtain ⟨hready', hlasts⟩ := (lasting_allocate hplain).of_ok hready hrun
    refine ⟨h, m', hrun, hplaced.room_le, hready', ⟨hplaced.keeps hroom, ?_, ?_, ?_⟩, ?_,
      hplaced.object?_eq⟩
    · intro k spelling hk
      exact hk.lasts hlasts
    · intro k spelling hk
      rcases hplaced.origin hk with ⟨-, rfl⟩ | hold
      · exact absurd rfl hatom
      · exact .inr hold
    · rw [hplaced.spares.rest_eq]
    · rw [SameButRegistry, hplaced.spares.rest_eq]
  · rw [hdenied.room_eq] at hroom
    omega

theorem adds_makePair (car cdr : Handle) :
    Adds poking 1 (makePair car cdr) m fun h m' => m'.object? h = some (.pair car cdr) :=
  adds_allocate (fun _ => trivial) (by simp [Object.kind])

/-- With room for it and its entry, an atom is registered. -/
theorem adds_intern (spelling : Bytes) :
    Adds poking 2 (intern spelling) m fun h m' => Registered m' h spelling := by
  intro hready hroom
  obtain ⟨entries, henrolled⟩ := hready.enrolled
  rcases intern_cases hready henrolled spelling with
    ⟨atom, hrun, hmem⟩ | ⟨atom, m', hrun, henters⟩ | ⟨m', hrun, hbarred⟩
  · exact ⟨atom, m, hrun, by omega, hready, .refl m, rfl, entries, henrolled, hmem⟩
  · obtain ⟨hready', hlasts⟩ := (lasting_intern spelling).of_ok hready hrun
    have hatom : Registered m' atom spelling := ⟨_, henters.enrolled, List.mem_cons_self⟩
    refine ⟨atom, m', hrun, henters.room_le, hready', ⟨henters.keeps hroom, ?_, ?_, ?_⟩,
      henters.registers_eq, hatom⟩
    · intro k s hk
      exact hk.lasts hlasts
    · intro k s hk
      rcases henters.origin hk with rfl | hpair | hold
      · cases hatom.object?_eq.symm.trans hk
        exact .inl hatom
      · cases hpair
      · exact .inr hold
    · exact henters.spares.sameInput.1
  · have := hbarred.room_lt
    omega

/-! ## Environments -/

/-- An environment that ends, and binds registered atoms. The bindings are those of the spellings to the
values, newest first. -/
inductive Scope (m : Machine) : Handle → List (Bytes × Handle) → Prop
  | nil : Scope m .nil []
  | binding {env binding rest key value : Handle} {spelling : Bytes} {bindings : List (Bytes × Handle)} :
      m.object? env = some (.pair binding rest) → m.object? binding = some (.pair key value) →
      Registered m key spelling → Scope m rest bindings → Scope m env ((spelling, value) :: bindings)

/-- An environment is there as long as its pairs are, and the atoms that it binds stay registered. -/
theorem Scope.congr {env : Handle} {bindings : List (Bytes × Handle)} (hscope : Scope m env bindings)
    (hkeep : ∀ {k car cdr}, m.heap.Reaches [env] k → m.object? k = some (.pair car cdr) →
      m'.object? k = some (.pair car cdr))
    (hregistered : ∀ {k spelling}, Registered m k spelling → Registered m' k spelling) :
    Scope m' env bindings := by
  induction hscope with
  | nil => exact .nil
  | @binding env binding rest key value spelling bindings henv hbinding hkey _ ih =>
    have hroot : m.heap.Reaches [env] env := .root (by simp)
    have hfirst : m.heap.Reaches [env] binding := hroot.reference henv (by simp [Object.references])
    have hrest : m.heap.Reaches [env] rest := hroot.reference henv (by simp [Object.references])
    refine .binding (hkeep hroot henv) (hkeep hfirst hbinding) (hregistered hkey) (ih ?_)
    intro k car cdr hk ho
    exact hkeep (hk.trans (by simpa using hrest)) ho

theorem Scope.grows {env : Handle} {bindings : List (Bytes × Handle)} (hscope : Scope m env bindings)
    (hgrows : Grows m m') : Scope m' env bindings :=
  hscope.congr (fun _ ho => hgrows.object?_eq ho) hgrows.registered

theorem adds_define {env key value : Handle} {spelling : Bytes} {bindings : List (Bytes × Handle)}
    (hscope : Scope m env bindings) (hkey : Registered m key spelling) :
    Adds poking 2 (define env key value) m fun env' m' => Scope m' env' ((spelling, value) :: bindings) := by
  have hbinding : Adds poking 1 (withRoots [env] (makePair key value)) m fun h m' =>
      m'.object? h = some (.pair key value) :=
    Adds.withRoots (adds_makePair key value)
  refine hbinding.bind (l := 1) fun {binding m₁} hgrows₁ hbinding => ?_
  refine (adds_makePair binding env).imp fun {env' m₂} hgrows₂ henv => ?_
  have hgrows := hgrows₁.trans hgrows₂
  exact .binding henv (hgrows₂.object?_eq hbinding) (hgrows.registered hkey) (hscope.grows hgrows)

/-- A binding of a primitive to its name. -/
def Installs (m : Machine) (p : Primitive) (binding : Bytes × Handle) : Prop :=
  binding.1 = Bytes.ofString p.name ∧ m.object? binding.2 = some (.primitive p)

theorem adds_definePrimitive {env : Handle} {p : Primitive} {bindings : List (Bytes × Handle)}
    (hplain : poking → p.action.isRaw = false) (hscope : Scope m env bindings) :
    Adds poking 5 (definePrimitive env p) m fun env' m' =>
      ∃ binding, m'.Installs p binding ∧ Scope m' env' (binding :: bindings) := by
  refine (adds_intern (Bytes.ofString p.name)).bind (l := 3) fun {key m₁} hgrows₁ hkey => ?_
  have hprimitive : Adds poking 1 (withRoots [env] (allocate (.primitive p))) m₁ fun h m' =>
      m'.object? h = some (.primitive p) :=
    Adds.withRoots (adds_allocate hplain (by simp [Object.kind]))
  refine hprimitive.bind (l := 2) fun {h m₂} hgrows₂ hh => ?_
  refine (adds_define ((hscope.grows hgrows₁).grows hgrows₂) (hgrows₂.registered hkey)).imp ?_
  exact fun hgrows₃ henv => ⟨(Bytes.ofString p.name, h), ⟨rfl, hgrows₃.object?_eq hh⟩, henv⟩

/-- Primitives are bound to their names, the last of them first. -/
theorem adds_definePrimitives {env : Handle} {ps : List Primitive} {bindings : List (Bytes × Handle)}
    (hplain : poking → ∀ p ∈ ps, p.action.isRaw = false) (hscope : Scope m env bindings) :
    Adds poking (5 * ps.length) (definePrimitives env ps) m fun env' m' =>
      ∃ new, List.Forall₂ m'.Installs ps.reverse new ∧ Scope m' env' (new ++ bindings) := by
  induction ps generalizing env m bindings with
  | nil => exact adds_pure ⟨[], .nil, hscope⟩
  | cons p ps ih =>
    rw [List.length_cons, Nat.mul_add, Nat.add_comm]
    refine (adds_definePrimitive (fun hpoking => hplain hpoking p List.mem_cons_self) hscope).bind ?_
    rintro env' m' - ⟨binding, ⟨hname, hobject⟩, henv'⟩
    refine (ih (fun hpoking q hq => hplain hpoking q (List.mem_cons_of_mem p hq)) henv').imp ?_
    rintro env'' m'' hgrows ⟨new, hnew, hscope'⟩
    refine ⟨new ++ [binding], ?_, by simpa using hscope'⟩
    rw [List.reverse_cons]
    exact List.rel_append hnew (.cons ⟨hname, hgrows.object?_eq hobject⟩ .nil)

/-! ## Setting up -/

/-- A new table has nothing but the empty list. -/
theorem eq_nil_of_get?_new {slots : ℕ} {o : Object} (ho : (Heap.new slots platform).get? h = some o) :
    o = .nil := by
  rw [Heap.get?] at ho
  by_cases hslot : h.slot = 0
  · rw [hslot, Heap.slot?_new_zero] at ho
    exact (Option.some_inj.mp ho).symm
  · rw [Heap.slot?_new_of_ne hslot] at ho
    cases ho

/-- The machine before it is set up is in order. -/
theorem ready_blank (slots : UInt64) (source : Bytes) (sink : Sink) (tracing : Bool) (platform : Platform) :
    Ready poking [] (blank slots.toNat source sink tracing platform) where
  held := List.nil_suffix
  unmarked := by
    show (Heap.new slots.toNat platform).Unmarked
    rw [Heap.Unmarked, Heap.capacity_new]
    rfl
  capacity_le := by
    show (Heap.new slots.toNat platform).capacity ≤ 2 ^ 64
    rw [Heap.capacity_new]
    exact max_le slots.toNat_lt.le (by decide)
  object?_nil := Heap.slot?_new_zero slots.toNat platform
  enrolled := ⟨[], .nil, by simp, List.nodup_nil⟩
  plain _ {h o} ho := by
    rw [eq_nil_of_get?_new ho]
    trivial

/-- A machine that has been set up: it is fit to read, its queue is empty, all its atoms are registered, and
its environment binds such atoms. -/
structure Fresh (poking : Prop) (m : Machine) : Prop where
  ready : Ready poking [] m
  literate : Literate [] m
  queue : m.registers.readQueue = .nil
  atoms : ∀ {h spelling}, m.object? h = some (.atom spelling) → Registered m h spelling
  scope : ∃ bindings, Scope m m.registers.env bindings

/-- Interning an atom into a register. -/
theorem run_internInto (spelling : Bytes) {f : Handle → Registers → Registers}
    (hf : ∀ atom r, (f atom r).registry = r.registry) (hready : Ready poking [] m) (hroom : 2 ≤ m.heap.room) :
    ∃ atom m', (intern spelling >>= fun atom => modifyRegisters (f atom)).run m = .ok () m' ∧
      m.heap.room ≤ m'.heap.room + 2 ∧ Ready poking [] m' ∧ Grows m m' ∧ Registered m' atom spelling ∧
      m'.registers = f atom { m.registers with registry := m'.registers.registry } := by
  obtain ⟨atom, m₁, hrun, hroom₁, hready₁, hgrows, hregisters, hatom⟩ := adds_intern spelling hready hroom
  have hregistry := hf atom m₁.registers
  have hkeep : ∀ {h s}, Registered { m₁ with registers := f atom m₁.registers } h s ↔ Registered m₁ h s := by
    intro h s
    simp only [Registered, hregistry]
  refine ⟨atom, { m₁ with registers := f atom m₁.registers }, Run.run_bind_of_ok hrun, hroom₁,
    { hready₁ with enrolled := by simpa only [hregistry] using hready₁.enrolled },
    ⟨hgrows.object?_eq, fun hh => hkeep.mpr (hgrows.registered hh),
      fun ho => (hgrows.atoms ho).imp_left hkeep.mpr, hgrows.source_eq⟩, hkeep.mpr hatom, ?_⟩
  simp only [hregistry]
  exact congrArg (f atom) hregisters

/-- The machine's own atoms are registered. -/
theorem run_internOwn (hready : Ready poking [] m) (hroom : 8 ≤ m.heap.room) :
    ∃ atomTrue atomQuote atomPush atomPop m', internOwn m = .ok () m' ∧ m.heap.room ≤ m'.heap.room + 8 ∧
      Ready poking [] m' ∧ Grows m m' ∧ Registered m' atomTrue (Bytes.ofString "t") ∧
      Registered m' atomQuote (Bytes.ofString "quote") ∧ Registered m' atomPush (Bytes.ofString "push") ∧
      Registered m' atomPop (Bytes.ofString "pop") ∧
      m'.registers = { m.registers with
        atomTrue := atomTrue, atomQuote := atomQuote, atomPush := atomPush, atomPop := atomPop
        registry := m'.registers.registry } := by
  obtain ⟨atomTrue, m₁, hrun₁, hroom₁, hready₁, hgrows₁, htrue, hregisters₁⟩ :=
    run_internInto (f := fun atom r => { r with atomTrue := atom }) (Bytes.ofString "t")
      (fun _ _ => rfl) hready (by omega)
  obtain ⟨atomQuote, m₂, hrun₂, hroom₂, hready₂, hgrows₂, hquote, hregisters₂⟩ :=
    run_internInto (f := fun atom r => { r with atomQuote := atom }) (Bytes.ofString "quote")
      (fun _ _ => rfl) hready₁ (by omega)
  obtain ⟨atomPush, m₃, hrun₃, hroom₃, hready₃, hgrows₃, hpush, hregisters₃⟩ :=
    run_internInto (f := fun atom r => { r with atomPush := atom }) (Bytes.ofString "push")
      (fun _ _ => rfl) hready₂ (by omega)
  obtain ⟨atomPop, m₄, hrun₄, hroom₄, hready₄, hgrows₄, hpop, hregisters₄⟩ :=
    run_internInto (f := fun atom r => { r with atomPop := atom }) (Bytes.ofString "pop")
      (fun _ _ => rfl) hready₃ (by omega)
  have hassoc : internOwn =
      (intern (Bytes.ofString "t") >>= fun atom => modifyRegisters fun r => { r with atomTrue := atom }) >>=
      fun _ => (intern (Bytes.ofString "quote") >>= fun atom =>
        modifyRegisters fun r => { r with atomQuote := atom }) >>=
      fun _ => (intern (Bytes.ofString "push") >>= fun atom =>
        modifyRegisters fun r => { r with atomPush := atom }) >>=
      fun _ => intern (Bytes.ofString "pop") >>= fun atom =>
        modifyRegisters fun r => { r with atomPop := atom } := by
    simp only [internOwn, Run.bind_assoc]
  refine ⟨atomTrue, atomQuote, atomPush, atomPop, m₄, ?_, by omega, hready₄,
    ((hgrows₁.trans hgrows₂).trans hgrows₃).trans hgrows₄,
    hgrows₄.registered (hgrows₃.registered (hgrows₂.registered htrue)),
    hgrows₄.registered (hgrows₃.registered hquote), hgrows₄.registered hpush, hpop, ?_⟩
  · rw [hassoc]
    exact (Run.run_bind_of_ok hrun₁).trans ((Run.run_bind_of_ok hrun₂).trans
      ((Run.run_bind_of_ok hrun₃).trans hrun₄))
  · rw [hregisters₄, hregisters₃, hregisters₂, hregisters₁]

/-- Setting up succeeds, on a table of any size. The stack is empty then, the atom that stands for truth is
registered, and the environment binds the primitives on offer. -/
theorem exists_prepared (lowlevel : Bool) (slots : UInt64) (source : Bytes) (sink : Sink)
    (tracing : Bool) (platform : Platform) :
    ∃ m, prepare lowlevel (blank slots.toNat source sink tracing platform) = .ok () m ∧
      Fresh (lowlevel = false) m ∧
      m.source = Source.new source ∧ m.registers.stack = .nil ∧
      Registered m m.registers.atomTrue (Bytes.ofString "t") ∧
      ∃ bindings, List.Forall₂ m.Installs (Primitive.installed lowlevel).reverse bindings ∧
        Scope m m.registers.env bindings := by
  obtain ⟨events, hnote⟩ : ∃ events, (note (.started (Heap.new slots.toNat platform).capacity)).run
      (blank slots.toNat source sink tracing platform) =
        .ok () { blank slots.toNat source sink tracing platform with events := events } := by
    cases tracing <;> exact ⟨_, rfl⟩
  have hroom : 143 ≤ (Heap.new slots.toNat platform).room := by
    have := Heap.minSlots_le_room_new slots.toNat platform
    have : Heap.minSlots = 256 := rfl
    omega
  have hready₀ : Ready (lowlevel = false) []
      { blank slots.toNat source sink tracing platform with events := events } :=
    { ready_blank slots source sink tracing platform with }
  obtain ⟨atomTrue, atomQuote, atomPush, atomPop, m₁, hrun₁, hroom₁, hready₁, hgrows₁, htrue, hquote, hpush,
    hpop, hregisters₁⟩ := run_internOwn hready₀ (show 8 ≤ (Heap.new slots.toNat platform).room by omega)
  have hroom₁ : (Heap.new slots.toNat platform).room ≤ m₁.heap.room + 8 := hroom₁
  have hplain : lowlevel = false → ∀ p ∈ Primitive.installed lowlevel, p.action.isRaw = false := by
    rintro rfl
    decide
  have hlen : (Primitive.installed lowlevel).length ≤ 27 := by cases lowlevel <;> decide
  obtain ⟨env, m₂, hrun₂, -, hready₂, hgrows₂, hregisters₂, bindings, hbindings, hscope⟩ :=
    adds_definePrimitives hplain .nil hready₁ (by omega)
  rw [List.append_nil] at hscope
  have hgrows := hgrows₁.trans hgrows₂
  rw [SameButRegistry] at hregisters₂
  have hscope' : Scope { m₂ with registers := { m₂.registers with env := env } } env bindings :=
    hscope.congr (fun _ ho => ho) id
  refine ⟨{ m₂ with registers := { m₂.registers with env := env } }, ?_, ?_, hgrows.source_eq, ?_, ?_,
    bindings, hbindings, hscope'⟩
  · refine (Run.run_bind_of_ok (x := (get : Run Machine)) rfl).trans ?_
    refine (Run.run_bind_of_ok hnote).trans ?_
    exact (Run.run_bind_of_ok hrun₁).trans (Run.run_bind_of_ok hrun₂)
  · have hnil : m₂.registers.nil = .nil :=
      (congrArg Registers.nil hregisters₂).trans (congrArg Registers.nil hregisters₁)
    have hqueue : m₂.registers.readQueue = .nil :=
      (congrArg Registers.readQueue hregisters₂).trans (congrArg Registers.readQueue hregisters₁)
    have hquote' : m₂.registers.atomQuote = atomQuote :=
      (congrArg Registers.atomQuote hregisters₂).trans (congrArg Registers.atomQuote hregisters₁)
    have hpush' : m₂.registers.atomPush = atomPush :=
      (congrArg Registers.atomPush hregisters₂).trans (congrArg Registers.atomPush hregisters₁)
    have hpop' : m₂.registers.atomPop = atomPop :=
      (congrArg Registers.atomPop hregisters₂).trans (congrArg Registers.atomPop hregisters₁)
    refine ⟨{ hready₂ with }, ⟨{ hready₂.strict with }, hnil, ?_, ?_, ?_⟩, hqueue, ?_, bindings, hscope'⟩
    · exact hquote' ▸ hgrows₂.registered hquote
    · exact hpush' ▸ hgrows₂.registered hpush
    · exact hpop' ▸ hgrows₂.registered hpop
    · intro h spelling ho
      rcases hgrows.atoms ho with hh | ho
      · exact hh
      · cases eq_nil_of_get?_new ho
  · exact (congrArg Registers.stack hregisters₂).trans (congrArg Registers.stack hregisters₁)
  · have htrue' : m₂.registers.atomTrue = atomTrue :=
      (congrArg Registers.atomTrue hregisters₂).trans (congrArg Registers.atomTrue hregisters₁)
    exact htrue' ▸ hgrows₂.registered htrue

/-- A machine that has been set up is fit to be used. -/
theorem exists_fresh (lowlevel : Bool) (slots : UInt64) (source : Bytes) (sink : Sink) (tracing : Bool)
    (platform : Platform) :
    ∃ m, prepare lowlevel (blank slots.toNat source sink tracing platform) = .ok () m ∧
      Fresh (lowlevel = false) m ∧
      m.source = Source.new source := by
  obtain ⟨m, hrun, hfresh, hsource, -⟩ := exists_prepared lowlevel slots source sink tracing platform
  exact ⟨m, hrun, hfresh, hsource⟩

end PushLisp.Machine
