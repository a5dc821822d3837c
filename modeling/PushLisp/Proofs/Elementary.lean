import PushLisp.Proofs.ReadRules
import PushLisp.Proofs.Runs

/-!
# From the smallest parts of evaluation to the whole

A property that takes no account of held roots, and that holds of placing one object, of a collection, of a
change of the state block and of a scan of the text, holds of all that is made of these: of allocation,
which may collect, of interning and reading, and of setting up a machine.

## Main definitions

* `Machine.Placing`, `Machine.Elementary`: a property of the smallest parts, without the text and with it.
* `Machine.Sustains`: an operation keeps an invariant at all its moments.
* `Machine.Invariant`: what the smallest parts keep.

## Main statements

* `Machine.Scoped.allocate`, `Machine.Scoped.intern`: allocation and interning.
* `Machine.Placing.prepare`: setting up a machine.
* `Machine.Elementary.operational`: all that such a property holds of.
* `Machine.Invariant.compositional`: all of evaluation keeps an invariant.
-/
namespace PushLisp.Machine

/-- Reclaims what no root reaches. -/
def reclaim : Run ℕ :=
  modifyGet fun m => ((m.heap.collect m.roots).1, { m with heap := (m.heap.collect m.roots).2 })

/-- Takes something off the text. -/
def scan {α : Type} (f : Source → α × Source) : Run α :=
  modifyGet fun m => ((f m.source).1, { m with source := (f m.source).2 })

/-- A property that holds of placing one object, of a collection and of a change of the state block. -/
structure Placing (poking : Prop) (J : (α : Type) → List Handle → Run α → Machine → Prop) : Prop
    extends Sequential J where
  tryAllocate : ∀ {base m o}, (poking → o.Plain) → J (Option Handle) base (tryAllocate o) m
  reclaim : ∀ {base m}, J ℕ base reclaim m
  redirect : ∀ {base m} {f : Registers → Registers}, (f m.registers).constants = m.registers.constants →
    (f m.registers).slots = m.registers.slots → (f m.registers).capacity = m.registers.capacity →
    J Unit base (Machine.modifyRegisters f) m

/-- A property of operations that passes from the smallest parts to the whole. -/
structure Elementary (poking : Prop) (J : (α : Type) → List Handle → Run α → Machine → Prop) : Prop
    extends Placing poking J where
  look : ∀ {α base m} {f : Machine → Run α}, (∀ sink, f { m with sink := sink } = f m) →
    J α base (f m) m → J α base (MonadState.get >>= f) m
  scan : ∀ {α base m} (f : Source → α × Source), J α base (scan f) m

section Scoped

variable {poking : Prop} {base : List Handle} {m : Machine} {o : Object}
  {J : (α : Type) → List Handle → Run α → Machine → Prop} (R : Scoped J)
include R

/-- A collection has the property if reclaiming has it. -/
theorem Scoped.collect (hreclaim : ∀ {base m}, J ℕ base reclaim m) : J ℕ base collect m := by
  refine R.bind (R.observe rfl) fun _ => R.bind hreclaim fun _ => ?_
  exact R.get (fun _ _ => rfl) (R.bind (R.note _) fun _ => R.pure _)

/-- Allocation has the property if placing an object and a collection have it. -/
theorem Scoped.allocate (hplace : ∀ {base m}, J (Option Handle) base (tryAllocate o) m)
    (hcollect : ∀ {base m}, J ℕ base Machine.collect m) : J Handle base (allocate o) m := by
  refine R.bind hplace fun {first _} _ => ?_
  cases first with
  | some h => exact R.pure h
  | none =>
    refine R.bind (R.withRoots hcollect) fun _ => R.bind hplace fun {second _} _ => ?_
    cases second with
    | some h => exact R.pure h
    | none => exact R.get (fun _ _ => rfl) (R.fail _)

/-- Interning has the property if allocation and a change of the registry have it. -/
theorem Scoped.intern (hallocate : ∀ {base m o}, o.Plain → J Handle base (Machine.allocate o) m)
    (hregister : ∀ {base m} (registry : Handle),
      J Unit base (modifyRegisters fun r => { r with registry := registry }) m)
    (spelling : Bytes) : J Handle base (intern spelling) m := by
  refine R.bind (R.ask (blind_findAtom spelling)) fun {found _} _ => ?_
  cases found with
  | some atom => exact R.pure atom
  | none =>
    refine R.bind (hallocate trivial) fun _ => R.getRegisters ?_
    exact R.bind (hallocate trivial) fun _ => R.bind (hregister _) fun _ => R.pure _

end Scoped

namespace Placing

variable {α : Type} {poking : Prop} {base : List Handle} {m : Machine}
  {J : (α : Type) → List Handle → Run α → Machine → Prop} (R : Placing poking J)
include R

theorem collect : J ℕ base collect m := R.toScoped.collect R.reclaim

theorem allocate {o : Object} (ho : poking → o.Plain) : J Handle base (allocate o) m :=
  R.toScoped.allocate (R.tryAllocate ho) R.collect

theorem storing : Storing poking J where
  toSequential := R.toSequential
  allocate := R.allocate
  collect := R.collect

theorem intern (spelling : Bytes) : J Handle base (intern spelling) m :=
  R.toScoped.intern (fun ho => R.allocate fun _ => ho) (fun _ => R.redirect rfl rfl rfl) spelling

/-! ## Setting up -/

theorem definePrimitive (env : Handle) {p : Primitive} (hp : poking → p.action.isRaw = false) :
    J Handle base (definePrimitive env p) m := by
  refine R.bind (R.intern _) fun _ => R.bind (R.withRoots (R.allocate hp)) fun _ => ?_
  exact R.storing.define env _ _

theorem definePrimitives (env : Handle) {ps : List Primitive}
    (hps : poking → ∀ p ∈ ps, p.action.isRaw = false) : J Handle base (definePrimitives env ps) m := by
  induction ps generalizing env m with
  | nil => exact R.pure env
  | cons p ps ih =>
    refine R.bind (R.definePrimitive env fun hpoking => hps hpoking p List.mem_cons_self) fun _ => ?_
    exact ih _ fun hpoking q hq => hps hpoking q (List.mem_cons_of_mem p hq)

/-- Setting up a machine has the property if any change of the roots in the state block has it. -/
theorem prepare
    (hmodify : ∀ {base m} {f : Registers → Registers}, (f m.registers).slots = m.registers.slots →
      (f m.registers).capacity = m.registers.capacity → J Unit base (modifyRegisters f) m)
    {lowlevel : Bool} (hraw : poking → lowlevel = false) : J Unit base (prepare lowlevel) m := by
  have hown : ∀ {m}, J Unit base internOwn m := by
    refine R.bind (R.intern _) fun _ => R.bind (hmodify rfl rfl) fun _ => ?_
    refine R.bind (R.intern _) fun _ => R.bind (hmodify rfl rfl) fun _ => ?_
    refine R.bind (R.intern _) fun _ => R.bind (hmodify rfl rfl) fun _ => ?_
    exact R.bind (R.intern _) fun _ => hmodify rfl rfl
  refine R.get (fun _ _ => rfl) (R.bind (R.note _) fun _ => R.bind hown fun _ => ?_)
  refine R.bind (R.definePrimitives .nil fun hpoking => ?_) fun _ => hmodify rfl rfl
  rw [hraw hpoking]
  decide

end Placing

namespace Elementary

variable {α : Type} {poking : Prop} {base : List Handle} {m : Machine}
  {J : (α : Type) → List Handle → Run α → Machine → Prop} (R : Elementary poking J)
include R

/-! ## Reading -/

theorem takeString : J Bytes base takeString m := by
  refine R.bind (R.scan Source.scanString) fun {result _} _ => ?_
  cases result with
  | ok bytes => exact R.pure bytes
  | error f => exact R.fail f

theorem lexical : Lexical J where
  bind := R.bind
  pure := R.pure
  unfinished := R.stop .unfinished
  fail _ := R.fail _
  component _ := ⟨R.ask fun _ _ => rfl, R.ask fun _ _ => rfl⟩
  getRegisters := R.toScoped.getRegisters
  getPosition hf := R.look (fun _ => rfl) hf
  setQueue _ := R.redirect rfl rfl rfl
  root := R.root
  keepingRoots := R.keepingRoots
  makeNumber := R.storing.makeNumber
  makePair := R.storing.makePair
  makeString _ := R.allocate fun _ => trivial
  intern := R.intern
  skipBlank := R.scan fun source => ((), source.skipBlank)
  peek := R.look (fun _ => rfl) (R.pure _)
  advance := R.scan fun source => ((), source.advance)
  takeWord := R.scan Source.scanWord
  takeString := R.takeString

theorem operational (hprint : ∀ {base m} (h : Handle), J Unit base (printValue h) m) :
    Operational poking J where
  toStoring := R.storing
  intern := R.intern
  readTerm := R.look (fun _ => rfl) (R.lexical.readFrom _).1
  printValue := hprint

end Elementary

/-! ## Invariants -/

section Invariants

variable {α β : Type} {poking : Prop} {base : List Handle} {P : Moment → Prop} {I : Machine → Prop}
  {m m' : Machine}

/-- A property that takes no account of the roots held when an operation begins. -/
def Regardless (J : {α : Type} → Run α → Machine → Prop) (α : Type) (_ : List Handle) (act : Run α)
    (m : Machine) : Prop := J act m

/-- If `P` is true of all moments that an operation passes, then `I` is kept, and true of the machine at
each of them. -/
def Sustains (P : Moment → Prop) (I : Machine → Prop) (act : Run α) (m : Machine) : Prop :=
  (∀ t, act.passes m t → P t) → I m → I (after act m) ∧ ∀ t, act.passes m t → I t.machine

theorem Sustains.bind {x : Run α} {f : α → Run β} (hx : Sustains P I x m)
    (hf : ∀ {a m'}, x m = .ok a m' → Sustains P I (f a) m') : Sustains P I (x >>= f) m := by
  intro hP hm
  obtain ⟨hafter, hmoments⟩ := hx (fun t ht => hP t (.inl ht)) hm
  cases hrun : x.run m with
  | error reason n =>
    rw [after_bind_of_error hrun, ← after_of_error hrun]
    refine ⟨hafter, fun t ht => hmoments t ?_⟩
    rwa [Run.passes_bind_of_error hrun] at ht
  | ok a n =>
    rw [after_of_ok hrun] at hafter
    obtain ⟨hafter', hmoments'⟩ := hf hrun (fun t ht => hP t (.inr ⟨a, n, hrun, ht⟩)) hafter
    rw [after_bind_of_ok hrun]
    refine ⟨hafter', fun t ht => ?_⟩
    rcases (Run.passes_bind_of_ok hrun).mp ht with ht | ht
    · exact hmoments t ht
    · exact hmoments' t ht

/-- An operation that makes one change keeps what the change keeps. -/
theorem sustains_of_after {act : Run α} (hafter : I m → I (after act m))
    (hpasses : ∀ t, act.passes m t → t.machine = after act m) : Sustains P I act m := by
  refine fun _ hm => ⟨hafter hm, fun t ht => ?_⟩
  rw [hpasses t ht]
  exact hafter hm

theorem sustains_modify {g : Machine → Machine} (hg : I m → I (g m)) :
    Sustains P I (modify g : Run PUnit) m :=
  sustains_of_after hg fun _ ht => congrArg Moment.machine ht

theorem sustains_still {act : Run α} (hafter : after act m = m)
    (hpasses : ∀ t, act.passes m t → t.machine = m) :
    Sustains P I act m :=
  sustains_of_after (by rw [hafter]; exact id) fun t ht => (hpasses t ht).trans hafter.symm

theorem sustains_ask (question : Machine → Except Stop α) : Sustains P I (ask question) m := by
  refine sustains_still (after_ask question m) ?_
  rintro t ⟨reason, -, rfl⟩
  rfl

/-- Operations that leave heap and state block alone keep what depends on these. -/
theorem scoped_sustains (hcongr : ∀ {m m'}, m'.heap = m.heap → m'.registers = m.registers → I m → I m') :
    Scoped (Regardless (Sustains P I)) where
  bind := Sustains.bind
  pure a := sustains_still rfl fun t ht => absurd ht (Run.not_passes_pure a _ t)
  stop _ := sustains_still rfl fun t ht => by rw [show t = _ from ht]
  observe _ := sustains_still rfl fun t ht => by rw [show t = _ from ht]
  ask _ := sustains_ask _
  get {_ _ m f} _ hf := by
    intro hP hm
    rw [Run.passes_get_bind] at hP ⊢
    exact hf hP hm
  note {_ m} e := by
    refine sustains_modify (hcongr ?_ ?_)
    · split <;> rfl
    · split <;> rfl
  modifyShadow _ := sustains_modify (hcongr rfl rfl)
  keepingRoots {_ _ m act} hact := by
    intro hP hm
    obtain ⟨hafter, hmoments⟩ := hact (fun t ht => hP t (.inl ht)) hm
    have hrestored : I { after act m with shadow := m.shadow } := hcongr (m := after act m) rfl rfl hafter
    rw [after_keepingRoots]
    refine ⟨hrestored, ?_⟩
    rintro t (ht | rfl | rfl)
    · exact hmoments t ht
    · exact hafter
    · exact hrestored

theorem sustains_tryAllocate {o : Object} (hplace : ∀ {i}, m.heap.findFree? = some i →
    P ⟨.uses o.references, m⟩ → I m → I { m with heap := m.heap.place i o }) :
    Sustains P I (tryAllocate o) m := by
  intro hP hm
  cases hfree : m.heap.findFree? with
  | none =>
    rw [after_of_ok (run_tryAllocate_of_full hfree)]
    refine ⟨hm, ?_⟩
    rintro t ⟨i, hi, -⟩
    simp [hfree] at hi
  | some i =>
    have hplaced := hplace hfree (hP _ ⟨i, hfree, .inl rfl⟩) hm
    rw [after_of_ok (run_tryAllocate_of_free hfree)]
    refine ⟨hplaced, ?_⟩
    rintro t ⟨j, hj, rfl | rfl⟩
    · exact hm
    · cases hfree.symm.trans hj
      exact hplaced

/-- What placing an object, a collection and any other change of what the heap is not part of keep. -/
structure Invariant (poking : Prop) (P : Moment → Prop) (I : Machine → Prop) : Prop where
  congr : ∀ {m m'}, m'.heap = m.heap → m'.registers.constants = m.registers.constants →
    m'.registers.slots = m.registers.slots → m'.registers.capacity = m.registers.capacity → I m → I m'
  place : ∀ {m i o}, (poking → o.Plain) → m.heap.findFree? = some i → P ⟨.uses o.references, m⟩ →
    I m → I { m with heap := m.heap.place i o }
  collect : ∀ {m}, I m → I { m with heap := (m.heap.collect m.roots).2 }

namespace Invariant

variable (H : Invariant poking P I)
include H

theorem of_eq (hheap : m'.heap = m.heap) (hregisters : m'.registers = m.registers) (hm : I m) : I m' := by
  refine H.congr hheap ?_ ?_ ?_ hm
  · rw [hregisters]
  · rw [hregisters]
  · rw [hregisters]

theorem solitary : Solitary (Regardless (Sustains P I)) where
  bind := Sustains.bind
  get {_ _ m f} hf := by
    intro hP hm
    rw [Run.passes_get_bind] at hP ⊢
    exact hf hP hm
  still hafter hpasses := sustains_still hafter fun t ht => (hpasses t ht).1
  change hheap hregisters _ _ hpasses :=
    sustains_of_after (H.of_eq hheap hregisters) fun t ht => congrArg Moment.machine ((hpasses t).mp ht)
  modifyRegisters hconstants _ _ hslots hcapacity :=
    sustains_of_after (H.congr rfl hconstants hslots hcapacity) fun _ ht => congrArg Moment.machine ht
  keepingRoots := (scoped_sustains H.of_eq).keepingRoots

theorem elementary : Elementary poking (Regardless (Sustains P I)) where
  toSequential := H.solitary.sequential
  tryAllocate ho := sustains_tryAllocate (H.place ho)
  reclaim := sustains_of_after H.collect fun _ ht => congrArg Moment.machine ht
  redirect hconstants hslots hcapacity :=
    sustains_of_after (H.congr rfl hconstants hslots hcapacity) fun _ ht => congrArg Moment.machine ht
  look _ := H.solitary.get
  scan _ := sustains_of_after (H.congr rfl rfl rfl rfl) fun _ ht => congrArg Moment.machine ht

/-- An invariant is kept by all of evaluation if the primitives keep it that overwrite something. -/
theorem compositional
    (hpoke : ∀ {base m}, poking → ∀ env : Handle,
      Regardless (Sustains P I) Handle base (perform .stringPoke env) m)
    (hraw : ∀ {base m h p}, poking → m.object? h = some (.primitive p) → p.action.isRaw = true →
      ∀ env : Handle, Regardless (Sustains P I) Handle base (perform p.action env) m) :
    Compositional poking (Regardless (Sustains P I)) where
  toOperational := H.elementary.operational H.solitary.printValue
  poke := hpoke
  raw := hraw
  attempt {_ _ m act} hact := by
    intro hP hm
    rw [after_attempt]
    exact hact hP hm
  passOn := H.solitary.passOn

omit H in
/-- If all objects are plain under an invariant, then overwriting a string is all that it has to withstand. -/
theorem compositional_of_plain (H : Invariant True P I)
    (hplain : ∀ {m h o}, I m → m.object? h = some o → o.Plain)
    (hput : ∀ {m h} {bytes bytes' : Array UInt8}, m.object? h = some (.string (.owned bytes)) → I m →
      I { m with heap := m.heap.put h (.string (.owned bytes')) }) :
    Compositional True (Regardless (Sustains P I)) := by
  have hactual : ∀ {α : Type} {m : Machine} {h : Handle} {o : Object} {act : Run α}, m.object? h = some o →
      (o.Plain → Sustains P I act m) → Sustains P I act m :=
    fun ho hact hP hm => hact (hplain hm ho) hP hm
  refine H.compositional (fun _ env => ?_) fun _ hp hraw env => ?_
  · refine H.solitary.poke (fun hh _ => ?_) hactual env
    exact sustains_of_after (hput hh) fun _ ht => congrArg Moment.machine ht
  · exact hactual hp fun hcalm => absurd (hraw.symm.trans hcalm) (by simp)

end Invariant

end Invariants

end PushLisp.Machine
