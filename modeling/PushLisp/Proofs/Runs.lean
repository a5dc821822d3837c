import PushLisp.Proofs.Persistence

/-!
# From the parts of evaluation to the whole

Evaluation is put together from a few parts: objects are made, registers set, terms read, roots held and
let go. A property of operations that passes from each part to what follows holds of all builtins without
raw access, of running a sequence and of running a program. What is asked of the parts comes in layers, each
enough for more operations than the one before. Only reading looks at the text, and only printing at the
output.

The first such property is that an operation leaves alone what is held. A frame may let go of its own two
roots at every step; those of its callers are below them on the stack of roots, and stay.

## Main definitions

* `Machine.Blind`: what depends neither on the text nor on the output.
* `Machine.Scoped`, `Machine.Sequential`, `Machine.Storing`, `Machine.Operational`, `Machine.Evaluating`,
  `Machine.Compositional`: a property that passes from the parts to the whole.
* `Machine.Solitary`: a property of how one operation changes the machine.

## Main statements

* `Machine.Operational.effect`: the builtins without raw access.
* `Machine.Evaluating.frame`: running a sequence.
* `Machine.Compositional.runNext`: reading a term and running it.
* `Machine.compositional_lasting`: what is held is left alone.
-/
namespace PushLisp

/-- Whether a step is a change of the state. -/
def Step.isChange : Step → Bool
  | .changes _ => true
  | _ => false

namespace Machine

variable {α β : Type} {poking : Prop} {base : List Handle} {m m' : Machine} {h : Handle}
  {J : (α : Type) → List Handle → Run α → Machine → Prop}

/-- Whether a function of the machine depends neither on the text to be read nor on the output. -/
def Blind (f : Machine → β) (m : Machine) : Prop :=
  ∀ source sink, f { m with source := source, sink := sink } = f m

/-! ## Questions about the heap and the state block -/

/-- An environment is a list on the heap. -/
theorem blind_lookup (env key : Handle) : Blind (lookup env key) m := by
  intro source sink
  have hfrom : ∀ (name : Bytes) (n : ℕ) (env : Handle),
      lookupFrom { m with source := source, sink := sink } key name n env = lookupFrom m key name n env := by
    intro name n
    induction n with
    | zero => exact fun _ => rfl
    | succ n ih =>
      intro env
      simp only [lookupFrom, ih]
      rfl
  simp only [lookup, walkBound, hfrom]
  rfl

/-- So is the registry of atoms. -/
theorem blind_findAtom (spelling : Bytes) : Blind (findAtom spelling) m := by
  intro source sink
  have hfrom : ∀ (n : ℕ) (list : Handle),
      findAtomFrom { m with source := source, sink := sink } spelling n list =
        findAtomFrom m spelling n list := by
    intro n
    induction n with
    | zero => exact fun _ => rfl
    | succ n ih =>
      intro list
      simp only [findAtomFrom, ih]
      rfl
  exact hfrom _ _

/-- What is printed of a value is found on the heap. -/
theorem blind_printFrom (n : ℕ) (h : Handle) (out : Array Bytes) : Blind (printFrom · n h out) m := by
  intro source sink
  have hfrom : ∀ n : ℕ,
      (∀ h out, printFrom { m with source := source, sink := sink } n h out = printFrom m n h out) ∧
        ∀ tail out, printTailFrom { m with source := source, sink := sink } n tail out =
          printTailFrom m n tail out := by
    intro n
    induction n with
    | zero => exact ⟨fun _ _ => rfl, fun _ _ => rfl⟩
    | succ n ih =>
      obtain ⟨hvalue, htail⟩ := ih
      constructor
      · intro h out
        simp only [printFrom, hvalue, htail]
        rfl
      · intro tail out
        simp only [printTailFrom, hvalue, htail]
        rfl
  exact (hfrom n).1 h out

theorem blind_piecesWithin (n : ℕ) (h : Handle) : Blind (piecesWithin · n h) m := by
  intro source sink
  have hsame := blind_printFrom (m := m) n h #[] source sink
  simp only [piecesWithin, hsame]

/-- The bound on the steps of printing depends on the heap alone. -/
theorem blind_pieces (h : Handle) : Blind (pieces h) m := fun source sink =>
  blind_piecesWithin m.printBound h source sink

theorem blind_textOf (h : Handle) : Blind (textOf h) m := by
  intro source sink
  rw [textOf, blind_pieces h source sink, textOf]

/-- What is written for a value depends on the room that the output has, but not on the text to be read. -/
theorem printout_of_source (h : Handle) (source : Source) :
    printout h { m with source := source } = printout h m := by
  have hpieces : pieces h { m with source := source } = pieces h m := blind_pieces h source m.sink
  have hfirst : ∀ n, firstPieces { m with source := source } n h = m.firstPieces n h := by
    intro n
    have hsame := blind_printFrom (m := m) n h #[] source m.sink
    simp only [firstPieces, hsame]
  simp only [printout, hpieces, hfirst]

theorem blind_render (h : Handle) : Blind (render h) m := by
  intro source sink
  rw [render, blind_textOf h source sink, render]

/-- The value stack is a list whose head is in the state block. -/
theorem blind_stackDepth : Blind stackDepth m := by
  intro source sink
  have hfrom : ∀ (n : ℕ) (list : Handle) (met : List Handle),
      itemsFrom { m with source := source, sink := sink } n list met = itemsFrom m n list met := by
    intro n
    induction n with
    | zero => exact fun _ _ => rfl
    | succ n ih =>
      intro list met
      simp only [itemsFrom, ih]
      rfl
  simp only [stackDepth, stackItems, items, walkBound, hfrom]

/-- Whether a call is the last of its sequence is seen from the sequence and the environment. -/
theorem blind_tailCallee? (term rest env : Handle) : Blind (tailCallee? term rest env) m := by
  intro source sink
  rw [tailCallee?, blind_lookup env term source sink]
  rfl

/-- A property of operations that passes from the parts of a sequence to the whole. It may refer to roots
that are held when an operation begins. -/
structure Scoped (J : (α : Type) → List Handle → Run α → Machine → Prop) : Prop where
  bind : ∀ {α β base m} {x : Run α} {f : α → Run β}, J α base x m →
    (∀ {a m'}, x m = .ok a m' → J β base (f a) m') → J β base (x >>= f) m
  pure : ∀ {α base m} (a : α), J α base (Pure.pure a) m
  stop : ∀ {α base m} (reason : Stop), J α base (stop reason) m
  observe : ∀ {base m} {step : Step}, step.isChange = false → J Unit base (observe step) m
  ask : ∀ {α base m} {question : Machine → Except Stop α}, Blind question m → J α base (ask question) m
  get : ∀ {α base m} {f : Machine → Run α}, Blind f m → J α base (f m) m → J α base (get >>= f) m
  note : ∀ {base m} (e : Event), J Unit base (note e) m
  modifyShadow : ∀ {base m} {f : List Handle → List Handle}, (base <:+ m.shadow → base <:+ f m.shadow) →
    J Unit base (modify fun m => { m with shadow := f m.shadow }) m
  keepingRoots : ∀ {α base m} {act : Run α}, J α m.shadow act m → J α base (keepingRoots act) m

/-- A property that moreover holds if the stack, the environment or the program is replaced. -/
structure Sequential (J : (α : Type) → List Handle → Run α → Machine → Prop) : Prop extends Scoped J where
  modifyRegisters : ∀ {base m} {f : Registers → Registers},
    (f m.registers).constants = m.registers.constants →
    (f m.registers).registry = m.registers.registry →
    (f m.registers).readQueue = m.registers.readQueue →
    (f m.registers).slots = m.registers.slots → (f m.registers).capacity = m.registers.capacity →
    J Unit base (modifyRegisters f) m

/-- A property that holds of making objects and of collections too. Where `poking` holds, strings are
overwritten, and nothing gives access to raw memory. -/
structure Storing (poking : Prop) (J : (α : Type) → List Handle → Run α → Machine → Prop) : Prop
    extends Sequential J where
  allocate : ∀ {base m o}, (poking → o.Plain) → J Handle base (allocate o) m
  collect : ∀ {base m}, J ℕ base collect m

/-- A property that holds of reading and writing too. -/
structure Operational (poking : Prop) (J : (α : Type) → List Handle → Run α → Machine → Prop) : Prop
    extends Storing poking J where
  intern : ∀ {base m} (spelling : Bytes), J Handle base (intern spelling) m
  readTerm : ∀ {base m}, J Handle base readTerm m
  printValue : ∀ {base m} (h : Handle), J Unit base (printValue h) m

/-- A property that holds of all primitives that can be called. -/
structure Evaluating (poking : Prop) (J : (α : Type) → List Handle → Run α → Machine → Prop) : Prop
    extends Operational poking J where
  poke : ∀ {base m}, poking → ∀ env : Handle, J Handle base (perform .stringPoke env) m
  raw : ∀ {base m h p}, poking → m.object? h = some (.primitive p) → p.action.isRaw = true →
    ∀ env : Handle, J Handle base (perform p.action env) m

/-- A property of operations that passes from the parts of evaluation to the whole. -/
structure Compositional (poking : Prop) (J : (α : Type) → List Handle → Run α → Machine → Prop) : Prop
    extends Evaluating poking J where
  attempt : ∀ {α base m} {act : Run α}, J α base act m → J (Except Stop α) base (attempt act) m
  passOn : ∀ {base m} (ended : Except Stop Unit), J Unit base (passOn ended) m

namespace Scoped

variable (R : Scoped J)
include R

/-! ## Small operations -/

theorem fail (f : Fault) : J α base (fail f) m := R.stop (.fault f)

/-- What follows is given the registers of the machine. -/
theorem getRegisters {f : Registers → Run α} (hf : J α base (f m.registers) m) :
    J α base (getRegisters >>= f) m := by
  refine R.bind (R.get (fun _ _ => rfl) (R.pure m.registers)) fun hrun => ?_
  cases hrun
  exact hf

theorem root (hs : List Handle) : J Unit base (root hs) m :=
  R.modifyShadow fun hheld => hheld.trans (List.suffix_append hs _)

/-- Holding further roots is a scope. -/
theorem withRoots {hs : List Handle} {act : Run α}
    (hact : J α m.shadow act { m with shadow := hs ++ m.shadow }) : J α base (withRoots hs act) m := by
  refine R.keepingRoots (R.bind (R.root hs) fun hrun => ?_)
  cases hrun
  exact hact

/-- A frame replaces its own two roots, and those of the callers stay. -/
theorem holdFrame {callers : List Handle} (hcallers : base <:+ callers) (seq env : Handle) :
    J Unit base (holdFrame callers seq env) m :=
  R.bind (R.observe rfl) fun _ =>
    R.modifyShadow (f := fun _ => env :: seq :: callers) fun _ =>
      hcallers.trans (List.suffix_append [env, seq] callers)

/-- A frame is opened in a scope of its own, with the roots of its callers under it. -/
theorem enter {run : List Handle → Run Unit} (hrun : ∀ {n}, J Unit m.shadow (run m.shadow) n)
    (seq env : Handle) : J Unit base (enter run seq env) m :=
  R.keepingRoots (R.get (fun _ _ => rfl) (R.bind (R.root [env, seq]) fun _ => hrun))

theorem traceSequence (seq : Handle) : J Unit base (traceSequence seq) m := by
  refine R.get (fun _ _ => rfl) ?_
  split
  · refine R.bind (R.observe rfl) fun _ => R.bind (R.ask (blind_render seq)) fun _ => ?_
    exact R.bind (R.ask blind_stackDepth) fun _ => R.note _
  · exact R.pure _

/-- A trace renders what is evaluated, if one is kept. -/
theorem traceTerm (term : Handle) : J Unit base (traceTerm term) m := by
  refine R.get (fun _ _ => rfl) ?_
  split
  · exact R.bind (R.observe rfl) fun _ => R.bind (R.ask (blind_render term)) fun _ => R.note _
  · exact R.pure _

end Scoped

namespace Sequential

variable (R : Sequential J)
include R

/-! ## Taking values off the stack -/

/-- The stack is taken apart without a call. -/
theorem tryPop : J (Option Handle) base tryPop m := by
  refine R.getRegisters ?_
  dsimp only
  split
  · exact R.pure none
  · refine R.bind (R.ask fun _ _ => rfl) fun _ => R.bind (R.ask fun _ _ => rfl) fun _ => ?_
    exact R.bind (R.modifyRegisters rfl rfl rfl rfl rfl) fun _ => R.pure _

theorem pop : J Handle base pop m := by
  refine R.bind R.tryPop fun {top _} _ => ?_
  cases top with
  | some value => exact R.pure value
  | none => exact R.fail _

/-- Something is popped, looked at, and then the rest. -/
theorem popUsing {f : Handle → Run α} (hf : ∀ {value m}, J α base (f value) m) :
    J α base (do
      let value ← Machine.pop
      Machine.observe (.uses [value])
      f value) m :=
  R.bind R.pop fun _ => R.bind (R.observe rfl) fun _ => hf

/-- What is popped and is no number counts as zero. -/
theorem popNumber : J Int64 base popNumber m := R.popUsing (R.get (fun _ _ => rfl) (R.pure _))

end Sequential

namespace Storing

variable (R : Storing poking J)
include R

/-! ## Making objects -/

theorem makePair (car cdr : Handle) : J Handle base (makePair car cdr) m := R.allocate fun _ => trivial

theorem makeNumber (n : Int64) : J Handle base (makeNumber n) m := R.allocate fun _ => trivial

theorem makeClosure (body env : Handle) : J Handle base (makeClosure body env) m :=
  R.allocate fun _ => trivial

/-- The induction is on the values. -/
theorem consAll (list : Handle) (values : List Handle) : J Handle base (consAll list values) m := by
  induction values generalizing list m with
  | nil => exact R.pure list
  | cons value values ih => exact R.bind (R.makePair value list) fun _ => ih _

/-- They are held while the list is made. -/
theorem makeList (values : List Handle) : J Handle base (makeList values) m :=
  R.withRoots (R.consAll .nil _)

/-- The environment is held while the binding is made. -/
theorem define (env key value : Handle) : J Handle base (define env key value) m :=
  R.bind (R.withRoots (R.makePair key value)) fun _ => R.makePair _ env

theorem push (value : Handle) : J Unit base (push value) m :=
  R.getRegisters (R.bind (R.makePair _ _) fun _ => R.modifyRegisters rfl rfl rfl rfl rfl)

theorem pushNumber (n : Int64) : J Unit base (pushNumber n) m :=
  R.bind (R.makeNumber n) fun _ => R.push _

/-! ## Builtins -/

theorem arithmetic (f : Int64 → Int64 → Int64) : J Unit base (arithmetic f) m :=
  R.bind R.popNumber fun _ => R.bind R.popNumber fun _ => R.pushNumber _

theorem pushBound (env : Handle) : J Unit base (pushBound env) m :=
  R.popUsing (R.bind (R.ask (blind_lookup env _)) fun _ => R.push _)

theorem popBound (env : Handle) : J Handle base (popBound env) m :=
  R.bind R.pop fun _ => R.bind R.pop fun _ => R.define env _ _

theorem consPair : J Unit base consPair m :=
  R.bind R.pop fun _ => R.bind R.pop fun _ => R.bind (R.makePair _ _) fun _ => R.push _

theorem compareTop : J Unit base compareTop m := by
  refine R.bind R.pop fun _ => R.bind R.pop fun _ => R.bind (R.observe rfl) fun _ => ?_
  exact R.get (fun _ _ => rfl) (R.push _)

/-- The second value is held while the first is pushed. -/
theorem swapIf : J Unit base swapIf m := by
  refine R.bind R.pop fun _ => R.getRegisters ?_
  split
  · refine R.bind R.pop fun _ => R.bind R.pop fun _ => ?_
    exact R.bind (R.withRoots (R.push _)) fun _ => R.push _
  · exact R.pure _

theorem kindCode : J Unit base kindCode m := by
  refine R.popUsing (R.get (fun _ _ => rfl) ?_)
  split
  · exact R.pushNumber _
  · exact R.get (fun _ _ => rfl) (R.stop _)

/-- The platform may refuse a string that is too long. -/
theorem newString : J Unit base newString m := by
  refine R.bind R.popNumber fun {length _} _ => ?_
  cases natural? length with
  | none => exact R.fail _
  | some n =>
    refine R.get (fun _ _ => rfl) ?_
    split
    · exact R.bind (R.allocate fun _ => trivial) fun _ => R.push _
    · exact R.fail _

theorem peekString : J Unit base peekString m := by
  refine R.bind R.popNumber fun _ => R.popUsing (R.get (fun _ _ => rfl) ?_)
  split
  · exact R.pushNumber _
  · exact R.stop _

end Storing

/-- The property holds of builtins without raw access. Only one of them overwrites strings. -/
theorem Operational.effect (R : Operational poking J) {b : Builtin} (hraw : b.isRaw = false)
    (hpoke : b ≠ .stringPoke) (env : Handle) : J Handle base (effect b env) m := by
  have hlast : ∀ {act : Run Unit}, J Unit base act m → J Handle base (do act; return env) m :=
    fun hact => R.bind hact fun _ => R.pure env
  have hpart : ∀ question : Handle → Machine → Except Stop Handle,
      (∀ {pair m}, Blind (question pair) m) → J Handle base (do
        let pair ← Machine.pop
        Machine.observe (.uses [pair])
        Machine.push (← Machine.ask (question pair))
        return env) m := fun question hblind =>
    R.popUsing (R.bind (R.ask hblind) fun _ => R.bind (R.push _) fun _ => R.pure env)
  cases b with
  | push => exact hlast (R.pushBound env)
  | pop => exact R.popBound env
  | cons => exact hlast R.consPair
  | car => exact hpart car fun _ _ => rfl
  | cdr => exact hpart cdr fun _ _ => rfl
  | eq => exact hlast R.compareTop
  | cswap => exact hlast R.swapIf
  | tag => exact hlast R.kindCode
  | read => exact R.bind R.readTerm fun _ => R.bind (R.push _) fun _ => R.pure env
  | print => exact R.bind R.pop fun _ => R.bind (R.printValue _) fun _ => R.pure env
  | stack => exact R.getRegisters (hlast (R.push _))
  | env => exact hlast (R.push env)
  | sub | mul | nand | shiftLeft | shiftRight => exact hlast (R.arithmetic _)
  | makeString => exact hlast R.newString
  | stringPeek => exact hlast R.peekString
  | stringPoke => exact absurd rfl hpoke
  | gc => exact R.bind R.collect fun _ => R.pure env
  | stateAddress | readWord | writeWord | objectOfHandle | handleOfObject | memoryView => cases hraw

namespace Evaluating

variable (R : Evaluating poking J)
include R

/-- A call is observed, and has its effect. -/
theorem perform {b : Builtin} (hraw : b.isRaw = false) (hpoke : b = .stringPoke → poking) (env : Handle) :
    J Handle base (perform b env) m := by
  by_cases hb : b = .stringPoke
  · rw [hb]
    exact R.poke (hpoke hb) env
  · exact R.bind (R.observe rfl) fun _ => R.effect hraw hb env

/-! ## Evaluation -/

/-- Evaluating a term has the property if calls do. -/
theorem evaluateWith {call : Handle → Handle → Run Unit} (hpoking : poking)
    (hcall : ∀ {m} body captured, J Unit base (call body captured) m) (term env : Handle) :
    J Handle base (evaluateWith call term env) m := by
  refine R.bind (R.traceTerm term) fun _ => R.get (fun _ _ => rfl) ?_
  split
  · refine R.bind (R.ask (blind_lookup env term)) fun _ => R.get (fun _ _ => rfl) ?_
    split
    · exact R.bind (hcall _ _) fun _ => R.pure env
    · rename_i p hp
      cases hraw : p.action.isRaw with
      | true => exact R.raw hpoking hp hraw env
      | false => exact R.perform hraw (fun _ => hpoking) env
    · exact R.bind (R.push _) fun _ => R.pure env
  · exact R.bind (R.makeClosure term env) fun _ => R.bind (R.push _) fun _ => R.pure env
  · exact R.bind (R.makeClosure term env) fun _ => R.bind (R.push _) fun _ => R.pure env
  · exact R.bind (R.push _) fun _ => R.pure env

/-- Running what is left of a sequence has the property. The induction is on the bound, over all callers at
once: a call that is not the last of its sequence opens a frame above the current one. -/
theorem frame (hpoking : poking) (bound : ℕ) {callers : List Handle} (hcallers : base <:+ callers)
    (seq env : Handle) : J Unit base (frame bound callers seq env) m := by
  induction bound generalizing base callers seq env m with
  | zero =>
    rw [Machine.frame]
    exact R.stop _
  | succ bound ih =>
    have hframe : ∀ {n : Machine} (rest env : Handle), J Unit base (do
        Machine.holdFrame callers rest env
        Machine.frame bound callers rest env) n := fun rest env =>
      R.bind (R.holdFrame hcallers rest env) fun _ => ih hcallers rest env
    rw [Machine.frame]
    refine R.bind (R.observe rfl) fun _ => R.getRegisters ?_
    split
    · exact R.pure ()
    refine R.bind (R.traceSequence seq) fun _ => R.bind (R.ask fun _ _ => rfl) fun _ => ?_
    refine R.bind (R.ask fun _ _ => rfl) fun _ => R.bind (R.holdFrame hcallers _ _) fun _ => ?_
    refine R.getRegisters ?_
    split
    · split
      · exact R.bind (R.fail _) fun h => nomatch h
      · refine R.bind (R.ask fun _ _ => rfl) fun _ => R.bind (R.ask fun _ _ => rfl) fun _ => ?_
        refine R.bind (R.holdFrame hcallers _ _) fun _ => ?_
        exact R.bind (R.push _) fun _ => ih hcallers _ _
    · refine R.bind (R.ask (blind_tailCallee? _ _ env)) fun {callee _} _ => ?_
      cases callee with
      | some callee => exact hframe callee.1 callee.2
      | none =>
        refine R.bind (R.evaluateWith hpoking (fun body captured => ?_) _ env) fun _ => hframe _ _
        exact R.enter (ih (List.suffix_refl _) body captured) body captured

/-- A sequence is run in a frame. -/
theorem compute (hpoking : poking) (bound : ℕ) (seq env : Handle) :
    J Unit base (compute bound seq env) m :=
  R.enter (R.frame hpoking bound (List.suffix_refl _) seq env) seq env

/-- A term is evaluated by running the closures that it calls. -/
theorem evaluate (hpoking : poking) (bound : ℕ) (term env : Handle) :
    J Handle base (evaluate bound term env) m :=
  R.evaluateWith hpoking (fun body captured => R.compute hpoking bound body captured) term env

/-- Only a closure can be forced. -/
theorem force (hpoking : poking) (bound : ℕ) : J Unit base (force bound) m := by
  refine R.popUsing (R.get (fun _ _ => rfl) ?_)
  split
  · exact R.compute hpoking bound _ _
  · exact R.get (fun _ _ => rfl) (R.stop _)

end Evaluating

/-- Reading a term and running it has the property. -/
theorem Compositional.runNext (R : Compositional poking J) (hpoking : poking) (bound : ℕ) :
    J Unit base (runNext bound) m := by
  refine R.bind R.readTerm fun _ => R.bind (R.modifyRegisters rfl rfl rfl rfl rfl) fun _ => ?_
  refine R.getRegisters ?_
  exact R.bind (R.attempt (R.compute hpoking bound _ _)) fun _ => R.passOn _

/-! ## Properties of one run -/

/-- A property of how one operation changes the heap, the state block, the text and the roots. -/
structure Solitary (J : (α : Type) → List Handle → Run α → Machine → Prop) : Prop where
  bind : ∀ {α β base m} {x : Run α} {f : α → Run β}, J α base x m →
    (∀ {a m'}, x m = .ok a m' → J β base (f a) m') → J β base (x >>= f) m
  get : ∀ {α base m} {f : Machine → Run α}, J α base (f m) m → J α base (get >>= f) m
  still : ∀ {α base m} {act : Run α}, after act m = m →
    (∀ t, act.passes m t → t.machine = m ∧ t.step.isChange = false) → J α base act m
  change : ∀ {α base m} {act : Run α}, (after act m).heap = m.heap →
    (after act m).registers = m.registers → (after act m).source = m.source →
    (base <:+ m.shadow → base <:+ (after act m).shadow) →
    (∀ t, act.passes m t ↔ t = ⟨.changes m, after act m⟩) → J α base act m
  modifyRegisters : ∀ {base m} {f : Registers → Registers},
    (f m.registers).constants = m.registers.constants →
    (f m.registers).registry = m.registers.registry →
    (f m.registers).readQueue = m.registers.readQueue →
    (f m.registers).slots = m.registers.slots → (f m.registers).capacity = m.registers.capacity →
    J Unit base (modifyRegisters f) m
  keepingRoots : ∀ {α base m} {act : Run α}, J α m.shadow act m → J α base (keepingRoots act) m

namespace Solitary

variable (S : Solitary J)
include S

theorem pure (a : α) : J α base (Pure.pure a) m :=
  S.still rfl fun t ht => absurd ht (Run.not_passes_pure a m t)

theorem stop (reason : Stop) : J α base (stop reason) m := by
  refine S.still rfl ?_
  rintro t rfl
  exact ⟨rfl, rfl⟩

/-- A question leaves everything as it was. -/
theorem ask (question : Machine → Except Stop α) : J α base (ask question) m := by
  refine S.still (after_ask question m) ?_
  rintro t ⟨reason, -, rfl⟩
  exact ⟨rfl, rfl⟩

/-- A change of what is neither on the heap nor in the state block nor text. -/
theorem modify {g : Machine → Machine} (hheap : (g m).heap = m.heap)
    (hregisters : (g m).registers = m.registers) (hsource : (g m).source = m.source)
    (hheld : base <:+ m.shadow → base <:+ (g m).shadow) : J Unit base (modify g) m :=
  S.change hheap hregisters hsource hheld fun _ => Iff.rfl

/-- With these few laws all of the small operations are covered. -/
theorem sequential : Sequential J where
  bind := S.bind
  pure := S.pure
  stop := S.stop
  observe {_ m step} hstep := by
    refine S.still rfl ?_
    rintro t rfl
    exact ⟨rfl, hstep⟩
  ask _ := S.ask _
  get _ := S.get
  note e := by
    refine S.modify ?_ ?_ ?_ ?_
    · split <;> rfl
    · split <;> rfl
    · split <;> rfl
    · split <;> exact id
  modifyShadow hheld := S.modify rfl rfl rfl hheld
  modifyRegisters := S.modifyRegisters
  keepingRoots := S.keepingRoots

theorem write (pieces : List Bytes) : J Unit base (write pieces) m := by
  refine S.bind (S.change rfl rfl rfl id fun _ => Iff.rfl) fun {result _} _ => ?_
  cases result with
  | none => exact S.pure ()
  | some cause => exact S.stop _

/-- A value is printed piece by piece. -/
theorem printValue (h : Handle) : J Unit base (printValue h) m :=
  S.bind (S.sequential.observe rfl) fun _ =>
    S.bind (S.ask _) fun _ => S.write _

theorem passOn (ended : Except Stop Unit) : J Unit base (passOn ended) m := by
  unfold Machine.passOn
  split
  · exact S.stop _
  · refine S.get ?_
    split
    · exact S.stop _
    · exact S.pure ()
    · exact S.stop _

/-- Storing a byte in a string has the property if all strings own their bytes and replacing these has it. -/
theorem setByte (hput : ∀ {base m h} {bytes bytes' : Array UInt8},
      m.object? h = some (.string (.owned bytes)) → bytes'.size = bytes.size →
      J Unit base (set { m with heap := m.heap.put h (.string (.owned bytes')) }) m)
    (hplain : ∀ {base m h o} {act : Run Unit}, m.object? h = some o → (o.Plain → J Unit base act m) →
      J Unit base act m) (string : Handle) (offset : Int64) (value : UInt8) : J Unit base (do
    let m ← MonadState.get
    match m.object? string with
    | some (.string buffer) =>
      match natural? offset with
      | some k => set (m.pokeBuffer string buffer k value)
      | none => return ()
    | _ => Machine.stop (m.mismatch "string-poke" "string" string)) m := by
  have R := S.sequential
  refine S.get ?_
  split
  · rename_i buffer hstring
    split
    · refine hplain hstring fun hbuffer => ?_
      cases buffer with
      | owned bytes => exact hput hstring (by simp)
      | view address length => exact hbuffer.elim
    · exact R.pure _
  · exact R.stop _

/-- So has overwriting strings. -/
theorem poke (hput : ∀ {base m h} {bytes bytes' : Array UInt8},
      m.object? h = some (.string (.owned bytes)) → bytes'.size = bytes.size →
      J Unit base (set { m with heap := m.heap.put h (.string (.owned bytes')) }) m)
    (hplain : ∀ {base m h o} {act : Run Unit}, m.object? h = some o → (o.Plain → J Unit base act m) →
      J Unit base act m) (env : Handle) : J Handle base (perform .stringPoke env) m := by
  have R := S.sequential
  refine R.bind (R.observe rfl) fun _ => R.bind ?_ fun _ => R.pure env
  refine R.bind R.popNumber fun _ => R.bind R.popNumber fun _ => R.popUsing ?_
  exact S.setByte hput hplain _ _ _

end Solitary

/-! ## What is held is left alone -/

/-- Overwriting the bytes of a string changes that string, and leaves its length. -/
theorem lasting_putString {bytes bytes' : Array UInt8} (hpoking : poking)
    (hh : m.object? h = some (.string (.owned bytes))) (hsize : bytes'.size = bytes.size) :
    Lasting poking base (set { m with heap := m.heap.put h (.string (.owned bytes')) } : Run PUnit) m := by
  intro hready
  have henrolled : ∀ {entries}, m.heap.Enrolled m.registers.registry entries →
      (m.heap.put h (.string (.owned bytes'))).Enrolled m.registers.registry entries :=
    (enrolled_putString_iff hh).mpr
  have hready' : Ready poking base { m with heap := m.heap.put h (.string (.owned bytes')) } := by
    refine ⟨hready.held, hready.unmarked.modify h _, ?_, ?_, ?_, fun _ {k o} ho => ?_⟩
    · rw [Heap.put, Heap.capacity_modify]
      exact hready.capacity_le
    · exact (object?_putString_iff hh (by simp [Object.kind])).mpr hready.object?_nil
    · obtain ⟨entries, hentries⟩ := hready.enrolled
      exact ⟨entries, henrolled hentries⟩
    · rcases object?_of_putString hh ho with ⟨-, rfl⟩ | hold
      · trivial
      · exact hready.plain hpoking hold
  refine ⟨hready', ⟨fun {k o} _ ho => ?_, rfl, fun hold => ⟨[], henrolled hold⟩, ?_, rfl⟩, ?_⟩
  · show ∃ o', (m.heap.put h (.string (.owned bytes'))).get? k = some o' ∧ o.Resembles poking o'
    rw [Heap.get?_put hh]
    by_cases hk : k = h
    · subst hk
      cases hh.symm.trans ho
      exact ⟨_, if_pos rfl, .poked hpoking hsize⟩
    · exact ⟨o, (if_neg hk).trans ho, .refl o⟩
  · exact Heap.capacity_modify _ _ _
  · rintro t rfl
    exact hready'

/-- Leaving alone what is anchored is a property of one run. -/
theorem solitary_lasting (poking : Prop) : Solitary fun _ base act m => Lasting poking base act m where
  bind hx hf := hx.bind hf
  get := lasting_get
  still hafter hpasses := lasting_of_after_eq hafter fun t ht => (hpasses t ht).1
  change hheap hregisters hsource hheld hpasses :=
    lasting_of_heap_eq hheap (congrArg Registers.constants hregisters)
      (congrArg Registers.registry hregisters) hheld (congrArg Source.extent hsource)
      fun t ht => congrArg Moment.machine ((hpasses t).mp ht)
  modifyRegisters hconstants hregistry _ _ _ := lasting_modifyRegisters hconstants hregistry
  keepingRoots := Lasting.keepingRoots

/-- On a machine that is ready every object is plain, if strings may be overwritten. -/
theorem lasting_of_plain {o : Object} {act : Run α} (hpoking : poking) (ho : m.object? h = some o)
    (hact : o.Plain → Lasting poking base act m) : Lasting poking base act m :=
  fun hready => hact (hready.plain hpoking ho) hready

/-- Leaving alone what is held passes from the parts of evaluation to the whole. -/
theorem compositional_lasting (poking : Prop) :
    Compositional poking fun _ base act m => Lasting poking base act m where
  toSequential := (solitary_lasting poking).sequential
  allocate := lasting_allocate
  collect := lasting_collect
  intern := lasting_intern
  readTerm := lasting_readTerm
  printValue := (solitary_lasting poking).printValue
  poke hpoking := (solitary_lasting poking).poke (lasting_putString hpoking) (lasting_of_plain hpoking)
  raw hpoking hp hraw _ :=
    lasting_of_plain hpoking hp fun hplain => absurd (hraw.symm.trans hplain) (by simp)
  attempt := Lasting.attempt
  passOn := (solitary_lasting poking).passOn

end Machine

end PushLisp
