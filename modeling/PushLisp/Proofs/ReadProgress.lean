import PushLisp.Proofs.Bindings
import PushLisp.Proofs.Lookahead

/-!
# Reading makes progress

Reading goes forward in the text, and only forward. A directive puts terms into the queue, so neither what is
left of the text nor the queue gets shorter with every read. But a directive takes two bytes at least and
leaves two terms, so the length of the queue together with twice the length of the rest does. That bounds the
steps of a read, where the parts of reading call each other, and the number of reads that can succeed.

The only thing that may go on forever is the search for an atom in the registry, and only if the registry runs
into itself.

## Main definitions

* `Source.Onward`: a text, and what is left of it later.
* `Machine.Forward`: an operation that goes forward in the text, at every moment.
* `Machine.Consumes`: an operation that takes some bytes at least.
* `Machine.Serves`: what a read takes and what it leaves in the queue.
* `Machine.Ends`: an operation that ends, unless the registry runs into itself.
* `Machine.Progress`: how reading goes on.

## Main statements

* `Machine.lexical_forward`: reading goes forward.
* `Machine.serves_readTerm`: one read.
* `Machine.ends_readFrom`: reading ends.
* `Machine.progress_readTerm`: all of this together, with the number of reads.
-/
namespace PushLisp

/-! ## Going forward -/

namespace Source

variable {s s' s'' : Source}

/-- Some bytes of a text are consumed, perhaps none. -/
structure Onward (s s' : Source) : Prop where
  suffix : s'.rest <:+ s.rest
  extent_eq : s'.extent = s.extent

namespace Onward

theorem refl (s : Source) : Onward s s := ⟨List.suffix_refl _, rfl⟩

theorem trans (h : Onward s s') (h' : Onward s' s'') : Onward s s'' :=
  ⟨h'.suffix.trans h.suffix, h'.extent_eq.trans h.extent_eq⟩

theorem length_le (h : Onward s s') : s'.rest.length ≤ s.rest.length := h.suffix.length_le

theorem position_le (h : Onward s s') : s.position ≤ s'.position := by
  have hextent := h.extent_eq
  have hle := h.length_le
  simp only [extent] at hextent
  omega

theorem position_le_extent (h : Onward s s') : s'.position ≤ s.extent := by
  rw [← h.extent_eq, extent]
  omega

end Onward

theorem onward_skipBlank (s : Source) : Onward s s.skipBlank :=
  ⟨skipBlankFrom_suffix false _ _, s.extent_skipBlank⟩

theorem onward_advance (s : Source) : Onward s s.advance := by
  refine ⟨?_, s.extent_advance⟩
  unfold advance
  split
  · exact List.suffix_refl _
  · rename_i c rest hrest
    rw [hrest]
    exact List.suffix_cons c rest

theorem onward_scanWord (s : Source) : Onward s s.scanWord.2 :=
  ⟨⟨s.scanWord.1, s.scanWord_append⟩, s.extent_scanWord⟩

theorem onward_scanString (s : Source) : Onward s s.scanString.2 := by
  refine ⟨?_, extent_scanStringFrom s.position [] s.rest⟩
  obtain ⟨k, a, hk⟩ := nearsighted_scanStringFrom s.position [] s.rest
  have hrest : s.scanString.2.rest = s.rest.drop k := congrArg (fun r => r.2.rest) (hk s.rest rfl)
  rw [hrest]
  exact List.drop_suffix k s.rest

end Source

/-- A list comes to an end at an object that is no pair. -/
def Heap.Halts (heap : Heap) (h : Handle) : Prop :=
  ∃ vs last o, heap.Chain h vs last ∧ heap.get? last = some o ∧ ∀ car cdr, o ≠ .pair car cdr

namespace Machine

variable {α β : Type} {base : List Handle} {m m' m'' : Machine} {ts ts' : List Handle}

/-- An operation goes forward in the text. So does every change it makes, and no moment of it is before its
beginning or beyond its end. -/
structure Forward (act : Run α) (m : Machine) : Prop where
  onward : m.source.Onward (after act m).source
  since : ∀ t, act.passes m t → m.source.Onward t.machine.source
  until_end : ∀ t, act.passes m t → t.machine.source.Onward (after act m).source
  change : ∀ t before, act.passes m t → t.step = .changes before → before.source.Onward t.machine.source

theorem Forward.of_ok {act : Run α} {a : α} (hact : Forward act m) (hrun : act m = .ok a m') :
    m.source.Onward m'.source := by
  have honward := hact.onward
  rwa [after_of_ok hrun] at honward

theorem Forward.bind {x : Run α} {f : α → Run β} (hx : Forward x m)
    (hf : ∀ {a m'}, x m = .ok a m' → Forward (f a) m') : Forward (x >>= f) m := by
  cases hrun : x.run m with
  | error reason n =>
    have hafter := after_of_error hrun
    constructor
    · rw [after_bind_of_error hrun, ← hafter]
      exact hx.onward
    · intro t ht
      exact hx.since t ((Run.passes_bind_of_error hrun).mp ht)
    · intro t ht
      rw [after_bind_of_error hrun, ← hafter]
      exact hx.until_end t ((Run.passes_bind_of_error hrun).mp ht)
    · intro t before ht hstep
      exact hx.change t before ((Run.passes_bind_of_error hrun).mp ht) hstep
  | ok a n =>
    have hfirst := hx.of_ok hrun
    have hrest := hf hrun
    constructor
    · rw [after_bind_of_ok hrun]
      exact hfirst.trans hrest.onward
    · intro t ht
      rcases (Run.passes_bind_of_ok hrun).mp ht with ht | ht
      · exact hx.since t ht
      · exact hfirst.trans (hrest.since t ht)
    · intro t ht
      rw [after_bind_of_ok hrun]
      rcases (Run.passes_bind_of_ok hrun).mp ht with ht | ht
      · have huntil := hx.until_end t ht
        rw [after_of_ok hrun] at huntil
        exact huntil.trans hrest.onward
      · exact hrest.until_end t ht
    · intro t before ht hstep
      rcases (Run.passes_bind_of_ok hrun).mp ht with ht | ht
      · exact hx.change t before ht hstep
      · exact hrest.change t before ht hstep

/-- An operation that makes one change goes forward if the change does. -/
theorem forward_of_change {act : Run α} (honward : m.source.Onward (after act m).source)
    (hpasses : ∀ t, act.passes m t → t = ⟨.changes m, after act m⟩) : Forward act m := by
  refine ⟨honward, fun t ht => ?_, fun t ht => ?_, fun t before ht hstep => ?_⟩
  · rw [hpasses t ht]
    exact honward
  · rw [hpasses t ht]
    exact .refl _
  · rw [hpasses t ht] at hstep ⊢
    cases hstep
    exact honward

/-- An operation that does not touch the text goes forward in it, if none of its changes touches it. -/
theorem forward_of_source_eq {act : Run α} (hafter : (after act m).source = m.source)
    (hpasses : ∀ t, act.passes m t → t.machine.source = m.source ∧
      ∀ before, t.step = .changes before → before.source = m.source) : Forward act m := by
  refine ⟨?_, fun t ht => ?_, fun t ht => ?_, fun t before ht hstep => ?_⟩
  · rw [hafter]
    exact .refl _
  · rw [(hpasses t ht).1]
    exact .refl _
  · rw [(hpasses t ht).1, hafter]
    exact .refl _
  · rw [(hpasses t ht).1, (hpasses t ht).2 before hstep]
    exact .refl _

theorem solitary_forward : Solitary (Regardless Forward) where
  bind := Forward.bind
  get {_ _ m f} hf := by
    have hmoments := Run.passes_get_bind f m
    refine ⟨hf.onward, ?_, ?_, ?_⟩ <;> rw [hmoments]
    · exact hf.since
    · exact hf.until_end
    · exact hf.change
  still {_ _ m _} hafter hpasses := by
    refine forward_of_source_eq (by rw [hafter]) fun t ht => ⟨by rw [(hpasses t ht).1], ?_⟩
    rintro before hstep
    have hchange := (hpasses t ht).2
    rw [hstep] at hchange
    cases hchange
  change _ _ hsource _ hpasses :=
    forward_of_change (by rw [hsource]; exact .refl _) fun t ht => (hpasses t).mp ht
  modifyRegisters _ _ _ _ _ := forward_of_change (.refl _) fun _ ht => ht
  keepingRoots {_ _ m act} hact := by
    have hsource : (after (keepingRoots act) m).source = (after act m).source := by rw [after_keepingRoots]
    refine ⟨hsource ▸ hact.onward, ?_, ?_, ?_⟩
    · rintro t (ht | rfl | rfl)
      · exact hact.since t ht
      · exact hact.onward
      · exact hact.onward
    · rw [hsource]
      rintro t (ht | rfl | rfl)
      · exact hact.until_end t ht
      · exact .refl _
      · exact .refl _
    · rintro t before (ht | rfl | rfl) hstep
      · exact hact.change t before ht hstep
      · cases hstep
      · cases hstep
        exact .refl _

theorem placing_forward : Placing True (Regardless Forward) where
  toSequential := solitary_forward.sequential
  tryAllocate {_ m o} _ := by
    refine forward_of_source_eq ?_ ?_
    · simp only [after, tryAllocate]
      cases m.heap.findFree? <;> rfl
    · rintro t ⟨i, -, rfl | rfl⟩
      · exact ⟨rfl, by simp⟩
      · refine ⟨rfl, ?_⟩
        rintro before ⟨⟩
        rfl
  reclaim := forward_of_change (.refl _) fun _ ht => ht
  redirect _ _ _ := forward_of_change (.refl _) fun _ ht => ht

theorem forward_scan {f : Source → α × Source} (hf : m.source.Onward (f m.source).2) : Forward (scan f) m :=
  forward_of_change hf fun _ ht => ht

/-- Reading goes forward. -/
theorem lexical_forward : Lexical (Regardless Forward) where
  bind := Forward.bind
  pure := solitary_forward.pure
  unfinished := solitary_forward.stop .unfinished
  fail _ := solitary_forward.stop _
  component _ := ⟨solitary_forward.sequential.ask fun _ _ => rfl,
    solitary_forward.sequential.ask fun _ _ => rfl⟩
  getRegisters := solitary_forward.sequential.getRegisters
  getPosition {_ _ _ f} hf := solitary_forward.get (f := fun m => f m.source.position) hf
  setQueue _ := forward_of_change (.refl _) fun _ ht => ht
  root := solitary_forward.sequential.root
  keepingRoots := solitary_forward.keepingRoots
  makeNumber := placing_forward.storing.makeNumber
  makePair := placing_forward.storing.makePair
  makeString _ := placing_forward.allocate fun _ => trivial
  intern := placing_forward.intern
  skipBlank {_ m} := forward_scan (f := fun source => ((), source.skipBlank)) m.source.onward_skipBlank
  peek := solitary_forward.get (solitary_forward.pure _)
  advance {_ m} := forward_scan (f := fun source => ((), source.advance)) m.source.onward_advance
  takeWord {_ m} := forward_scan m.source.onward_scanWord
  takeString {_ m} := by
    refine solitary_forward.bind (x := scan Source.scanString) (forward_scan m.source.onward_scanString)
      fun {result _} _ => ?_
    cases result with
    | ok bytes => exact solitary_forward.pure bytes
    | error f => exact solitary_forward.stop (.fault f)

theorem forward_readTerm (m : Machine) : Forward readTerm m := by
  have hread : Regardless Forward Handle m.shadow (readTermFrom m.readBound) m :=
    (lexical_forward.readFrom m.readBound).1
  exact solitary_forward.get (f := fun m => readTermFrom m.readBound) hread

/-! ## Taking bytes -/

/-- If an operation answers then it has taken some bytes off the text. -/
def Consumes (k : ℕ) (act : Run α) (m : Machine) : Prop :=
  ∀ a m', act m = .ok a m' → m'.source.rest.length + k ≤ m.source.rest.length

theorem Forward.consumes {act : Run α} (hact : Forward act m) : Consumes 0 act m := fun _ _ hrun =>
  (hact.of_ok hrun).length_le

theorem Consumes.bind {j k : ℕ} {x : Run α} {f : α → Run β} (hx : Consumes j x m)
    (hf : ∀ {a m'}, x m = .ok a m' → Consumes k (f a) m') : Consumes (j + k) (x >>= f) m := by
  intro b m'' hrun'
  cases hrun : x.run m with
  | error reason m' =>
    rw [Run.run_bind_of_error hrun] at hrun'
    cases hrun'
  | ok a m' =>
    rw [Run.run_bind_of_ok hrun] at hrun'
    have hfirst := hx a m' hrun
    have hrest := hf hrun b m'' hrun'
    omega

/-- What comes after the bytes that were taken goes forward. -/
theorem Consumes.bind_forward {k : ℕ} {x : Run α} {f : α → Run β} (hx : Consumes k x m)
    (hf : ∀ {a m'}, Regardless Forward β [] (f a) m') : Consumes k (x >>= f) m :=
  hx.bind fun _ => Forward.consumes hf

theorem consumes_advance {c : UInt8} {s : Bytes} (hrest : m.source.rest = c :: s) : Consumes 1 advance m := by
  intro _ m' hrun
  cases hrun
  simp only [Source.advance, hrest, List.length_cons, le_refl]

/-- A word and what is left after it make up the text. -/
theorem length_of_takeWord {word : Bytes} (hrun : takeWord m = .ok word m') :
    word.length + m'.source.rest.length = m.source.rest.length := by
  cases hrun
  have hlength := congrArg List.length m.source.scanWord_append
  rwa [List.length_append] at hlength

theorem consumes_takeWord {c : UInt8} {s : Bytes} (hrest : m.source.rest = c :: s)
    (hc : c ∉ Grammar.punctuation) : Consumes 1 takeWord m := by
  intro taken m' hrun
  obtain ⟨word, rest, hword⟩ := Grammar.exists_word (s := s) hc
  have hpos := List.length_pos_of_ne_nil hword.ne_nil
  have hlength := length_of_takeWord hrun
  rw [run_takeWord (hrest ▸ hword)] at hrun
  cases hrun
  omega

/-- A directive has a name. -/
theorem consumes_queueDirective (sign : UInt8) (op : Registers → Handle) :
    Consumes 1 (queueDirective sign op) m := by
  intro _ m' hrun
  cases hword : takeWord.run m with
  | error reason n => cases hword
  | ok word n =>
    have hlength := length_of_takeWord hword
    rw [queueDirective, Run.run_bind_of_ok hword] at hrun
    split at hrun
    · cases hrun
    · rename_i hne
      have hpos : 0 < word.length := List.length_pos_of_ne_nil (by simpa using hne)
      have hforward : Regardless Forward Unit [] (do
          let name ← scalar word
          let r ← getRegisters
          let queue ← makeList [r.atomQuote, name, op r]
          modifyRegisters fun r => { r with readQueue := queue }) n :=
        lexical_forward.bind (lexical_forward.scalar word) fun _ => lexical_forward.getRegisters
          (lexical_forward.bind (lexical_forward.makeList _) fun _ => lexical_forward.setQueue _)
      have hle := (hforward.of_ok hrun).length_le
      omega

/-! ## One read -/

/-- What a read takes off the text and leaves in the queue. If nothing is queued, it takes a byte at least. If
it leaves something in the queue then two terms, and it has taken two bytes at least. Else it takes nothing
off the text and the first term off the queue. -/
inductive Serves (m m' : Machine) : List Handle → List Handle → Prop
  | term : m'.source.rest.length + 1 ≤ m.source.rest.length → Serves m m' [] []
  | directive {name op : Handle} : m'.source.rest.length + 2 ≤ m.source.rest.length →
      Serves m m' [] [name, op]
  | queued {t : Handle} {ts : List Handle} : m'.source = m.source → Serves m m' (t :: ts) ts

/-- Twice the length of the text and the length of the queue together get less. -/
theorem Serves.lt (hserves : Serves m m' ts ts') :
    2 * m'.source.rest.length + ts'.length < 2 * m.source.rest.length + ts.length := by
  cases hserves with
  | term hle =>
    simp only [List.length_nil]
    omega
  | directive hle =>
    simp only [List.length_cons, List.length_nil]
    omega
  | queued hsource =>
    rw [hsource, List.length_cons]
    omega

/-- An operation answers a machine with a queue that it `Serves`. -/
def Supplies (act : Run α) (m : Machine) (ts : List Handle) : Prop :=
  Leaves act m fun _ m' => ∃ ts', m'.heap.Queued m'.registers.readQueue ts' ∧ Serves m m' ts ts'

/-- Operations that take bytes off the text and leave the queue empty. -/
theorem supplies_of_consumes {act : Run α} (hqueue : Leaves act m fun _ m' => m'.registers.readQueue = .nil)
    (hconsumes : Consumes 1 act m) : Supplies act m [] := by
  intro hm
  obtain ⟨hok, herror⟩ := hqueue hm
  refine ⟨fun {a m'} hrun => ?_, herror⟩
  obtain ⟨hm', hqueue'⟩ := hok hrun
  exact ⟨hm', [], .of_eq_nil hqueue', .term (hconsumes a m' hrun)⟩

/-- A directive hands out the first of its terms, and queues the two others. -/
theorem supplies_directive {c : UInt8} {s : Bytes} (n : ℕ) (sign : UInt8) (op : Registers → Handle)
    (hrest : m.source.rest = c :: s) (hqueue : m.registers.readQueue = .nil) :
    Supplies (do advance; queueDirective sign op; readTermFrom n) m [] := by
  have hleaves : Leaves (do advance; queueDirective sign op; readTermFrom n) m fun _ m' =>
      ∃ ts', m'.heap.Queued m'.registers.readQueue ts' ∧ ts'.length = 2 := by
    refine (leaves_advance hqueue).bind fun hqueue₁ => ?_
    refine (leaves_queueDirective sign op hqueue₁).bind fun {_ m₂} hqueued => ?_
    obtain ⟨ts, hts, hlength⟩ := hqueued
    have hne : ts ≠ [] := List.ne_nil_of_length_eq_add_one hlength
    refine ((hands n).term hts).imp fun {_ m'} hhanded => ?_
    obtain ⟨ts', hts', htail⟩ := hhanded
    rw [if_neg hne] at htail
    exact ⟨ts', hts', by rw [htail, List.length_tail, hlength]⟩
  have hconsumes : Consumes 2 (do advance; queueDirective sign op; readTermFrom n) m :=
    (consumes_advance hrest).bind fun _ =>
      (consumes_queueDirective sign op).bind_forward (lexical_forward.readFrom n).1
  intro hm
  obtain ⟨hok, herror⟩ := hleaves hm
  refine ⟨fun {a m'} hrun => ?_, herror⟩
  obtain ⟨hm', ts', hts', hlength⟩ := hok hrun
  obtain ⟨name, op, rfl⟩ := List.length_eq_two.mp hlength
  exact ⟨hm', _, hts', .directive (hconsumes a m' hrun)⟩

/-- A term that is read from the text. -/
theorem supplies_readNext {c : UInt8} {s : Bytes} (n : ℕ) (r : Registers) (hrest : m.source.rest = c :: s)
    (hsolid : Grammar.Solid (c :: s)) (hqueue : m.registers.readQueue = .nil) :
    Supplies (readNext n r (some c)) m [] := by
  have hadvance : ∀ {act : Run Handle}, (∀ {m'}, m'.registers.readQueue = .nil →
      Leaves act m' fun _ m'' => m''.registers.readQueue = .nil) →
      (∀ {m'}, Regardless Forward Handle [] act m') → Supplies (do advance; act) m [] :=
    fun hleaves hforward => supplies_of_consumes ((leaves_advance hqueue).bind hleaves)
      ((consumes_advance hrest).bind_forward hforward)
  rw [readNext]
  split
  · exact hadvance (fun hqueue₁ => leaves_pure hqueue₁) (solitary_forward.pure _)
  split
  · exact supplies_directive n _ _ hrest hqueue
  split
  · exact supplies_directive n _ _ hrest hqueue
  split
  · refine hadvance (fun {m₁} hqueue₁ => ?_) (lexical_forward.keepingRoots (lexical_forward.bind
      ((lexical_forward.readFrom n).2 []) fun _ => lexical_forward.makeList _))
    have hlist : Leaves (do
        let items ← readItemsFrom n []
        makeList items) m₁ fun _ m' => m'.registers.readQueue = .nil :=
      ((hands n).items [] (.of_eq_nil hqueue₁)).bind fun hqueue₂ => (leaves_makeList _ hqueue₂).imp And.left
    exact hlist.keepingRoots id
  split
  · refine hadvance (fun hqueue₁ => ?_) (lexical_forward.bind lexical_forward.takeString fun _ =>
      lexical_forward.makeString _)
    exact (leaves_takeString hqueue₁).bind fun hqueue₂ => leaves_allocate _ hqueue₂
  split
  · have hfail : ∀ position, Supplies (do advance; fail (.unbalancedClose position)) m [] := fun position =>
      hadvance (fun hqueue₁ => leaves_fail _ hqueue₁) (lexical_forward.fail trivial)
    exact hfail m.source.position
  · rename_i hquote hcaret hdollar hopen hstring hclose
    have hc : c ∉ Grammar.punctuation := by
      obtain ⟨hblank, hcomment⟩ := hsolid c rfl
      simp [Grammar.punctuation, *]
    exact supplies_of_consumes ((leaves_takeWord hqueue).bind fun hqueue₁ => leaves_scalar _ hqueue₁)
      ((consumes_takeWord hrest hc).bind_forward (lexical_forward.scalar _))

/-- With terms in the queue, reading hands out the first. -/
theorem run_readTermFrom_of_ne (n : ℕ) (hqueue : m.registers.readQueue ≠ m.registers.nil) :
    (readTermFrom (n + 1)).run m = dequeue m.registers.readQueue m := by
  have hregisters : getRegisters.run m = .ok m.registers m := rfl
  rw [readTermFrom_succ, Run.run_bind_of_ok hregisters, if_pos hqueue]

theorem Poised.readQueue_eq_iff (hm : m.Poised) (hqueue : m.heap.Queued m.registers.readQueue ts) :
    m.registers.readQueue = m.registers.nil ↔ ts = [] := by
  rw [hm.nil_eq, hqueue.eq_nil_iff]

/-- What is left once the blanks are passed does not begin with one. -/
theorem solid_skipBlank (source : Source) : Grammar.Solid source.skipBlank.rest := by
  obtain ⟨s, hgap, hsolid⟩ := Grammar.exists_gap source.rest
  rwa [Grammar.skipBlank_of_gap hgap hsolid]

theorem Serves.of_le {m₁ : Machine} (hserves : Serves m₁ m' [] ts')
    (hle : m₁.source.rest.length ≤ m.source.rest.length) : Serves m m' [] ts' := by
  cases hserves with
  | term hlt => exact .term (by omega)
  | directive hlt => exact .directive (by omega)

theorem supplies_readTermFrom (n : ℕ) (hqueue : m.heap.Queued m.registers.readQueue ts) :
    Supplies (readTermFrom n) m ts := by
  cases n with
  | zero =>
    rw [readTermFrom]
    intro hm
    constructor <;> intro _ _ hrun <;> cases hrun
  | succ n =>
    intro hm
    cases ts with
    | cons t ts =>
      rw [run_readTermFrom_of_ne n (by simp [hm.readQueue_eq_iff hqueue])]
      obtain ⟨hok, herror⟩ := leaves_dequeue hqueue hm
      refine ⟨fun {a m'} hrun => ?_, herror⟩
      obtain ⟨hm', hqueue'⟩ := hok hrun
      refine ⟨hm', ts, hqueue', .queued ?_⟩
      rcases dequeue_cases m.registers.readQueue m with ⟨first, rest, h⟩ | ⟨f, h⟩
      · cases hrun.symm.trans h
        rfl
      · cases hrun.symm.trans h
    | nil =>
      have hempty : m.registers.readQueue = .nil := hqueue.eq_nil_iff.mpr rfl
      have hskipped : Poised { m with source := m.source.skipBlank } := ⟨hm.regular, hm.nil_eq, hm.live_nil⟩
      have hsolid := solid_skipBlank m.source
      rw [run_readTermFrom_of_eq n (by simp [hm.readQueue_eq_iff hqueue])]
      cases hrest : m.source.skipBlank.rest with
      | nil => exact leaves_fail .endOfInput hempty hskipped
      | cons c s =>
        rw [hrest] at hsolid
        obtain ⟨hok, herror⟩ := supplies_readNext (m := { m with source := m.source.skipBlank }) n m.registers
          hrest hsolid hempty hskipped
        refine ⟨fun {a m'} hrun => ?_, herror⟩
        obtain ⟨hm', ts', hqueue', hserves⟩ := hok hrun
        exact ⟨hm', ts', hqueue', hserves.of_le m.source.onward_skipBlank.length_le⟩

/-! ## Reading ends -/

/-- Some search for an atom in the registry goes on forever. -/
def Lost (m : Machine) : Prop :=
  ∃ spelling, ∀ n, findAtomFrom m spelling n m.registers.registry = .error .unfinished

/-- An operation comes to an end, unless a search for an atom does not. -/
def Ends (act : Run α) (m : Machine) : Prop := ∀ m', act m = .error .unfinished m' → m'.Lost

theorem Ends.bind {x : Run α} {f : α → Run β} (hx : Ends x m)
    (hf : ∀ {a m'}, x m = .ok a m' → Ends (f a) m') : Ends (x >>= f) m := by
  intro m'' hrun'
  cases hrun : x.run m with
  | error reason m' =>
    rw [Run.run_bind_of_error hrun] at hrun'
    cases hrun'
    exact hx _ hrun
  | ok a m' =>
    rw [Run.run_bind_of_ok hrun] at hrun'
    exact hf hrun m'' hrun'

theorem ends_of_ok {act : Run α} {a : α} (hrun : act m = .ok a m') : Ends act m := by
  intro m'' hrun'
  cases hrun.symm.trans hrun'

theorem ends_fail (f : Fault) : Ends (fail f : Run α) m := by
  intro m' hrun
  cases hrun

theorem ends_getRegisters {f : Registers → Run α} (hf : Ends (f m.registers) m) :
    Ends (getRegisters >>= f) m := by
  have hregisters : getRegisters.run m = .ok m.registers m := rfl
  refine (ends_of_ok hregisters).bind fun hrun => ?_
  cases hregisters.symm.trans hrun
  exact hf

theorem ends_allocate (o : Object) : Ends (allocate o) m := by
  cases hfind : m.heap.findFree? with
  | some i => exact ends_of_ok (run_allocate_of_free hfind)
  | none =>
    obtain ⟨events, hagain, hfail⟩ := run_allocate_of_full (o := o) hfind
    cases hfind' : (m.heap.collect (m.registers.roots ++ (o.references ++ m.shadow))).2.findFree? with
    | some i => exact ends_of_ok (hagain i hfind')
    | none =>
      intro m' hrun
      cases hrun.symm.trans (hfail hfind').1

/-- The search for an atom has more steps than it could take without running in circles. -/
theorem lost_of_findAtom {spelling : Bytes} (hfind : findAtom spelling m = .error .unfinished) : m.Lost := by
  refine ⟨spelling, fun n => ?_⟩
  by_contra hn
  have hsettled : findAtom spelling m = findAtomFrom m spelling n m.registers.registry :=
    settles_findAtom m spelling m.registers.registry n hn
  exact hn (hsettled.symm.trans hfind)

theorem ends_intern (spelling : Bytes) : Ends (intern spelling) m := by
  refine Ends.bind ?_ fun {found m'} _ => ?_
  · intro m' hrun
    cases hfind : findAtom spelling m with
    | ok found =>
      simp only [ask, hfind] at hrun
      cases hrun
    | error reason =>
      simp only [ask, hfind] at hrun
      cases hrun
      exact lost_of_findAtom hfind
  · cases found with
    | some atom => exact ends_of_ok rfl
    | none =>
      refine (ends_allocate _).bind fun _ => ends_getRegisters ?_
      exact (ends_allocate _).bind fun _ => ends_of_ok rfl

theorem ends_scalar (word : Bytes) : Ends (scalar word) m := by
  rw [scalar]
  cases Numeral.readInt64? word with
  | some n => exact ends_allocate _
  | none => exact ends_intern word

/-- A search for an atom does not depend on the roots that are held. -/
theorem Lost.shadow {held : List Handle} (hlost : m.Lost) : Lost { m with shadow := held } := by
  obtain ⟨spelling, hspelling⟩ := hlost
  have heq : ∀ (n : ℕ) (list : Handle),
      findAtomFrom { m with shadow := held } spelling n list = findAtomFrom m spelling n list := by
    intro n
    induction n with
    | zero => exact fun _ => rfl
    | succ n ih =>
      intro list
      simp only [findAtomFrom, ih]
      rfl
  exact ⟨spelling, fun n => (heq n _).trans (hspelling n)⟩

theorem Ends.keepingRoots {act : Run α} (hact : Ends act m) : Ends (keepingRoots act) m := by
  intro m' hrun
  cases hrun' : act.run m with
  | ok a n =>
    simp only [Machine.keepingRoots, hrun'] at hrun
    cases hrun
  | error reason n =>
    simp only [Machine.keepingRoots, hrun'] at hrun
    cases hrun
    exact (hact n hrun').shadow

theorem ends_makeList (values : List Handle) : Ends (makeList values) m := by
  have hcons : ∀ {m} (list : Handle) (values : List Handle), Ends (consAll list values) m := by
    intro m list values
    induction values generalizing list m with
    | nil => exact ends_of_ok rfl
    | cons v values ih => exact (ends_allocate _).bind fun _ => ih _
  have hbody : Ends (do root values; consAll .nil values.reverse) m :=
    (ends_of_ok rfl).bind fun _ => hcons _ _
  exact hbody.keepingRoots

theorem ends_queueDirective (sign : UInt8) (op : Registers → Handle) : Ends (queueDirective sign op) m := by
  refine (ends_of_ok rfl : Ends takeWord m).bind fun {word m₁} _ => ?_
  dsimp only
  split
  · exact (ends_fail _).bind fun hrun => by cases hrun
  · refine (ends_scalar word).bind fun _ => ends_getRegisters ?_
    exact (ends_makeList _).bind fun _ => ends_of_ok rfl

theorem ends_takeString : Ends takeString m := by
  refine Ends.bind (ends_of_ok rfl) fun {result m'} _ => ?_
  cases result with
  | ok bytes => exact ends_of_ok rfl
  | error f => exact ends_fail f

/-- Where a term is queued, reading takes one step. -/
theorem ends_readTermFrom_of_ne (n : ℕ) (hqueue : m.registers.readQueue ≠ m.registers.nil) :
    Ends (readTermFrom (n + 1)) m := by
  intro m' hrun
  rw [run_readTermFrom_of_ne n hqueue] at hrun
  rcases dequeue_cases m.registers.readQueue m with ⟨first, rest, h⟩ | ⟨f, h⟩ <;> cases hrun.symm.trans h

/-- An operation that leaves a machine poised, and then another. -/
theorem Ends.bind_leaves {x : Run α} {f : α → Run β} {P : α → Machine → Prop} (hx : Ends x m) (hm : m.Poised)
    (hleaves : Leaves x m P) (hf : ∀ {a m'}, x m = .ok a m' → m'.Poised → P a m' → Ends (f a) m') :
    Ends (x >>= f) m := by
  refine hx.bind fun hrun => ?_
  obtain ⟨hm', hp⟩ := (hleaves hm).1 hrun
  exact hf hrun hm' hp

/-- A directive takes one step more than the terms it queues. -/
theorem ends_directive {n : ℕ} (sign : UInt8) (op : Registers → Handle) (hm : m.Poised)
    (hqueue : m.registers.readQueue = .nil) :
    Ends (do advance; queueDirective sign op; readTermFrom (n + 1)) m := by
  refine Ends.bind_leaves (ends_of_ok rfl) hm (leaves_advance hqueue) fun _ hm₁ hqueue₁ => ?_
  refine (ends_queueDirective sign op).bind_leaves hm₁
    (leaves_queueDirective sign op hqueue₁) fun _ hm₂ hqueued => ?_
  obtain ⟨ts, hts, hlength⟩ := hqueued
  have hne : ts ≠ [] := List.ne_nil_of_length_eq_add_one hlength
  exact ends_readTermFrom_of_ne n (by simp [hm₂.readQueue_eq_iff hts, hne])

/-- A term that is read from the text takes one step more than the items of a list that begins there. -/
theorem ends_readNext {n : ℕ} {c : UInt8} {s : Bytes} (r : Registers) (hm : m.Poised)
    (hrest : m.source.rest = c :: s) (hqueue : m.registers.readQueue = .nil)
    (hn : 4 * m.source.rest.length ≤ n)
    (hitems : ∀ {m}, m.Poised → m.registers.readQueue = .nil → 4 * m.source.rest.length + 1 < n →
      Ends (readItemsFrom n []) m) : Ends (readNext n r (some c)) m := by
  have hadvance : ∀ {act : Run Handle}, (∀ {m'}, m'.Poised → m'.registers.readQueue = .nil →
      m'.source.rest.length + 1 ≤ m.source.rest.length → Ends act m') → Ends (do advance; act) m :=
    fun hact => Ends.bind_leaves (ends_of_ok rfl) hm (leaves_advance hqueue) fun hrun hm' hqueue' =>
      hact hm' hqueue' (consumes_advance hrest _ _ hrun)
  obtain ⟨k, rfl⟩ : ∃ k, n = k + 1 := Nat.exists_eq_add_one.mpr (by rw [hrest, List.length_cons] at hn; omega)
  rw [readNext]
  split
  · exact hadvance fun _ _ _ => ends_of_ok rfl
  split
  · exact ends_directive c _ hm hqueue
  split
  · exact ends_directive c _ hm hqueue
  split
  · refine hadvance fun hm₁ hqueue₁ hlength₁ => Ends.keepingRoots ?_
    exact (hitems hm₁ hqueue₁ (by omega)).bind fun _ => ends_makeList _
  split
  · exact hadvance fun _ _ _ => ends_takeString.bind fun _ => ends_allocate _
  split
  · have hfail : ∀ position, Ends (do advance; fail (.unbalancedClose position) : Run Handle) m :=
      fun position =>
      hadvance fun _ _ _ => ends_fail _
    exact hfail m.source.position
  · exact (ends_of_ok rfl).bind fun _ => ends_scalar _

/-- Reading ends within enough steps. The induction is on their number, for terms and for the items of
lists at once: an item that is read makes what is left less, and the first of a list that is read from
the text has taken its parenthesis. -/
theorem ends_readFrom (n : ℕ) :
    (∀ {m ts}, m.Poised → m.heap.Queued m.registers.readQueue ts →
      2 * (2 * m.source.rest.length + ts.length) < n → Ends (readTermFrom n) m) ∧
    ∀ {m ts} (items : List Handle), m.Poised → m.heap.Queued m.registers.readQueue ts →
      2 * (2 * m.source.rest.length + ts.length) + 1 < n → Ends (readItemsFrom n items) m := by
  induction n with
  | zero =>
    constructor
    · intro m ts _ _ hn
      omega
    · intro m ts items _ _ hn
      omega
  | succ n ih =>
    obtain ⟨hterm, hitems⟩ := ih
    constructor
    · intro m ts hm hqueue hn
      cases ts with
      | cons t ts => exact ends_readTermFrom_of_ne n (by simp [hm.readQueue_eq_iff hqueue])
      | nil =>
        have hempty : m.registers.readQueue = .nil := hqueue.eq_nil_iff.mpr rfl
        have hle := m.source.onward_skipBlank.length_le
        have hskipped : Poised { m with source := m.source.skipBlank } := ⟨hm.regular, hm.nil_eq, hm.live_nil⟩
        rw [List.length_nil] at hn
        intro m' hrun
        rw [run_readTermFrom_of_eq n (by simp [hm.readQueue_eq_iff hqueue])] at hrun
        cases hrest : m.source.skipBlank.rest with
        | nil =>
          rw [hrest] at hrun
          exact ends_fail _ _ hrun
        | cons c s =>
          rw [hrest] at hrun
          refine ends_readNext (m := { m with source := m.source.skipBlank }) m.registers hskipped hrest
            hempty
            ?_ ?_ m' hrun
          · show 4 * m.source.skipBlank.rest.length ≤ n
            omega
          · intro m₁ hm₁ hqueue₁ hn₁
            exact hitems [] hm₁ (.of_eq_nil hqueue₁) (by rw [List.length_nil]; omega)
    · intro m ts items hm hqueue hn
      have hmore : ∀ {m₁}, m₁.Poised → m₁.heap.Queued m₁.registers.readQueue ts →
          m₁.source.rest.length ≤ m.source.rest.length → Ends (readMore n items) m₁ := by
        intro m₁ hm₁ hqueue₁ hle
        refine (hterm hm₁ hqueue₁ (by omega)).bind_leaves hm₁ (supplies_readTermFrom n hqueue₁)
          fun {item m₂} _ hm₂ hsupplied => ?_
        obtain ⟨ts₂, hqueue₂, hserves⟩ := hsupplied
        have hlt := hserves.lt
        have hrooted : Poised { m₂ with shadow := [item] ++ m₂.shadow } :=
          ⟨hm₂.regular, hm₂.nil_eq, hm₂.live_nil⟩
        refine Ends.bind (ends_of_ok rfl) fun hrun => ?_
        cases hrun
        exact hitems (item :: items) hrooted hqueue₂ (by dsimp only; omega)
      rw [readItemsFrom_succ]
      apply ends_getRegisters
      split
      · have hskip : skipBlank.run m = .ok () { m with source := m.source.skipBlank } := rfl
        have hskipped : Poised { m with source := m.source.skipBlank } := ⟨hm.regular, hm.nil_eq, hm.live_nil⟩
        refine (ends_of_ok hskip).bind fun hrun => ?_
        cases hskip.symm.trans hrun
        refine Ends.bind (ends_of_ok rfl) fun hrun => ?_
        cases hrun
        split
        · exact (ends_of_ok rfl).bind fun _ => ends_of_ok rfl
        · exact hmore hskipped hqueue m.source.onward_skipBlank.length_le
      · exact hmore hm hqueue le_rfl

/-- A search for an atom ends in a list that does. -/
theorem findAtomFrom_ne_unfinished {spelling : Bytes} {list last : Handle} {vs : List Handle} {o : Object}
    (hchain : m.heap.Chain list vs last) (ho : m.object? last = some o)
    (hpair : ∀ car cdr, o ≠ .pair car cdr) :
    findAtomFrom m spelling (vs.length + 1) list ≠ .error .unfinished := by
  induction hchain with
  | nil =>
    rw [findAtomFrom, ho]
    split
    · rename_i car cdr heq
      exact absurd (Option.some.inj heq) (hpair car cdr)
    · simp
  | @cons list car cdr last vs hget _ ih =>
    have hget : m.object? list = some (.pair car cdr) := hget
    rw [findAtomFrom, hget]
    dsimp only
    split
    · simp
    · exact ih ho

/-- A registry that is its own tail is searched forever for an atom that it does not have. -/
theorem findAtomFrom_of_cycle {spelling : Bytes} {list atom : Handle}
    (hlist : m.object? list = some (.pair atom list))
    (hatom : m.atom? atom ≠ some spelling) (n : ℕ) : findAtomFrom m spelling n list = .error .unfinished := by
  induction n with
  | zero => rfl
  | succ n ih => simp [findAtomFrom, hlist, hatom, ih]

theorem not_lost_of_halts (hhalts : m.heap.Halts m.registers.registry) : ¬ m.Lost := by
  rintro ⟨spelling, hlost⟩
  obtain ⟨vs, last, o, hchain, ho, hpair⟩ := hhalts
  exact findAtomFrom_ne_unfinished hchain ho hpair (hlost _)

/-- Reading puts atoms in front of the registry, and leaves the rest of it alone. -/
theorem Undisturbed.halts (hkept : Undisturbed base m m') (hhalts : m.heap.Halts m.registers.registry) :
    m'.heap.Halts m'.registers.registry := by
  obtain ⟨vs, last, o, hchain, ho, hpair⟩ := hhalts
  obtain ⟨atoms, hatoms, -⟩ := hkept.registry
  have hkeep : ∀ {l o}, m.heap.Reaches [m.registers.registry] l → m.heap.get? l = some o →
      m'.heap.get? l = some o := by
    intro l o hl hget
    exact hkept.object?_eq (hl.mono (by simp [Registers.standing])) hget
  exact ⟨atoms ++ vs, last, o, hatoms.append (hchain.congr hkeep),
    hkeep (hchain.reaches last List.mem_cons_self) ho, hpair⟩

theorem run_readTerm (m : Machine) : readTerm m = readTermFrom m.readBound m := rfl

theorem undisturbed_readTerm (hm : m.Poised) : Undisturbed [] m (after readTerm m) := by
  have hread : Undisturbing [] (readTermFrom m.readBound) m := (lexical_undisturbing.readFrom m.readBound).1
  rw [after_eq_of_run_eq (run_readTerm m)]
  exact (hread hm.regular List.nil_suffix).2.2

theorem ends_readTerm (hm : m.Poised) (hqueue : m.heap.Queued m.registers.readQueue ts) :
    Ends readTerm m := by
  intro m' hrun
  rw [run_readTerm] at hrun
  cases ts with
  | nil =>
    have hbound : 2 * (2 * m.source.rest.length + 0) < m.readBound := by
      rw [readBound]
      omega
    exact (ends_readFrom m.readBound).1 hm hqueue hbound m' hrun
  | cons t ts =>
    obtain ⟨n, hn⟩ : ∃ n, m.readBound = n + 1 := ⟨4 * m.source.rest.length + 3, rfl⟩
    rw [hn] at hrun
    exact ends_readTermFrom_of_ne n (by simp [hm.readQueue_eq_iff hqueue]) m' hrun

theorem readTerm_ne_unfinished_of_halts (hm : m.Poised) (hqueue : m.heap.Queued m.registers.readQueue ts)
    (hhalts : m.heap.Halts m.registers.registry) (m' : Machine) : readTerm m ≠ .error .unfinished m' := by
  intro hrun
  have hkept := undisturbed_readTerm hm
  rw [after_of_error hrun] at hkept
  exact not_lost_of_halts (hkept.halts hhalts) (ends_readTerm hm hqueue m' hrun)

/-- What one read takes and leaves. -/
theorem serves_readTerm {h : Handle} (hm : m.Poised) (hqueue : m.heap.Queued m.registers.readQueue ts)
    (hrun : readTerm m = .ok h m') :
    m'.Poised ∧ ∃ ts', m'.heap.Queued m'.registers.readQueue ts' ∧ Serves m m' ts ts' :=
  (supplies_readTermFrom m.readBound hqueue hm).1 hrun

/-! ## Many reads -/

/-- A number of reads that succeed, one after another. -/
inductive Succeed : ℕ → Machine → Machine → Prop
  | none (m : Machine) : Succeed 0 m m
  | read {k : ℕ} {m m₁ m' : Machine} {h : Handle} : readTerm m = .ok h m₁ → Succeed k m₁ m' →
      Succeed (k + 1) m m'

/-- Every read that succeeds makes what is left less. -/
theorem Succeed.le {k : ℕ} (hreads : Succeed k m m') (hm : m.Poised)
    (hqueue : m.heap.Queued m.registers.readQueue ts) : k ≤ 2 * m.source.rest.length + ts.length := by
  induction hreads generalizing ts with
  | none => exact Nat.zero_le _
  | read hrun _ ih =>
    obtain ⟨hm₁, ts₁, hqueue₁, hserves⟩ := serves_readTerm hm hqueue hrun
    have hlt := hserves.lt
    have hle := ih hm₁ hqueue₁
    omega

/-- So some read fails at last. -/
theorem exists_failure (hm : m.Poised) (hqueue : m.heap.Queued m.registers.readQueue ts)
    (hhalts : m.heap.Halts m.registers.registry) :
    ∃ k m' f m'', Succeed k m m' ∧ readTerm m' = .error (.fault f) m'' := by
  induction hn : 2 * m.source.rest.length + ts.length using Nat.strongRecOn generalizing m ts with
  | ind n ih =>
    cases hrun : readTerm.run m with
    | error reason m' =>
      cases reason with
      | unfinished => exact absurd hrun (readTerm_ne_unfinished_of_halts hm hqueue hhalts m')
      | fault f => exact ⟨0, m, f, m', .none m, hrun⟩
    | ok h m₁ =>
      obtain ⟨hm₁, ts₁, hqueue₁, hserves⟩ := serves_readTerm hm hqueue hrun
      have hkept := undisturbed_readTerm hm
      rw [after_of_ok hrun] at hkept
      obtain ⟨k, m', f, m'', hreads, hfails⟩ :=
        ih _ (hn ▸ hserves.lt) hm₁ hqueue₁ (hkept.halts hhalts) rfl
      exact ⟨k + 1, m', f, m'', .read hrun hreads, hfails⟩

/-- How reading goes on from a machine with some terms in its queue. -/
structure Progress (m : Machine) (ts : List Handle) : Prop where
  /-- A read ends. Only the search for an atom can go on forever, and it does not in a registry that ends. -/
  ends : Ends readTerm m ∧ (m.heap.Halts m.registers.registry → ∀ m', readTerm m ≠ .error .unfinished m')
  /-- At all moments the read is between where it began and where it ends, and never goes back. -/
  forward : Forward readTerm m
  /-- It does not go beyond the end of the text. -/
  position_le : m.source.position ≤ (after readTerm m).source.position ∧
    (after readTerm m).source.position ≤ m.source.extent
  /-- A read that succeeds takes something off the text or off the queue. -/
  serves : ∀ {h m'}, readTerm m = .ok h m' →
    ∃ ts', m'.heap.Queued m'.registers.readQueue ts' ∧ Serves m m' ts ts'
  /-- A read that begins with an empty queue and fails leaves it empty. -/
  readQueue_eq : ∀ {f m'}, ts = [] → readTerm m = .error (.fault f) m' → m'.registers.readQueue = .nil
  /-- Not more reads succeed than there are terms in the queue, and two for each byte. -/
  succeed_le : ∀ {k m'}, Succeed k m m' → k ≤ 2 * m.source.rest.length + ts.length
  /-- Then one fails. -/
  fails : m.heap.Halts m.registers.registry →
    ∃ k m' f m'', Succeed k m m' ∧ readTerm m' = .error (.fault f) m''

/-- Reading makes progress. -/
theorem progress_readTerm (hm : m.Poised) (hqueue : m.heap.Queued m.registers.readQueue ts) :
    m.Progress ts where
  ends := ⟨ends_readTerm hm hqueue, readTerm_ne_unfinished_of_halts hm hqueue⟩
  forward := forward_readTerm m
  position_le := ⟨(forward_readTerm m).onward.position_le, (forward_readTerm m).onward.position_le_extent⟩
  serves hrun := (serves_readTerm hm hqueue hrun).2
  readQueue_eq hempty hrun := by
    refine readQueue_of_readTerm hm.regular ?_ (hqueue.eq_nil_iff.mpr hempty) hrun
    rw [hm.nil_eq]
    exact hm.live_nil
  succeed_le hreads := hreads.le hm hqueue
  fails := exists_failure hm hqueue

/-- The machine `crammed` with a term in its queue and a text that has a directive and a list without end. -/
def laden : Machine :=
  let m := crammed []
  { m with
    registers := { m.registers with readQueue := .ofSlot 5 }
    source := .new (Bytes.ofString "^y (") }

theorem progress_readTerm_laden : laden.Poised ∧ laden.heap.Queued laden.registers.readQueue [.ofSlot 4] ∧
    laden.Progress [.ofSlot 4] ∧
    ∃ k m' f m'', Succeed k laden m' ∧ readTerm m' = .error (.fault f) m'' ∧ k ≤ 9 := by
  have hm : laden.Poised := ⟨(whole_crammed (List.forall_mem_nil _)).regular, rfl,
      live_crammed [] (by decide)⟩
  have hqueue : laden.heap.Queued (.ofSlot 5) [.ofSlot 4] :=
    .cons (by decide) (object?_crammed [] (i := 5) rfl) .nil
  have hhalts : laden.heap.Halts (.ofSlot 2) :=
    ⟨[.ofSlot 1], .nil, .nil, .cons (object?_crammed [] (i := 2) rfl) .nil,
      object?_crammed [] (i := 0) rfl, by simp⟩
  have hprogress := progress_readTerm hm hqueue
  obtain ⟨k, m', f, m'', hreads, hfails⟩ := hprogress.fails hhalts
  refine ⟨hm, hqueue, hprogress, k, m', f, m'', hreads, hfails, (hprogress.succeed_le hreads).trans ?_⟩
  decide +kernel

/-- The machine `crammed` with a registry that is its own tail, about to read an atom that is not in it. -/
def knotted : Machine :=
  let m := crammed []
  { m with
    heap := m.heap.put (.ofSlot 2) (.pair (.ofSlot 1) (.ofSlot 2))
    source := .new (Bytes.ofString "new") }

/-- Where the registry does not end, a read need not either, though the queue is empty. -/
theorem knotted_reads_forever : knotted.Poised ∧ knotted.heap.Queued knotted.registers.readQueue [] ∧
    knotted.Lost ∧ ∃ m', readTerm knotted = .error .unfinished m' := by
  have hcrammed := (whole_crammed (List.forall_mem_nil _)).regular
  have hregular : knotted.heap.Regular := by
    refine ⟨hcrammed.unmarked.modify _ _, ?_⟩
    rw [knotted, Heap.put, Heap.capacity_modify]
    exact hcrammed.capacity_le
  have hregistry : knotted.object? (.ofSlot 2) = some (.pair (.ofSlot 1) (.ofSlot 2)) := by decide +kernel
  have hatom : knotted.atom? (.ofSlot 1) ≠ some (Bytes.ofString "new") := by decide +kernel
  have hnil : (knotted.object? .nil).isSome = true := by decide +kernel
  have hends : EStateM.run' (attempt readTerm).run knotted = some (.error .unfinished) := by decide +kernel
  exact ⟨⟨hregular, rfl, hnil⟩, .nil, ⟨_, findAtomFrom_of_cycle hregistry hatom⟩, _,
    run_eq_of_run'_attempt hends⟩

end Machine

end PushLisp
