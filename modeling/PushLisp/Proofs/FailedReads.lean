import PushLisp.Proofs.Balance
import PushLisp.Proofs.Exhaustion
import PushLisp.Proofs.ReadRules
import PushLisp.Proofs.Reading
import PushLisp.Proofs.Session

/-!
# Reads that fail

Reading makes objects as it goes, and it may fail at any point: the text may be wrong, or the table may be
used up. Whatever happens, the only registers it touches are the queue of terms still to be handed out and
the registry of atoms, which only gets longer at its front. All that the other registers and the held roots
lead to is left alone. A read that fails has handed out whatever it queued.

## Main definitions

* `Heap.Chain`: a list up to one of its tails.
* `Machine.Undisturbed`: what reading leaves alone.
* `Heap.Queued`: a queue of terms.

## Main statements

* `Machine.lexical_undisturbing`: reading leaves this alone.
* `Machine.leaves_readFrom`: what is queued after a read.
* `Machine.failure_leaves_roots`: what an operation leaves that gives up.
-/
namespace PushLisp

/-- The registers that reading does not change, and the registry. -/
def Registers.standing (r : Registers) : List Handle :=
  [r.nil, r.registry, r.atomTrue, r.atomQuote, r.atomPush, r.atomPop, r.stack, r.env, r.program]

theorem Registers.standing_subset (r : Registers) : r.standing ⊆ r.roots := by simp [standing, roots]

/-! ## Lists up to a tail -/

namespace Heap

variable {heap heap' : Heap} {h k l : Handle} {vs ws : List Handle}

/-- A handle names a list of some values that goes on at another handle. -/
inductive Chain (heap : Heap) : Handle → List Handle → Handle → Prop
  | nil {h : Handle} : Chain heap h [] h
  | cons {h car cdr k : Handle} {vs : List Handle} : heap.get? h = some (.pair car cdr) →
      Chain heap cdr vs k → Chain heap h (car :: vs) k

theorem Chain.append (hchain : heap.Chain h vs k) (hrest : heap.Chain k ws l) :
    heap.Chain h (vs ++ ws) l := by
  induction hchain with
  | nil => exact hrest
  | cons ho _ ih => exact .cons ho (ih hrest)

/-- A list leads to its values and to where it goes on. -/
theorem Chain.reaches (hchain : heap.Chain h vs k) : ∀ v ∈ k :: vs, heap.Reaches [h] v := by
  induction hchain with
  | nil => simpa using .root (List.mem_singleton.mpr rfl)
  | @cons h car cdr k vs ho _ ih =>
    have hroot : heap.Reaches [h] h := .root (List.mem_singleton.mpr rfl)
    have hcdr : ∀ r ∈ [cdr], heap.Reaches [h] r := by
      simpa using hroot.reference ho (by simp [Object.references])
    intro v hv
    simp only [List.mem_cons] at hv ih
    rcases hv with rfl | rfl | hv
    · exact (ih _ (.inl rfl)).trans hcdr
    · exact hroot.reference ho (by simp [Object.references])
    · exact (ih v (.inr hv)).trans hcdr

/-- A list is there as long as its pairs are. -/
theorem Chain.congr (hchain : heap.Chain h vs k)
    (hkeep : ∀ {l car cdr}, heap.Reaches [h] l → heap.get? l = some (.pair car cdr) →
      heap'.get? l = some (.pair car cdr)) : heap'.Chain h vs k := by
  induction hchain with
  | nil => exact .nil
  | @cons h car cdr k vs ho _ ih =>
    have hroot : heap.Reaches [h] h := .root (List.mem_singleton.mpr rfl)
    refine .cons (hkeep hroot ho) (ih fun hl hpair => hkeep (hl.trans ?_) hpair)
    simpa using hroot.reference ho (by simp [Object.references])

end Heap

namespace Machine

variable {α β : Type} {base : List Handle} {m m' m'' : Machine} {h : Handle}

/-! ## What reading leaves alone -/

/-- A later machine has the same objects where the registers that reading does not change, the registry and
some held handles lead. The registry is the old one, with atoms in front of it at most. -/
structure Undisturbed (base : List Handle) (m m' : Machine) : Prop where
  object?_eq : ∀ {h o}, m.heap.Reaches (.nil :: (m.registers.standing ++ base)) h → m.object? h = some o →
    m'.object? h = some o
  registers_eq : m'.registers = { m.registers with
    readQueue := m'.registers.readQueue, registry := m'.registers.registry }
  registry : ∃ atoms, m'.heap.Chain m'.registers.registry atoms m.registers.registry ∧
    ∀ atom ∈ atoms, ∃ spelling, m'.object? atom = some (.atom spelling)
  sink_eq : m'.sink = m.sink

namespace Undisturbed

theorem refl (m : Machine) : Undisturbed base m m := ⟨fun _ ho => ho, rfl, ⟨[], .nil, by simp⟩, rfl⟩

/-- What is led to before is led to afterwards. -/
theorem reaches (hkept : Undisturbed base m m')
    (hh : m.heap.Reaches (.nil :: (m.registers.standing ++ base)) h) :
    m'.heap.Reaches (.nil :: (m'.registers.standing ++ base)) h := by
  induction hh with
  | @root k hmem =>
    have hregisters := hkept.registers_eq
    by_cases hregistry : k = m.registers.registry
    · -- the old registry is a tail of the new one
      obtain ⟨atoms, hchain, -⟩ := hkept.registry
      subst hregistry
      exact (hchain.reaches _ List.mem_cons_self).mono (by simp [Registers.standing])
    · refine .root ?_
      rw [hregisters]
      simp only [Registers.standing, List.mem_cons, List.mem_append, List.not_mem_nil, or_false] at hmem ⊢
      exact hmem.imp_right (Or.imp_left (Or.imp_right fun hk => .inr (hk.resolve_left hregistry)))
  | reference hk ho href ih => exact .reference ih (hkept.object?_eq hk ho) href

theorem trans (hkept : Undisturbed base m m') (hkept' : Undisturbed base m' m'') :
    Undisturbed base m m'' where
  object?_eq hh ho := hkept'.object?_eq (hkept.reaches hh) (hkept.object?_eq hh ho)
  registers_eq := by rw [hkept'.registers_eq, hkept.registers_eq]
  registry := by
    obtain ⟨atoms, hchain, hatoms⟩ := hkept.registry
    obtain ⟨atoms', hchain', hatoms'⟩ := hkept'.registry
    have hkeep : ∀ {l o}, m'.heap.Reaches [m'.registers.registry] l → m'.object? l = some o →
        m''.object? l = some o := by
      intro l o hl ho
      exact hkept'.object?_eq (hl.mono (by simp [Registers.standing])) ho
    refine ⟨atoms' ++ atoms, hchain'.append (hchain.congr hkeep), ?_⟩
    intro atom hatom
    rcases List.mem_append.mp hatom with hatom | hatom
    · exact hatoms' atom hatom
    · obtain ⟨spelling, ho⟩ := hatoms atom hatom
      exact ⟨spelling, hkeep (hchain.reaches atom (List.mem_cons_of_mem _ hatom)) ho⟩
  sink_eq := hkept'.sink_eq.trans hkept.sink_eq

theorem of_subset {base' : List Handle} (hkept : Undisturbed base m m') (hsub : base' ⊆ base) :
    Undisturbed base' m m' :=
  { hkept with
    object?_eq := fun hh ho => by
      refine hkept.object?_eq (hh.mono ?_) ho
      intro k hk
      simp only [List.mem_cons, List.mem_append] at hk ⊢
      exact hk.imp_right (Or.imp_right fun hk => hsub hk) }

end Undisturbed

/-- What the registers that stand and the held roots lead to is spared when room is made. -/
theorem Spares.undisturbed {hs : List Handle} (hspares : Spares hs m m') (hheld : base <:+ m.shadow) :
    Undisturbed base m m' where
  object?_eq {k o} hh ho := by
    refine hspares.object?_eq ho (hh.mono ?_)
    intro k hk
    simp only [roots, List.mem_cons, List.mem_append] at hk ⊢
    rcases hk with hnil | hregister | hbase
    · exact .inl hnil
    · exact .inr (.inr (.inl (m.registers.standing_subset hregister)))
    · exact .inr (.inr (.inr (hheld.subset hbase)))
  registers_eq := by rw [hspares.rest_eq]
  registry := by
    rw [hspares.rest_eq]
    exact ⟨[], .nil, by simp⟩
  sink_eq := by rw [hspares.rest_eq]

/-- An operation that leaves alone what reading should, and what is held. -/
def Undisturbing (base : List Handle) (act : Run α) (m : Machine) : Prop :=
  m.heap.Regular → base <:+ m.shadow → (after act m).heap.Regular ∧ base <:+ (after act m).shadow ∧
    Undisturbed base m (after act m)

theorem Undisturbing.bind {x : Run α} {f : α → Run β} (hx : Undisturbing base x m)
    (hf : ∀ {a m'}, x m = .ok a m' → Undisturbing base (f a) m') : Undisturbing base (x >>= f) m := by
  intro hm hheld
  obtain ⟨hm', hheld', hkept⟩ := hx hm hheld
  cases hrun : x.run m with
  | ok a m' =>
    rw [after_of_ok hrun] at hm' hheld' hkept
    obtain ⟨hm'', hheld'', hkept'⟩ := hf hrun hm' hheld'
    rw [after_bind_of_ok hrun]
    exact ⟨hm'', hheld'', hkept.trans hkept'⟩
  | error reason m' =>
    rw [after_of_error hrun] at hm' hheld' hkept
    rw [after_bind_of_error hrun]
    exact ⟨hm', hheld', hkept⟩

theorem undisturbing_of_after_eq {act : Run α} (hafter : after act m = m) : Undisturbing base act m := by
  intro hm hheld
  rw [hafter]
  exact ⟨hm, hheld, .refl m⟩

/-- Operations that touch neither objects nor registers other than the queue. -/
theorem undisturbing_of_heap_eq {act : Run α} (hheap : (after act m).heap = m.heap)
    (hregisters : (after act m).registers =
      { m.registers with readQueue := (after act m).registers.readQueue })
    (hheld : base <:+ m.shadow → base <:+ (after act m).shadow) (hsink : (after act m).sink = m.sink) :
    Undisturbing base act m := by
  intro hm hbase
  refine ⟨hheap ▸ hm, hheld hbase, ⟨fun {h o} _ ho => ?_, ?_, ⟨[], ?_, by simp⟩, hsink⟩⟩
  · rwa [object?, hheap]
  · rw [hregisters]
  · rw [hregisters]
    exact .nil

theorem undisturbing_allocate (o : Object) : Undisturbing base (allocate o) m := by
  intro hm hheld
  have hspares := sparing_allocate o hm
  refine ⟨hspares.regular hm, ?_, hspares.undisturbed hheld⟩
  rw [hspares.rest_eq]
  exact hheld

theorem Undisturbing.keepingRoots {act : Run α} (hact : Undisturbing m.shadow act m) :
    Undisturbing base (keepingRoots act) m := by
  intro hm hheld
  obtain ⟨hm', -, hkept⟩ := hact hm (List.suffix_refl _)
  rw [after_keepingRoots]
  exact ⟨hm', hheld, { hkept.of_subset hheld.subset with }⟩

/-- An object that was made is there. -/
theorem object?_of_allocate {o : Object} (hm : m.heap.Regular) (hrun : allocate o m = .ok h m') :
    m'.object? h = some o := by
  rcases allocate_spares o hm.unmarked hm.capacity_le with ⟨h', n, hrun', hplaced⟩ | ⟨n, hrun', -⟩
  · cases hrun.symm.trans hrun'
    exact hplaced.object?_eq
  · cases hrun.symm.trans hrun'

/-- An atom is put in front of the registry. -/
theorem undisturbing_enroll {atom : Handle} {spelling : Bytes}
    (hatom : m.object? atom = some (.atom spelling)) :
    Undisturbing base (do
      let registry ← makePair atom (← getRegisters).registry
      modifyRegisters fun r => { r with registry := registry }
      return atom) m := by
  intro hm hheld
  rw [after_bind_of_ok (show getRegisters.run m = .ok m.registers m from rfl)]
  have hspares := sparing_allocate (.pair atom m.registers.registry) hm
  cases hrun : (makePair atom m.registers.registry).run m with
  | ok registry m' =>
    rcases allocate_spares (.pair atom m.registers.registry) hm.unmarked hm.capacity_le with
      ⟨_, _, hrun', hplaced⟩ | ⟨_, hrun', -⟩
    · cases hrun.symm.trans hrun'
      have hkept := hplaced.spares.undisturbed hheld
      have hregisters : m'.registers = m.registers := by rw [hplaced.spares.rest_eq]
      rw [after_bind_of_ok hrun]
      refine ⟨hplaced.spares.regular hm, ?_, hkept.object?_eq, ?_, ⟨[atom], ?_, ?_⟩, hkept.sink_eq⟩
      · show base <:+ m'.shadow
        rwa [hplaced.spares.rest_eq]
      · show { m'.registers with registry := registry } =
          { m.registers with readQueue := m'.registers.readQueue, registry := registry }
        rw [hregisters]
      · exact .cons hplaced.object?_eq .nil
      · -- the atom was held while the pair was made
        have hkeep := hplaced.spares.object?_eq hatom (.root (by simp [Object.references]))
        simpa using ⟨spelling, hkeep⟩
    · cases hrun.symm.trans hrun'
  | error reason m' =>
    have hspares : Spares [] m m' := after_of_error hrun ▸ hspares
    rw [after_bind_of_error hrun]
    refine ⟨hspares.regular hm, ?_, hspares.undisturbed hheld⟩
    rwa [hspares.rest_eq]

theorem undisturbing_intern (spelling : Bytes) : Undisturbing base (intern spelling) m := by
  refine (undisturbing_of_after_eq (after_ask _ m)).bind fun {found m} _ => ?_
  cases found with
  | some atom => exact undisturbing_of_after_eq rfl
  | none =>
    intro hm hheld
    refine ((undisturbing_allocate (.atom spelling)).bind fun hrun => ?_) hm hheld
    exact undisturbing_enroll (object?_of_allocate hm hrun)

/-- Reading leaves alone what it should. -/
theorem lexical_undisturbing : Lexical fun _ base act m => Undisturbing base act m where
  bind := Undisturbing.bind
  pure _ := undisturbing_of_after_eq rfl
  unfinished := undisturbing_of_after_eq rfl
  fail _ := undisturbing_of_after_eq rfl
  component _ := ⟨undisturbing_of_after_eq (after_ask _ _), undisturbing_of_after_eq (after_ask _ _)⟩
  getRegisters hf := hf
  getPosition hf := hf
  setQueue _ := undisturbing_of_heap_eq rfl rfl id rfl
  root hs := undisturbing_of_heap_eq rfl rfl (fun hheld => hheld.trans (List.suffix_append hs _)) rfl
  keepingRoots := Undisturbing.keepingRoots
  makeNumber _ := undisturbing_allocate _
  makePair _ _ := undisturbing_allocate _
  makeString _ := undisturbing_allocate _
  intern := undisturbing_intern
  skipBlank := undisturbing_of_heap_eq rfl rfl id rfl
  peek := undisturbing_of_after_eq rfl
  advance := undisturbing_of_heap_eq rfl rfl id rfl
  takeWord := undisturbing_of_heap_eq rfl rfl id rfl
  takeString := by
    refine Undisturbing.bind (undisturbing_of_heap_eq rfl rfl id rfl) fun {result _} _ => ?_
    cases result with
    | ok bytes => exact undisturbing_of_after_eq rfl
    | error f => exact undisturbing_of_after_eq rfl

/-! ## What is queued -/

end Machine

namespace Heap

variable {heap heap' : Heap} {h : Handle} {ts : List Handle}

/-- A handle names a queue of some terms. No part of it that holds a term is under the handle of the empty
list. -/
inductive Queued (heap : Heap) : Handle → List Handle → Prop
  | nil : Queued heap .nil []
  | cons {h t rest : Handle} {ts : List Handle} : h ≠ .nil → heap.get? h = some (.pair t rest) →
      Queued heap rest ts → Queued heap h (t :: ts)

theorem Queued.congr (hqueue : heap.Queued h ts)
    (hkeep : ∀ {l o}, heap.Reaches [h] l → heap.get? l = some o → heap'.get? l = some o) :
    heap'.Queued h ts := by
  induction hqueue with
  | nil => exact .nil
  | @cons h t rest ts hne ho _ ih =>
    have hroot : heap.Reaches [h] h := .root (List.mem_singleton.mpr rfl)
    refine .cons hne (hkeep hroot ho) (ih fun hl hpair => hkeep (hl.trans ?_) hpair)
    simpa using hroot.reference ho (by simp [Object.references])

/-- A queue is empty exactly if it is the empty list. -/
theorem Queued.of_eq_nil (hnil : h = .nil) : heap.Queued h [] := hnil ▸ .nil

theorem Queued.eq_nil_iff (hqueue : heap.Queued h ts) : h = .nil ↔ ts = [] := by
  cases hqueue with
  | nil => simp
  | cons hne => simp [hne]

end Heap

namespace Machine

variable {α β : Type} {base : List Handle} {m m' m'' : Machine} {h : Handle} {ts : List Handle}

/-- A machine on which reading can tell an empty queue from others: the empty list is there, and is what the
register for it names. -/
structure Poised (m : Machine) : Prop where
  regular : m.heap.Regular
  nil_eq : m.registers.nil = .nil
  live_nil : m.Live .nil

theorem Poised.undisturbed (hm : m.Poised) (hkept : Undisturbed base m m') (hregular : m'.heap.Regular) :
    m'.Poised := by
  refine ⟨hregular, ?_, ?_⟩
  · rw [hkept.registers_eq]
    exact hm.nil_eq
  · obtain ⟨o, ho⟩ := Option.isSome_iff_exists.mp hm.live_nil
    exact Option.isSome_of_eq_some (hkept.object?_eq (.root List.mem_cons_self) ho)

/-- From a machine that is poised, an operation that answers leads to such a machine, as `Q` says. If it
fails then the queue is empty. -/
def Leaves (act : Run α) (m : Machine) (Q : α → Machine → Prop) : Prop :=
  m.Poised → (∀ {a m'}, act m = .ok a m' → m'.Poised ∧ Q a m') ∧
    ∀ {f m'}, act m = .error (.fault f) m' → m'.registers.readQueue = .nil

section Leaves

variable {P : α → Machine → Prop} {Q : β → Machine → Prop}

theorem Leaves.bind {x : Run α} {f : α → Run β} (hx : Leaves x m P)
    (hf : ∀ {a m'}, P a m' → Leaves (f a) m' Q) : Leaves (x >>= f) m Q := by
  intro hm
  obtain ⟨hok, herror⟩ := hx hm
  cases hrun : x.run m with
  | ok a m' =>
    obtain ⟨hm', hp⟩ := hok hrun
    rw [Run.run_bind_of_ok hrun]
    exact hf hp hm'
  | error reason m' =>
    rw [Run.run_bind_of_error hrun]
    constructor
    · intro b n h
      cases h
    · intro f n h
      cases h
      exact herror hrun

theorem Leaves.imp {act : Run α} {P' : α → Machine → Prop} (hact : Leaves act m P)
    (hp : ∀ {a m'}, P a m' → P' a m') : Leaves act m P' := by
  intro hm
  obtain ⟨hok, herror⟩ := hact hm
  exact ⟨fun hrun => (hok hrun).imp_right hp, herror⟩

theorem leaves_of_poised {act : Run α} (hact : m.Poised → Leaves act m P) : Leaves act m P :=
  fun hm => hact hm hm

theorem leaves_getRegisters {f : Registers → Run β} (hf : Leaves (f m.registers) m Q) :
    Leaves (getRegisters >>= f) m Q := hf

theorem leaves_pure {a : α} (hp : P a m) : Leaves (pure a) m P := by
  intro hm
  constructor
  · intro b n h
    cases h
    exact ⟨hm, hp⟩
  · intro f n h
    cases h

theorem leaves_fail (f : Fault) (hqueue : m.registers.readQueue = .nil) : Leaves (fail f) m P := by
  intro hm
  constructor
  · intro b n h
    cases h
  · intro f n h
    cases h
    exact hqueue

/-- Operations that do not touch the queue. -/
theorem leaves_of_idle {act : Run α} (hact : Undisturbing [] act m)
    (hidle : (after act m).registers.readQueue = m.registers.readQueue)
    (hqueue : m.registers.readQueue = .nil) : Leaves act m fun _ m' => m'.registers.readQueue = .nil := by
  intro hm
  obtain ⟨hregular, -, hkept⟩ := hact hm.regular List.nil_suffix
  constructor
  · intro a m' hrun
    rw [after_of_ok hrun] at hregular hkept hidle
    exact ⟨hm.undisturbed hkept hregular, hidle.trans hqueue⟩
  · intro f m' hrun
    rw [after_of_error hrun] at hidle
    exact hidle.trans hqueue

theorem Leaves.keepingRoots {act : Run α} {P' : α → Machine → Prop} (hact : Leaves act m P')
    (hp : ∀ {a m'}, P' a m' → P a { m' with shadow := m.shadow }) : Leaves (keepingRoots act) m P := by
  intro hm
  obtain ⟨hok, herror⟩ := hact hm
  cases hrun : act.run m with
  | ok a m' =>
    obtain ⟨hm', hp'⟩ := hok hrun
    simp only [Machine.keepingRoots, hrun]
    constructor
    · intro b n h
      cases h
      exact ⟨⟨hm'.regular, hm'.nil_eq, hm'.live_nil⟩, hp hp'⟩
    · intro f n h
      cases h
  | error reason m' =>
    simp only [Machine.keepingRoots, hrun]
    constructor
    · intro b n h
      cases h
    · intro f n h
      cases h
      have hqueue := herror hrun
      exact hqueue

end Leaves

/-- Making objects touches no register. -/
theorem registers_after_allocate (o : Object) (m : Machine) :
    (after (allocate o) m).registers = m.registers := by
  cases hfind : m.heap.findFree? with
  | some i => rw [after_of_ok (run_allocate_of_free hfind)]
  | none =>
    obtain ⟨events, hagain, hfail⟩ := run_allocate_of_full (o := o) hfind
    cases hfind' : (m.heap.collect (m.registers.roots ++ (o.references ++ m.shadow))).2.findFree? with
    | some i => rw [after_of_ok (hagain i hfind')]
    | none => rw [after_of_error (hfail hfind').1]

/-- Operations one after another do not touch the queue if each does not. -/
theorem readQueue_after_bind {x : Run α} {f : α → Run β}
    (hx : (after x m).registers.readQueue = m.registers.readQueue)
    (hf : ∀ {a m'}, (after (f a) m').registers.readQueue = m'.registers.readQueue) :
    (after (x >>= f) m).registers.readQueue = m.registers.readQueue := by
  cases hrun : x.run m with
  | ok a m' => rwa [after_bind_of_ok hrun, hf, ← after_of_ok hrun]
  | error reason m' => rwa [after_bind_of_error hrun, ← after_of_error hrun]

theorem readQueue_after_intern (spelling : Bytes) (m : Machine) :
    (after (intern spelling) m).registers.readQueue = m.registers.readQueue := by
  refine readQueue_after_bind (by rw [after_ask]) fun {found m'} => ?_
  cases found with
  | some atom => rfl
  | none =>
    have hmake : ∀ (o : Object) (m : Machine),
        (after (allocate o) m).registers.readQueue = m.registers.readQueue :=
      fun o m => by rw [registers_after_allocate]
    refine readQueue_after_bind (hmake _ _) fun {atom m₁} => ?_
    refine readQueue_after_bind rfl fun {registers m₁} => ?_
    exact readQueue_after_bind (hmake _ _) rfl

theorem leaves_allocate (o : Object) (hqueue : m.registers.readQueue = .nil) :
    Leaves (allocate o) m fun _ m' => m'.registers.readQueue = .nil :=
  leaves_of_idle (undisturbing_allocate o) (by rw [registers_after_allocate]) hqueue

theorem leaves_scalar (word : Bytes) (hqueue : m.registers.readQueue = .nil) :
    Leaves (scalar word) m fun _ m' => m'.registers.readQueue = .nil := by
  rw [scalar]
  cases Numeral.readInt64? word with
  | some n => exact leaves_allocate _ hqueue
  | none => exact leaves_of_idle (undisturbing_intern word) (readQueue_after_intern word m) hqueue

/-- A queue gets longer by a pair in front of it. -/
theorem leaves_makePair {v list : Handle} (hqueue : m.registers.readQueue = .nil)
    (hlist : m.heap.Queued list ts) :
    Leaves (makePair v list) m fun h m' => m'.registers.readQueue = .nil ∧ m'.heap.Queued h (v :: ts) := by
  intro hm
  obtain ⟨hok, herror⟩ := leaves_allocate (.pair v list) hqueue hm
  refine ⟨fun {h m'} hrun => ?_, herror⟩
  obtain ⟨hm', hqueue'⟩ := hok hrun
  rcases allocate_spares (.pair v list) hm.regular.unmarked hm.regular.capacity_le with
    ⟨_, _, hrun', hplaced⟩ | ⟨_, hrun', -⟩
  · cases hrun.symm.trans hrun'
    refine ⟨hm', hqueue', .cons ?_ hplaced.object?_eq (hlist.congr fun hl ho => ?_)⟩
    · exact (hplaced.fresh (.root List.mem_cons_self) hm.live_nil).symm
    · refine hplaced.spares.object?_eq ho (hl.mono ?_)
      simp [Object.references]
  · cases hrun.symm.trans hrun'

theorem leaves_consAll {list : Handle} (values : List Handle) (hqueue : m.registers.readQueue = .nil)
    (hlist : m.heap.Queued list ts) : Leaves (consAll list values) m fun h m' =>
      m'.registers.readQueue = .nil ∧ m'.heap.Queued h (values.reverse ++ ts) := by
  induction values generalizing list ts m with
  | nil => exact leaves_pure ⟨hqueue, hlist⟩
  | cons v values ih =>
    refine (leaves_makePair hqueue hlist).bind fun {list' m'} hlist' => ?_
    rw [List.reverse_cons, List.append_assoc]
    exact ih hlist'.1 hlist'.2

theorem leaves_makeList (values : List Handle) (hqueue : m.registers.readQueue = .nil) :
    Leaves (makeList values) m fun h m' => m'.registers.readQueue = .nil ∧ m'.heap.Queued h values := by
  have hroot : Leaves (root values) m fun _ m' => m'.registers.readQueue = .nil :=
    leaves_of_idle (lexical_undisturbing.root values) rfl hqueue
  have hcons : Leaves (do root values; consAll .nil values.reverse) m fun h m' =>
      m'.registers.readQueue = .nil ∧ m'.heap.Queued h values :=
    hroot.bind fun hqueue' => by simpa using leaves_consAll values.reverse hqueue' .nil
  exact hcons.keepingRoots id

theorem leaves_takeWord (hqueue : m.registers.readQueue = .nil) :
    Leaves takeWord m fun _ m' => m'.registers.readQueue = .nil :=
  leaves_of_idle lexical_undisturbing.takeWord rfl hqueue

theorem leaves_takeString (hqueue : m.registers.readQueue = .nil) :
    Leaves takeString m fun _ m' => m'.registers.readQueue = .nil := by
  refine leaves_of_idle lexical_undisturbing.takeString ?_ hqueue
  refine readQueue_after_bind rfl fun {result m'} => ?_
  cases result <;> rfl

/-- A directive queues three terms. -/
theorem leaves_queueDirective (sign : UInt8) (op : Registers → Handle)
    (hqueue : m.registers.readQueue = .nil) :
    Leaves (queueDirective sign op) m fun _ m' =>
      ∃ ts, m'.heap.Queued m'.registers.readQueue ts ∧ ts.length = 3 := by
  refine (leaves_takeWord hqueue).bind fun {word m₁} hqueue₁ => ?_
  dsimp only
  split
  · exact (leaves_fail (P := fun _ _ => False) _ hqueue₁).bind fun hfalse => hfalse.elim
  · refine (leaves_scalar word hqueue₁).bind fun {name m₂} hqueue₂ => ?_
    apply leaves_getRegisters
    refine (leaves_makeList _ hqueue₂).bind fun {queue m₃} hqueue₃ => ?_
    intro hm
    constructor
    · intro _ m' hrun
      cases hrun
      exact ⟨⟨hm.regular, hm.nil_eq, hm.live_nil⟩, _, hqueue₃.2, rfl⟩
    · intro f m' hrun
      cases hrun

/-- A read hands out the first of the terms that are queued. -/
theorem leaves_dequeue {t : Handle} (hqueue : m.heap.Queued m.registers.readQueue (t :: ts)) :
    Leaves (dequeue m.registers.readQueue) m fun _ m' => m'.heap.Queued m'.registers.readQueue ts := by
  intro hm
  generalize m.registers.readQueue = queue at hqueue
  cases hqueue with
  | cons _ ho hrest =>
    rw [run_dequeue ho]
    constructor
    · intro _ m' hrun
      cases hrun
      exact ⟨⟨hm.regular, hm.nil_eq, hm.live_nil⟩, hrest⟩
    · intro f m' hrun
      cases hrun

/-- What is queued after reading within a step bound. After a read that began with an empty queue that is two
terms at most, and else one less than before. After the items of a list nothing is queued. -/
structure Hands (n : ℕ) : Prop where
  term : ∀ {m ts}, m.heap.Queued m.registers.readQueue ts → Leaves (readTermFrom n) m fun _ m' =>
    ∃ ts', m'.heap.Queued m'.registers.readQueue ts' ∧ if ts = [] then ts'.length ≤ 2 else ts' = ts.tail
  items : ∀ {m ts} (items : List Handle), m.heap.Queued m.registers.readQueue ts →
    Leaves (readItemsFrom n items) m fun _ m' => m'.registers.readQueue = .nil

theorem leaves_advance (hqueue : m.registers.readQueue = .nil) :
    Leaves advance m fun _ m' => m'.registers.readQueue = .nil :=
  leaves_of_idle lexical_undisturbing.advance rfl hqueue

/-- Where nothing is queued, reading passes the blanks and looks at the next byte. -/
theorem leaves_peekNext {f : Option UInt8 → Run α} {P : α → Machine → Prop}
    (hqueue : m.registers.readQueue = .nil)
    (hf : ∀ {next m'}, m'.registers.readQueue = .nil → Leaves (f next) m' P) :
    Leaves (do
      skipBlank
      let next ← peek
      f next) m P := by
  have hskip : Leaves skipBlank m fun _ m' => m'.registers.readQueue = .nil :=
    leaves_of_idle lexical_undisturbing.skipBlank rfl hqueue
  refine hskip.bind fun {_ m₁} hqueue₁ => ?_
  have hpeek : Leaves peek m₁ fun _ m' => m'.registers.readQueue = .nil :=
    leaves_of_idle lexical_undisturbing.peek rfl hqueue₁
  exact hpeek.bind hf

/-- A term that is read from the text. -/
theorem Hands.readNext {n : ℕ} (hands : Hands n) (r : Registers) (next : Option UInt8)
    (hqueue : m.registers.readQueue = .nil) : Leaves (readNext n r next) m fun _ m' =>
      ∃ ts', m'.heap.Queued m'.registers.readQueue ts' ∧ ts'.length ≤ 2 := by
  have hempty : ∀ {m : Machine}, m.registers.readQueue = .nil →
      ∃ ts', m.heap.Queued m.registers.readQueue ts' ∧ ts'.length ≤ 2 := by
    intro m hqueue
    rw [hqueue]
    exact ⟨[], .nil, by simp⟩
  have hdirective : ∀ (sign : UInt8) (op : Registers → Handle) {m : Machine}, m.registers.readQueue = .nil →
      Leaves (do queueDirective sign op; readTermFrom n) m fun _ m' =>
        ∃ ts', m'.heap.Queued m'.registers.readQueue ts' ∧ ts'.length ≤ 2 := by
    intro sign op m hqueue
    refine (leaves_queueDirective sign op hqueue).bind fun {_ m₁} hqueued => ?_
    obtain ⟨ts, hts, hlen⟩ := hqueued
    have hne : ts ≠ [] := by
      rintro rfl
      simp at hlen
    refine (hands.term hts).imp fun {_ m'} hhanded => ?_
    obtain ⟨ts', hts', htail⟩ := hhanded
    rw [if_neg hne] at htail
    exact ⟨ts', hts', by simp [htail, hlen]⟩
  cases next with
  | none => exact leaves_fail _ hqueue
  | some c =>
    rw [Machine.readNext]
    split
    · exact (leaves_advance hqueue).bind fun hqueue₁ => leaves_pure (hempty hqueue₁)
    split
    · exact (leaves_advance hqueue).bind fun hqueue₁ => hdirective _ _ hqueue₁
    split
    · exact (leaves_advance hqueue).bind fun hqueue₁ => hdirective _ _ hqueue₁
    split
    · refine (leaves_advance hqueue).bind fun {_ m₁} hqueue₁ => ?_
      have hitems := hands.items (m := m₁) [] (.of_eq_nil hqueue₁)
      have hlist : Leaves (do
          let items ← readItemsFrom n []
          makeList items) m₁ fun _ m' =>
            ∃ ts', m'.heap.Queued m'.registers.readQueue ts' ∧ ts'.length ≤ 2 :=
        hitems.bind fun hqueue₂ => (leaves_makeList _ hqueue₂).imp fun hlisted => hempty hlisted.1
      exact hlist.keepingRoots id
    split
    · refine (leaves_advance hqueue).bind fun hqueue₁ => (leaves_takeString hqueue₁).bind fun hqueue₂ => ?_
      exact (leaves_allocate _ hqueue₂).imp hempty
    split
    · have hfail : ∀ position,
          Leaves (do advance; fail (.unbalancedClose position) : Run Handle) m fun _ m' =>
            ∃ ts', m'.heap.Queued m'.registers.readQueue ts' ∧ ts'.length ≤ 2 := fun position =>
        (leaves_advance hqueue).bind fun hqueue₁ => leaves_fail _ hqueue₁
      exact hfail m.source.position
    · exact (leaves_takeWord hqueue).bind fun hqueue₁ => (leaves_scalar _ hqueue₁).imp hempty

/-- Another item of a list, and then the rest. -/
theorem Hands.readMore {n : ℕ} (hands : Hands n) (items : List Handle)
    (hqueue : m.heap.Queued m.registers.readQueue ts) :
    Leaves (readMore n items) m fun _ m' => m'.registers.readQueue = .nil := by
  refine (hands.term hqueue).bind fun {item m₁} hhanded => ?_
  obtain ⟨ts₁, hts₁, -⟩ := hhanded
  have hroot : Leaves (root [item]) m₁ fun _ m' => m'.heap.Queued m'.registers.readQueue ts₁ := by
    intro hm
    constructor
    · intro _ m' hrun
      cases hrun
      exact ⟨⟨hm.regular, hm.nil_eq, hm.live_nil⟩, hts₁⟩
    · intro f m' hrun
      cases hrun
  exact hroot.bind fun hts₂ => hands.items _ hts₂

/-- Reading queues no more than it hands out, or keeps for the next reads. -/
theorem hands (n : ℕ) : Hands n := by
  induction n with
  | zero =>
    have hstop : ∀ {α : Type} {m : Machine} {P : α → Machine → Prop}, Leaves (stop .unfinished) m P := by
      intro α m P hm
      constructor <;> intro _ _ hrun <;> cases hrun
    constructor
    · intro m ts _
      rw [readTermFrom]
      exact hstop
    · intro m ts items _
      rw [readItemsFrom]
      exact hstop
  | succ n ih =>
    constructor
    · intro m ts hqueue
      rw [readTermFrom_succ]
      apply leaves_getRegisters
      refine leaves_of_poised fun hm => ?_
      have hempty : m.registers.readQueue = m.registers.nil ↔ ts = [] := by
        rw [hm.nil_eq, hqueue.eq_nil_iff]
      cases ts with
      | nil =>
        have hqueue : m.registers.readQueue = .nil := hqueue.eq_nil_iff.mpr rfl
        rw [if_neg (by simp [hempty])]
        exact leaves_peekNext hqueue fun hqueue₁ => ih.readNext _ _ hqueue₁
      | cons t ts =>
        rw [if_pos (by simp [hempty])]
        exact (leaves_dequeue hqueue).imp fun hrest => ⟨ts, hrest, by simp⟩
    · intro m ts items hqueue
      rw [readItemsFrom_succ]
      apply leaves_getRegisters
      refine leaves_of_poised fun hm => ?_
      have hempty : m.registers.readQueue = m.registers.nil ↔ ts = [] := by
        rw [hm.nil_eq, hqueue.eq_nil_iff]
      cases ts with
      | nil =>
        have hqueue : m.registers.readQueue = .nil := hqueue.eq_nil_iff.mpr rfl
        rw [if_pos (by simp [hempty])]
        refine leaves_peekNext hqueue fun {next m₁} hqueue₁ => ?_
        split
        · exact (leaves_advance hqueue₁).bind fun hqueue₂ => leaves_pure hqueue₂
        · exact ih.readMore items (.of_eq_nil hqueue₁)
      | cons t ts =>
        rw [if_neg (by simp [hempty])]
        exact ih.readMore items hqueue

/-- A read that begins with an empty queue and fails leaves it empty, even if the register of the empty list
names something else. -/
theorem readQueue_of_readTerm {f : Fault} (hregular : m.heap.Regular) (hnil : m.Live m.registers.nil)
    (hqueue : m.registers.readQueue = .nil) (hrun : readTerm m = .error (.fault f) m') :
    m'.registers.readQueue = .nil := by
  have hread : readTermFrom m.readBound m = .error (.fault f) m' := hrun
  by_cases hnil_eq : m.registers.nil = .nil
  · have hm : m.Poised := ⟨hregular, hnil_eq, hnil_eq ▸ hnil⟩
    exact ((hands m.readBound).term (.of_eq_nil hqueue) hm).2 hread
  · -- then a term is taken to be queued
    obtain ⟨n, hn⟩ : ∃ n, m.readBound = n + 1 := ⟨4 * m.source.rest.length + 3, rfl⟩
    have hne : m.registers.readQueue ≠ m.registers.nil := by
      rw [hqueue]
      exact Ne.symm hnil_eq
    rw [hn, readTermFrom_succ, Run.run_bind_of_ok (show getRegisters.run m = .ok m.registers m from rfl),
      if_pos hne] at hread
    rcases dequeue_cases m.registers.readQueue m with ⟨t, rest, h⟩ | ⟨f', h⟩
    · cases hread.symm.trans h
    · cases hread.symm.trans h
      exact hqueue

end Machine

/-! ## Failures -/

/-- What makes objects for a caller. -/
inductive Request where
  | push (value : Handle)
  | pushNumber (n : Int64)
  | makeList (values : List Handle)
  | define (env key value : Handle)
  | intern (spelling : Bytes)
  deriving Repr, DecidableEq

/-- The request on a machine, whatever it answers. -/
def Request.act : Request → Run Unit
  | push value => Machine.push value
  | pushNumber n => Machine.pushNumber n
  | makeList values => do let _ ← Machine.makeList values
  | define env key value => do let _ ← Machine.define env key value
  | intern spelling => do let _ ← Machine.intern spelling

namespace Machine

variable {m m' : Machine} {h : Handle}

theorem withdraws_act (request : Request) : Withdraws request.act m := by
  have hunit : ∀ {α : Type} {act : Run α}, Withdraws act m → Withdraws (do let _ ← act) m := by
    intro α act hact hm reason m' hrun
    cases hrun' : act.run m with
    | ok a n =>
      rw [Run.run_bind_of_ok hrun'] at hrun
      cases hrun
    | error reason' n =>
      rw [Run.run_bind_of_error hrun'] at hrun
      cases hrun
      exact hact hm hrun'
  cases request with
  | push value => exact withdraws_push value
  | pushNumber n => exact withdraws_pushNumber n
  | makeList values => exact hunit (sparing_makeList values).withdraws
  | define env key value => exact hunit (withdraws_define env key value)
  | intern spelling => exact hunit (withdraws_intern spelling)

/-- A later machine has the same roots, text and output, and all that the roots lead to is as it was. -/
structure Unscathed (m m' : Machine) : Prop where
  registers_eq : m'.registers.roots = m.registers.roots
  shadow_eq : m'.shadow = m.shadow
  source_eq : m'.source = m.source
  sink_eq : m'.sink = m.sink
  object?_eq : ∀ {h}, m.heap.Reaches m.roots h → m'.object? h = m.object? h

theorem NoDangling.live_of_mem_roots (hm : m.NoDangling) : ∀ h ∈ m.roots, m.Live h := by
  intro h hh
  rcases List.mem_append.mp hh with hregister | hshadow
  · exact hm.registers _ hregister
  · exact hm.shadow _ hshadow

/-- Where nothing dangles, all that live handles lead to is there. -/
theorem NoDangling.live_of_reaches {hs : List Handle} (hm : m.NoDangling) (hlive : ∀ h ∈ hs, m.Live h)
    (hh : m.heap.Reaches hs h) : m.Live h := by
  cases hh with
  | root hmem => exact hlive h hmem
  | reference _ ho href => exact hm.cells ho _ href

theorem Spares.unscathed (hspares : Spares [] m m') (hm : m.NoDangling) : Unscathed m m' := by
  refine ⟨?_, ?_, ?_, ?_, fun {h} hh => ?_⟩
  · rw [hspares.rest_eq]
  · rw [hspares.rest_eq]
  · rw [hspares.rest_eq]
  · rw [hspares.rest_eq]
  · obtain ⟨o, ho⟩ := Option.isSome_iff_exists.mp (hm.live_of_reaches hm.live_of_mem_roots hh)
    rw [ho]
    exact hspares.object?_eq ho (hh.mono (by simp))

/-- Where nothing dangles, a request that finds no room leaves the roots, the text and the output as they
were, and all that the roots lead to. A read that begins with an empty queue and fails leaves the queue
empty. The registry it leaves is the old one, with atoms in front of it at most, and no other register
changes, nor does anything that they and the held roots lead to. -/
theorem failure_leaves_roots (hm : m.heap.Regular) (hdangling : m.NoDangling) :
    (∀ (request : Request) {capacity m'}, request.act m = .error (.fault (.exhausted capacity)) m' →
      Unscathed m m') ∧
    (m.registers.readQueue = .nil → ∀ {f m'}, readTerm m = .error (.fault f) m' →
      Undisturbed m.shadow m m' ∧ m'.registers.readQueue = .nil ∧ m'.shadow = m.shadow) := by
  constructor
  · intro request capacity m' hrun
    exact (withdraws_act request hm hrun).unscathed hdangling
  · intro hqueue f m' hrun
    have hread : readTermFrom m.readBound m = .error (.fault f) m' := hrun
    obtain ⟨-, -, hkept⟩ := (lexical_undisturbing.readFrom m.readBound).1 hm (List.suffix_refl m.shadow)
    rw [after_of_error hread] at hkept
    have hshadow := balanced_readTerm.shadow_eq (m := m)
    rw [after_of_error hrun] at hshadow
    have hnil : m.Live m.registers.nil := hdangling.registers _ (by simp [Registers.roots])
    exact ⟨hkept, readQueue_of_readTerm hm hnil hqueue hrun, hshadow⟩

theorem run_push_of_error {value : Handle} {reason : Stop}
    (hpair : makePair value m.registers.stack m = .error reason m') : push value m = .error reason m' :=
  (Run.run_bind_of_ok (x := getRegisters) rfl).trans (Run.run_bind_of_error hpair)

theorem noDangling_chained {stack : Handle} (hstack : (chained stack).Live stack) :
    (chained stack).NoDangling := by
  have hlive : ∀ i < 256, (chained stack).Live (.ofSlot i) := by
    intro i hi
    rw [Live, object?_chained stack hi]
    rfl
  refine ⟨?_, ?_, by simp [chained, blank]⟩
  · intro i o ho k hk
    have hi : i < 256 := by
      rw [← capacity_chained stack]
      exact Heap.lt_capacity_of_slot? ho
    have hobject : (chained stack).object? (.ofSlot i) = some o := by
      rw [object?, Heap.get?, Handle.slot_ofSlot (by omega), ho]
    rw [object?_chained stack hi] at hobject
    cases hobject
    split at hk
    · simp [Object.references] at hk
    · simp only [Object.references, List.mem_cons, List.not_mem_nil, or_false] at hk
      rcases hk with rfl | rfl
      · exact hlive 0 (by omega)
      · exact hlive (i - 1) (by omega)
  · intro k hk
    have hnil := hlive 0 (by omega)
    simp only [Registers.roots, chained, blank, List.mem_cons, List.not_mem_nil, or_false] at hk
    rcases hk with rfl | rfl | rfl | rfl | rfl | rfl | rfl | rfl | rfl | rfl <;> assumption

/-- A machine with six empty slots and empty lists in the others, all of which are held. -/
def pinched : Machine :=
  let m := blank 256 (Bytes.ofString "((a ^b c) d)") {} false {}
  { m with
    heap := { m.heap with
      slots := (List.replicate 250 (some Object.nil) ++ List.replicate 6 none).toArray
      cursor := 249
      live := 250 }
    shadow := (List.range 250).map .ofSlot }

theorem slot?_pinched (i : ℕ) : pinched.heap.slot? i = if i < 250 then some .nil else none := by
  by_cases hi : i < 256
  · simp [pinched, Heap.slot?, hi, List.getElem_append, -List.reduceReplicate,
      -List.replicate_append_replicate]
  · have hi' : ¬ i < 250 := by omega
    simp [pinched, Heap.slot?, hi, hi', -List.reduceReplicate]

theorem live_pinched {h : Handle} (hh : h.slot < 250) : pinched.Live h := by
  simp [Live, object?, Heap.get?, slot?_pinched, hh]

theorem regular_pinched : pinched.heap.Regular := by
  have hcapacity : pinched.heap.capacity = 256 := by decide +kernel
  constructor
  · rw [Heap.Unmarked, hcapacity]
    rfl
  · rw [hcapacity]
    decide

theorem noDangling_pinched : pinched.NoDangling := by
  refine ⟨?_, ?_, ?_⟩
  · intro i o ho h hh
    rw [slot?_pinched] at ho
    split at ho
    · cases ho
      simp [Object.references] at hh
    · simp at ho
  · intro h hh
    have hroots : pinched.registers.roots = List.replicate 10 .nil := rfl
    rw [hroots] at hh
    rw [List.eq_of_mem_replicate hh]
    exact live_pinched (by decide)
  · intro h hh
    have hshadow : pinched.shadow = (List.range 250).map Handle.ofSlot := rfl
    rw [hshadow] at hh
    obtain ⟨i, hi, rfl⟩ := List.mem_map.mp hh
    have hi : i < 250 := List.mem_range.mp hi
    exact live_pinched (by rwa [Handle.slot_ofSlot (by omega)])

theorem readTerm_pinched :
    EStateM.run' (attempt readTerm).run pinched = some (.error (.fault (.exhausted 256))) ∧
      (after readTerm pinched).source.rest = Bytes.ofString " c) d)" := by
  decide +kernel

/-- With every slot in use, pushing a value fails and leaves the stack alone. With six empty slots,
reading a list in a list fails: two atoms are made and registered, and then there is no room for the
last of the three pairs of a directive. -/
theorem failure_leaves_roots_exhausted : (chained (.ofSlot 255)).heap.Regular ∧
    (chained (.ofSlot 255)).NoDangling ∧
    (∃ m', push .nil (chained (.ofSlot 255)) = .error (.fault (.exhausted 256)) m' ∧
      Unscathed (chained (.ofSlot 255)) m') ∧
    pinched.heap.Regular ∧ pinched.NoDangling ∧ pinched.registers.readQueue = .nil ∧
    ∃ m', readTerm pinched = .error (.fault (.exhausted 256)) m' ∧ m'.source.rest = Bytes.ofString " c) d)" ∧
      Undisturbed pinched.shadow pinched m' ∧ m'.registers.readQueue = .nil ∧ m'.shadow = pinched.shadow := by
  have hm := regular_chained (.ofSlot 255)
  have hdangling : (chained (.ofSlot 255)).NoDangling := by
    refine noDangling_chained ?_
    rw [Live, object?_chained _ (by omega)]
    rfl
  have hqueue : pinched.registers.readQueue = .nil := rfl
  obtain ⟨hends, hrest⟩ := readTerm_pinched
  have hrun := run_eq_of_run'_attempt hends
  obtain ⟨hrequest, -⟩ := failure_leaves_roots hm hdangling
  obtain ⟨-, hread⟩ := failure_leaves_roots regular_pinched noDangling_pinched
  refine ⟨hm, hdangling, ?_, regular_pinched, noDangling_pinched, hqueue, ?_⟩
  · obtain ⟨m', hpair⟩ := exists_run_allocate_of_crowded hm
      (crowded_chained (Object.pair .nil (chained (.ofSlot 255)).registers.stack).references)
    rw [capacity_chained] at hpair
    exact ⟨m', run_push_of_error hpair, hrequest (.push .nil) (run_push_of_error hpair)⟩
  · exact ⟨_, hrun, hrest, hread hqueue hrun⟩

end Machine

end PushLisp
