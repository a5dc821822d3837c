import PushLisp.Proofs.Persistence

/-!
# The shapes of code and data

Values may be put together in any way: a program can make pairs that end anywhere. What a machine runs
and walks along itself is better behaved. The value stack and the queue of the reader are lists that end.
Environments are lists of pairs. Code is what was read as the program, and a closure made by running it has
a list from inside the program as its body. No builtin can break this, as objects are never changed but for
the bytes of strings, and a collection keeps all that an object it keeps leads to.

## Main definitions

* `Heap.Keeps`: all that a handle leads to is still there on another heap.
* `Heap.IsList`, `Heap.IsScope`: lists that end, and such lists of pairs.
* `Heap.IsWritten`: what reading makes.
* `Heap.Inside`, `Heap.IsElement`: what is found in a term.
* `Code`: a term as it was when it was read.
* `Machine.Shapely`: a machine whose own structures are in shape.

## Main statements

* `Machine.Shapely.place`, `Machine.Shapely.collect`, `Machine.Shapely.putString`: what happens to objects
  leaves a machine in shape.
-/
namespace PushLisp

theorem Object.Resembles.kind_eq {poking : Prop} {o o' : Object} (h : o.Resembles poking o') :
    o'.kind = o.kind := by
  cases h <;> rfl

namespace Heap

variable {heap heap' heap'' : Heap} {h k a d top : Handle}

/-! ## What is kept -/

/-- All that a handle leads to is there on a later heap as it was, up to the bytes of strings. -/
def Keeps (heap heap' : Heap) (h : Handle) : Prop :=
  ∀ ⦃k o⦄, heap.Reaches [h] k → heap.get? k = some o →
    ∃ o', heap'.get? k = some o' ∧ o.Resembles True o'

namespace Keeps

theorem refl (heap : Heap) (h : Handle) : heap.Keeps heap h := fun _ _ _ ho => ⟨_, ho, .refl _⟩

theorem of_reaches (hkeeps : heap.Keeps heap' h) (hk : heap.Reaches [h] k) : heap.Keeps heap' k := by
  intro j o hj ho
  apply hkeeps _ ho
  exact hj.trans (List.forall_mem_singleton.mpr hk)

/-- Where all that a handle leads to is kept, it leads to the same handles. -/
theorem reaches (hkeeps : heap.Keeps heap' h) (hk : heap.Reaches [h] k) : heap'.Reaches [h] k := by
  induction hk with
  | root hmem => exact .root hmem
  | reference hj ho href ih =>
    obtain ⟨o', ho', hres⟩ := hkeeps hj ho
    rw [← hres.references_eq] at href
    exact .reference ih ho' href

theorem trans (hkeeps : heap.Keeps heap' h) (hkeeps' : heap'.Keeps heap'' h) : heap.Keeps heap'' h := by
  intro k o hk ho
  obtain ⟨o', ho', hres⟩ := hkeeps hk ho
  obtain ⟨o'', ho'', hres'⟩ := hkeeps' (hkeeps.reaches hk) ho'
  exact ⟨o'', ho'', hres.trans hres'⟩

/-- Only strings are not kept as they were. -/
theorem get?_eq {o : Object} (hkeeps : heap.Keeps heap' h) (hk : heap.Reaches [h] k)
    (ho : heap.get? k = some o) (hkind : o.kind ≠ .string) : heap'.get? k = some o := by
  obtain ⟨o', ho', hres⟩ := hkeeps hk ho
  rwa [hres.eq_of_ne_string hkind] at ho'

theorem pair (hkeeps : heap.Keeps heap' h) (hk : heap.Reaches [h] k)
    (ho : heap.get? k = some (.pair a d)) : heap'.get? k = some (.pair a d) :=
  hkeeps.get?_eq hk ho (by simp [Object.kind])

end Keeps

/-- An object that is placed in an empty slot is in nothing's way. -/
theorem keeps_place {i : ℕ} (hfree : heap.findFree? = some i) (hcap : heap.capacity ≤ 2 ^ 64) (o : Object)
    (h : Handle) : heap.Keeps (heap.place i o) h := by
  intro k o' _ ho'
  refine ⟨o', ?_, .refl o'⟩
  rw [get?_place hfree hcap, if_neg (ne_ofSlot_of_findFree? hfree hcap (Option.isSome_of_eq_some ho'))]
  exact ho'

/-- A collection keeps all that its roots lead to. -/
theorem keeps_collect {roots : List Handle} (hclear : heap.Unmarked)
    (hh : heap.Reaches (.nil :: roots) h) : heap.Keeps (heap.collect roots).2 h := by
  intro k o hk ho
  have hroots : heap.Reaches (.nil :: roots) k := hk.trans (List.forall_mem_singleton.mpr hh)
  exact ⟨o, (get?_collect_eq_some_iff hclear).mpr ⟨ho, hroots⟩, .refl o⟩

theorem keeps_putString {string : Handle} {bytes bytes' : Array UInt8}
    (hstring : heap.get? string = some (.string (.owned bytes))) (hsize : bytes'.size = bytes.size)
    (h : Handle) : heap.Keeps (heap.put string (.string (.owned bytes'))) h := by
  intro k o _ ho
  rw [get?_put hstring]
  by_cases heq : k = string
  · subst heq
    cases hstring.symm.trans ho
    exact ⟨_, if_pos rfl, .poked trivial hsize⟩
  · exact ⟨o, by rw [if_neg heq, ho], .refl o⟩

/-! ## Lists and environments -/

/-- A list that ends. -/
def IsList (heap : Heap) (h : Handle) : Prop := ∃ hs, heap.Spine h hs

/-- A list of pairs that ends. -/
def IsScope (heap : Heap) (env : Handle) : Prop :=
  ∃ bindings, heap.Spine env bindings ∧ ∀ b ∈ bindings, ∃ key value, heap.get? b = some (.pair key value)

theorem isList_nil : heap.IsList .nil := ⟨[], .nil⟩

theorem isScope_nil : heap.IsScope .nil := ⟨[], .nil, by simp⟩

theorem IsList.cons (ho : heap.get? h = some (.pair a d)) (hd : heap.IsList d) : heap.IsList h := by
  obtain ⟨hs, hspine⟩ := hd
  exact ⟨a :: hs, .cons ho hspine⟩

/-- What follows in a list is a list. -/
theorem IsList.rest (hnil : heap.get? .nil = some .nil) (hh : heap.IsList h)
    (ho : heap.get? h = some (.pair a d)) : heap.IsList d := by
  obtain ⟨hs, hspine⟩ := hh
  cases hspine with
  | nil => cases hnil.symm.trans ho
  | cons ho' hrest =>
    cases ho.symm.trans ho'
    exact ⟨_, hrest⟩

/-- A list that is not empty begins with a pair. -/
theorem IsList.exists_pair (hh : heap.IsList h) (hne : h ≠ .nil) : ∃ a d, heap.get? h = some (.pair a d) := by
  obtain ⟨hs, hspine⟩ := hh
  cases hspine with
  | nil => exact absurd rfl hne
  | cons ho _ => exact ⟨_, _, ho⟩

theorem IsScope.cons {key value : Handle} (ho : heap.get? h = some (.pair a d))
    (ha : heap.get? a = some (.pair key value)) (hd : heap.IsScope d) : heap.IsScope h := by
  obtain ⟨bindings, hspine, hpairs⟩ := hd
  refine ⟨a :: bindings, .cons ho hspine, ?_⟩
  simp only [List.mem_cons, forall_eq_or_imp]
  exact ⟨⟨key, value, ha⟩, hpairs⟩

/-- An environment is empty, or begins with a binding and goes on with an environment. -/
theorem IsScope.cases (hh : heap.IsScope h) : h = .nil ∨
    ∃ binding rest key value, heap.get? h = some (.pair binding rest) ∧
      heap.get? binding = some (.pair key value) ∧ heap.IsScope rest := by
  obtain ⟨bindings, hspine, hpairs⟩ := hh
  cases hspine with
  | nil => exact .inl rfl
  | cons ho hrest =>
    simp only [List.mem_cons, forall_eq_or_imp] at hpairs
    obtain ⟨⟨key, value, hbinding⟩, hpairs⟩ := hpairs
    exact .inr ⟨_, _, key, value, ho, hbinding, _, hrest, hpairs⟩

theorem IsList.keeps (hh : heap.IsList h) (hkeeps : heap.Keeps heap' h) : heap'.IsList h := by
  obtain ⟨hs, hspine⟩ := hh
  exact ⟨hs, hspine.congr hkeeps.pair⟩

theorem IsScope.keeps (hh : heap.IsScope h) (hkeeps : heap.Keeps heap' h) : heap'.IsScope h := by
  obtain ⟨bindings, hspine, hpairs⟩ := hh
  refine ⟨bindings, hspine.congr hkeeps.pair, ?_⟩
  intro b hb
  obtain ⟨key, value, ho⟩ := hpairs b hb
  exact ⟨key, value, hkeeps.pair (hspine.reaches b hb) ho⟩

/-! ## Terms -/

/-- What reading makes: numbers, atoms and strings, and lists of what reading makes. -/
inductive IsWritten (heap : Heap) : Handle → Prop
  | scalar {h : Handle} {o : Object} : heap.get? h = some o → o.kind ∈ [.number, .atom, .string] →
      IsWritten heap h
  | list {h : Handle} {hs : List Handle} : heap.Spine h hs → (∀ k ∈ hs, IsWritten heap k) →
      IsWritten heap h

/-- What is met in a term on the way down its pairs. -/
inductive Inside (heap : Heap) (top : Handle) : Handle → Prop
  | self : Inside heap top top
  | car {h a d : Handle} : Inside heap top h → heap.get? h = some (.pair a d) → Inside heap top a
  | cdr {h a d : Handle} : Inside heap top h → heap.get? h = some (.pair a d) → Inside heap top d

/-- An element of a list in a term. -/
def IsElement (heap : Heap) (top h : Handle) : Prop :=
  ∃ cell rest, heap.Inside top cell ∧ heap.get? cell = some (.pair h rest)

theorem IsElement.inside (hh : heap.IsElement top h) : heap.Inside top h := by
  obtain ⟨cell, rest, hcell, ho⟩ := hh
  exact hcell.car ho

theorem Inside.reaches (hh : heap.Inside top h) : heap.Reaches [top] h := by
  induction hh with
  | self => exact .root List.mem_cons_self
  | car _ ho ih => exact ih.reference ho (by simp [Object.references])
  | cdr _ ho ih => exact ih.reference ho (by simp [Object.references])

theorem Inside.keeps (hh : heap.Inside top h) (hkeeps : heap.Keeps heap' top) : heap'.Inside top h := by
  induction hh with
  | self => exact .self
  | car hin ho ih => exact ih.car (hkeeps.pair hin.reaches ho)
  | cdr hin ho ih => exact ih.cdr (hkeeps.pair hin.reaches ho)

theorem IsElement.keeps (hh : heap.IsElement top h) (hkeeps : heap.Keeps heap' top) :
    heap'.IsElement top h := by
  obtain ⟨cell, rest, hcell, ho⟩ := hh
  exact ⟨cell, rest, hcell.keeps hkeeps, hkeeps.pair hcell.reaches ho⟩

/-- The parts of what reading makes are again of this kind. -/
theorem IsWritten.pair (hnil : heap.get? .nil = some .nil) (hh : heap.IsWritten h)
    (ho : heap.get? h = some (.pair a d)) : heap.IsWritten a ∧ heap.IsWritten d := by
  cases hh with
  | scalar ho' hkind =>
    cases ho.symm.trans ho'
    simp [Object.kind] at hkind
  | list hspine hall =>
    cases hspine with
    | nil => cases hnil.symm.trans ho
    | cons ho' hrest =>
      cases ho.symm.trans ho'
      simp only [List.mem_cons, forall_eq_or_imp] at hall
      exact ⟨hall.1, .list hrest hall.2⟩

theorem IsWritten.inside (hnil : heap.get? .nil = some .nil) (htop : heap.IsWritten top)
    (hh : heap.Inside top h) : heap.IsWritten h := by
  induction hh with
  | self => exact htop
  | car _ ho ih => exact (ih.pair hnil ho).1
  | cdr _ ho ih => exact (ih.pair hnil ho).2

/-- What reading makes is a list if it is the empty list or a pair. -/
theorem IsWritten.isList {o : Object} (hh : heap.IsWritten h) (ho : heap.get? h = some o)
    (hkind : o.kind ∈ [.nil, .pair]) : heap.IsList h := by
  cases hh with
  | scalar ho' hkind' =>
    cases ho.symm.trans ho'
    simp only [List.mem_cons, List.not_mem_nil, or_false] at hkind hkind'
    rcases hkind with hkind | hkind <;> rw [hkind] at hkind' <;> simp at hkind'
  | list hspine _ => exact ⟨_, hspine⟩

end Heap

/-- A term as it was on some heap when it was read. -/
structure Code where
  heap : Heap
  term : Handle
  nil_eq : heap.get? .nil = some .nil
  written : heap.IsWritten term

namespace Code

variable {code : Code} {h : Handle}

/-- A list inside the code that can be run. -/
structure Runs (code : Code) (seq : Handle) : Prop where
  inside : code.heap.Inside code.term seq
  isList : code.heap.IsList seq

/-- What is left of a list after its first element can be run too. -/
theorem Runs.rest {a d : Handle} (hh : code.Runs h) (ho : code.heap.get? h = some (.pair a d)) :
    code.Runs d :=
  ⟨hh.inside.cdr ho, hh.isList.rest code.nil_eq ho⟩

theorem Runs.element {a d : Handle} (hh : code.Runs h) (ho : code.heap.get? h = some (.pair a d)) :
    code.heap.IsElement code.term a :=
  ⟨h, d, hh.inside, ho⟩

end Code

namespace Machine

variable {m m' : Machine} {h : Handle} {code : Code}

/-- What a closure made by running code captures: a list in the code, and an environment. -/
structure Captures (code : Code) (m : Machine) (body env : Handle) : Prop where
  element : code.heap.IsElement code.term body
  isList : code.heap.IsList body
  scope : m.heap.IsScope env

theorem Captures.runs {body env : Handle} (h : Captures code m body env) : code.Runs body :=
  ⟨h.element.inside, h.isList⟩

/-- A machine without raw access that runs code, with all its own structures in shape. -/
structure Shapely (code : Code) (m : Machine) : Prop where
  unmarked : m.heap.Unmarked
  capacity_le : m.heap.capacity ≤ 2 ^ 64
  object?_nil : m.object? .nil = some .nil
  plain : ∀ {h o}, m.object? h = some o → o.Plain
  eq_nil : ∀ {h}, m.object? h = some .nil → h = .nil
  nil_eq : m.registers.nil = .nil
  program_eq : m.registers.program = code.term
  loaded : code.heap.Keeps m.heap code.term
  stack : m.heap.IsList m.registers.stack
  queue : m.heap.IsList m.registers.readQueue
  scope : m.heap.IsScope m.registers.env
  closures : ∀ {h body env}, m.object? h = some (.closure body env) → Captures code m body env

namespace Shapely

theorem contents (hm : Shapely code m) {o : Object} (ho : m.object? h = some o) :
    o.Plain ∧ (o = .nil → h = .nil) := by
  refine ⟨hm.plain ho, ?_⟩
  rintro rfl
  exact hm.eq_nil ho

theorem of_eq (hm : Shapely code m) (hheap : m'.heap = m.heap) (hregisters : m'.registers = m.registers) :
    Shapely code m' := by
  obtain ⟨heap, registers, shadow, source, sink, tracing, events⟩ := m'
  dsimp only at hheap hregisters
  subst hheap hregisters
  exact { hm with closures := fun ho => { hm.closures ho with } }

/-- Registers may be set, as long as the structures they name are in shape. -/
theorem setRegisters (hm : Shapely code m) {r : Registers} (hnil : r.nil = m.registers.nil)
    (hprogram : r.program = m.registers.program) (hstack : m.heap.IsList r.stack)
    (hqueue : m.heap.IsList r.readQueue) (hscope : m.heap.IsScope r.env) :
    Shapely code { m with registers := r } :=
  { hm with
    nil_eq := hnil.trans hm.nil_eq
    program_eq := hprogram.trans hm.program_eq
    stack := hstack
    queue := hqueue
    scope := hscope
    closures := fun ho => { hm.closures ho with } }

/-- Objects may come and go, as long as all that the registers and the closures lead to is kept. -/
theorem of_keeps (hm : Shapely code m) (hregisters : m'.registers = m.registers)
    (hunmarked : m'.heap.Unmarked) (hcapacity : m'.heap.capacity = m.heap.capacity)
    (hcontents : ∀ {h o}, m'.object? h = some o → o.Plain ∧ (o = .nil → h = .nil))
    (hroots : ∀ h ∈ .nil :: m.registers.roots, m.heap.Keeps m'.heap h)
    (hclosures : ∀ {h body env}, m'.object? h = some (.closure body env) →
      Captures code m body env ∧ m.heap.Keeps m'.heap env) : Shapely code m' where
  unmarked := hunmarked
  capacity_le := hcapacity ▸ hm.capacity_le
  object?_nil :=
    (hroots .nil List.mem_cons_self).get?_eq (.root List.mem_cons_self) hm.object?_nil (by simp [Object.kind])
  plain ho := (hcontents ho).1
  eq_nil ho := (hcontents ho).2 rfl
  nil_eq := by rw [hregisters, hm.nil_eq]
  program_eq := by rw [hregisters, hm.program_eq]
  loaded := by
    apply hm.loaded.trans
    rw [← hm.program_eq]
    exact hroots _ (by simp [Registers.roots])
  stack := by
    rw [hregisters]
    exact hm.stack.keeps (hroots _ (by simp [Registers.roots]))
  queue := by
    rw [hregisters]
    exact hm.queue.keeps (hroots _ (by simp [Registers.roots]))
  scope := by
    rw [hregisters]
    exact hm.scope.keeps (hroots _ (by simp [Registers.roots]))
  closures ho := by
    obtain ⟨hcaptures, henv⟩ := hclosures ho
    exact { hcaptures with scope := hcaptures.scope.keeps henv }

/-- An object may be placed in an empty slot. A closure must capture what closures do. -/
theorem place {i : ℕ} {o : Object} (hm : Shapely code m) (hfree : m.heap.findFree? = some i)
    (hplain : o.Plain) (hnil : o ≠ .nil)
    (hcaptures : ∀ {body env}, o = .closure body env → Captures code m body env) :
    Shapely code { m with heap := m.heap.place i o } := by
  have hkeeps := Heap.keeps_place hfree hm.capacity_le o
  refine hm.of_keeps rfl (hm.unmarked.place i o) (Heap.capacity_place _ _ _) ?_ (fun h _ => hkeeps h) ?_
  · intro h o' ho'
    rcases origin_place hfree hm.capacity_le ho' with ⟨-, rfl⟩ | hold
    · exact ⟨hplain, fun heq => absurd heq hnil⟩
    · exact hm.contents hold
  · intro h body env ho'
    refine ⟨?_, hkeeps env⟩
    rcases origin_place hfree hm.capacity_le ho' with ⟨-, rfl⟩ | hold
    · exact hcaptures rfl
    · exact hm.closures hold

/-- A collection leaves a machine in shape, whatever roots are held besides the registers. -/
theorem collect (hm : Shapely code m) (hs : List Handle) (events : Array Event) :
    Shapely code
      { m with heap := (m.heap.collect (m.registers.roots ++ hs)).2, events := events } := by
  refine hm.of_keeps rfl (hm.unmarked.collect _) (Heap.capacity_collect _ _) ?_ ?_ ?_
  · intro h o ho
    exact hm.contents (object?_of_collect ho)
  · intro h hh
    apply Heap.keeps_collect hm.unmarked
    apply Heap.Reaches.root
    simp only [List.mem_cons, List.mem_append] at hh ⊢
    exact hh.imp_right .inl
  · -- a closure that was kept was reached, and so was its environment
    intro h body env ho
    obtain ⟨hold, hreach⟩ := (Heap.get?_collect_eq_some_iff hm.unmarked).mp ho
    refine ⟨hm.closures hold, Heap.keeps_collect hm.unmarked ?_⟩
    exact hreach.reference hold (by simp [Object.references])

theorem putString {string : Handle} {bytes bytes' : Array UInt8} (hm : Shapely code m)
    (hstring : m.object? string = some (.string (.owned bytes))) (hsize : bytes'.size = bytes.size) :
    Shapely code { m with heap := m.heap.put string (.string (.owned bytes')) } := by
  have hkeeps := Heap.keeps_putString hstring hsize
  refine hm.of_keeps rfl (hm.unmarked.modify _ _) (Heap.capacity_modify _ _ _) ?_ (fun h _ => hkeeps h) ?_
  · intro h o ho
    rcases object?_of_putString hstring ho with ⟨-, rfl⟩ | hold
    · exact ⟨trivial, nofun⟩
    · exact hm.contents hold
  · intro h body env ho
    have hold := (object?_putString_iff hstring (by simp [Object.kind])).mp ho
    exact ⟨hm.closures hold, hkeeps env⟩

end Shapely

end Machine

end PushLisp
