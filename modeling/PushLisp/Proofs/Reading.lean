import PushLisp.Proofs.Grammar
import PushLisp.Proofs.Persistence

/-!
# Reading follows the grammar

The reader expands a directive through a queue that all its parts consult. It reads the same terms all the
same as the grammar, which has no queue: at every point the queue holds the terms that the last directive
has yet to contribute, and it is empty whenever the source is touched. What was read is held while the rest
of a list is read, so no collection in between can change it.

A read can run out of room. It cannot if there was room for all that the terms need, so that the rules here
carry along how many objects an operation may need at most.

## Main definitions

* `Machine.Returns`, `Machine.Fails`: how an operation ends, given room for some objects.
* `Machine.Literate`: a machine that is fit to read.
* `Machine.Stands`, `Machine.Pending`: what has been read, and what is queued.
* `Machine.Faithful`: reading within a step bound follows the grammar.

## Main statements

* `Machine.faithful`: every step bound that is large enough for the text will do.
-/
namespace PushLisp.Machine

open Grammar

variable {α β : Type} {k l : ℕ} {base : List Handle} {m m' : Machine} {h : Handle} {t : Term}

/-! ## Operations that may run out of room -/

/-- With room for fewer than `k` objects, an operation runs out of it. -/
def Exhausts (k : ℕ) (act : Run α) (m : Machine) : Prop :=
  ∃ capacity m', act m = .error (.fault (.exhausted capacity)) m' ∧ m.heap.room < k

/-- An operation answers as `Q` says and takes up `k` slots at most, unless it runs out of room. -/
def Returns (k : ℕ) (act : Run α) (m : Machine) (Q : α → Machine → Prop) : Prop :=
  Exhausts k act m ∨ ∃ a m', act m = .ok a m' ∧ m.heap.room ≤ m'.heap.room + k ∧ Q a m'

/-- An operation stops with a fault and leaves a machine as `Q` says, unless it runs out of room. -/
def Fails (k : ℕ) (act : Run α) (m : Machine) (f : Fault) (Q : Machine → Prop) : Prop :=
  Exhausts k act m ∨ ∃ m', act m = .error (.fault f) m' ∧ Q m'

section Rules

variable {x act : Run α} {g : α → Run β} {f : Fault} {a : α}

theorem Exhausts.bind (hx : Exhausts k x m) : Exhausts k (x >>= g) m := by
  obtain ⟨capacity, m', hrun, hroom⟩ := hx
  exact ⟨capacity, m', Run.run_bind_of_error hrun, hroom⟩

/-- If the second of two operations runs out of room, then there was not enough for both. -/
theorem Exhausts.of_bind (hrun : x m = .ok a m') (hroom : m.heap.room ≤ m'.heap.room + k)
    (hg : Exhausts l (g a) m') : Exhausts (k + l) (x >>= g) m := by
  obtain ⟨capacity, m'', hrun', hroom'⟩ := hg
  exact ⟨capacity, m'', (Run.run_bind_of_ok hrun).trans hrun', by omega⟩

theorem Exhausts.mono (h : Exhausts k act m) (hle : k ≤ l) : Exhausts l act m := by
  obtain ⟨capacity, m', hrun, hroom⟩ := h
  exact ⟨capacity, m', hrun, by omega⟩

theorem Exhausts.keepingRoots (h : Exhausts k act m) : Exhausts k (keepingRoots act) m := by
  obtain ⟨capacity, m', hrun, hroom⟩ := h
  exact ⟨capacity, { m' with shadow := m.shadow }, by simp only [Machine.keepingRoots, hrun], hroom⟩

theorem Returns.imp {Q R : α → Machine → Prop} (h : Returns k act m Q) (hle : k ≤ l)
    (hQ : ∀ {a m'}, act m = .ok a m' → Q a m' → R a m') : Returns l act m R := by
  rcases h with h | ⟨a, m', hrun, hroom, hq⟩
  · exact .inl (h.mono hle)
  · exact .inr ⟨a, m', hrun, by omega, hQ hrun hq⟩

theorem Fails.imp {Q R : Machine → Prop} (h : Fails k act m f Q) (hle : k ≤ l)
    (hQ : ∀ {m'}, Q m' → R m') : Fails l act m f R := by
  rcases h with h | ⟨m', hrun, hq⟩
  · exact .inl (h.mono hle)
  · exact .inr ⟨m', hrun, hQ hq⟩

/-- What an operation answers, if it answers. -/
theorem Returns.of_ok {Q : α → Machine → Prop} (h : Returns k act m Q) (hrun : act m = .ok a m') :
    Q a m' := by
  rcases h with ⟨_, _, hrun', -⟩ | ⟨_, _, hrun', -, hq⟩
  · cases hrun.symm.trans hrun'
  · cases hrun.symm.trans hrun'
    exact hq

theorem Returns.bind {Q : α → Machine → Prop} {R : β → Machine → Prop} (hx : Returns k x m Q)
    (hg : ∀ {a m'}, x m = .ok a m' → Q a m' → Returns l (g a) m' R) : Returns (k + l) (x >>= g) m R := by
  rcases hx with hx | ⟨a, m', hrun, hroom, hq⟩
  · exact .inl (hx.bind.mono (Nat.le_add_right k l))
  · rcases hg hrun hq with hg | ⟨b, m'', hrun', hroom', hr⟩
    · exact .inl (.of_bind hrun hroom hg)
    · exact .inr ⟨b, m'', (Run.run_bind_of_ok hrun).trans hrun', by omega, hr⟩

theorem Returns.bind_fails {Q : α → Machine → Prop} {R : Machine → Prop} (hx : Returns k x m Q)
    (hg : ∀ {a m'}, x m = .ok a m' → Q a m' → Fails l (g a) m' f R) : Fails (k + l) (x >>= g) m f R := by
  rcases hx with hx | ⟨a, m', hrun, hroom, hq⟩
  · exact .inl (hx.bind.mono (Nat.le_add_right k l))
  · rcases hg hrun hq with hg | ⟨m'', hrun', hr⟩
    · exact .inl (.of_bind hrun hroom hg)
    · exact .inr ⟨m'', (Run.run_bind_of_ok hrun).trans hrun', hr⟩

theorem Fails.bind {Q : Machine → Prop} (hx : Fails k x m f Q) : Fails k (x >>= g) m f Q := by
  rcases hx with hx | ⟨m', hrun, hq⟩
  · exact .inl hx.bind
  · exact .inr ⟨m', Run.run_bind_of_error hrun, hq⟩

theorem returns_of_ok {Q : α → Machine → Prop} (hrun : act m = .ok a m') (hheap : m'.heap = m.heap)
    (hq : Q a m') : Returns 0 act m Q :=
  .inr ⟨a, m', hrun, by rw [hheap, Nat.add_zero], hq⟩

/-- A step that makes no object, and then the rest. -/
theorem Returns.step {R : β → Machine → Prop} (hrun : x m = .ok a m') (hheap : m'.heap = m.heap)
    (hg : Returns k (g a) m' R) : Returns k (x >>= g) m R := by
  rcases hg with ⟨capacity, m'', hrun', hroom⟩ | ⟨b, m'', hrun', hroom, hr⟩
  · exact .inl ⟨capacity, m'', (Run.run_bind_of_ok hrun).trans hrun', hheap ▸ hroom⟩
  · exact .inr ⟨b, m'', (Run.run_bind_of_ok hrun).trans hrun', hheap ▸ hroom, hr⟩

theorem Fails.step {R : Machine → Prop} (hrun : x m = .ok a m') (hheap : m'.heap = m.heap)
    (hg : Fails k (g a) m' f R) : Fails k (x >>= g) m f R := by
  rcases hg with ⟨capacity, m'', hrun', hroom⟩ | ⟨m'', hrun', hr⟩
  · exact .inl ⟨capacity, m'', (Run.run_bind_of_ok hrun).trans hrun', hheap ▸ hroom⟩
  · exact .inr ⟨m'', (Run.run_bind_of_ok hrun).trans hrun', hr⟩

theorem Returns.of_run_eq {act' : Run α} {Q : α → Machine → Prop} (h : Returns k act' m' Q)
    (hrun : act m = act' m') (hheap : m'.heap = m.heap) : Returns k act m Q := by
  rw [Returns, Exhausts, hrun, ← hheap]
  exact h

theorem Fails.of_run_eq {act' : Run α} {Q : Machine → Prop} (h : Fails k act' m' f Q)
    (hrun : act m = act' m') (hheap : m'.heap = m.heap) : Fails k act m f Q := by
  rw [Fails, Exhausts, hrun, ← hheap]
  exact h

theorem Returns.keepingRoots {Q : α → Machine → Prop}
    (h : Returns k act m fun a m' => Q a { m' with shadow := m.shadow }) :
    Returns k (keepingRoots act) m Q := by
  rcases h with h | ⟨a, m', hrun, hroom, hq⟩
  · exact .inl h.keepingRoots
  · exact .inr ⟨a, { m' with shadow := m.shadow }, by simp only [Machine.keepingRoots, hrun], hroom, hq⟩

theorem Fails.keepingRoots {Q : Machine → Prop}
    (h : Fails k act m f fun m' => Q { m' with shadow := m.shadow }) :
    Fails k (keepingRoots act) m f Q := by
  rcases h with h | ⟨m', hrun, hq⟩
  · exact .inl h.keepingRoots
  · exact .inr ⟨{ m' with shadow := m.shadow }, by simp only [Machine.keepingRoots, hrun], hq⟩

end Rules

/-! ## Machines that are fit to read -/

/-- The atoms that reading uses are registered, and the empty list is where it should be. -/
structure Literate (base : List Handle) (m : Machine) : Prop extends Ready False base m where
  nil_eq : m.registers.nil = .nil
  quote : Registered m m.registers.atomQuote (Bytes.ofString "quote")
  push : Registered m m.registers.atomPush (Bytes.ofString "push")
  pop : Registered m m.registers.atomPop (Bytes.ofString "pop")

theorem Literate.lasts {base' : List Handle} {poking : Prop} (hm : Literate base m)
    (hready : Ready False base' m') (hlasts : Lasts poking base m m') : Literate base' m' := by
  have hconstants := hlasts.constants_eq
  simp only [Registers.constants, List.cons.injEq, and_true] at hconstants
  obtain ⟨hnil, -, hquote, hpush, hpop, -⟩ := hconstants
  refine ⟨hready, hnil.trans hm.nil_eq, ?_, ?_, ?_⟩
  · rw [hquote]; exact hm.quote.lasts hlasts
  · rw [hpush]; exact hm.push.lasts hlasts
  · rw [hpop]; exact hm.pop.lasts hlasts

/-- An operation that answers leaves a machine fit to read. -/
theorem Literate.of_ok {act : Run α} {a : α} (hm : Literate base m) (hact : Lasting False base act m)
    (hrun : act m = .ok a m') : Literate base m' ∧ Lasts False base m m' := by
  obtain ⟨hready, hlasts, -⟩ := hact hm.toReady
  rw [after_of_ok hrun] at hready hlasts
  exact ⟨hm.lasts hready hlasts, hlasts⟩

/-- A handle stands for a tree whose atoms are all registered. -/
def Stands (m : Machine) (h : Handle) (t : Term) : Prop := m.heap.UnfoldsWith m.Registered h t

/-- What is anchored goes on to stand for the same tree. -/
theorem Stands.lasts (ht : Stands m h t) (hlasts : Lasts False base m m') (hh : Anchored base m h) :
    Stands m' h t := by
  refine ht.congr (fun {k o} hk ho => ?_) fun hs => hs.lasts hlasts
  have hk : Anchored base m k := hk.trans (List.forall_mem_singleton.mpr hh)
  obtain ⟨o', ho', hres⟩ := hlasts.object?_eq hk ho
  rw [← hres.eq_of_not_poking]
  exact ho'

theorem stands_of_registered {spelling : Bytes} (hh : Registered m h spelling) :
    Stands m h (.atom spelling) := .atom hh.object?_eq hh

theorem anchored_of_mem (hh : h ∈ base) : Anchored base m h :=
  .root (List.mem_cons_of_mem _ (List.mem_append_right _ hh))

/-- Terms that stand for trees go on to do so if they are held. -/
theorem forall₂_stands_lasts {hs : List Handle} {ts : List Term} (hlasts : Lasts False base m m')
    (hts : List.Forall₂ (Stands m) hs ts) (hheld : hs ⊆ base) : List.Forall₂ (Stands m') hs ts := by
  induction hts with
  | nil => exact .nil
  | @cons h t hs ts ht _ ih =>
    rw [List.cons_subset] at hheld
    exact .cons (ht.lasts hlasts (anchored_of_mem hheld.1)) (ih hheld.2)

/-- The queue holds handles that stand for some trees. -/
def Pending (m : Machine) (ts : List Term) : Prop :=
  ∃ hs, m.heap.Spine m.registers.readQueue hs ∧ List.Forall₂ (Stands m) hs ts

theorem pending_nil_iff : Pending m [] ↔ m.registers.readQueue = .nil := by
  constructor
  · rintro ⟨hs, hspine, hts⟩
    cases hts
    generalize m.registers.readQueue = queue at hspine
    cases hspine
    rfl
  · intro hqueue
    exact ⟨[], hqueue ▸ .nil, .nil⟩

/-- Two machines have the same text and the same queue in front of them. -/
def SameInput (m m' : Machine) : Prop :=
  m'.source = m.source ∧ m'.registers.readQueue = m.registers.readQueue

theorem SameInput.trans {m'' : Machine} (h : SameInput m m') (h' : SameInput m' m'') : SameInput m m'' :=
  ⟨h'.1.trans h.1, h'.2.trans h.2⟩

theorem Spares.sameInput {hs : List Handle} (hspares : Spares hs m m') : SameInput m m' := by
  constructor <;> rw [hspares.rest_eq]

/-! ## Making terms -/

theorem returns_allocate (o : Object) (hm : Literate base m) :
    Returns 1 (allocate o) m fun h m' => Takes o m h m' := by
  rcases allocate_spares o hm.unmarked hm.capacity_le with
    ⟨h, m', hrun, hplaced⟩ | ⟨m', hrun, hdenied⟩
  · exact .inr ⟨h, m', hrun, hplaced.room_le, hplaced.toTakes⟩
  · exact .inl ⟨_, m', hrun, by rw [hdenied.room_eq]; exact Nat.one_pos⟩

theorem returns_intern (spelling : Bytes) (hm : Literate base m) :
    Returns 2 (intern spelling) m fun h m' => Registered m' h spelling ∧ SameInput m m' := by
  obtain ⟨entries, henrolled⟩ := hm.enrolled
  rcases intern_cases hm.toReady henrolled spelling with
    ⟨atom, hrun, hmem⟩ | ⟨atom, m', hrun, henters⟩ | ⟨m', hrun, hbarred⟩
  · exact .inr ⟨atom, m, hrun, by omega, ⟨entries, henrolled, hmem⟩, rfl, rfl⟩
  · refine .inr ⟨atom, m', hrun, henters.room_le, ⟨_, henters.enrolled, List.mem_cons_self⟩, ?_, ?_⟩
    · exact henters.spares.sameInput.1
    · rw [henters.registers_eq]
  · exact .inl ⟨_, m', hrun, hbarred.room_lt⟩

/-- A word becomes the number or atom that it stands for. -/
theorem returns_scalar {word : Bytes} (hm : Literate base m) (hscalar : Scalar word t) :
    Returns t.cost (scalar word) m fun h m' => Stands m' h t ∧ SameInput m m' := by
  rw [scalar_iff.mp hscalar, scalar]
  cases Numeral.readInt64? word with
  | some n =>
    refine (returns_allocate (.number n) hm).imp le_rfl fun _ htakes => ?_
    exact ⟨.number htakes.object?_eq, htakes.spares.sameInput⟩
  | none =>
    refine (returns_intern word hm).imp le_rfl fun _ hatom => ?_
    exact ⟨stands_of_registered hatom.1, hatom.2⟩

theorem returns_consAll {list : Handle} {done : List Handle} (values : List Handle)
    (hm : Literate base m) (hdone : m.heap.Spine list done) :
    Returns values.length (consAll list values) m fun h m' =>
      m'.heap.Spine h (values.reverse ++ done) ∧ SameInput m m' := by
  induction values generalizing list done m with
  | nil => exact returns_of_ok rfl rfl ⟨hdone, rfl, rfl⟩
  | cons v values ih =>
    rw [List.length_cons, Nat.add_comm, List.reverse_cons, List.append_assoc]
    refine (returns_allocate (.pair v list) hm).bind fun {h m'} hrun htakes => ?_
    have hm' := (hm.of_ok (lasting_makePair v list) hrun).1
    -- the list made so far is not held, but the new pair refers to it
    have hdone' : m'.heap.Spine list done := by
      refine hdone.congr fun hk ho => htakes.spares.object?_eq ho (hk.mono ?_)
      simp [Object.references]
    exact (ih hm' (.cons htakes.object?_eq hdone')).imp le_rfl fun _ hlist =>
      ⟨hlist.1, htakes.spares.sameInput.trans hlist.2⟩

/-- A list is made of values that stand for trees. They need not be held. -/
theorem returns_makeList {values : List Handle} {ts : List Term} (hm : Literate base m)
    (hvalues : List.Forall₂ (Stands m) values ts) :
    Returns values.length (makeList values) m fun h m' =>
      m'.heap.Spine h values ∧ List.Forall₂ (Stands m') values ts ∧ SameInput m m' := by
  have hroot : Literate (values ++ m.shadow) { m with shadow := values ++ m.shadow } :=
    { hm with held := List.suffix_refl _ }
  refine Returns.keepingRoots (Returns.step rfl rfl ?_)
  have hlist := returns_consAll values.reverse hroot .nil
  rw [List.length_reverse, List.reverse_reverse, List.append_nil] at hlist
  refine hlist.imp le_rfl fun {h m'} hrun hlist => ⟨hlist.1, ?_, hlist.2⟩
  show List.Forall₂ (Stands m') values ts
  have hlasts := (hroot.of_ok (lasting_consAll .nil values.reverse) hrun).2
  exact forall₂_stands_lasts hlasts hvalues (List.subset_append_left _ _)

/-! ## Directives and the queue -/

theorem run_takeWord {word rest : Bytes} (hword : Word m.source.rest word rest) :
    takeWord m = .ok word { m with source := ⟨m.source.position + word.length, rest⟩ } := by
  have hscan := scanWord_of_word hword
  simp only [takeWord, modifyGet, MonadStateOf.modifyGet, hscan]

/-- A directive queues its three terms. -/
theorem returns_queueDirective {sign : UInt8} {op : Registers → Handle} {u : Term} {word rest : Bytes}
    (hm : Literate base m) (hword : Word m.source.rest word rest) (hscalar : Scalar word t)
    (hop : ∀ {n}, Literate base n → Stands n (op n.registers) u) :
    Returns (t.cost + 3) (queueDirective sign op) m fun _ m' =>
      Pending m' [name "quote", t, u] ∧ m'.source.rest = rest := by
  have hm₁ : Literate base { m with source := ⟨m.source.position + word.length, rest⟩ } := { hm with }
  refine Returns.step (run_takeWord hword) rfl ?_
  rw [if_neg (by simpa using hword.ne_nil)]
  refine (returns_scalar hm₁ hscalar).bind fun {h m₂} hrun ⟨hh, hinput⟩ => ?_
  have hm₂ := (hm₁.of_ok (lasting_scalar word) hrun).1
  have hvalues : List.Forall₂ (Stands m₂) [m₂.registers.atomQuote, h, op m₂.registers]
      [name "quote", t, u] :=
    .cons (stands_of_registered hm₂.quote) (.cons hh (.cons (hop hm₂) .nil))
  refine Returns.step rfl rfl ((returns_makeList hm₂ hvalues).bind (l := 0) fun {queue m₃} _ hqueue => ?_)
  obtain ⟨hspine, hstands, hinput'⟩ := hqueue
  refine returns_of_ok rfl rfl ⟨⟨_, hspine, hstands⟩, ?_⟩
  exact congrArg Source.rest (hinput'.1.trans hinput.1)

theorem run_dequeue {queue first rest : Handle} (ho : m.object? queue = some (.pair first rest)) :
    dequeue queue m = .ok first { m with registers := { m.registers with readQueue := rest } } := by
  have hrest : (ask (cdr queue)).run m = .ok rest m := by simp only [ask, cdr, ho]
  have hfirst : ∀ n : Machine, n.object? queue = some (.pair first rest) →
      (ask (car queue)).run n = .ok first n := by
    intro n ho
    simp only [ask, car, ho]
  exact (Run.run_bind_of_ok hrest).trans ((Run.run_bind_of_ok rfl).trans (hfirst _ ho))

/-- Something is handed out if the queue is a pair, and otherwise nothing happens. -/
theorem dequeue_cases (queue : Handle) (m : Machine) :
    (∃ first rest, dequeue queue m =
      .ok first { m with registers := { m.registers with readQueue := rest } }) ∨
    ∃ f, dequeue queue m = .error (.fault f) m := by
  cases hcdr : cdr queue m with
  | error reason =>
    have hask : (ask (cdr queue)).run m = .error reason m := by simp only [ask, hcdr]
    unfold cdr at hcdr
    split at hcdr
    · cases hcdr
    · cases hcdr
      exact .inr ⟨_, Run.run_bind_of_error hask⟩
  | ok rest =>
    unfold cdr at hcdr
    split at hcdr
    · exact .inl ⟨_, _, run_dequeue ‹_›⟩
    · cases hcdr

/-- What is queued is handed out, and the source is not touched. -/
theorem returns_readTermFrom_of_pending {ts : List Term} (n : ℕ) (hm : Literate base m)
    (hqueue : Pending m (t :: ts)) :
    Returns 0 (readTermFrom (n + 1)) m fun h m' =>
      Stands m' h t ∧ Pending m' ts ∧ m'.source = m.source ∧ m'.heap = m.heap := by
  obtain ⟨hs, hspine, hts⟩ := hqueue
  cases hts with
  | @cons car _ hs _ hcar hrest =>
    generalize hq : m.registers.readQueue = queue at hspine
    cases hspine with
    | @cons _ _ cdr _ ho hspine =>
      have ho : m.object? queue = some (.pair car cdr) := ho
      have hne : queue ≠ m.registers.nil := by
        rintro rfl
        rw [hm.nil_eq, hm.object?_nil] at ho
        cases ho
      rw [readTermFrom]
      refine Returns.step rfl rfl ?_
      rw [hq, if_pos hne]
      exact returns_of_ok (run_dequeue ho) rfl ⟨hcar, ⟨hs, hspine, hrest⟩, rfl, rfl⟩

/-! ## Phrases and lists -/

/-- The sum of what some terms may need. -/
def costs (ts : List Term) : ℕ := (ts.map Term.cost).sum

theorem costs_append (ts us : List Term) : costs (ts ++ us) = costs ts + costs us := by
  simp [costs]

theorem cost_list (ts : List Term) : (Term.list ts).cost = costs ts + ts.length := by
  induction ts with
  | nil => rfl
  | cons t ts ih =>
    simp only [Term.list_cons, Term.cost, ih, costs, List.map_cons, List.sum_cons, List.length_cons]
    omega

/-- Some terms were read and are held, and others are queued. -/
structure Gathered (m : Machine) (items : List Handle) (done queued : List Term) : Prop where
  literate : Literate m.shadow m
  held : items ⊆ m.shadow
  stands : List.Forall₂ (Stands m) items done
  pending : Pending m queued

/-- Another term is read and held. -/
theorem Gathered.next {n : ℕ} {items : List Handle} {done queued queued' : List Term}
    (hm : Gathered m items done queued) (hrun : readTermFrom n m = .ok h m') (hh : Stands m' h t)
    (hqueue : Pending m' queued') :
    Gathered { m' with shadow := h :: m'.shadow } (h :: items) (t :: done) queued' := by
  obtain ⟨hm', hlasts⟩ := hm.literate.of_ok (lasting_readFrom n).1 hrun
  refine ⟨{ hm' with held := List.suffix_refl _ }, ?_, ?_, hqueue⟩
  · exact List.cons_subset_cons h (List.Subset.trans hm.held hm'.held.subset)
  · show List.Forall₂ (Stands m') (h :: items) (t :: done)
    exact .cons hh (forall₂_stands_lasts hlasts hm.stands hm.held)

/-- Reading within a step bound follows the grammar, wherever the text left is short enough for the
bound. -/
structure Faithful (n : ℕ) : Prop where
  term : ∀ {base m s rest ts}, Literate base m → Pending m [] → Gap m.source.rest s →
    Phrase s (.ok ts) rest → 4 * m.source.rest.length < n →
    Returns (costs ts) (readTermFrom n) m fun h m' => ∃ t us, ts = t :: us ∧ Stands m' h t ∧
      Pending m' us ∧ m'.source.rest = rest
  termFails : ∀ {base m s rest f}, Literate base m → Pending m [] → Gap m.source.rest s →
    Phrase s (.error f) rest → 4 * m.source.rest.length < n →
    Fails (5 * s.length) (readTermFrom n) m f fun m' => m'.source.rest = rest
  items : ∀ {m rest items done queued ts}, Gathered m items done queued →
    Items m.source.rest (.ok ts) rest → 4 * m.source.rest.length + queued.length + 1 < n →
    Returns (costs ts) (readItemsFrom n items) m fun hs m' =>
      List.Forall₂ (Stands m') hs (done.reverse ++ queued ++ ts) ∧ Pending m' [] ∧ m'.source.rest = rest
  itemsFail : ∀ {m rest items done queued f}, Gathered m items done queued →
    Items m.source.rest (.error f) rest → 4 * m.source.rest.length + queued.length + 1 < n →
    Fails (5 * m.source.rest.length) (readItemsFrom n items) m f fun m' => m'.source.rest = rest

/-- Reading once blanks are passed and the next byte is known. -/
def readNext (n : ℕ) (r : Registers) : Option UInt8 → Run Handle
  | none => fail .endOfInput
  | some c =>
    if c = Ascii.singleQuote then do
      advance
      return r.atomQuote
    else if c = Ascii.caret then do
      advance
      queueDirective c (·.atomPush)
      readTermFrom n
    else if c = Ascii.dollar then do
      advance
      queueDirective c (·.atomPop)
      readTermFrom n
    else if c = Ascii.openParen then do
      advance
      keepingRoots do
        let items ← readItemsFrom n []
        makeList items
    else if c = Ascii.doubleQuote then do
      advance
      makeString (← takeString)
    else if c = Ascii.closeParen then do
      let position := (← get).source.position
      advance
      fail (.unbalancedClose position)
    else do
      scalar (← takeWord)

theorem readTermFrom_succ (n : ℕ) : readTermFrom (n + 1) = (do
    let r ← getRegisters
    if r.readQueue ≠ r.nil then dequeue r.readQueue
    else
      skipBlank
      let next ← peek
      readNext n r next) := by
  rw [readTermFrom]
  rfl

/-- A machine whose blanks are passed. -/
theorem Literate.skipBlank (hm : Literate base m) :
    Literate base { m with source := m.source.skipBlank } := { hm with }

theorem Literate.advance (hm : Literate base m) :
    Literate base { m with source := m.source.advance } := { hm with }

theorem rest_advance {src : Source} {c : UInt8} {s : Bytes} (h : src.rest = c :: s) :
    src.advance.rest = s := by
  simp only [Source.advance, h]

/-- With an empty queue, reading passes the blanks and looks at the next byte. -/
theorem run_readTermFrom_of_eq (n : ℕ) (hqueue : m.registers.readQueue = m.registers.nil) :
    (readTermFrom (n + 1)).run m =
      (readNext n m.registers m.source.skipBlank.rest.head?).run { m with source := m.source.skipBlank } := by
  have hregisters : getRegisters.run m = .ok m.registers m := rfl
  rw [readTermFrom_succ, Run.run_bind_of_ok hregisters, if_neg (not_not.mpr hqueue)]
  rfl

theorem run_readTermFrom_of_empty (n : ℕ) (hm : Literate base m) (hqueue : Pending m []) :
    (readTermFrom (n + 1)).run m =
      (readNext n m.registers m.source.skipBlank.rest.head?).run { m with source := m.source.skipBlank } :=
  run_readTermFrom_of_eq n ((pending_nil_iff.mp hqueue).trans hm.nil_eq.symm)

theorem returns_readTermFrom_of_gap {n : ℕ} {s : Bytes} {Q : Handle → Machine → Prop}
    (hm : Literate base m) (hqueue : Pending m []) (hgap : Gap m.source.rest s) (hsolid : Solid s)
    (hnext : Returns k (readNext n m.registers s.head?) { m with source := m.source.skipBlank } Q) :
    Returns k (readTermFrom (n + 1)) m Q := by
  rw [← skipBlank_of_gap hgap hsolid] at hnext
  exact hnext.of_run_eq (run_readTermFrom_of_empty n hm hqueue) rfl

theorem fails_readTermFrom_of_gap {n : ℕ} {s : Bytes} {f : Fault} {Q : Machine → Prop}
    (hm : Literate base m) (hqueue : Pending m []) (hgap : Gap m.source.rest s) (hsolid : Solid s)
    (hnext : Fails k (readNext n m.registers s.head?) { m with source := m.source.skipBlank } f Q) :
    Fails k (readTermFrom (n + 1)) m f Q := by
  rw [← skipBlank_of_gap hgap hsolid] at hnext
  exact hnext.of_run_eq (run_readTermFrom_of_empty n hm hqueue) rfl

/-! ### The branches of reading -/

theorem readNext_sign {n : ℕ} {r : Registers} {sign : UInt8} {op : String}
    (hsign : (sign, op) ∈ directives) : ∃ last : Registers → Handle,
      (readNext n r (some sign) = do
        advance
        queueDirective sign last
        readTermFrom n) ∧
      ∀ {base m}, Literate base m → Stands m (last m.registers) (name op) := by
  rcases mem_directives.mp hsign with ⟨rfl, rfl⟩ | ⟨rfl, rfl⟩
  · refine ⟨(·.atomPush), ?_, fun hm => stands_of_registered hm.push⟩
    rw [readNext, if_neg (by decide), if_pos rfl]
  · refine ⟨(·.atomPop), ?_, fun hm => stands_of_registered hm.pop⟩
    rw [readNext, if_neg (by decide), if_neg (by decide), if_pos rfl]

theorem readNext_word {n : ℕ} {r : Registers} {c : UInt8} (hc : c ∉ punctuation) :
    readNext n r (some c) = (do scalar (← takeWord)) := by
  have hne : ∀ b ∈ punctuation, c ≠ b := by
    rintro b hb rfl
    exact hc hb
  rw [readNext, if_neg (hne _ (by decide)), if_neg (hne _ (by decide)), if_neg (hne _ (by decide)),
    if_neg (hne _ (by decide)), if_neg (hne _ (by decide)), if_neg (hne _ (by decide))]

theorem readNext_list (n : ℕ) (r : Registers) : readNext n r (some Ascii.openParen) = (do
    advance
    keepingRoots do
      let items ← readItemsFrom n []
      makeList items) := by
  rw [readNext, if_neg (by decide), if_neg (by decide), if_neg (by decide), if_pos rfl]

theorem readNext_string (n : ℕ) (r : Registers) : readNext n r (some Ascii.doubleQuote) = (do
    advance
    makeString (← takeString)) := by
  rw [readNext, if_neg (by decide), if_neg (by decide), if_neg (by decide), if_neg (by decide), if_pos rfl]

theorem run_takeString {bytes rest : Bytes} (hbody : Body m.source.rest (.ok bytes) rest) :
    ∃ src : Source, src.rest = rest ∧ takeString m = .ok bytes { m with source := src } := by
  obtain ⟨hresult, hrest⟩ := scanString_of_body hbody
  cases hscan : m.source.scanString with
  | mk result src =>
    rw [hscan] at hresult hrest
    subst hresult
    refine ⟨src, hrest, ?_⟩
    simp only [takeString, Run.run_bind, modifyGet, MonadStateOf.modifyGet, hscan]
    rfl

theorem run_takeString_of_error {f : Fault} {rest : Bytes} (hbody : Body m.source.rest (.error f) rest) :
    ∃ src : Source, src.rest = rest ∧ takeString m = .error (.fault f) { m with source := src } := by
  obtain ⟨hresult, hrest⟩ := scanString_of_body hbody
  cases hscan : m.source.scanString with
  | mk result src =>
    rw [hscan] at hresult hrest
    subst hresult
    refine ⟨src, hrest, ?_⟩
    simp only [takeString, Run.run_bind, modifyGet, MonadStateOf.modifyGet, hscan]
    rfl

/-- The terms of a list are read and made into it. -/
theorem returns_readList {n : ℕ} {rest : Bytes} {ts : List Term} (hn : Faithful n) (hm : Literate base m)
    (hqueue : Pending m []) (hitems : Items m.source.rest (.ok ts) rest)
    (hlen : 4 * m.source.rest.length + 1 < n) :
    Returns (Term.list ts).cost (keepingRoots do
      let items ← readItemsFrom n []
      makeList items) m fun h m' => Stands m' h (.list ts) ∧ Pending m' [] ∧ m'.source.rest = rest := by
  rw [cost_list]
  have hm : Literate m.shadow m := { hm with held := List.suffix_refl _ }
  have hstart : Gathered m [] [] [] := ⟨hm, List.nil_subset _, .nil, hqueue⟩
  refine Returns.keepingRoots ((hn.items hstart hitems hlen).bind fun {hs m₁} hrun hread => ?_)
  obtain ⟨hts, hqueue₁, hrest₁⟩ := hread
  have hm₁ := (hm.of_ok (lasting_readFrom n).2 hrun).1
  have hlength : hs.length = ts.length := hts.length_eq
  refine (returns_makeList hm₁ hts).imp hlength.le fun {h m₂} hrun₂ hlist => ?_
  obtain ⟨hspine, hstands, hinput⟩ := hlist
  have hm₂ := (hm₁.of_ok (lasting_makeList hs) hrun₂).1
  refine ⟨hspine.unfoldsWith hm₂.object?_nil hstands, ?_, ?_⟩
  · exact pending_nil_iff.mpr (hinput.2.trans (pending_nil_iff.mp hqueue₁))
  · exact (congrArg Source.rest hinput.1).trans hrest₁

theorem returns_readNext {n : ℕ} {rest : Bytes} {ts : List Term} (hn : Faithful n) (hm : Literate base m)
    (hqueue : Pending m []) (hphrase : Phrase m.source.rest (.ok ts) rest)
    (hlen : 4 * m.source.rest.length ≤ n) :
    Returns (costs ts) (readNext n m.registers m.source.rest.head?) m fun h m' =>
      ∃ t us, ts = t :: us ∧ Stands m' h t ∧ Pending m' us ∧ m'.source.rest = rest := by
  generalize hs : m.source.rest = s at hphrase hlen
  cases hphrase with
  | quote rest =>
    refine Returns.step rfl rfl ?_
    refine (returns_of_ok rfl rfl ?_).imp (Nat.zero_le _) fun _ hq => hq
    exact ⟨_, _, rfl, stands_of_registered hm.quote, hqueue, rest_advance hs⟩
  | @directive sign op s word rest t hsign hword hscalar =>
    obtain ⟨last, hnext, hlast⟩ := readNext_sign hsign
    rw [List.head?_cons, hnext]
    rw [← rest_advance hs] at hword
    obtain ⟨n, rfl⟩ : ∃ k, n = k + 1 := ⟨n - 1, by rw [List.length_cons] at hlen; omega⟩
    refine Returns.step rfl rfl ?_
    refine ((returns_queueDirective hm.advance hword hscalar hlast).bind (l := 0) ?_).imp ?_ fun _ hq => hq
    · intro _ m₁ hrun hqueued
      obtain ⟨hqueue₁, hrest₁⟩ := hqueued
      have hm₁ := (hm.advance.of_ok (lasting_queueDirective sign last) hrun).1
      refine (returns_readTermFrom_of_pending n hm₁ hqueue₁).imp le_rfl fun _ hread => ?_
      obtain ⟨hh, hqueue₂, hsource, -⟩ := hread
      exact ⟨_, _, rfl, hh, hqueue₂, (congrArg Source.rest hsource).trans hrest₁⟩
    · simp only [costs, name, Term.cost, List.map_cons, List.map_nil, List.sum_cons, List.sum_nil]
      omega
  | @list s _ us hitems =>
    rw [List.head?_cons, readNext_list]
    rw [← rest_advance hs] at hitems
    refine Returns.step rfl rfl ?_
    have hlen' : 4 * m.source.advance.rest.length + 1 < n := by
      rw [rest_advance hs]
      rw [List.length_cons] at hlen
      omega
    refine (returns_readList hn hm.advance hqueue hitems hlen').imp ?_ fun _ hread => ?_
    · simp [costs]
    · exact ⟨_, _, rfl, hread⟩
  | @string s _ bytes hbody =>
    rw [List.head?_cons, readNext_string]
    rw [← rest_advance hs] at hbody
    obtain ⟨src, hrest, hrun⟩ := run_takeString (m := { m with source := m.source.advance }) hbody
    have hm₁ : Literate base { m with source := src } := { hm with }
    refine Returns.step rfl rfl (Returns.step hrun rfl ?_)
    refine (returns_allocate (.string (.owned bytes.toArray)) hm₁).imp ?_ fun {h m'} _ htakes => ?_
    · simp [costs, Term.cost]
    · obtain ⟨hsource, hq⟩ := htakes.spares.sameInput
      refine ⟨_, _, rfl, ?_, ?_, (congrArg Source.rest hsource).trans hrest⟩
      · have hstring : Stands m' h (.string bytes.toArray.toList) := .string htakes.object?_eq
        rwa [List.toList_toArray] at hstring
      · exact pending_nil_iff.mpr (hq.trans (pending_nil_iff.mp hqueue))
  | @scalar s word _ t hword hscalar =>
    have hnext : readNext n m.registers s.head? = (do scalar (← takeWord)) := by
      obtain ⟨c, tail, rfl, hc⟩ := hword.exists_cons
      exact readNext_word hc
    rw [hnext]
    rw [← hs] at hword
    have hm₁ : Literate base { m with source := ⟨m.source.position + word.length, rest⟩ } := { hm with }
    refine Returns.step (run_takeWord hword) rfl ?_
    refine (returns_scalar hm₁ hscalar).imp ?_ fun _ hread => ?_
    · simp [costs]
    · obtain ⟨hh, hsource, hq⟩ := hread
      exact ⟨_, _, rfl, hh, pending_nil_iff.mpr (hq.trans (pending_nil_iff.mp hqueue)),
        congrArg Source.rest hsource⟩

theorem fails_readNext {n : ℕ} {rest : Bytes} {f : Fault} (hn : Faithful n) (hm : Literate base m)
    (hqueue : Pending m []) (hphrase : Phrase m.source.rest (.error f) rest)
    (hlen : 4 * m.source.rest.length ≤ n) :
    Fails (5 * m.source.rest.length) (readNext n m.registers m.source.rest.head?) m f fun m' =>
      m'.source.rest = rest := by
  generalize hs : m.source.rest = s at hphrase hlen
  cases hphrase with
  | atEnd => exact .inr ⟨m, rfl, hs⟩
  | @nameless sign op s hsign hhead =>
    obtain ⟨last, hnext, -⟩ := readNext_sign hsign
    rw [List.head?_cons, hnext]
    have hadvance := rest_advance hs
    rw [← hadvance] at hhead
    have hword : takeWord.run { m with source := m.source.advance } =
        .ok [] { m with source := m.source.advance } := by
      simp only [takeWord, modifyGet, MonadStateOf.modifyGet, scanWord_of_punctuation hhead]
    refine Fails.step rfl rfl (Fails.bind (Fails.step hword rfl ?_))
    exact .inr ⟨_, rfl, hadvance⟩
  | @brokenList s _ f hitems =>
    rw [List.head?_cons, readNext_list]
    rw [← rest_advance hs] at hitems
    have hm₁ : Literate m.shadow { m with source := m.source.advance } :=
      { hm with held := List.suffix_refl _ }
    have hstart : Gathered { m with source := m.source.advance } [] [] [] :=
      ⟨hm₁, List.nil_subset _, .nil, hqueue⟩
    have hlen' : 4 * m.source.advance.rest.length + 1 < n := by
      rw [rest_advance hs]
      rw [List.length_cons] at hlen
      omega
    have hread := hn.itemsFail hstart hitems hlen'
    refine Fails.step rfl rfl (Fails.keepingRoots (Fails.bind (hread.imp ?_ fun hq => hq)))
    show 5 * m.source.advance.rest.length ≤ _
    rw [rest_advance hs, List.length_cons]
    omega
  | @brokenString s _ f hbody =>
    rw [List.head?_cons, readNext_string]
    rw [← rest_advance hs] at hbody
    obtain ⟨src, hrest, hrun⟩ := run_takeString_of_error (m := { m with source := m.source.advance }) hbody
    exact Fails.step rfl rfl (Fails.bind (.inr ⟨_, hrun, hrest⟩))

/-! ### Lists -/

/-- Reads another term of a list, and then the rest of it. -/
def readMore (n : ℕ) (items : List Handle) : Run (List Handle) := do
  let item ← readTermFrom n
  root [item]
  readItemsFrom n (item :: items)

theorem readItemsFrom_succ (n : ℕ) (items : List Handle) : readItemsFrom (n + 1) items = (do
    let r ← getRegisters
    if r.readQueue = r.nil then
      skipBlank
      let next ← peek
      if next = some Ascii.closeParen then
        advance
        return items.reverse
      else readMore n items
    else readMore n items) := by
  rw [readItemsFrom]
  rfl

/-- With an empty queue, reading a list passes the blanks and looks for its end. -/
theorem run_readItemsFrom_of_gap (n : ℕ) (items : List Handle) {s : Bytes} (hm : Literate base m)
    (hqueue : Pending m []) (hgap : Gap m.source.rest s) (hsolid : Solid s) :
    readItemsFrom (n + 1) items m =
      (if s.head? = some Ascii.closeParen then do
        advance
        return items.reverse
      else readMore n items) { m with source := m.source.skipBlank } := by
  have hempty : m.registers.readQueue = m.registers.nil := by rw [pending_nil_iff.mp hqueue, hm.nil_eq]
  rw [← skipBlank_of_gap hgap hsolid, readItemsFrom_succ]
  refine (Run.run_bind_of_ok rfl).trans ?_
  rw [if_pos hempty]
  exact (Run.run_bind_of_ok rfl).trans (Run.run_bind_of_ok rfl)

/-- What is queued comes before the end of a list. -/
theorem run_readItemsFrom_of_pending {n : ℕ} {items : List Handle} {queued : List Term}
    (hm : Literate base m) (hqueue : Pending m (t :: queued)) :
    readItemsFrom (n + 1) items m = readMore n items m := by
  have hne : m.registers.readQueue ≠ m.registers.nil := by
    intro heq
    rw [hm.nil_eq, ← pending_nil_iff] at heq
    obtain ⟨hs, hspine, hts⟩ := hqueue
    obtain ⟨ks, hspine', hts'⟩ := heq
    rw [hspine.unique hm.object?_nil hspine'] at hts
    cases hts'
    cases hts
  rw [readItemsFrom_succ]
  refine (Run.run_bind_of_ok rfl).trans ?_
  rw [if_neg hne]

/-- A term read and held, and then the rest of the list. The term is the first of `us`, and the others are
queued. -/
theorem returns_readMore {n : ℕ} {items : List Handle} {done queued us ts : List Term} {s rest : Bytes}
    (hn : Faithful n) (hm : Gathered m items done queued)
    (hread : Returns k (readTermFrom n) m fun h m' => ∃ t qs, us = t :: qs ∧ Stands m' h t ∧
      Pending m' qs ∧ m'.source.rest = s)
    (hitems : Items s (.ok ts) rest) (hlen : 4 * s.length + us.length < n) :
    Returns (k + costs ts) (readMore n items) m fun hs m' =>
      List.Forall₂ (Stands m') hs (done.reverse ++ us ++ ts) ∧ Pending m' [] ∧ m'.source.rest = rest := by
  refine hread.bind fun {h m₁} hrun hh => ?_
  obtain ⟨t, qs, rfl, hh, hqueue, hs⟩ := hh
  have hnext := hm.next hrun hh hqueue
  rw [← hs] at hitems hlen
  rw [List.length_cons] at hlen
  refine Returns.step rfl rfl ((hn.items hnext hitems (by omega)).imp le_rfl fun _ hq => ?_)
  simpa using hq

theorem fails_readMore {n : ℕ} {items : List Handle} {done queued us : List Term} {s rest : Bytes}
    {f : Fault} (hn : Faithful n) (hm : Gathered m items done queued)
    (hread : Returns k (readTermFrom n) m fun h m' => ∃ t qs, us = t :: qs ∧ Stands m' h t ∧
      Pending m' qs ∧ m'.source.rest = s)
    (hitems : Items s (.error f) rest) (hlen : 4 * s.length + us.length < n) :
    Fails (k + 5 * s.length) (readMore n items) m f fun m' => m'.source.rest = rest := by
  refine hread.bind_fails fun {h m₁} hrun hh => ?_
  obtain ⟨t, qs, rfl, hh, hqueue, hs⟩ := hh
  have hnext := hm.next hrun hh hqueue
  rw [← hs] at hitems hlen ⊢
  rw [List.length_cons] at hlen
  exact Fails.step rfl rfl (hn.itemsFail hnext hitems (by omega))

theorem Gathered.skipBlank {items : List Handle} {done queued : List Term}
    (hm : Gathered m items done queued) :
    Gathered { m with source := m.source.skipBlank } items done queued :=
  ⟨hm.literate.skipBlank, hm.held, hm.stands, hm.pending⟩

/-- The first of the queued terms is read like the first term of a phrase. -/
theorem Gathered.returns_queued {n : ℕ} {items : List Handle} {done queued : List Term}
    (hm : Gathered m items done (t :: queued)) (hn : 0 < n) :
    Returns 0 (readTermFrom n) m fun h m' => ∃ u qs, t :: queued = u :: qs ∧ Stands m' h u ∧
      Pending m' qs ∧ m'.source.rest = m.source.rest := by
  obtain ⟨n, rfl⟩ : ∃ k, n = k + 1 := ⟨n - 1, by omega⟩
  refine (returns_readTermFrom_of_pending n hm.literate hm.pending).imp le_rfl fun _ hread => ?_
  obtain ⟨hh, hqueue, hsource, -⟩ := hread
  exact ⟨t, queued, rfl, hh, hqueue, congrArg Source.rest hsource⟩

theorem returns_readItemsFrom {n : ℕ} {items : List Handle} {done queued ts : List Term} {rest : Bytes}
    (hn : Faithful n) (hm : Gathered m items done queued) (hitems : Items m.source.rest (.ok ts) rest)
    (hlen : 4 * m.source.rest.length + queued.length < n) :
    Returns (costs ts) (readItemsFrom (n + 1) items) m fun hs m' =>
      List.Forall₂ (Stands m') hs (done.reverse ++ queued ++ ts) ∧ Pending m' [] ∧ m'.source.rest = rest := by
  cases queued with
  | cons t queued =>
    have hmore := returns_readMore hn hm (hm.returns_queued (by omega)) hitems hlen
    rw [Nat.zero_add] at hmore
    simpa only [Returns, Exhausts, run_readItemsFrom_of_pending hm.literate hm.pending] using hmore
  | nil =>
    generalize hs : m.source.rest = s at hitems hlen
    cases hitems with
    | close hgap =>
      rw [← hs] at hgap
      have hrun := run_readItemsFrom_of_gap n items hm.literate hm.pending hgap (solid_closeParen rest)
      rw [List.head?_cons, if_pos rfl] at hrun
      refine returns_of_ok hrun rfl ⟨?_, hm.pending, ?_⟩
      · rw [List.append_nil, List.append_nil]
        exact List.forall₂_reverse_iff.mpr hm.stands
      · exact rest_advance (skipBlank_of_gap hgap (solid_closeParen rest))
    | @more _ s₁ s₂ _ us ts hgap hphrase hitems =>
      obtain ⟨hsolid, hne⟩ := hphrase.start
      have hgaplen := hgap.length_le
      have hphraselen := hphrase.length
      rw [← hs] at hgap
      have hskip := skipBlank_of_gap hgap hsolid
      have hread := hn.term hm.skipBlank.literate hm.pending (Gap.none _) (hskip ▸ hphrase)
        (by rw [hskip]; rw [List.length_nil] at hlen; omega)
      have hmore := returns_readMore hn hm.skipBlank hread hitems
        (by rw [List.length_nil] at hlen; omega)
      have hrun := run_readItemsFrom_of_gap n items hm.literate hm.pending hgap hsolid
      rw [if_neg hne] at hrun
      rw [costs_append]
      simpa only [Returns, Exhausts, hrun, List.append_nil, List.append_assoc] using hmore

theorem fails_readItemsFrom {n : ℕ} {items : List Handle} {done queued : List Term} {rest : Bytes} {f : Fault}
    (hn : Faithful n) (hm : Gathered m items done queued) (hitems : Items m.source.rest (.error f) rest)
    (hlen : 4 * m.source.rest.length + queued.length < n) :
    Fails (5 * m.source.rest.length) (readItemsFrom (n + 1) items) m f fun m' => m'.source.rest = rest := by
  cases queued with
  | cons t queued =>
    have hmore := fails_readMore hn hm (hm.returns_queued (by omega)) hitems hlen
    rw [Nat.zero_add] at hmore
    simpa only [Fails, Exhausts, run_readItemsFrom_of_pending hm.literate hm.pending] using hmore
  | nil =>
    rw [List.length_nil, Nat.add_zero] at hlen
    generalize hs : m.source.rest = s at hitems hlen
    cases hitems with
    | @broken _ s₁ _ f hgap hphrase =>
      obtain ⟨hsolid, hne⟩ := hphrase.start
      have hgaplen := hgap.length_le
      rw [← hs] at hgap
      have hskip := skipBlank_of_gap hgap hsolid
      have hread := hn.termFails hm.skipBlank.literate hm.pending (Gap.none _) (hskip ▸ hphrase)
        (by rw [hskip]; omega)
      have hrun := run_readItemsFrom_of_gap n items hm.literate hm.pending hgap hsolid
      rw [if_neg hne] at hrun
      have hmore : Fails (5 * s.length) (readMore n items) { m with source := m.source.skipBlank } f
          fun m' => m'.source.rest = rest := Fails.bind (hread.imp (by rw [hskip]; omega) id)
      simpa only [Fails, Exhausts, hrun] using hmore
    | @brokenLater _ s₁ s₂ _ ts f hgap hphrase hitems =>
      obtain ⟨hsolid, hne⟩ := hphrase.start
      have hgaplen := hgap.length_le
      have hphraselen := hphrase.length
      have houtlay := hphrase.outlay_le
      rw [outlay, cost_list] at houtlay
      rw [← hs] at hgap
      have hskip := skipBlank_of_gap hgap hsolid
      have hread := hn.term hm.skipBlank.literate hm.pending (Gap.none _) (hskip ▸ hphrase)
        (by rw [hskip]; omega)
      have hmore := (fails_readMore hn hm.skipBlank hread hitems (by omega)).imp
        (show costs ts + 5 * s₂.length ≤ 5 * s.length by omega) id
      have hrun := run_readItemsFrom_of_gap n items hm.literate hm.pending hgap hsolid
      rw [if_neg hne] at hrun
      simpa only [Fails, Exhausts, hrun] using hmore

/-- Reading follows the grammar. -/
theorem faithful (n : ℕ) : Faithful n := by
  induction n with
  | zero => exact ⟨by omega, by omega, by omega, by omega⟩
  | succ n ih =>
    constructor
    · intro base m s rest ts hm hqueue hgap hphrase hlen
      have hgaplen := hgap.length_le
      have hskip := skipBlank_of_gap hgap hphrase.start.1
      refine returns_readTermFrom_of_gap hm hqueue hgap hphrase.start.1 ?_
      have hnext := returns_readNext ih hm.skipBlank hqueue (hskip ▸ hphrase) (by rw [hskip]; omega)
      rwa [hskip] at hnext
    · intro base m s rest f hm hqueue hgap hphrase hlen
      have hgaplen := hgap.length_le
      have hskip := skipBlank_of_gap hgap hphrase.start.1
      refine fails_readTermFrom_of_gap hm hqueue hgap hphrase.start.1 ?_
      have hnext := fails_readNext ih hm.skipBlank hqueue (hskip ▸ hphrase) (by rw [hskip]; omega)
      rwa [hskip] at hnext
    · intro m rest items done queued ts hm hitems hlen
      exact returns_readItemsFrom ih hm hitems (by omega)
    · intro m rest items done queued f hm hitems hlen
      exact fails_readItemsFrom ih hm hitems (by omega)

end PushLisp.Machine
