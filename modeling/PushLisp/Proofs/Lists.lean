import PushLisp.Proofs.Bindings

/-!
# Building a list

A list is built from its end, one pair after another, and any of these pairs may be what the table has no
more room for. The values are held meanwhile, and each new pair leads to those made before it. So the pairs
lie in different slots, none of them in use before, and whatever the values and the roots led to stays. A
value need not name anything: it may even be the handle of the slot where the next pair is going to lie.

A list cannot be built only if there are fewer slots than values that are empty or hold an object that
nothing leads to.

## Main definitions

* `Heap.Cells`: the pairs of a list, with its values.
* `Machine.Idle`: a slot that is not in use.
* `Machine.Builds`: the state on the way.
* `Machine.Lists`: what a list that was built is like.

## Main statements

* `Machine.Builds.makePair`: one more value.
* `Machine.Builds.consAll`: all of them.
* `Machine.makeList_lists`: building a list.
-/
namespace PushLisp

/-! ## The pairs of a list -/

namespace Heap

variable {heap heap' : Heap} {h c : Handle} {cells values : List Handle}

/-- A handle names a list that ends with the empty list. It is made of some pairs, in this order, and has
some values. -/
inductive Cells (heap : Heap) : Handle → List Handle → List Handle → Prop
  | nil : Cells heap .nil [] []
  | cons {h car cdr : Handle} {cells values : List Handle} : heap.get? h = some (.pair car cdr) →
      Cells heap cdr cells values → Cells heap h (h :: cells) (car :: values)

namespace Cells

theorem length_eq (hcells : heap.Cells h cells values) : cells.length = values.length := by
  induction hcells with
  | nil => rfl
  | cons _ _ ih => rw [List.length_cons, List.length_cons, ih]

theorem eq_nil_or_mem (hcells : heap.Cells h cells values) : h = .nil ∨ h ∈ cells := by
  cases hcells with
  | nil => exact .inl rfl
  | cons => exact .inr List.mem_cons_self

/-- A pair of the list has one of its values, and goes on with another of its pairs unless it is the last. -/
theorem exists_pair (hcells : heap.Cells h cells values) (hc : c ∈ cells) :
    ∃ v ∈ values, ∃ next, heap.get? c = some (.pair v next) ∧ (next = .nil ∨ next ∈ cells) := by
  induction hcells with
  | nil => cases hc
  | @cons h car cdr cells values ho hrest ih =>
    rcases List.mem_cons.mp hc with rfl | hc
    · exact ⟨car, List.mem_cons_self, cdr, ho, hrest.eq_nil_or_mem.imp_right (List.mem_cons_of_mem _)⟩
    · obtain ⟨v, hv, next, hget, hnext⟩ := ih hc
      exact ⟨v, List.mem_cons_of_mem _ hv, next, hget, hnext.imp_right (List.mem_cons_of_mem _)⟩

/-- A list leads to its pairs. -/
theorem reaches (hcells : heap.Cells h cells values) (hc : c ∈ cells) : heap.Reaches [h] c := by
  induction hcells with
  | nil => cases hc
  | @cons h car cdr cells values ho _ ih =>
    have hroot : heap.Reaches [h] h := .root (List.mem_singleton.mpr rfl)
    rcases List.mem_cons.mp hc with rfl | hc
    · exact hroot
    · refine (ih hc).trans ?_
      simpa using hroot.reference ho (by simp [Object.references])

/-- A list is there as long as its pairs are. -/
theorem congr (hcells : heap.Cells h cells values)
    (hkeep : ∀ {c o}, c ∈ cells → heap.get? c = some o → heap'.get? c = some o) :
    heap'.Cells h cells values := by
  induction hcells with
  | nil => exact .nil
  | cons ho _ ih =>
    exact .cons (hkeep List.mem_cons_self ho) (ih fun hc => hkeep (List.mem_cons_of_mem _ hc))

end Cells

end Heap

namespace Machine

variable {m m' : Machine} {h k c v list : Handle} {cells made values : List Handle}

/-- Walking along a list meets its values. -/
theorem itemsFrom_of_cells (hcells : m.heap.Cells list cells values) (hnil : m.object? .nil = some .nil)
    (n : ℕ)
    (met : List Handle) : itemsFrom m (cells.length + 1 + n) list met = .ok (met.reverse ++ values) := by
  induction hcells generalizing met with
  | nil =>
    rw [show [].length + 1 + n = n + 1 by rw [List.length_nil]; omega, itemsFrom, hnil, List.append_nil]
  | @cons h car cdr cells values ho _ ih =>
    have ho : m.object? h = some (.pair car cdr) := ho
    rw [List.length_cons, show cells.length + 1 + 1 + n = cells.length + 1 + n + 1 by omega, itemsFrom, ho]
    dsimp only
    rw [ih, List.reverse_cons, List.append_assoc, List.singleton_append]

/-- A list is as long as its pairs, and those are not more than there are slots. -/
theorem items_of_cells (hcells : m.heap.Cells list cells values) (hnodup : cells.Nodup)
    (hnil : m.object? .nil = some .nil) : items list m = .ok values := by
  have hle : cells.length ≤ m.heap.capacity := by
    refine Heap.length_le_capacity_of_nodup hnodup fun c hc => ?_
    obtain ⟨v, -, next, hget, -⟩ := hcells.exists_pair hc
    exact Option.isSome_of_eq_some hget
  obtain ⟨n, hn⟩ := Nat.exists_eq_add_of_le (show cells.length + 1 ≤ m.walkBound by rw [walkBound]; omega)
  rw [items, hn, itemsFrom_of_cells hcells hnil n []]
  rfl

/-! ## On the way -/

/-- A handle of the table whose slot is empty, or holds an object that neither the roots nor some other
handles lead to. -/
def Idle (hs : List Handle) (m : Machine) (h : Handle) : Prop :=
  h.slot < m.heap.capacity ∧ ((m.object? h).isSome → ¬ m.heap.Reaches (.nil :: (hs ++ m.roots)) h)

/-- There are not so many slots that are not in use. -/
def Scant (hs : List Handle) (m : Machine) (n : ℕ) : Prop :=
  ∀ spare : List Handle, spare.Nodup → (∀ h ∈ spare, m.Idle hs h) → spare.length < n

/-- On the way from `m` to `m'` a list of some values was made, which are all rooted. -/
structure Builds (m : Machine) (list : Handle) (cells made : List Handle) (m' : Machine) : Prop where
  spares : Spares [] m m'
  chain : m'.heap.Cells list cells made
  nodup : cells.Nodup
  idle : ∀ c ∈ cells, m.Idle [] c
  rooted : ∀ v ∈ made, v ∈ m.roots
  origin : ∀ {k o}, m'.object? k = some o → k ∈ cells ∨ m.object? k = some o

namespace Builds

theorem nil (hm : m.heap.Regular) : Builds m .nil [] [] m where
  spares := spares_refl hm.unmarked
  chain := .nil
  nodup := List.nodup_nil
  idle := List.forall_mem_nil _
  rooted := List.forall_mem_nil _
  origin ho := .inr ho

/-- The pairs of the list are reached from the object that goes in front of it. -/
theorem reaches (hbuilds : Builds m list cells made m') (hc : c ∈ cells) (v : Handle) :
    m'.heap.Reaches (.nil :: ((Object.pair v list).references ++ m'.roots)) c :=
  (hbuilds.chain.reaches hc).mono (by simp [Object.references])

/-- Whatever is reached now is a pair of the list, or was reached before. -/
theorem reaches_cases (hbuilds : Builds m list cells made m') (hv : v ∈ m.roots)
    (hk : m'.heap.Reaches (.nil :: ((Object.pair v list).references ++ m'.roots)) k) :
    k ∈ cells ∨ m.heap.Reaches (.nil :: m.roots) k := by
  have hroot : ∀ {k}, k = .nil ∨ k ∈ m.roots → m.heap.Reaches (.nil :: m.roots) k := fun hk =>
    .root (List.mem_cons.mpr hk)
  rw [hbuilds.spares.roots_eq] at hk
  induction hk with
  | @root k hmem =>
    simp only [Object.references, List.mem_cons, List.mem_append, List.not_mem_nil, or_false] at hmem
    rcases hmem with rfl | (rfl | rfl) | hmem
    · exact .inr (hroot (.inl rfl))
    · exact .inr (hroot (.inr hv))
    · exact hbuilds.chain.eq_nil_or_mem.symm.imp_right fun hnil => hroot (.inl hnil)
    · exact .inr (hroot (.inr hmem))
  | @reference k j o _ ho hj ih =>
    by_cases hcell : k ∈ cells
    · -- a pair of the list refers to a value, which is rooted, and to the rest of the list
      obtain ⟨w, hw, next, hget, hnext⟩ := hbuilds.chain.exists_pair hcell
      cases hget.symm.trans ho
      simp only [Object.references, List.mem_cons, List.not_mem_nil, or_false] at hj
      rcases hj with rfl | rfl
      · exact .inr (hroot (.inr (hbuilds.rooted _ hw)))
      · exact hnext.symm.imp_right fun hnil => hroot (.inl hnil)
    · have hold := (hbuilds.origin ho).resolve_left hcell
      exact .inr ((ih.resolve_left hcell).reference hold hj)

/-- Where the next pair is denied, there were no more slots to be had than pairs were made. -/
theorem scant (hbuilds : Builds m list cells made m') (hv : v ∈ m.roots)
    (hcrowded : Crowded (Object.pair v list).references m') : Scant [] m (made.length + 1) := by
  intro spare hnodup hidle
  have hsub : spare ⊆ cells := by
    intro h hh
    obtain ⟨hlt, hunused⟩ := hidle h hh
    rw [← hbuilds.spares.capacity_eq] at hlt
    obtain ⟨hreach, hsome⟩ := hcrowded h.slot hlt
    rw [Handle.ofSlot_slot] at hreach hsome
    obtain ⟨o, ho⟩ := Option.isSome_iff_exists.mp hsome
    by_contra hcell
    have hold := (hbuilds.origin ho).resolve_left hcell
    exact hunused (Option.isSome_of_eq_some hold) ((hbuilds.reaches_cases hv hreach).resolve_left hcell)
  rw [← hbuilds.chain.length_eq, Nat.lt_succ_iff]
  exact (List.subperm_of_subset hnodup hsub).length_le

/-- Another pair in front of the list. -/
theorem cons {m'' : Machine} (hbuilds : Builds m list cells made m') (hv : v ∈ m.roots)
    (hplaced : Placed (.pair v list) m' c m'') : Builds m c (c :: cells) (v :: made) m'' where
  spares := hbuilds.spares.trans (hplaced.spares.of_subset (List.nil_subset _))
  chain := .cons hplaced.object?_eq
    (hbuilds.chain.congr fun hd ho => hplaced.spares.object?_eq ho (hbuilds.reaches hd v))
  nodup := by
    refine List.nodup_cons.mpr ⟨fun hc => ?_, hbuilds.nodup⟩
    obtain ⟨w, -, next, hget, -⟩ := hbuilds.chain.exists_pair hc
    exact hplaced.fresh (hbuilds.reaches hc v) (Option.isSome_of_eq_some hget) rfl
  idle := by
    refine List.forall_mem_cons.mpr ⟨⟨hbuilds.spares.capacity_eq ▸ hplaced.slot_lt, ?_⟩, hbuilds.idle⟩
    intro hsome hreach
    obtain ⟨o, ho⟩ := Option.isSome_iff_exists.mp hsome
    refine hplaced.fresh ((hbuilds.spares.reaches hreach).mono ?_)
      (Option.isSome_of_eq_some (hbuilds.spares.object?_eq ho hreach)) rfl
    exact List.cons_subset_cons _ (List.subset_append_right _ _)
  rooted := List.forall_mem_cons.mpr ⟨hv, hbuilds.rooted⟩
  origin ho := by
    rcases hplaced.origin ho with ⟨rfl, -⟩ | hold
    · exact .inl List.mem_cons_self
    · exact (hbuilds.origin hold).imp_left (List.mem_cons_of_mem _)

/-- One more value is put in front of the list, unless the slots are used up. -/
theorem makePair (hbuilds : Builds m list cells made m') (hm : m.heap.Regular) (hv : v ∈ m.roots) :
    (∃ c m'', makePair v list m' = .ok c m'' ∧ Builds m c (c :: cells) (v :: made) m'') ∨
      ∃ m'', makePair v list m' = .error (.fault (.exhausted m.heap.capacity)) m'' ∧
        Scant [] m (made.length + 1) := by
  have hm' := hbuilds.spares.regular hm
  rcases allocate_spares (.pair v list) hm'.unmarked hm'.capacity_le with
    ⟨c, m'', hrun, hplaced⟩ | ⟨m'', hrun, -⟩
  · exact .inl ⟨c, m'', hrun, hbuilds.cons hv hplaced⟩
  · rcases allocate_cases (.pair v list) hm'.unmarked hm'.capacity_le with
      ⟨c, n, hrun', -⟩ | ⟨hcrowded, -⟩
    · cases hrun.symm.trans hrun'
    · exact .inr ⟨m'', hbuilds.spares.capacity_eq ▸ hrun, hbuilds.scant hv hcrowded⟩

/-- All values are put in front of the list, unless the slots are used up before. -/
theorem consAll (hbuilds : Builds m list cells made m') (hm : m.heap.Regular) {rest : List Handle}
    (hrest : ∀ v ∈ rest, v ∈ m.roots) :
    (∃ list' cells' m'', consAll list rest m' = .ok list' m'' ∧
      Builds m list' cells' (rest.reverse ++ made) m'') ∨
      ∃ m'', consAll list rest m' = .error (.fault (.exhausted m.heap.capacity)) m'' ∧
        Scant [] m (rest.length + made.length) := by
  induction rest generalizing list cells made m' with
  | nil => exact .inl ⟨list, cells, m', rfl, hbuilds⟩
  | cons v rest ih =>
    obtain ⟨hv, hrest⟩ := List.forall_mem_cons.mp hrest
    rcases hbuilds.makePair hm hv with ⟨c, n, hrun, hnext⟩ | ⟨n, hrun, hscant⟩
    · rw [Machine.consAll, Run.run_bind_of_ok hrun, List.reverse_cons, List.append_assoc,
        List.length_cons, Nat.add_right_comm, Nat.add_assoc]
      exact ih hnext hrest
    · refine .inr ⟨n, Run.run_bind_of_error hrun, fun spare hnodup hidle => ?_⟩
      have hlt := hscant spare hnodup hidle
      rw [List.length_cons]
      omega

end Builds

/-! ## Building a list -/

/-- What a list of some values that was built on `m` is like on the machine `m'` it was left on. It has the
values, and its pairs lie in as many different slots, which were not in use. What the values and the roots
led to is there, and only objects and the log may have changed. -/
structure Lists (values : List Handle) (m : Machine) (list : Handle) (m' : Machine) : Prop where
  items_eq : items list m' = .ok values
  cells : ∃ cells, m'.heap.Cells list cells values ∧ cells.length = values.length ∧ cells.Nodup ∧
    ∀ c ∈ cells, m.Idle values c
  object?_eq : ∀ {k o}, m.heap.Reaches (.nil :: (values ++ m.roots)) k → m.object? k = some o →
    m'.object? k = some o
  rest_eq : m' = { m with heap := m'.heap, events := m'.events }

/-- To be held by an operation is as good as to be rooted. -/
theorem idle_withRoots {hs : List Handle} :
    Idle [] { m with shadow := hs ++ m.shadow } h ↔ m.Idle hs h := by
  have hroots : ∀ {k}, m.heap.Reaches (.nil :: ([] ++ roots { m with shadow := hs ++ m.shadow })) k ↔
      m.heap.Reaches (.nil :: (hs ++ m.roots)) k := by
    intro k
    constructor <;> refine Heap.Reaches.mono fun k => ?_ <;>
      simp only [roots, List.nil_append, List.mem_cons, List.mem_append] <;> tauto
  exact and_congr_right fun _ => imp_congr_right fun _ => not_congr hroots

theorem Builds.lists (hbuilds : Builds { m with shadow := values ++ m.shadow } list cells values m')
    (hnil : m.object? .nil = some .nil) : Lists values m list { m' with shadow := m.shadow } := by
  have hspares := hbuilds.spares.withRoots
  have hnil' : m'.object? .nil = some .nil := hspares.object?_eq hnil (.root List.mem_cons_self)
  rw [List.append_nil] at hspares
  refine ⟨items_of_cells hbuilds.chain hbuilds.nodup hnil', ⟨cells, hbuilds.chain, hbuilds.chain.length_eq,
    hbuilds.nodup, fun c hc => idle_withRoots.mp (hbuilds.idle c hc)⟩, ?_, hspares.rest_eq⟩
  intro k o hreach ho
  exact hspares.object?_eq ho hreach

/-- Building a list of no values does nothing. A list of any values is built, in slots that were not in
use and at the expense of nothing that was, unless there are fewer such slots than values. -/
theorem makeList_lists (hm : m.heap.Regular) (hnil : m.object? .nil = some .nil) (values : List Handle) :
    (values = [] → makeList values m = .ok .nil m) ∧
      ((∃ list m', makeList values m = .ok list m' ∧ Lists values m list m') ∨
        ∃ m', makeList values m = .error (.fault (.exhausted m.heap.capacity)) m' ∧
          Scant values m values.length) := by
  constructor
  · rintro rfl
    rfl
  have hstart : Builds { m with shadow := values ++ m.shadow } .nil [] []
      { m with shadow := values ++ m.shadow } :=
    .nil hm
  have hrooted : ∀ v ∈ values.reverse, v ∈ roots { m with shadow := values ++ m.shadow } := by
    intro v hv
    simp [roots, List.mem_reverse.mp hv]
  rcases hstart.consAll hm hrooted with ⟨list, cells, m', hrun, hbuilds⟩ | ⟨m', hrun, hscant⟩
  · rw [List.reverse_reverse, List.append_nil] at hbuilds
    exact .inl ⟨list, _, run_withRoots_of_ok hrun, hbuilds.lists hnil⟩
  · refine .inr ⟨_, run_withRoots_of_error hrun, fun spare hnodup hidle => ?_⟩
    have hlt := hscant spare hnodup fun h hh => idle_withRoots.mpr (hidle h hh)
    rwa [List.length_reverse, List.length_nil, Nat.add_zero] at hlt

/-- A machine on which a slot was emptied. -/
def emptied (m : Machine) (i : ℕ) : Machine :=
  { m with heap := { m.heap with slots := m.heap.slots.setIfInBounds i none, live := m.heap.live - 1 } }

theorem regular_emptied (hm : m.heap.Regular) (i : ℕ) : (m.emptied i).heap.Regular := by
  have hcapacity : (m.emptied i).heap.capacity = m.heap.capacity := Array.size_setIfInBounds
  constructor
  · rw [Heap.Unmarked, hcapacity]
    exact hm.unmarked
  · rw [hcapacity]
    exact hm.capacity_le

/-- Of these values one occurs twice, one names no slot and one names the slot that the first pair is
placed in. That pair fills the table, so there is a collection before the second. -/
theorem makeList_lists_emptied : ((crammed []).emptied 200).heap.Regular ∧
    ((crammed []).emptied 200).object? .nil = some .nil ∧
    ∃ m', makeList [.ofSlot 3, .ofSlot 200, .ofSlot 3, .ofSlot 999] ((crammed []).emptied 200) =
        .ok (.ofSlot 203) m' ∧
      Lists [.ofSlot 3, .ofSlot 200, .ofSlot 3, .ofSlot 999] ((crammed []).emptied 200) (.ofSlot 203) m' := by
  have hm : ((crammed []).emptied 200).heap.Regular :=
    regular_emptied (whole_crammed (List.forall_mem_nil _)).regular 200
  have hnil : ((crammed []).emptied 200).object? .nil = some .nil := by decide +kernel
  have hrun : makeList [.ofSlot 3, .ofSlot 200, .ofSlot 3, .ofSlot 999] ((crammed []).emptied 200) =
      .ok (.ofSlot 203) (after (makeList [.ofSlot 3, .ofSlot 200, .ofSlot 3, .ofSlot 999]) _) :=
    run_eq_of_run' (by decide +kernel)
  refine ⟨hm, hnil, _, hrun, ?_⟩
  rcases (makeList_lists hm hnil _).2 with ⟨list, m', hlist, hlists⟩ | ⟨m', herror, -⟩
  · cases hrun.symm.trans hlist
    exact hlists
  · cases hrun.symm.trans herror

end Machine

end PushLisp
