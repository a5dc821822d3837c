import PushLisp.Proofs.Elementary
import PushLisp.Proofs.LexicalScope

/-!
# Programs without raw access are confined

Without raw access, nothing a program does changes the words of the state block that were fixed when the
machine was set up, and nothing gives it access to raw memory. Objects are made and reclaimed but not
overwritten, with one exception: poking a string overwrites a byte within it. A run leads through a sequence
of machines from each of which there is a single change to the next, so it is enough to say of the single
changes what they overwrite.

## Main definitions

* `Machine.Confined`: what holds of every machine in such a sequence.
* `Machine.Change`: what a single change may do to objects.
* `Machine.Course`: the machines that an operation leads through.

## Main statements

* `Machine.compositional_follows`: what operations overwrite, from what single changes do.
* `Machine.confined_carryOut`: operations on a machine that was set up.
-/
namespace PushLisp

/-- A byte within a string was overwritten. -/
inductive Object.Overwritten : Object → Object → Prop
  | byte {bytes : Array UInt8} {offset : ℕ} (hoffset : offset < bytes.size) (value : UInt8) :
      Overwritten (.string (.owned bytes)) (.string (.owned (bytes.set offset value)))

/-- The primitives with raw access are those that can be withheld. -/
theorem Builtin.isRaw_iff (b : Builtin) : b.isRaw = true ↔ b ∈ Primitive.lowlevel.map Primitive.action := by
  cases b <;> decide

namespace Machine

variable {α β : Type} {m m' n : Machine} {h : Handle} {r : Registers}

/-- The words that were fixed have their values, nothing is a primitive with raw access, and no string looks
into memory. -/
structure Confined (r : Registers) (m : Machine) : Prop where
  constants_eq : m.registers.constants = r.constants
  slots_eq : m.registers.slots = r.slots
  capacity_eq : m.registers.capacity = r.capacity
  primitive : ∀ {h p}, m.object? h = some (.primitive p) →
    p.action ∉ Primitive.lowlevel.map Primitive.action
  string : ∀ {h address length}, m.object? h ≠ some (.string (.view address length))

theorem Confined.plain {o : Object} (hm : m.Confined r) (ho : m.object? h = some o) : o.Plain := by
  cases o with
  | primitive p =>
    have hraw := hm.primitive ho
    rw [← Builtin.isRaw_iff, Bool.not_eq_true] at hraw
    exact hraw
  | string buffer =>
    cases buffer with
    | owned bytes => trivial
    | view address length => exact absurd ho hm.string
  | _ => trivial

/-- A machine is confined if its fixed words are and nothing on it has raw access. -/
theorem confined_of_plain (hconstants : m.registers.constants = r.constants)
    (hslots : m.registers.slots = r.slots) (hcapacity : m.registers.capacity = r.capacity)
    (hplain : ∀ {h o}, m.object? h = some o → o.Plain) : m.Confined r := by
  refine ⟨hconstants, hslots, hcapacity, fun hp => ?_, fun hview => hplain hview⟩
  rw [← Builtin.isRaw_iff, Bool.not_eq_true]
  exact hplain hp

/-! ## Changes -/

/-- A single change: what stays in its slot stays as it is, but for a byte of a string, and only where
`Poked` is true of the machine that results. -/
def Change (Poked : Machine → Prop) (m m' : Machine) : Prop :=
  ∀ h o o', m.object? h = some o → m'.object? h = some o' → o' = o ∨ o.Overwritten o' ∧ Poked m'

theorem change_of_heap_eq {Poked : Machine → Prop} (hheap : m'.heap = m.heap) : Change Poked m m' := by
  intro h o o' ho ho'
  rw [object?, hheap] at ho'
  exact .inl (Option.some_inj.mp (ho'.symm.trans ho))

theorem Confined.congr (hm : m.Confined r) (hheap : m'.heap = m.heap)
    (hconstants : m'.registers.constants = m.registers.constants)
    (hslots : m'.registers.slots = m.registers.slots)
    (hcapacity : m'.registers.capacity = m.registers.capacity) : m'.Confined r := by
  refine confined_of_plain (hconstants.trans hm.constants_eq) (hslots.trans hm.slots_eq)
    (hcapacity.trans hm.capacity_eq) fun ho => ?_
  rw [object?, hheap] at ho
  exact hm.plain ho

/-! ## Courses -/

/-- One step after another. -/
inductive Path (R : Machine → Machine → Prop) : Machine → List Machine → Machine → Prop
  | nil (m : Machine) : Path R m [] m
  | cons {m n m' : Machine} {states : List Machine} : R m n → Path R n states m' → Path R m (n :: states) m'

namespace Path

variable {R R' : Machine → Machine → Prop} {states states' : List Machine}

theorem append (hpath : Path R m states n) (hpath' : Path R n states' m') :
    Path R m (states ++ states') m' := by
  induction hpath with
  | nil => exact hpath'
  | cons hstep _ ih => exact .cons hstep (ih hpath')

theorem mono (hsub : ∀ {a b}, R a b → R' a b) (hpath : Path R m states m') : Path R' m states m' := by
  induction hpath with
  | nil => exact .nil _
  | cons hstep _ ih => exact .cons (hsub hstep) ih

theorem last_mem (hpath : Path R m states m') : m' ∈ m :: states := by
  induction hpath with
  | nil => exact List.mem_cons_self
  | cons _ _ ih => exact List.mem_cons_of_mem _ ih

theorem step_of_mem (hpath : Path R m states m') (hn : n ∈ states) : ∃ a, R a n := by
  induction hpath with
  | nil => cases hn
  | cons hstep _ ih =>
    rcases List.mem_cons.mp hn with rfl | hn
    · exact ⟨_, hstep⟩
    · exact ih hn

end Path

/-- The machines that an operation leads through after the one it starts on, from change to change. -/
structure Course (act : Run α) (m : Machine) (states : List Machine) : Prop where
  path : Path (fun before n => act.passes m ⟨.changes before, n⟩) m states (after act m)
  moments : ∀ t, act.passes m t → t.machine ∈ m :: states

variable {P : Moment → Prop} {Poked : Machine → Prop}

/-- An operation whose machines are confined, and whose changes overwrite nothing but strings. -/
structure Tracked (r : Registers) (Poked : Machine → Prop) (act : Run α) (m : Machine) : Prop where
  course : ∃ states, Course act m states
  moments : ∀ t, act.passes m t → t.machine.Confined r
  changes : ∀ before n, act.passes m ⟨.changes before, n⟩ → Change Poked before n

theorem Tracked.after {act : Run α} (hact : Tracked r Poked act m) (hm : m.Confined r) :
    (after act m).Confined r := by
  obtain ⟨states, hcourse⟩ := hact.course
  rcases List.mem_cons.mp hcourse.path.last_mem with heq | hmem
  · rwa [heq]
  · obtain ⟨before, hchange⟩ := hcourse.path.step_of_mem hmem
    exact hact.moments _ hchange

/-- If `P` is true of all moments that it passes, an operation on a confined machine is tracked. -/
def Follows (P : Moment → Prop) (r : Registers) (Poked : Machine → Prop) (act : Run α) (m : Machine) :
    Prop :=
  (∀ t, act.passes m t → P t) → m.Confined r → Tracked r Poked act m

theorem Follows.bind {x : Run α} {f : α → Run β} (hx : Follows P r Poked x m)
    (hf : ∀ {a m'}, x m = .ok a m' → Follows P r Poked (f a) m') : Follows P r Poked (x >>= f) m := by
  intro hP hm
  have hfirst := hx (fun t ht => hP t (.inl ht)) hm
  obtain ⟨states, hcourse⟩ := hfirst.course
  cases hrun : x.run m with
  | error reason n =>
    have hpasses : ∀ {t}, (x >>= f).passes m t ↔ x.passes m t := Run.passes_bind_of_error hrun
    refine ⟨⟨states, ?_, fun t ht => hcourse.moments t (hpasses.mp ht)⟩,
      fun t ht => hfirst.moments t (hpasses.mp ht), fun a b ht => hfirst.changes a b (hpasses.mp ht)⟩
    rw [after_bind_of_error hrun, ← after_of_error hrun]
    exact hcourse.path.mono hpasses.mpr
  | ok a n =>
    have hpasses : ∀ {t}, (x >>= f).passes m t ↔ x.passes m t ∨ (f a).passes n t :=
      Run.passes_bind_of_ok hrun
    have hpath := hcourse.path
    have hn := hfirst.after hm
    rw [after_of_ok hrun] at hpath hn
    have hsecond := hf hrun (fun t ht => hP t (hpasses.mpr (.inr ht))) hn
    obtain ⟨states', hcourse'⟩ := hsecond.course
    refine ⟨⟨states ++ states', ?_, fun t ht => ?_⟩, fun t ht => ?_, fun before k ht => ?_⟩
    · rw [after_bind_of_ok hrun]
      refine (hpath.mono fun ht => ?_).append (hcourse'.path.mono fun ht => ?_)
      · exact hpasses.mpr (.inl ht)
      · exact hpasses.mpr (.inr ht)
    · rw [← List.cons_append]
      rcases hpasses.mp ht with ht | ht
      · exact List.mem_append_left _ (hcourse.moments t ht)
      · rcases List.mem_cons.mp (hcourse'.moments t ht) with heq | hmem
        · rw [heq]
          exact List.mem_append_left _ hpath.last_mem
        · exact List.mem_append_right _ hmem
    · exact (hpasses.mp ht).elim (hfirst.moments t) (hsecond.moments t)
    · exact (hpasses.mp ht).elim (hfirst.changes before k) (hsecond.changes before k)

/-- An operation that changes nothing. -/
theorem follows_of_still {act : Run α} (hafter : after act m = m)
    (hpasses : ∀ t, act.passes m t → t.machine = m ∧ t.step.isChange = false) :
    Follows P r Poked act m := by
  intro _ hm
  refine ⟨⟨[], ?_, fun t ht => ?_⟩, fun t ht => ?_, fun before n ht => ?_⟩
  · rw [hafter]
    exact .nil m
  · rw [(hpasses t ht).1]
    exact List.mem_cons_self
  · rwa [(hpasses t ht).1]
  · cases (hpasses _ ht).2

/-- An operation that makes one change. -/
theorem follows_of_change {act : Run α} (hafter : m.Confined r → (after act m).Confined r)
    (hchange : m.Confined r → Change Poked m (after act m))
    (hpasses : ∀ t, act.passes m t →
      t = ⟨.changes m, after act m⟩ ∨ t.machine = m ∧ t.step.isChange = false)
    (hreal : act.passes m ⟨.changes m, after act m⟩) : Follows P r Poked act m := by
  intro _ hm
  refine ⟨⟨[after act m], .cons hreal (.nil _), fun t ht => ?_⟩, fun t ht => ?_, fun before n ht => ?_⟩
  · rcases hpasses t ht with rfl | ⟨heq, -⟩
    · exact List.mem_cons_of_mem _ List.mem_cons_self
    · rw [heq]
      exact List.mem_cons_self
  · rcases hpasses t ht with rfl | ⟨heq, -⟩
    · exact hafter hm
    · rwa [heq]
  · rcases hpasses _ ht with heq | ⟨-, hstep⟩
    · cases heq
      exact hchange hm
    · cases hstep

/-- An operation that leaves the heap and the fixed words alone. -/
theorem follows_of_heap_eq {act : Run α} (hheap : (after act m).heap = m.heap)
    (hconstants : (after act m).registers.constants = m.registers.constants)
    (hslots : (after act m).registers.slots = m.registers.slots)
    (hcapacity : (after act m).registers.capacity = m.registers.capacity)
    (hpasses : ∀ t, act.passes m t ↔ t = ⟨.changes m, after act m⟩) : Follows P r Poked act m :=
  follows_of_change (fun hm => hm.congr hheap hconstants hslots hcapacity)
    (fun _ => change_of_heap_eq hheap) (fun t ht => .inl ((hpasses t).mp ht)) ((hpasses _).mpr rfl)

theorem Follows.keepingRoots {act : Run α} (hact : Follows P r Poked act m) :
    Follows P r Poked (keepingRoots act) m := by
  intro hP hm
  have htracked := hact (fun t ht => hP t (.inl ht)) hm
  obtain ⟨states, hcourse⟩ := htracked.course
  have hlast := htracked.after hm
  refine ⟨⟨states ++ [{ after act m with shadow := m.shadow }], ?_, ?_⟩, ?_, ?_⟩
  · rw [after_keepingRoots]
    exact (hcourse.path.mono .inl).append (.cons (.inr (.inr rfl)) (.nil _))
  · rw [← List.cons_append]
    rintro t (ht | rfl | rfl)
    · exact List.mem_append_left _ (hcourse.moments t ht)
    · exact List.mem_append_left _ hcourse.path.last_mem
    · exact List.mem_append_right _ List.mem_cons_self
  · rintro t (ht | rfl | rfl)
    · exact htracked.moments t ht
    · exact hlast
    · exact hlast.congr rfl rfl rfl rfl
  · rintro before n (ht | ht | ht)
    · exact htracked.changes before n ht
    · cases ht
    · cases ht
      exact change_of_heap_eq rfl

/-! ## The parts of evaluation -/

theorem solitary_follows : Solitary (Regardless (Follows P r Poked)) where
  bind := Follows.bind
  get {_ _ m f} hf := by
    intro hP hm
    have hpasses := Run.passes_get_bind f m
    rw [hpasses] at hP
    obtain ⟨⟨states, hcourse⟩, hmoments, hchanges⟩ := hf hP hm
    refine ⟨⟨states, ?_, ?_⟩, ?_, ?_⟩
    · rw [hpasses]
      exact hcourse.path
    · rw [hpasses]
      exact hcourse.moments
    · rwa [hpasses]
    · rwa [hpasses]
  still := follows_of_still
  change hheap hregisters _ _ hpasses := by
    refine follows_of_heap_eq hheap ?_ ?_ ?_ hpasses
    · rw [hregisters]
    · rw [hregisters]
    · rw [hregisters]
  modifyRegisters hconstants _ _ hslots hcapacity :=
    follows_of_heap_eq rfl hconstants hslots hcapacity fun _ => Iff.rfl
  keepingRoots := Follows.keepingRoots

/-- An object is placed where there was none. -/
theorem follows_tryAllocate {o : Object} (ho : o.Plain) : Follows P r Poked (tryAllocate o) m := by
  cases hfree : m.heap.findFree? with
  | none =>
    have hafter : after (tryAllocate o) m = m := after_of_ok (run_tryAllocate_of_full hfree)
    refine follows_of_still hafter ?_
    rintro t ⟨i, hi, -⟩
    simp [hfree] at hi
  | some i =>
    have hafter : after (tryAllocate o) m = { m with heap := m.heap.place i o } :=
      after_of_ok (run_tryAllocate_of_free hfree)
    refine follows_of_change ?_ ?_ ?_ ?_
    · intro hm
      rw [hafter]
      refine confined_of_plain hm.constants_eq hm.slots_eq hm.capacity_eq fun {k o'} ho' => ?_
      rcases Heap.get?_of_place hfree ho' with rfl | hold
      · exact ho
      · exact hm.plain hold
    · rw [hafter]
      intro _ k o₁ o₂ ho₁ ho₂
      have hk : i ≠ k.slot := by
        rintro rfl
        cases (Heap.slot?_of_findFree? hfree).2.symm.trans ho₁
      rw [object?, Heap.get?, Heap.slot?_place_ne _ _ hk] at ho₂
      exact .inl (Option.some_inj.mp (ho₂.symm.trans ho₁))
    · rintro t ⟨j, hj, rfl | rfl⟩
      · exact .inr ⟨rfl, rfl⟩
      · cases hfree.symm.trans hj
        rw [hafter]
        exact .inl rfl
    · rw [hafter]
      exact ⟨i, hfree, .inr rfl⟩

theorem follows_reclaim : Follows P r Poked reclaim m := by
  refine follows_of_change (fun hm => ?_) (fun _ => ?_) (fun _ ht => .inl ht) rfl
  · exact confined_of_plain hm.constants_eq hm.slots_eq hm.capacity_eq fun ho =>
      hm.plain (Heap.get?_of_collect ho)
  · intro k o o' ho ho'
    exact .inl (Option.some_inj.mp ((Heap.get?_of_collect ho').symm.trans ho))

theorem elementary_follows : Elementary True (Regardless (Follows P r Poked)) where
  toSequential := solitary_follows.sequential
  tryAllocate ho := follows_tryAllocate (ho trivial)
  reclaim := follows_reclaim
  redirect hconstants hslots hcapacity :=
    follows_of_heap_eq rfl hconstants hslots hcapacity fun _ => Iff.rfl
  look _ := solitary_follows.get
  scan _ := follows_of_heap_eq rfl rfl rfl rfl fun _ => Iff.rfl

/-! ## Overwriting strings -/

/-- A byte is stored in a string if the offset is within it. -/
theorem follows_setByte {bytes : Array UInt8} (hh : m.object? h = some (.string (.owned bytes))) (offset : ℕ)
    (value : UInt8) (hpoked : Poked (m.pokeBuffer h (.owned bytes) offset value)) :
    Follows P r Poked (set (m.pokeBuffer h (.owned bytes) offset value) : Run PUnit) m := by
  refine follows_of_change (fun hm => ?_) (fun _ k o o' ho ho' => ?_) (fun _ ht => .inl ht) rfl
  · refine confined_of_plain hm.constants_eq hm.slots_eq hm.capacity_eq fun ho => ?_
    rcases object?_of_putString hh ho with ⟨-, rfl⟩ | hold
    · trivial
    · exact hm.plain hold
  · rcases object?_of_putString hh ho' with ⟨rfl, rfl⟩ | hold
    · cases hh.symm.trans ho
      by_cases hoffset : offset < bytes.size
      · rw [Array.setIfInBounds, dif_pos hoffset]
        exact .inr ⟨.byte hoffset value, hpoked⟩
      · rw [Array.setIfInBounds, dif_neg hoffset]
        exact .inl rfl
    · exact .inl (Option.some_inj.mp (hold.symm.trans ho))

/-- What follows the first part of a sequence leads to where the whole leads to. -/
theorem Follows.bindTo {x : Run α} {f : α → Run β} (hx : Follows P r Poked x m)
    (hpoked : Poked (after (x >>= f) m))
    (hf : ∀ {a m'}, x m = .ok a m' → Poked (after (f a) m') → Follows P r Poked (f a) m') :
    Follows P r Poked (x >>= f) m :=
  hx.bind fun hrun => hf hrun (after_bind_of_ok hrun ▸ hpoked)

theorem follows_pokeString (hpoked : Poked (after pokeString m)) : Follows P r Poked pokeString m := by
  have R : Sequential (Regardless (Follows P r Poked)) := solitary_follows.sequential
  have hnumber : ∀ {m}, Follows P r Poked popNumber m := fun {m} =>
    (R.popNumber : Regardless _ Int64 [] popNumber m)
  refine hnumber.bindTo hpoked fun {value _} _ hpoked => ?_
  refine hnumber.bindTo hpoked fun {offset _} _ hpoked => ?_
  refine Follows.bindTo (R.pop : Regardless _ Handle [] pop _) hpoked fun {string _} _ hpoked => ?_
  refine Follows.bindTo (R.observe rfl : Regardless _ Unit [] (observe _) _) hpoked fun {_ n} _ hpoked => ?_
  refine (solitary_follows.get ?_ : Regardless (Follows P r Poked) Unit [] _ n)
  rw [after_get_bind] at hpoked
  split
  · rename_i buffer hstring
    simp only [hstring] at hpoked
    split
    · rename_i k hk
      simp only [hk] at hpoked
      -- without raw access the string owns its bytes
      intro hP hn
      cases buffer with
      | owned bytes => exact follows_setByte hstring k _ hpoked hP hn
      | view address length => exact absurd hstring hn.string
    · exact R.pure _
  · exact R.stop _

/-- Where `P` tells all pokes, everything has a course on which strings are overwritten by pokes alone. -/
theorem compositional_follows
    (hpokes : ∀ {env m}, P ⟨.performs .stringPoke env, m⟩ → Poked (after (effect .stringPoke env) m)) :
    Compositional True (Regardless (Follows P r Poked)) where
  toOperational := elementary_follows.operational solitary_follows.printValue
  poke {base m} _ env := by
    intro hP hm
    have hpoked := hpokes (hP ⟨.performs .stringPoke env, m⟩ (.inl rfl))
    have hafter : after (effect .stringPoke env) m = after pokeString m := by
      cases hrun : pokeString.run m with
      | ok a n =>
        rw [after_of_ok hrun]
        exact after_bind_of_ok hrun
      | error reason n =>
        rw [after_of_error hrun]
        exact after_bind_of_error hrun
    have R : Sequential (Regardless (Follows P r Poked)) := solitary_follows.sequential
    have heffect : Follows P r Poked (effect .stringPoke env) m :=
      (follows_pokeString (hafter ▸ hpoked)).bind fun _ => (R.pure env : Regardless _ Handle base _ _)
    refine Follows.bind (R.observe rfl : Regardless _ Unit base (observe _) m) (fun hrun => ?_) hP hm
    cases hrun
    exact heffect
  raw _ hp hraw _ _ hm := absurd (hraw.symm.trans (hm.plain hp)) (by simp)
  attempt {_ _ m act} hact := by
    intro hP hm
    obtain ⟨⟨states, hcourse⟩, hmoments, hchanges⟩ := hact hP hm
    refine ⟨⟨states, ?_, hcourse.moments⟩, hmoments, hchanges⟩
    rw [after_attempt]
    exact hcourse.path
  passOn := solitary_follows.passOn

/-! ## Operations on a machine that was set up -/

/-- A machine that a poke leaves, begun at a moment of a run. -/
def PokedIn (act : Run α) (m n : Machine) : Prop :=
  ∃ env m₁, act.passes m ⟨.performs .stringPoke env, m₁⟩ ∧ n = after (effect .stringPoke env) m₁

/-- Whatever is carried out without raw access, every machine on the way is confined, and no change
overwrites anything, except that a poke may store a byte within a string. -/
theorem confined_carryOut (slots : UInt64) (source : Bytes) (sink : Sink) (tracing : Bool)
    (platform : Platform) (ops : List Operation) :
    ∃ m, prepare false (blank slots.toNat source sink tracing platform) = .ok () m ∧
      (∃ states, Course (carryOut ops) m states ∧ ∀ n ∈ m :: states, n.Confined m.registers) ∧
      ∀ before n, (carryOut ops).passes m ⟨.changes before, n⟩ →
        Change (PokedIn (carryOut ops) m) before n := by
  obtain ⟨m, hrun, horderly, -⟩ := exists_orderly slots source sink tracing platform
  have hm : m.Confined m.registers := confined_of_plain rfl rfl rfl (horderly.ready.plain trivial)
  have R : Compositional True (Regardless (Follows ((carryOut ops).passes m) m.registers
      (PokedIn (carryOut ops) m))) :=
    compositional_follows fun hpoke => ⟨_, _, hpoke, rfl⟩
  have hfollows : Regardless (Follows _ m.registers (PokedIn (carryOut ops) m)) Unit [] (carryOut ops) m :=
    R.carryOut ops fun _ _ _ => trivial
  obtain ⟨⟨states, hcourse⟩, hmoments, hchanges⟩ := hfollows (fun _ => id) hm
  refine ⟨m, hrun, ⟨states, hcourse, List.forall_mem_cons.mpr ⟨hm, fun n hn => ?_⟩⟩, hchanges⟩
  obtain ⟨before, hchange⟩ := hcourse.path.step_of_mem hn
  exact hmoments _ hchange

end Machine

end PushLisp
