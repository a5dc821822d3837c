import PushLisp.Proofs.Allocation
import PushLisp.Proofs.Simulation.Operations

/-!
# Setting up a machine

Even the smallest table has room for the atoms and primitives that a machine starts with, so nothing is
collected while it is set up. This matters because the atom of a primitive is not held on its own while
the primitive is bound. Under a simulation whose runs do not collect, setting up agrees with itself.

## Main definitions

* `Heap.room`: the number of empty slots.
* `Machine.Spends`: an operation that needs no more than a number of slots.
* `Machine.Rationed`: the properties that pass from the parts of setting up to the whole.

## Main statements

* `Machine.Rationed.prepare`: what setting up needs.
* `Machine.not_collects_prepare`: a new machine has more.
* `Simulation.agree_prepare`: setting up under a simulation.
-/
namespace PushLisp

namespace Heap

/-- The number of empty slots. -/
def room (heap : Heap) : ℕ := heap.capacity - heap.occupiedSlots.card

theorem card_occupiedSlots_le (heap : Heap) : heap.occupiedSlots.card ≤ heap.capacity := by
  calc
    heap.occupiedSlots.card ≤ (Finset.range heap.capacity).card := Finset.card_filter_le _ _
    _ = heap.capacity := Finset.card_range _

/-- Where there is room, an empty slot is found. -/
theorem exists_findFree? {heap : Heap} (h : 0 < heap.room) : ∃ i, heap.findFree? = some i := by
  cases hfind : heap.findFree? with
  | some i => exact ⟨i, rfl⟩
  | none =>
    have hall : heap.occupiedSlots = Finset.range heap.capacity := by
      ext i
      rw [Finset.mem_range, mem_occupiedSlots]
      constructor
      · intro hi
        obtain ⟨o, ho⟩ := Option.isSome_iff_exists.mp hi
        exact lt_capacity_of_slot? ho
      · exact isSome_slot?_of_findFree? hfind
    rw [room, hall, Finset.card_range, Nat.sub_self] at h
    omega

/-- Placing an object takes up one slot. -/
theorem room_place {heap : Heap} {i : ℕ} (hfree : heap.findFree? = some i) (o : Object) :
    (heap.place i o).room + 1 = heap.room := by
  obtain ⟨hi, hnone⟩ := slot?_of_findFree? hfree
  have hnew : i ∉ heap.occupiedSlots := by simp [mem_occupiedSlots, hnone]
  have hplaced : (heap.place i o).occupiedSlots = insert i heap.occupiedSlots := by
    ext j
    rw [Finset.mem_insert, mem_occupiedSlots, mem_occupiedSlots]
    by_cases hij : j = i
    · simp [hij, slot?_place_self heap i o hi]
    · simp [hij, slot?_place_ne heap o (Ne.symm hij)]
  have hle := card_occupiedSlots_le (heap.place i o)
  rw [hplaced, Finset.card_insert_of_notMem hnew, capacity_place] at hle
  rw [room, room, hplaced, Finset.card_insert_of_notMem hnew, capacity_place]
  omega

/-- A new table has room for all but one of its slots. -/
theorem minSlots_le_room_new (n : ℕ) (platform : Platform) : minSlots ≤ (new n platform).room + 1 := by
  rw [room, occupiedSlots_new, capacity_new, Finset.card_singleton]
  omega

end Heap

namespace Machine

variable {α β : Type} {k l : ℕ}

/-- With room for `k` objects an operation does not collect. It takes up no more slots than that, and
lets go of the roots it held. -/
structure Spends (k : ℕ) (act : Run α) : Prop where
  calm : ∀ {m n}, k ≤ m.heap.room → ¬ act.passes m ⟨.collects, n⟩
  leaves : ∀ {m a m'}, k ≤ m.heap.room → act m = .ok a m' →
    m.heap.room ≤ m'.heap.room + k ∧ m'.shadow = m.shadow

/-- Operations that touch neither objects nor held roots. -/
theorem spends_zero {act : Run α} (hcalm : ∀ m n, ¬ act.passes m ⟨.collects, n⟩)
    (hsame : ∀ m a m', act m = .ok a m' → m'.heap = m.heap ∧ m'.shadow = m.shadow) :
    Spends 0 act where
  calm _ := hcalm _ _
  leaves {m a m'} _ h := by
    obtain ⟨hheap, hshadow⟩ := hsame m a m' h
    exact ⟨by rw [hheap, Nat.add_zero], hshadow⟩

theorem Spends.mono {act : Run α} (h : Spends k act) (hle : k ≤ l) : Spends l act where
  calm hl := h.calm (hle.trans hl)
  leaves hl hrun := by
    obtain ⟨hroom, hshadow⟩ := h.leaves (hle.trans hl) hrun
    exact ⟨by omega, hshadow⟩

theorem spends_pure (a : α) : Spends 0 (pure a : Run α) := by
  refine spends_zero (fun _ _ => Run.not_passes_pure _ _ _) ?_
  intro m b m' h
  cases h
  exact ⟨rfl, rfl⟩

/-- One operation after another needs the sum of what they need. -/
theorem Spends.bind {x : Run α} {f : α → Run β} (hx : Spends k x) (hf : ∀ a, Spends l (f a)) :
    Spends (k + l) (x >>= f) where
  calm {m n} hroom hpass := by
    rcases hpass with hpass | ⟨a, m', hrun, hpass⟩
    · exact hx.calm (by omega) hpass
    · have := (hx.leaves (by omega) hrun).1
      exact (hf a).calm (by omega) hpass
  leaves {m b m''} hroom hrun := by
    cases hx' : x.run m with
    | ok a m' =>
      rw [Run.run_bind_of_ok hx'] at hrun
      obtain ⟨hroom', hshadow'⟩ := hx.leaves (by omega) hx'
      obtain ⟨hroom'', hshadow''⟩ := (hf a).leaves (by omega) hrun
      exact ⟨by omega, hshadow''.trans hshadow'⟩
    | error reason m' =>
      rw [Run.run_bind_of_error hx'] at hrun
      cases hrun

theorem spends_get : Spends 0 (get : Run Machine) := by
  refine spends_zero (fun _ _ h => h) ?_
  intro m b m' h
  cases h
  exact ⟨rfl, rfl⟩

theorem spends_modify {g : Machine → Machine} (hheap : ∀ m, (g m).heap = m.heap)
    (hshadow : ∀ m, (g m).shadow = m.shadow) : Spends 0 (modify g : Run PUnit) := by
  refine spends_zero (fun m n h => ?_) ?_
  · cases h
  · intro m b m' h
    cases h
    exact ⟨hheap m, hshadow m⟩

theorem spends_note (e : Event) : Spends 0 (note e) := by
  refine spends_modify (fun m => ?_) (fun m => ?_) <;> split <;> rfl

theorem spends_modifyRegisters (f : Registers → Registers) : Spends 0 (modifyRegisters f) :=
  spends_modify (fun _ => rfl) fun _ => rfl

theorem spends_getRegisters : Spends 0 getRegisters := spends_get.bind fun _ => spends_pure _

theorem spends_ask (q : Machine → Except Stop α) : Spends 0 (ask q) := by
  refine spends_zero ?_ ?_
  · rintro m n ⟨_, _, h⟩
    cases h
  · intro m a m' h
    cases hq : q m with
    | ok b =>
      simp only [ask, hq] at h
      cases h
      exact ⟨rfl, rfl⟩
    | error reason =>
      simp only [ask, hq] at h
      cases h

theorem spends_allocate (o : Object) : Spends 1 (allocate o) where
  calm {m n} hroom hpass := by
    obtain ⟨i, hfree⟩ := Heap.exists_findFree? hroom
    rcases (passes_allocate_of_free hfree _).mp hpass with h | h <;> cases h
  leaves {m a m'} hroom hrun := by
    obtain ⟨i, hfree⟩ := Heap.exists_findFree? hroom
    rw [run_allocate_of_free hfree] at hrun
    cases hrun
    exact ⟨(Heap.room_place hfree o).ge, rfl⟩

theorem Spends.withRoots {act : Run α} (h : Spends k act) (hs : List Handle) :
    Spends k (withRoots hs act) where
  calm {m n} hroom hpass := by
    have hroom : k ≤ Heap.room { m with shadow := hs ++ m.shadow }.heap := hroom
    rcases hpass with hpass | hpass | hpass
    · rcases (Run.passes_bind_of_ok rfl).mp hpass with hpass | hpass
      · cases hpass
      · exact h.calm hroom hpass
    · cases hpass
    · cases hpass
  leaves {m a m'} hroom hrun := by
    have hroom : k ≤ Heap.room { m with shadow := hs ++ m.shadow }.heap := hroom
    have hbody : (root hs >>= fun _ => act).run m = act { m with shadow := hs ++ m.shadow } := rfl
    simp only [Machine.withRoots, keepingRoots, hbody] at hrun
    cases hact : act.run { m with shadow := hs ++ m.shadow } with
    | ok b n =>
      rw [hact] at hrun
      cases hrun
      exact ⟨(h.leaves hroom hact).1, rfl⟩
    | error reason n =>
      rw [hact] at hrun
      cases hrun

theorem spends_intern (spelling : Bytes) : Spends 2 (intern spelling) := by
  refine (spends_ask _).bind (l := 2) fun found => ?_
  cases found with
  | some atom => exact (spends_pure atom).mono (by omega)
  | none =>
    refine (spends_allocate _).bind (l := 1) fun atom => spends_getRegisters.bind (l := 1) fun r => ?_
    refine (spends_allocate _).bind (l := 0) fun registry => ?_
    exact (spends_modifyRegisters _).bind fun _ => spends_pure atom

/-! ## The parts of setting up -/

/-- A property of operations and the slots they need, which passes from the parts of setting up to the
whole. A register other than the registry is set without regard to the table. -/
structure Rationed (J : (α : Type) → ℕ → Run α → Prop) : Prop where
  pure : ∀ {α : Type} (a : α), J α 0 (Pure.pure a)
  bind : ∀ {α β : Type} {k l : ℕ} {x : Run α} {f : α → Run β}, J α k x → (∀ a, J β l (f a)) →
    J β (k + l) (x >>= f)
  withRoots : ∀ {α : Type} {k : ℕ} {act : Run α} (hs : List Handle), J α k act → J α k (withRoots hs act)
  allocate : ∀ o, J Handle 1 (allocate o)
  intern : ∀ spelling, J Handle 2 (intern spelling)
  setRegister : ∀ {f : Registers → Registers}, (∀ r, (f r).registry = r.registry) →
    (∀ r a c, f { r with slots := a, capacity := c } = { f r with slots := a, capacity := c }) →
    J Unit 0 (modifyRegisters f)
  announce : J Unit 0 (get >>= fun m => note (.started m.heap.capacity))

namespace Rationed

variable {J : (α : Type) → ℕ → Run α → Prop} (R : Rationed J)
include R

theorem define (env key value : Handle) : J Handle 2 (define env key value) :=
  R.bind (k := 1) (l := 1) (R.withRoots [env] (R.allocate (.pair key value))) fun _ => R.allocate _

theorem definePrimitive (env : Handle) (p : Primitive) : J Handle 5 (definePrimitive env p) := by
  refine R.bind (k := 2) (l := 3) (R.intern (Bytes.ofString p.name)) fun key => ?_
  exact R.bind (k := 1) (l := 2) (R.withRoots [env] (R.allocate (.primitive p))) fun _ => R.define env key _

theorem definePrimitives (env : Handle) (ps : List Primitive) :
    J Handle (5 * ps.length) (definePrimitives env ps) := by
  induction ps generalizing env with
  | nil => exact R.pure env
  | cons p ps ih =>
    rw [List.length_cons, Nat.mul_add, Nat.add_comm]
    exact R.bind (R.definePrimitive env p) fun env' => ih env'

theorem internOwn : J Unit 8 internOwn := by
  refine R.bind (k := 2) (l := 6) (R.intern _) fun _ => ?_
  refine R.bind (k := 0) (l := 6) (R.setRegister (fun _ => rfl) fun _ _ _ => rfl) fun _ => ?_
  refine R.bind (k := 2) (l := 4) (R.intern _) fun _ => ?_
  refine R.bind (k := 0) (l := 4) (R.setRegister (fun _ => rfl) fun _ _ _ => rfl) fun _ => ?_
  refine R.bind (k := 2) (l := 2) (R.intern _) fun _ => ?_
  refine R.bind (k := 0) (l := 2) (R.setRegister (fun _ => rfl) fun _ _ _ => rfl) fun _ => ?_
  exact R.bind (k := 2) (l := 0) (R.intern _) fun _ => R.setRegister (fun _ => rfl) fun _ _ _ => rfl

/-- What setting up needs: two slots for each of four atoms and five for each primitive. -/
theorem prepare (lowlevel : Bool) :
    J Unit (8 + 5 * (Primitive.installed lowlevel).length) (prepare lowlevel) := by
  have henv : J Unit (5 * (Primitive.installed lowlevel).length + 0)
      (Machine.definePrimitives .nil (Primitive.installed lowlevel) >>= fun env =>
        modifyRegisters fun r => { r with env := env }) :=
    R.bind (R.definePrimitives .nil _) fun _ => R.setRegister (fun _ => rfl) fun _ _ _ => rfl
  have hall := R.bind R.announce fun _ => R.bind R.internOwn fun _ => henv
  rw [Nat.zero_add, Nat.add_zero, Run.bind_assoc] at hall
  exact hall

end Rationed

theorem rationed_spends : Rationed fun _ k act => Spends k act where
  pure := spends_pure
  bind := Spends.bind
  withRoots hs hact := hact.withRoots hs
  allocate := spends_allocate
  intern := spends_intern
  setRegister _ _ := spends_modifyRegisters _
  announce := spends_get.bind fun _ => spends_note _

variable {slots : ℕ} {source : Bytes} {sink : Sink} {tracing : Bool} {platform : Platform}

/-- A machine has room for what it starts with. -/
theorem need_le_room_blank (lowlevel : Bool) :
    8 + 5 * (Primitive.installed lowlevel).length ≤ (blank slots source sink tracing platform).heap.room := by
  have hroom := Heap.minSlots_le_room_new slots platform
  have hneed : 8 + 5 * (Primitive.installed lowlevel).length < Heap.minSlots := by cases lowlevel <;> decide
  have hheap : (blank slots source sink tracing platform).heap = Heap.new slots platform := rfl
  rw [hheap]
  omega

/-- Nothing is collected while a machine is set up. -/
theorem not_collects_prepare {lowlevel : Bool} (n : Machine) :
    ¬ (prepare lowlevel).passes (blank slots source sink tracing platform) ⟨.collects, n⟩ :=
  (rationed_spends.prepare lowlevel).calm (need_le_room_blank lowlevel)

/-- A machine that has been set up holds no roots. -/
theorem shadow_prepare {lowlevel : Bool} {m : Machine}
    (h : prepare lowlevel (blank slots source sink tracing platform) = .ok () m) : m.shadow = [] :=
  ((rationed_spends.prepare lowlevel).leaves (need_le_room_blank lowlevel) h).2

end Machine

namespace Simulation

open Machine

variable {S : Simulation} (L : S.Lawful) (hstays : ¬ S.moving) {Γ : Held} {w : S.World}
  {m₁ m₂ : Machine} {h₁ h₂ : Handle}
include L hstays

theorem agree_definePrimitive {p : Primitive} (hp : p.action.isRaw = false)
    (hrel : S.Rel Γ w m₁ m₂) (henv : S.handle w h₁ h₂) :
    S.AgreeOver Γ S.handle (definePrimitive h₁ p) m₁ (definePrimitive h₂ p) m₂ := by
  have hrel := hrel.count hstays henv
  refine AgreeIn.of_suffix (List.suffix_cons (h₁, h₂) Γ) ?_
  refine (L.intern _ hrel).bind fun {w k₁ k₂ _ _} hrel hkey => ?_
  have hrel := hrel.count hstays hkey
  refine AgreeIn.of_suffix (List.suffix_cons (k₁, k₂) _) ?_
  have henv : (h₁, h₂) ∈ (k₁, k₂) :: (h₁, h₂) :: Γ := by simp
  have hroot : ∀ p ∈ [(h₁, h₂)], S.handle w p.1 p.2 := by simpa using hrel.held _ henv
  have hplaced := agree_withRoots L [(h₁, h₂)] hrel hroot fun hrel =>
    L.allocate hrel (.primitive hp) nofun
  refine hplaced.bind fun hrel ⟨⟨hprimitive, _⟩, _⟩ => ?_
  refine (agree_define L hrel (hrel.held _ henv) (hrel.held _ List.mem_cons_self) hprimitive).imp ?_
  rintro _ _ _ _ _ _ rfl - henv
  exact ⟨List.suffix_append [_, _] Γ, henv⟩

theorem agree_definePrimitives {ps : List Primitive} (hps : ∀ p ∈ ps, p.action.isRaw = false)
    (hrel : S.Rel Γ w m₁ m₂) (henv : S.handle w h₁ h₂) :
    S.AgreeOver Γ S.handle (definePrimitives h₁ ps) m₁ (definePrimitives h₂ ps) m₂ := by
  induction ps generalizing Γ w m₁ m₂ h₁ h₂ with
  | nil => exact agree_pure hrel (List.suffix_refl Γ) henv
  | cons p ps ih =>
    refine (agree_definePrimitive L hstays (hps p List.mem_cons_self) hrel henv).bind ?_
    intro Γ' w' e₁ e₂ n₁ n₂ hsuf hrel henv
    refine ((ih (fun q hq => hps q (List.mem_cons_of_mem p hq)) hrel henv).imp ?_).of_suffix hsuf
    intro Γ'' _ _ _ _ _ hsuf' _ henv
    exact ⟨hsuf.trans hsuf', henv⟩

omit hstays in
theorem agree_internOwn (hrel : S.Rel Γ w m₁ m₂) :
    S.Agree Γ S.anything internOwn m₁ internOwn m₂ := by
  refine (L.intern _ hrel).bind fun hrel hatom => ?_
  refine (agree_modifyRegisters L hrel ?_ ⟨rfl, rfl, rfl, rfl, rfl⟩ ⟨rfl, rfl, rfl, rfl, rfl⟩).bind
    fun hrel _ => ?_
  · exact { L.registers hrel.core with atomTrue := hatom }
  refine (L.intern _ hrel).bind fun hrel hatom => ?_
  refine (agree_modifyRegisters L hrel ?_ ⟨rfl, rfl, rfl, rfl, rfl⟩ ⟨rfl, rfl, rfl, rfl, rfl⟩).bind
    fun hrel _ => ?_
  · exact { L.registers hrel.core with atomQuote := hatom }
  refine (L.intern _ hrel).bind fun hrel hatom => ?_
  refine (agree_modifyRegisters L hrel ?_ ⟨rfl, rfl, rfl, rfl, rfl⟩ ⟨rfl, rfl, rfl, rfl, rfl⟩).bind
    fun hrel _ => ?_
  · exact { L.registers hrel.core with atomPush := hatom }
  refine (L.intern _ hrel).bind fun hrel hatom => ?_
  refine (agree_modifyRegisters L hrel ?_ ⟨rfl, rfl, rfl, rfl, rfl⟩ ⟨rfl, rfl, rfl, rfl, rfl⟩).imp
    fun hΓ _ _ => ⟨hΓ, trivial⟩
  exact { L.registers hrel.core with atomPop := hatom }

/-- Setting up agrees with itself. -/
theorem agree_prepare (hrel : S.Rel Γ w m₁ m₂) :
    S.AgreeOver Γ S.anything (prepare false) m₁ (prepare false) m₂ := by
  refine agree_get ((agree_note L _ _ hrel).bind_still fun hrel _ => ?_)
  refine (agree_internOwn L hrel).bind fun hrel _ => ?_
  have hplain : ∀ p ∈ Primitive.installed false, p.action.isRaw = false := by decide
  refine (agree_definePrimitives L hstays hplain hrel (L.nil hrel.core)).bind ?_
  intro Γ' w' e₁ e₂ n₁ n₂ hsuf hrel henv
  refine ((agree_modifyRegisters L hrel ?_ ⟨rfl, rfl, rfl, rfl, rfl⟩ ⟨rfl, rfl, rfl, rfl, rfl⟩).imp
    ?_).of_suffix hsuf
  · exact { L.registers hrel.core with env := henv }
  · rintro _ _ _ _ _ _ rfl - -
    exact ⟨hsuf, trivial⟩

end Simulation

end PushLisp
