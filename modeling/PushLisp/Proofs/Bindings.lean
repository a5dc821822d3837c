import PushLisp.Proofs.Operands

/-!
# What a definition adds to an environment

Defining puts a binding in front of an environment. It makes two pairs, and either of them may be what the
table has no more room for. Nothing else need hold the environment then: it is held while the binding is
made, and the second pair leads to both. So looking up the new key gives the new value, and every other key
is found, or missed, as before.

A primitive is bound to the atom of its name, which may have to be made first. Nothing holds the environment
meanwhile. If it is not rooted, the atom is new and the table is full, then the environment may be lost.

## Main definitions

* `Heap.Ends`: a list that comes to an end.
* `Machine.Whole`: a machine on which nothing dangles.
* `Machine.crammed`: a full table that is mostly rubbish.

## Main statements

* `Machine.lookup_define`: looking up after a definition.
* `Machine.lookup_definePrimitive`: looking up after a primitive was bound to its name.
-/
namespace PushLisp

/-- A list comes to an end, which need not be the empty list. -/
def Heap.Ends (heap : Heap) (h : Handle) : Prop :=
  ∃ vs last, heap.Chain h vs last ∧ ∀ car cdr, heap.get? last ≠ some (.pair car cdr)

namespace Machine

variable {poking : Prop} {m m' : Machine} {env env' h k key value : Handle} {hs : List Handle} {name : Bytes}

/-! ## Machines on which nothing dangles -/

/-- A machine between operations on which nothing dangles. -/
structure Whole (m : Machine) : Prop where
  regular : m.heap.Regular
  object?_nil : m.object? .nil = some .nil
  noDangling : m.NoDangling

/-- What a live environment leads to stays if it is spared. -/
theorem Spares.kept (hspares : Spares hs m m') (hm : m.NoDangling) (henv : m.Live env) (hmem : env ∈ hs)
    (hh : m.heap.Reaches [env] h) : Kept False m m' h := by
  obtain ⟨o, ho⟩ := Option.isSome_iff_exists.mp (hm.live_of_reaches (by simpa using henv) hh)
  have hreach : m.heap.Reaches (.nil :: (hs ++ m.roots)) h := hh.mono (by simp [hmem])
  exact ⟨o, o, ho, hspares.object?_eq ho hreach, .refl o⟩

/-! ## Walking along an environment -/

theorem lookupFrom_ne_unfinished_of_chain {vs : List Handle} {last : Handle}
    (hchain : m.heap.Chain env vs last) (hlast : ∀ car cdr, m.object? last ≠ some (.pair car cdr)) :
    lookupFrom m k name (vs.length + 1) env ≠ .error .unfinished := by
  induction hchain with
  | @nil env =>
    rw [lookupFrom]
    rcases pair_cases m env with ⟨first, second, ho⟩ | ⟨hcar, -⟩
    · exact absurd ho (hlast first second)
    · by_cases hnil : env.isNil = true <;> simp [hnil, hcar, mismatch, bind, Except.bind]
  | @cons env binding rest last vs ho _ ih =>
    rw [lookupFrom, car_of_pair ho, cdr_of_pair ho]
    by_cases hnil : env.isNil = true
    · simp [hnil]
    simp only [hnil, Bool.false_eq_true, if_false, bind, Except.bind]
    cases hcar : car binding m with
    | error reason => exact fun hcut => car_ne_unfinished binding m (hcar.trans hcut)
    | ok found =>
      dsimp only
      by_cases hfound : found = k
      · rw [if_pos hfound]
        exact cdr_ne_unfinished binding m
      · rw [if_neg hfound]
        exact ih hlast

/-- Looking up a key in an environment that comes to an end does so too. -/
theorem lookup_ne_unfinished_of_ends (hends : m.heap.Ends env) : lookup env k m ≠ .error .unfinished := by
  obtain ⟨vs, last, hchain, hlast⟩ := hends
  cases hatom : m.atom? k with
  | none => simp [lookup, hatom, mismatch]
  | some name =>
    have hfinished : lookupFrom m k name (vs.length + 1) env ≠ .error .unfinished :=
      lookupFrom_ne_unfinished_of_chain hchain hlast
    have hsettled : lookupFrom m k name m.walkBound env = lookupFrom m k name (vs.length + 1) env :=
      settles_lookup m env k name _ hfinished
    simp only [lookup, hatom]
    rwa [hsettled]

/-- A key is looked up in the first binding, and then in the rest of the environment. -/
theorem lookup_of_pair {binding : Handle} (hnil : m.object? .nil = some .nil)
    (henv' : m.object? env' = some (.pair binding env))
    (hbinding : m.object? binding = some (.pair key value)) (hk : m.object? k = some (.atom name)) :
    lookup env' k m = if key = k then .ok value else lookup env k m := by
  have hatom : m.atom? k = some name := atom?_eq_some_iff.mpr hk
  have hbound : lookupFrom m k name (m.heap.capacity + 1) env = lookupFrom m k name m.walkBound env :=
    (walk_lookupFrom m k name).eq_of_capacity_lt env (Nat.lt_succ_self _) m.capacity_lt_walkBound
  simp only [lookup, hatom]
  rw [← hbound]
  exact lookupFrom_of_pair hnil henv' hbinding name (m.heap.capacity + 1)

/-- What a key has in an environment that was extended. -/
theorem Extends.lookup_eq (hextends : Extends env key value m env' m') (hnil : m.object? .nil = some .nil)
    (hk : m'.object? k = some (.atom name)) :
    lookup env' k m' = if key = k then .ok value else lookup env k m' := by
  obtain ⟨binding, hbinding, henv'⟩ := hextends.binding
  exact lookup_of_pair (hextends.spares.object?_eq hnil (.root (by simp))) henv' hbinding hk

/-! ## A full table -/

/-- The objects of the machine `crammed`. The registry in slot 2 has the atom in slot 1, and the
environment in slot 5 binds this atom to the number in slot 3. -/
def crammedObjects : List Object :=
  [.nil, .atom (Bytes.ofString "x"), .pair (.ofSlot 1) .nil, .number 5, .pair (.ofSlot 1) (.ofSlot 3),
    .pair (.ofSlot 4) .nil, .atom (Bytes.ofString "y")] ++ List.replicate 249 (.number 0)

/-- A machine without an empty slot. Only the registry is rooted, unless more is held. -/
def crammed (held : List Handle) : Machine :=
  let m := blank 256 [] {} false {}
  { m with
    heap := { m.heap with slots := (crammedObjects.map some).toArray, cursor := 255, live := 256 }
    registers := { m.registers with registry := .ofSlot 2 }
    shadow := held }

theorem length_crammedObjects : crammedObjects.length = 256 := by
  simp [crammedObjects, -List.reduceReplicate]

theorem capacity_crammed (held : List Handle) : (crammed held).heap.capacity = 256 := by
  simp [crammed, Heap.capacity, length_crammedObjects]

theorem slot?_crammed (held : List Handle) (i : ℕ) :
    (crammed held).heap.slot? i = crammedObjects[i]? := by
  by_cases hi : i < crammedObjects.length <;> simp [crammed, Heap.slot?, hi]

theorem full_crammed (held : List Handle) : (crammed held).heap.Full := by
  intro i hi
  rw [capacity_crammed] at hi
  simp [slot?_crammed, length_crammedObjects, hi]

theorem live_crammed (held : List Handle) (hslot : h.slot < 256) : (crammed held).Live h := by
  simp [Live, object?, Heap.get?, slot?_crammed, length_crammedObjects, hslot]

theorem object?_crammed (held : List Handle) {i : ℕ} {o : Object} (ho : crammedObjects[i]? = some o) :
    (crammed held).object? (.ofSlot i) = some o := by
  have hi : i < 256 := length_crammedObjects ▸ (List.getElem?_eq_some_iff.mp ho).1
  rw [object?, Heap.get?, Handle.slot_ofSlot (by omega), slot?_crammed, ho]

theorem enrolled_crammed (held : List Handle) :
    (crammed held).heap.Enrolled (crammed held).registers.registry [(.ofSlot 1, Bytes.ofString "x")] where
  spine := .cons (object?_crammed held (i := 2) rfl) .nil
  atom := List.forall_mem_singleton.mpr (object?_crammed held (i := 1) rfl)
  nodup := by simp

/-- Nothing dangles on this machine. -/
theorem whole_crammed {held : List Handle} (hheld : ∀ h ∈ held, h.slot < 256) : (crammed held).Whole := by
  have hreferences : ∀ o ∈ crammedObjects, ∀ h ∈ o.references, h.slot < 256 := by decide +kernel
  have hregisters : ∀ h ∈ (crammed held).registers.roots, h = .nil ∨ h = .ofSlot 2 := by
    simp [crammed, blank, Registers.roots]
  refine ⟨⟨?_, ?_⟩, slot?_crammed held 0, ?_, ?_, ?_⟩
  · rw [Heap.Unmarked, capacity_crammed]
    rfl
  · rw [capacity_crammed]
    decide
  · intro i o ho h hh
    rw [slot?_crammed] at ho
    exact live_crammed held (hreferences o (List.mem_of_getElem? ho) h hh)
  · intro h hh
    rcases hregisters h hh with rfl | rfl <;> exact live_crammed held (by decide)
  · intro h hh
    exact live_crammed held (hheld h hh)

/-! ## Definitions -/

/-- On a machine on which nothing dangles, let a key be defined in a live environment, rooted or not. Looking
up an atom that stays rooted gives the new value if it is the key, and otherwise what it gave before, be it a
value or a complaint. In the environment as it was, it gives what it gave before. The two pairs that are made
may each come with a collection. The questions are answered, if the environment comes to an end. -/
theorem lookup_define (hm : m.Whole) (henv : m.Live env) (hk : m.object? k = some (.atom name))
    (hrooted : m.heap.Reaches ([env, key, value] ++ m.roots) k)
    (hrun : define env key value m = .ok env' m') :
    lookup env' k m' = (if k = key then .ok value else lookup env k m) ∧
      lookup env k m' = lookup env k m ∧
      (m.heap.Ends env → lookup env k m ≠ .error .unfinished) := by
  have hextends := (delivers_define hm.regular env key value).answers hrun
  have hk' : m'.object? k = some (.atom name) := hextends.spares.object?_eq hk (hrooted.mono (by simp))
  have hsame : lookup env k m' = lookup env k m :=
    lookup_congr hextends.spares.capacity_eq (hextends.spares.kept hm.noDangling henv (by simp))
      (atom?_eq_some_iff.mpr hk) (atom?_eq_some_iff.mpr hk')
  refine ⟨?_, hsame, lookup_ne_unfinished_of_ends⟩
  rw [hextends.lookup_eq hm.object?_nil hk', hsame]
  simp only [eq_comm]

/-- In the environment, which nothing leads to, the other atom is defined. Both pairs go where a collection
has made room. -/
theorem lookup_define_crammed :
    ∃ env' m', (crammed []).heap.Full ∧
      define (.ofSlot 5) (.ofSlot 6) (.ofSlot 3) (crammed []) = .ok env' m' ∧
      lookup env' (.ofSlot 6) m' = .ok (.ofSlot 3) ∧ lookup env' (.ofSlot 1) m' = .ok (.ofSlot 3) ∧
      lookup (.ofSlot 5) (.ofSlot 1) m' = .ok (.ofSlot 3) := by
  have hrun : define (.ofSlot 5) (.ofSlot 6) (.ofSlot 3) (crammed []) =
      .ok (.ofSlot 8) (after (define (.ofSlot 5) (.ofSlot 6) (.ofSlot 3)) (crammed [])) :=
    run_eq_of_run' (by decide +kernel)
  have hbefore : lookup (.ofSlot 5) (.ofSlot 1) (crammed []) = .ok (.ofSlot 3) := by decide +kernel
  have hwhole : (crammed []).Whole := whole_crammed (by simp)
  obtain ⟨hnew, -⟩ := lookup_define hwhole (live_crammed [] (by decide)) (k := .ofSlot 6)
    (object?_crammed [] rfl) (.root (by simp)) hrun
  have hregistry : (crammed []).heap.Reaches ([.ofSlot 5, .ofSlot 6, .ofSlot 3] ++ (crammed []).roots)
      (.ofSlot 2) := .root (by simp [crammed, roots, Registers.roots])
  obtain ⟨hother, hold, -⟩ := lookup_define hwhole (live_crammed [] (by decide)) (k := .ofSlot 1)
    (object?_crammed [] rfl) (hregistry.reference (object?_crammed [] rfl) (by simp [Object.references])) hrun
  rw [hbefore] at hother hold
  exact ⟨_, _, full_crammed [], hrun, hnew, hother, hold⟩

/-! ## Primitives -/

/-- Interning loses nothing that the roots lead to, and nothing at all if the name has an atom or there
is room for one. -/
theorem object?_of_intern {o : Object} (hready : Ready poking [] m) (hrun : intern name m = .ok key m')
    (hsafe : m.heap.Reaches (.nil :: m.roots) h ∨ (∃ atom, m.Registered atom name) ∨ 2 ≤ m.heap.room)
    (ho : m.object? h = some o) : m'.object? h = some o := by
  obtain ⟨entries, henrolled⟩ := hready.enrolled
  rcases intern_cases hready henrolled name with ⟨atom, hrun', -⟩ | ⟨atom, n, hrun', henters⟩ | ⟨n, hrun', -⟩
  · cases hrun'.symm.trans hrun
    exact ho
  · cases hrun'.symm.trans hrun
    rcases hsafe with hreach | ⟨k, hk⟩ | hroom
    · exact henters.spares.object?_eq ho hreach
    · cases hrun.symm.trans (hk.intern_eq hready)
      exact ho
    · exact henters.keeps hroom ho
  · cases hrun'.symm.trans hrun

/-- A primitive was made for an interned name, and bound to it. -/
theorem delivers_definePrimitive (hready : Ready poking [] m) (env : Handle) (p : Primitive) :
    Delivers (definePrimitive env p) m fun env' m' => ∃ key primitive m₁ m₂,
      intern (Bytes.ofString p.name) m = .ok key m₁ ∧ Spares [env] m₁ m₂ ∧
        m₂.object? primitive = some (.primitive p) ∧ Extends env key primitive m₂ env' m' := by
  apply (delivers_intern (Bytes.ofString p.name)).bind
  intro key m₁ hintern
  obtain ⟨hready₁, -⟩ := (lasting_intern _).of_ok hready hintern
  have hregular : m₁.heap.Regular := ⟨hready₁.unmarked, hready₁.capacity_le⟩
  apply (delivers_allocate_withRoots hregular [env] (.primitive p)).bind
  rintro primitive m₂ ⟨hspares, hprimitive⟩
  apply (delivers_define (hspares.regular hregular) env key primitive).imp
  intro env' m' hextends
  exact ⟨key, primitive, m₁, m₂, hintern, hspares, hprimitive, hextends⟩

/-- On a machine on which nothing dangles and whose registry is in order, let a primitive be bound to its name
in a live environment. The name can be interned without a collection, or the environment is rooted. Then the
atom of the name is bound to the primitive. All that the environment leads to is there and the same, and
every other atom has the value that it had, or none as before. -/
theorem lookup_definePrimitive {p : Primitive} (hm : m.Whole)
    (hregistry : ∃ entries, m.heap.Enrolled m.registers.registry entries) (henv : m.Live env)
    (hsafe : m.heap.Reaches (.nil :: m.roots) env ∨ (∃ atom, m.Registered atom (Bytes.ofString p.name)) ∨
      2 ≤ m.heap.room) (hrun : definePrimitive env p m = .ok env' m') :
    ∃ key primitive, intern (Bytes.ofString p.name) m' = .ok key m' ∧
      m'.object? key = some (.atom (Bytes.ofString p.name)) ∧ m'.object? primitive = some (.primitive p) ∧
      lookup env' key m' = .ok primitive ∧
      (∀ {h}, m.heap.Reaches [env] h → ∃ o, m.object? h = some o ∧ m'.object? h = some o) ∧
      ∀ {k name}, k ≠ key → m.object? k = some (.atom name) → m'.object? k = some (.atom name) →
        lookup env' k m' = lookup env k m := by
  have hready : Ready False [] m := ⟨List.nil_suffix, hm.regular.unmarked, hm.regular.capacity_le,
    hm.object?_nil, hregistry, False.elim⟩
  obtain ⟨key, primitive, m₁, m₂, hintern, hspares₁, hprimitive, hextends⟩ :=
    (delivers_definePrimitive hready env p).answers hrun
  obtain ⟨hready₁, hlasts₁⟩ := (lasting_intern _).of_ok hready hintern
  -- from the interned name on, the environment is held
  have hspares : Spares [env] m₁ m' := hspares₁.trans_held hextends.spares (by simpa using .root (by simp))
  have hlasts : Lasts False [] m₁ m' := hspares.lasts List.nil_suffix
  have hkey := (registered_of_intern hready hintern).lasts hlasts
  have hkept₁ : ∀ {h o}, m.heap.Reaches [env] h → m.object? h = some o → m₁.object? h = some o := fun hh =>
    object?_of_intern hready hintern (hsafe.imp_left fun henv => hh.trans (by simpa using henv))
  have hkept : ∀ {h}, m.heap.Reaches [env] h → ∃ o, m.object? h = some o ∧ m'.object? h = some o := by
    intro h hh
    obtain ⟨o, ho⟩ := Option.isSome_iff_exists.mp (hm.noDangling.live_of_reaches (by simpa using henv) hh)
    have hh₁ : m₁.heap.Reaches [env] h := hh.congr hkept₁
    exact ⟨o, ho, hspares.object?_eq (hkept₁ hh ho) (hh₁.mono (by simp))⟩
  have hnil₂ : m₂.object? .nil = some .nil := hspares₁.object?_eq hready₁.object?_nil (.root (by simp))
  refine ⟨key, primitive, hkey.intern_eq (hspares.ready hready₁ False.elim), hkey.object?_eq,
    hextends.spares.object?_eq hprimitive (.root (by simp)), ?_, hkept, ?_⟩
  · rw [hextends.lookup_eq hnil₂ hkey.object?_eq, if_pos rfl]
  · intro k name hne hk hk'
    rw [hextends.lookup_eq hnil₂ hk', if_neg (Ne.symm hne)]
    have hsame : ∀ {h}, m.heap.Reaches [env] h → Kept False m m' h := by
      intro h hh
      obtain ⟨o, ho, ho'⟩ := hkept hh
      exact ⟨o, o, ho, ho', .refl o⟩
    exact lookup_congr (hspares.capacity_eq.trans hlasts₁.capacity_eq) hsame (atom?_eq_some_iff.mpr hk)
      (atom?_eq_some_iff.mpr hk')

/-- The environment is held, so that it outlasts the collection that makes room for the atom of a name. -/
theorem lookup_definePrimitive_held :
    ∃ env' m' key primitive, (crammed [.ofSlot 5]).heap.Full ∧
      definePrimitive (.ofSlot 5) ⟨"car", .car⟩ (crammed [.ofSlot 5]) = .ok env' m' ∧
      intern (Bytes.ofString "car") m' = .ok key m' ∧ m'.object? primitive = some (.primitive ⟨"car", .car⟩) ∧
      lookup env' key m' = .ok primitive ∧ lookup env' (.ofSlot 1) m' = .ok (.ofSlot 3) := by
  have hrun : definePrimitive (.ofSlot 5) ⟨"car", .car⟩ (crammed [.ofSlot 5]) =
      .ok (.ofSlot 10) (after (definePrimitive (.ofSlot 5) ⟨"car", .car⟩) (crammed [.ofSlot 5])) :=
    run_eq_of_run' (by decide +kernel)
  have hbefore : lookup (.ofSlot 5) (.ofSlot 1) (crammed [.ofSlot 5]) = .ok (.ofSlot 3) := by decide +kernel
  have hatom : (crammed [.ofSlot 5]).object? (.ofSlot 1) = some (.atom (Bytes.ofString "x")) :=
    object?_crammed _ rfl
  have hreach : (crammed [.ofSlot 5]).heap.Reaches [.ofSlot 5] (.ofSlot 1) := by
    have hbinding : (crammed [.ofSlot 5]).heap.Reaches [.ofSlot 5] (.ofSlot 4) :=
      .reference (.root List.mem_cons_self) (object?_crammed _ (i := 5) rfl) (by simp [Object.references])
    exact hbinding.reference (object?_crammed _ rfl) (by simp [Object.references])
  obtain ⟨key, primitive, hintern, hkey, hprimitive, hvalue, hkept, hothers⟩ :=
    lookup_definePrimitive (whole_crammed (List.forall_mem_singleton.mpr (by decide))) ⟨_, enrolled_crammed _⟩
      (live_crammed _ (by decide)) (.inl (.root (by simp [crammed, roots]))) hrun
  dsimp only at hintern hkey
  obtain ⟨o, ho, ho'⟩ := hkept hreach
  cases hatom.symm.trans ho
  refine ⟨_, _, key, primitive, full_crammed _, hrun, hintern, hprimitive, hvalue, ?_⟩
  rw [hothers ?_ hatom ho', hbefore]
  rintro rfl
  cases ho'.symm.trans hkey

/-- The environment is not held, and the collection that makes room for the atom of a name takes it. The new
binding is put in front of whatever comes to lie in its slot, which is the primitive itself. -/
theorem definePrimitive_loses_env :
    (crammed []).Whole ∧ (crammed []).Live (.ofSlot 5) ∧
      lookup (.ofSlot 5) (.ofSlot 1) (crammed []) = .ok (.ofSlot 3) ∧
      ∃ env' m', definePrimitive (.ofSlot 5) ⟨"car", .car⟩ (crammed []) = .ok env' m' ∧
        m'.atom? (.ofSlot 1) = some (Bytes.ofString "x") ∧
        lookup env' (.ofSlot 1) m' = .error (.fault (.typeMismatch "car" "pair" (some .primitive))) := by
  obtain ⟨hends, hatom, hlookup⟩ :
      EStateM.run' (definePrimitive (.ofSlot 5) ⟨"car", .car⟩).run (crammed []) = some (.ofSlot 7) ∧
      (after (definePrimitive (.ofSlot 5) ⟨"car", .car⟩) (crammed [])).atom? (.ofSlot 1) =
        some (Bytes.ofString "x") ∧
      lookup (.ofSlot 7) (.ofSlot 1) (after (definePrimitive (.ofSlot 5) ⟨"car", .car⟩) (crammed [])) =
        .error (.fault (.typeMismatch "car" "pair" (some .primitive))) := by decide +kernel
  exact ⟨whole_crammed (by simp), live_crammed [] (by decide), by decide +kernel, _, _, run_eq_of_run' hends,
    hatom, hlookup⟩

end Machine

end PushLisp
