import PushLisp.Proofs.AtomIdentity

/-!
# Where a new machine keeps its objects

Setting up a machine fills the table from the front, one slot after another, and never comes to its end. So
the size of the table does not show: the handles that a new machine uses, and how many objects it has made,
are the same for all tables, and whatever there is to read. Its environment binds the names of the primitives
on offer, and no others.

## Main definitions

* `Layout`: what a machine has in its table and registers, but for the address and the size of the table.
* `Machine.Level`: two machines with the same layout.
* `Machine.Uniform`: an operation that keeps machines level.

## Main statements

* `Machine.run_allocate_of_packed`: an object goes behind all others.
* `Machine.rationed_uniform`: the parts of setting up are uniform.
* `Machine.start_layout`: what a new machine is like.
-/
namespace PushLisp

/-- What is in the slots and registers of a machine, and what was counted. The address of the table and the
number of slots are left out. -/
structure Layout where
  cells : ℕ → Option Object
  cursor : ℕ
  live : ℕ
  stats : HeapStats
  registers : Registers

namespace Layout

/-- The slots up to the cursor were taken one after another, and no other. -/
structure Packed (L : Layout) : Prop where
  isSome_iff : ∀ i, (L.cells i).isSome ↔ i ≤ L.cursor
  live_eq : L.live = L.cursor + 1
  stats_eq : L.stats = { allocated := L.cursor }

/-- An object is put behind the others. -/
def push (L : Layout) (o : Object) : Layout :=
  { L with
    cells := fun i => if i = L.cursor + 1 then some o else L.cells i
    cursor := L.cursor + 1
    live := L.live + 1
    stats := { L.stats with allocated := L.stats.allocated + 1 } }

theorem Packed.push {L : Layout} (hL : L.Packed) (o : Object) : (L.push o).Packed where
  isSome_iff i := by
    by_cases hi : i = L.cursor + 1
    · simp [Layout.push, hi]
    · have := hL.isSome_iff i
      simp only [Layout.push, if_neg hi, this]
      omega
  live_eq := by simp [Layout.push, hL.live_eq]
  stats_eq := by simp [Layout.push, hL.stats_eq]

/-- An atom and its entry in the registry are put behind the others. -/
def enter (L : Layout) (spelling : Bytes) : Layout :=
  { (L.push (.atom spelling)).push (.pair (.ofSlot (L.cursor + 1)) L.registers.registry) with
    registers := { L.registers with registry := .ofSlot (L.cursor + 2) } }

theorem Packed.enter {L : Layout} (hL : L.Packed) (spelling : Bytes) : (L.enter spelling).Packed :=
  { (hL.push _).push _ with }

end Layout

namespace Machine

variable {α β : Type} {k l : ℕ} {poking : Prop} {m m₁ m₂ : Machine} {spelling name : Bytes}

/-- The layout of a machine. -/
def layout (m : Machine) : Layout where
  cells := m.heap.slot?
  cursor := m.heap.cursor
  live := m.heap.live
  stats := m.heap.stats
  registers := { m.registers with slots := 0, capacity := 0 }

/-! ## Objects one behind another -/

/-- The next empty slot is the one behind the cursor. -/
theorem findFree?_of_packed (hpacked : m.layout.Packed) (hroom : 0 < m.heap.room) :
    m.heap.cursor + 1 < m.heap.capacity ∧ m.heap.findFree? = some (m.heap.cursor + 1) := by
  have hempty : ∀ {i}, m.heap.slot? i = none ↔ m.heap.cursor < i := by
    intro i
    have htaken : (m.heap.slot? i).isSome ↔ i ≤ m.heap.cursor := hpacked.isSome_iff i
    rw [← Option.not_isSome_iff_eq_none, htaken, Nat.not_le]
  obtain ⟨i, hi⟩ := Heap.exists_findFree? hroom
  obtain ⟨hlt, hnone⟩ := Heap.slot?_of_findFree? hi
  have hcursor := hempty.mp hnone
  have hnext : m.heap.cursor + 1 < m.heap.slots.size := by
    rw [Heap.capacity] at hlt
    omega
  have hslot : m.heap.slots[m.heap.cursor + 1]? = some none := by
    have hnone : m.heap.slot? (m.heap.cursor + 1) = none := hempty.mpr (Nat.lt_succ_self _)
    simpa [Heap.slot?, hnext] using hnone
  refine ⟨hnext, ?_⟩
  obtain ⟨n, hn⟩ : ∃ n, m.heap.slots.size = n + 1 := ⟨m.heap.slots.size - 1, by omega⟩
  rw [Heap.findFree?, hn, Heap.scanFree?]
  simp only [Nat.mod_eq_of_lt hnext, hslot]

/-- With room for it, an object goes into the slot behind all others. -/
theorem run_allocate_of_packed (hpacked : m.layout.Packed) (hroom : 0 < m.heap.room) (o : Object) :
    ∃ m', allocate o m = .ok (.ofSlot (m.layout.cursor + 1)) m' ∧ m'.layout = m.layout.push o ∧
      m'.heap.room + 1 = m.heap.room ∧ m'.registers = m.registers := by
  obtain ⟨hnext, hfree⟩ := findFree?_of_packed hpacked hroom
  refine ⟨_, run_allocate_of_free hfree, ?_, Heap.room_place hfree o, rfl⟩
  have hcells : (m.heap.place (m.heap.cursor + 1) o).slot? =
      fun i => if i = m.heap.cursor + 1 then some o else m.heap.slot? i := by
    funext i
    by_cases hi : i = m.heap.cursor + 1
    · simp [hi, Heap.slot?_place_self _ _ _ hnext]
    · simp [hi, Heap.slot?_place_ne _ _ (Ne.symm hi)]
  simp only [layout, Layout.push]
  rw [hcells]
  rfl

/-- With room for them, an atom that is not in the registry and its entry go behind all others. -/
theorem run_intern_of_packed (hpacked : m.layout.Packed) (hroom : 2 ≤ m.heap.room)
    (hfind : findAtom spelling m = .ok none) :
    ∃ m', intern spelling m = .ok (.ofSlot (m.layout.cursor + 1)) m' ∧
      m'.layout = m.layout.enter spelling := by
  obtain ⟨n, hrun, hlayout, hroom', hregisters⟩ := run_allocate_of_packed hpacked (by omega) (.atom spelling)
  have hpacked' : n.layout.Packed := hlayout ▸ hpacked.push (.atom spelling)
  obtain ⟨n', hrun', hlayout', -, hregisters'⟩ := run_allocate_of_packed hpacked' (by omega)
    (.pair (.ofSlot (m.layout.cursor + 1)) n.registers.registry)
  have hask : (ask (findAtom spelling)).run m = .ok none m := by simp only [ask, hfind]
  refine ⟨_, (Run.run_bind_of_ok hask).trans ((Run.run_bind_of_ok hrun).trans (Run.run_bind_of_ok hrun')), ?_⟩
  show ({ n'.layout with registers :=
    { n'.registers with registry := .ofSlot (n.layout.cursor + 1), slots := 0, capacity := 0 } } : Layout) = _
  rw [hlayout', hregisters', hlayout, hregisters]
  rfl

/-! ## Level machines -/

/-- Two machines in order that have the same objects in the same slots, one behind another. -/
structure Level (m₁ m₂ : Machine) : Prop where
  layout_eq : m₁.layout = m₂.layout
  packed : m₁.layout.Packed
  ready : Ready False [] m₁ ∧ Ready False [] m₂

theorem Level.get?_eq (hlevel : Level m₁ m₂) (h : Handle) : m₁.heap.get? h = m₂.heap.get? h :=
  congrFun (congrArg Layout.cells hlevel.layout_eq) h.slot

/-- With room for `k` objects, an operation on level machines gives the same answer on both and leaves them
level. -/
structure Uniform (k : ℕ) (act : Run α) : Prop extends Spends k act where
  agrees : ∀ {m₁ m₂}, Level m₁ m₂ → k ≤ m₁.heap.room → k ≤ m₂.heap.room →
    ∃ a m₁' m₂', act m₁ = .ok a m₁' ∧ act m₂ = .ok a m₂' ∧ Level m₁' m₂'

theorem Uniform.bind {x : Run α} {f : α → Run β} (hx : Uniform k x) (hf : ∀ a, Uniform l (f a)) :
    Uniform (k + l) (x >>= f) where
  toSpends := hx.toSpends.bind fun a => (hf a).toSpends
  agrees hlevel hroom₁ hroom₂ := by
    obtain ⟨a, m₁, m₂, hrun₁, hrun₂, hlevel⟩ := hx.agrees hlevel (by omega) (by omega)
    have hleaves₁ := (hx.leaves (by omega) hrun₁).1
    have hleaves₂ := (hx.leaves (by omega) hrun₂).1
    obtain ⟨b, n₁, n₂, hrun₁', hrun₂', hlevel⟩ := (hf a).agrees hlevel (by omega) (by omega)
    exact ⟨b, n₁, n₂, (Run.run_bind_of_ok hrun₁).trans hrun₁', (Run.run_bind_of_ok hrun₂).trans hrun₂',
      hlevel⟩

theorem Uniform.withRoots {act : Run α} (hs : List Handle) (hact : Uniform k act) :
    Uniform k (withRoots hs act) where
  toSpends := hact.toSpends.withRoots hs
  agrees {m₁ m₂} hlevel hroom₁ hroom₂ := by
    have hheld : Level { m₁ with shadow := hs ++ m₁.shadow } { m₂ with shadow := hs ++ m₂.shadow } :=
      { hlevel with
        ready := ⟨{ hlevel.ready.1 with held := List.nil_suffix },
          { hlevel.ready.2 with held := List.nil_suffix }⟩ }
    obtain ⟨a, n₁, n₂, hrun₁, hrun₂, hlevel'⟩ := hact.agrees hheld hroom₁ hroom₂
    refine ⟨a, _, _, run_withRoots_of_ok hrun₁, run_withRoots_of_ok hrun₂, { hlevel' with ready := ?_ }⟩
    exact ⟨{ hlevel'.ready.1 with held := List.nil_suffix }, { hlevel'.ready.2 with held := List.nil_suffix }⟩

/-- What lasts is in order on both machines. -/
theorem Level.of_lasting {act : Run α} {a : α} {m₁' m₂' : Machine} (hlevel : Level m₁ m₂)
    (hact : ∀ m, Lasting False [] act m) (hrun₁ : act m₁ = .ok a m₁') (hrun₂ : act m₂ = .ok a m₂')
    (hlayout : m₁'.layout = m₂'.layout) (hpacked : m₁'.layout.Packed) : Level m₁' m₂' := by
  obtain ⟨hready₁, -⟩ := (hact m₁).of_ok hlevel.ready.1 hrun₁
  obtain ⟨hready₂, -⟩ := (hact m₂).of_ok hlevel.ready.2 hrun₂
  exact ⟨hlayout, hpacked, hready₁, hready₂⟩

theorem uniform_allocate (o : Object) : Uniform 1 (allocate o) where
  toSpends := spends_allocate o
  agrees {m₁ m₂} hlevel hroom₁ hroom₂ := by
    have hpacked₂ : m₂.layout.Packed := hlevel.layout_eq ▸ hlevel.packed
    obtain ⟨n₁, hrun₁, hlayout₁, -⟩ := run_allocate_of_packed hlevel.packed hroom₁ o
    obtain ⟨n₂, hrun₂, hlayout₂, -⟩ := run_allocate_of_packed hpacked₂ hroom₂ o
    rw [← hlevel.layout_eq] at hrun₂ hlayout₂
    refine ⟨_, n₁, n₂, hrun₁, hrun₂, hlevel.of_lasting
      (fun _ => lasting_allocate False.elim) hrun₁ hrun₂ ?_ ?_⟩
    · rw [hlayout₁, hlayout₂]
    · rw [hlayout₁]
      exact hlevel.packed.push o

theorem uniform_intern (spelling : Bytes) : Uniform 2 (intern spelling) where
  toSpends := spends_intern spelling
  agrees {m₁ m₂} hlevel hroom₁ hroom₂ := by
    have hpacked₂ : m₂.layout.Packed := hlevel.layout_eq ▸ hlevel.packed
    obtain ⟨entries, henrolled₁⟩ := hlevel.ready.1.enrolled
    have henrolled₂ : m₂.heap.Enrolled m₂.registers.registry entries := by
      have hregistry : m₁.registers.registry = m₂.registers.registry :=
        congrArg (fun L => L.registers.registry) hlevel.layout_eq
      rw [← hregistry]
      exact henrolled₁.congr fun {k o} _ ho _ => (hlevel.get?_eq k).symm.trans ho
    have hfind₁ := findAtom_of_enrolled hlevel.ready.1.object?_nil henrolled₁ spelling
    have hfind₂ := findAtom_of_enrolled hlevel.ready.2.object?_nil henrolled₂ spelling
    cases hfound : (entries.find? fun e => e.2 = spelling).map Prod.fst with
    | some atom =>
      have hask : ∀ {m}, findAtom spelling m = .ok (some atom) → intern spelling m = .ok atom m := by
        intro m hfind
        have hask : (ask (findAtom spelling)).run m = .ok (some atom) m := by simp only [ask, hfind]
        exact Run.run_bind_of_ok hask
      exact ⟨atom, m₁, m₂, hask (hfound ▸ hfind₁), hask (hfound ▸ hfind₂), hlevel⟩
    | none =>
      rw [hfound] at hfind₁ hfind₂
      obtain ⟨n₁, hrun₁, hlayout₁⟩ := run_intern_of_packed hlevel.packed hroom₁ hfind₁
      obtain ⟨n₂, hrun₂, hlayout₂⟩ := run_intern_of_packed hpacked₂ hroom₂ hfind₂
      rw [← hlevel.layout_eq] at hrun₂ hlayout₂
      refine ⟨_, n₁, n₂, hrun₁, hrun₂, hlevel.of_lasting (fun _ => lasting_intern spelling) hrun₁ hrun₂ ?_ ?_⟩
      · rw [hlayout₁, hlayout₂]
      · rw [hlayout₁]
        exact hlevel.packed.enter spelling

theorem uniform_setRegister {f : Registers → Registers} (hregistry : ∀ r, (f r).registry = r.registry)
    (htable : ∀ r a c, f { r with slots := a, capacity := c } = { f r with slots := a, capacity := c }) :
    Uniform 0 (modifyRegisters f) where
  toSpends := spends_modifyRegisters f
  agrees {m₁ m₂} hlevel _ _ := by
    have hlayout : ∀ m : Machine, layout { m with registers := f m.registers } =
        { m.layout with registers := f m.layout.registers } := fun m =>
      congrArg (fun r => { m.layout with registers := r }) (htable m.registers 0 0).symm
    have hready : ∀ {m : Machine}, Ready False [] m → Ready False [] { m with registers := f m.registers } :=
      fun {m} hm => { hm with enrolled := by simpa only [hregistry] using hm.enrolled }
    refine ⟨(), _, _, rfl, rfl, ?_, ?_, hready hlevel.ready.1, hready hlevel.ready.2⟩
    · rw [hlayout, hlayout, hlevel.layout_eq]
    · rw [hlayout]
      exact { hlevel.packed with }

theorem uniform_announce : Uniform 0 (get >>= fun m => note (.started m.heap.capacity)) where
  toSpends := spends_get.bind (l := 0) fun _ => spends_note _
  agrees {m₁ m₂} hlevel _ _ := by
    have hnote : ∀ m : Machine, ∃ events,
        (get >>= fun m => note (.started m.heap.capacity) : Run Unit).run m =
        .ok () { m with events := events } := by
      rintro ⟨heap, registers, shadow, source, sink, tracing, events⟩
      cases tracing <;> exact ⟨_, rfl⟩
    obtain ⟨events₁, hrun₁⟩ := hnote m₁
    obtain ⟨events₂, hrun₂⟩ := hnote m₂
    exact ⟨(), _, _, hrun₁, hrun₂,
      { hlevel with ready := ⟨{ hlevel.ready.1 with }, { hlevel.ready.2 with }⟩ }⟩

theorem rationed_uniform : Rationed fun _ k act => Uniform k act where
  pure a := ⟨spends_pure a, fun hlevel _ _ => ⟨a, _, _, rfl, rfl, hlevel⟩⟩
  bind := Uniform.bind
  withRoots := Uniform.withRoots
  allocate := uniform_allocate
  intern := uniform_intern
  setRegister := uniform_setRegister
  announce := uniform_announce

theorem level_blank (slots₁ slots₂ : UInt64) (source₁ source₂ : Bytes) (sink₁ sink₂ : Sink)
    (tracing₁ tracing₂ : Bool) (platform₁ platform₂ : Platform) :
    Level (blank slots₁.toNat source₁ sink₁ tracing₁ platform₁)
      (blank slots₂.toNat source₂ sink₂ tracing₂ platform₂) := by
  have hcells : ∀ slots platform,
      (Heap.new slots platform).slot? = fun i => if i = 0 then some .nil else none := by
    intro slots platform
    funext i
    by_cases hi : i = 0
    · simp [hi, Heap.slot?_new_zero]
    · simp [hi, Heap.slot?_new_of_ne hi]
  refine ⟨?_, ⟨?_, rfl, rfl⟩, ready_blank _ _ _ _ _, ready_blank _ _ _ _ _⟩
  · simp only [layout, blank, hcells]
    rfl
  · intro i
    simp only [layout, blank, hcells]
    by_cases hi : i = 0 <;> simp [hi, Heap.new]

/-- Setting up leaves machines level, whatever their tables and texts are. -/
theorem level_prepare {lowlevel : Bool} {slots₁ slots₂ : UInt64} {source₁ source₂ : Bytes}
    {sink₁ sink₂ : Sink} {tracing₁ tracing₂ : Bool} {platform₁ platform₂ : Platform}
    (hrun₁ : prepare lowlevel (blank slots₁.toNat source₁ sink₁ tracing₁ platform₁) = .ok () m₁)
    (hrun₂ : prepare lowlevel (blank slots₂.toNat source₂ sink₂ tracing₂ platform₂) = .ok () m₂) :
    Level m₁ m₂ := by
  obtain ⟨_, n₁, n₂, hrun₁', hrun₂', hlevel⟩ := (rationed_uniform.prepare lowlevel).agrees
    (level_blank slots₁ slots₂ source₁ source₂ sink₁ sink₂ tracing₁ tracing₂ platform₁ platform₂)
    (need_le_room_blank lowlevel) (need_le_room_blank lowlevel)
  cases hrun₁'.symm.trans hrun₁
  cases hrun₂'.symm.trans hrun₂
  exact hlevel

/-! ## The names that are bound -/

/-- The names that are bound in the initial environment are those of some primitives, and they are bound to
these. Looking a name up by its atom finds the same as comparing spellings. -/
structure Offers (ps : List Primitive) (m : Machine) : Prop where
  bound : ∀ p ∈ ps, ∃ key h, m.object? h = some (.primitive p) ∧
    global (Bytes.ofString p.name) m = .ok (some h) ∧ intern (Bytes.ofString p.name) m = .ok key m ∧
    lookup m.registers.env key m = .ok h
  unbound : ∀ {name}, (∀ p ∈ ps, Bytes.ofString p.name ≠ name) → global name m = .ok none ∧
    ∃ key m', intern name m = .ok key m' ∧ lookup m'.registers.env key m' = .error (.fault (.unbound name))

/-- The value of a name is the first primitive that has this name. -/
theorem valueOf_of_installs {ps : List Primitive} {bindings : List (Bytes × Handle)}
    (hbindings : List.Forall₂ m.Installs ps bindings) (name : Bytes) :
    Option.Rel (fun p h => m.object? h = some (.primitive p))
      (ps.find? fun p => Bytes.ofString p.name = name) (valueOf name bindings) := by
  induction hbindings with
  | nil => exact .none
  | @cons p binding ps bindings hp _ ih =>
    obtain ⟨hname, hobject⟩ := hp
    have hvalue : valueOf name (binding :: bindings) =
        if binding.1 = name then some binding.2 else valueOf name bindings := valueOf_cons _ _ _ _
    rw [List.find?_cons, hvalue, hname]
    by_cases hs : Bytes.ofString p.name = name
    · simpa [hs] using Option.Rel.some hobject
    · simpa [hs] using ih

/-- A name that has a value has an atom. -/
theorem Scope.registered_of_valueOf {env h : Handle} {bindings : List (Bytes × Handle)}
    (hscope : Scope m env bindings) (hvalue : valueOf name bindings = some h) :
    ∃ key, m.Registered key name := by
  induction hscope with
  | nil => cases hvalue
  | @binding env binding rest key value spelling bindings _ _ hkey _ ih =>
    rw [valueOf_cons] at hvalue
    by_cases hs : spelling = name
    · exact ⟨key, hs ▸ hkey⟩
    · exact ih (by simpa [hs] using hvalue)

/-- An environment made for primitives with different names binds these names and no others. -/
theorem Scope.offers {ps : List Primitive} {bindings : List (Bytes × Handle)} (hready : Ready poking [] m)
    (hroom : 2 ≤ m.heap.room) (hscope : Scope m m.registers.env bindings)
    (hbindings : List.Forall₂ m.Installs ps.reverse bindings)
    (hnames : ∀ p ∈ ps, ∀ q ∈ ps, Bytes.ofString p.name = Bytes.ofString q.name → p = q) : m.Offers ps where
  bound p hp := by
    have hvalue := valueOf_of_installs hbindings (Bytes.ofString p.name)
    cases hfind : ps.reverse.find? fun q => Bytes.ofString q.name = Bytes.ofString p.name with
    | none => simpa using List.find?_eq_none.mp hfind p (List.mem_reverse.mpr hp)
    | some q =>
      have hq : q ∈ ps := List.mem_reverse.mp (List.mem_of_find?_eq_some hfind)
      cases hnames q hq p hp (by simpa using List.find?_some hfind)
      rw [hfind] at hvalue
      generalize hbound : valueOf (Bytes.ofString p.name) bindings = value at hvalue
      cases hvalue with
      | some hobject =>
        obtain ⟨key, hkey⟩ := hscope.registered_of_valueOf hbound
        refine ⟨key, _, hobject, ?_, hkey.intern_eq hready, ?_⟩
        · rw [hscope.global_eq hready.object?_nil, hbound]
        · rw [hscope.lookup_eq hready.object?_nil hkey, hbound]
          rfl
  unbound {name} hother := by
    have hvalue := valueOf_of_installs hbindings name
    have hfind : ps.reverse.find? (fun q => Bytes.ofString q.name = name) = none := by
      simpa [List.find?_eq_none] using hother
    rw [hfind] at hvalue
    generalize hbound : valueOf name bindings = value at hvalue
    cases hvalue with
    | none =>
      obtain ⟨key, m', hrun, -, hready', hgrows, hregisters, hkey⟩ := adds_intern name hready hroom
      have henv : m'.registers.env = m.registers.env := by rw [hregisters]
      refine ⟨by rw [hscope.global_eq hready.object?_nil, hbound], key, m', hrun, ?_⟩
      rw [henv, (hscope.grows hgrows).lookup_eq hready'.object?_nil hkey, hbound]
      rfl

/-- No two primitives have the same name. -/
theorem eq_of_name_eq {lowlevel : Bool} : ∀ p ∈ Primitive.installed lowlevel,
    ∀ q ∈ Primitive.installed lowlevel, Bytes.ofString p.name = Bytes.ofString q.name → p = q := by
  cases lowlevel <;> decide +kernel

/-- A machine is set up successfully, and without a collection, for a table of any size and any text,
wherever its memory lies. The handles that it uses and the number of objects it has made are the same
each time. Its stack, its queue and the roots it holds are empty. Of all names, those of the primitives
on offer are bound, each to its primitive. -/
theorem start_layout (lowlevel : Bool) :
    ∃ L : Layout, L.Packed ∧
      ∀ (slots : UInt64) (source : Bytes) (sink : Sink) (tracing : Bool) (platform : Platform),
      (∀ n, ¬ (prepare lowlevel).passes (blank slots.toNat source sink tracing platform) ⟨.collects, n⟩) ∧
        ∃ m, start ⟨slots.toNat, lowlevel⟩ source sink tracing platform = .ok m ∧ m.layout = L ∧
          m.heap.stats = { collections := 0, allocated := L.cursor, freed := 0 } ∧
          m.registers.stack = .nil ∧ m.registers.readQueue = .nil ∧ m.shadow = [] ∧
          m.Offers (Primitive.installed lowlevel) := by
  obtain ⟨m₀, hrun₀, -⟩ := exists_prepared lowlevel 0 [] {} false {}
  have hpacked := (level_prepare hrun₀ hrun₀).packed
  refine ⟨m₀.layout, hpacked, fun slots source sink tracing platform => ⟨not_collects_prepare, ?_⟩⟩
  obtain ⟨m, hrun, hfresh, -, hstack, -, bindings, hbindings, hscope⟩ :=
    exists_prepared lowlevel slots source sink tracing platform
  have hlayout : m.layout = m₀.layout := (level_prepare hrun hrun₀).layout_eq
  have hstats : m.heap.stats = m₀.heap.stats := congrArg Layout.stats hlayout
  have hroom : 2 ≤ m.heap.room := by
    have hblank : Heap.minSlots ≤ (blank slots.toNat source sink tracing platform).heap.room + 1 :=
      Heap.minSlots_le_room_new slots.toNat platform
    have hneed : 8 + 5 * (Primitive.installed lowlevel).length + 3 ≤ Heap.minSlots := by
      cases lowlevel <;> decide
    have hleaves := ((rationed_spends.prepare lowlevel).leaves (by omega) hrun).1
    omega
  refine ⟨m, by simp only [start, hrun], hlayout, hstats.trans hpacked.stats_eq, hstack, hfresh.queue,
    shadow_prepare hrun, hscope.offers hfresh.ready hroom hbindings eq_of_name_eq⟩

end Machine

end PushLisp
