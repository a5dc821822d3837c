import PushLisp.Proofs.Calls

/-!
# The identity of atoms

Names are compared by handle, which is right because each spelling has one atom. The registry holds every
atom that anything refers to, so two such atoms are the same if their spellings are. Interning a spelling
gives the same atom as long as the machine runs, whatever is collected or fails in between. Looking up a
name by its atom therefore finds what comparing spellings finds.

## Main statements

* `Machine.Canonical.known_of_reaches`: what is reached is registered.
* `Machine.Registered.eq_iff`: handles of atoms are equal if spellings are.
* `Machine.Scope.global_eq`, `Machine.Scope.lookup_eq`: the value of a name, by spelling and by handle.
* `Machine.atom_identity`: all of this after any calls.
-/
namespace PushLisp.Machine

variable {poking : Prop} {base : List Handle} {m m' : Machine} {h k : Handle}
  {env : Handle} {bindings : List (Bytes × Handle)}

/-! ## Registered atoms -/

/-- All that the roots lead to is known. -/
theorem Canonical.known_of_reaches (hm : m.Canonical) (hh : m.heap.Reaches m.roots h) : m.Known h := by
  induction hh with
  | root hmem => exact hm.roots _ hmem
  | reference _ ho hk => exact hm.cells ho _ hk

/-- Registered atoms are the same if their spellings are. -/
theorem Registered.eq_iff {s t : Bytes} (hnil : m.object? .nil = some .nil) (hh : m.Registered h s)
    (hk : m.Registered k t) : h = k ↔ s = t := by
  constructor
  · rintro rfl
    cases hh.object?_eq.symm.trans hk.object?_eq
    rfl
  · rintro rfl
    obtain ⟨entries, henrolled, hmem⟩ := hh
    obtain ⟨entries', henrolled', hmem'⟩ := hk
    rw [henrolled'.unique hnil henrolled] at hmem'
    have hsame := List.inj_on_of_nodup_map henrolled.nodup hmem hmem' rfl
    exact congrArg Prod.fst hsame

/-- An atom that was interned is registered. -/
theorem registered_of_intern {spelling : Bytes} (hready : Ready poking base m)
    (hrun : intern spelling m = .ok h m') : m'.Registered h spelling := by
  obtain ⟨entries, henrolled⟩ := hready.enrolled
  rcases intern_cases hready henrolled spelling with
    ⟨atom, hrun', hmem⟩ | ⟨atom, n, hrun', henters⟩ | ⟨n, hrun', -⟩
  · cases hrun'.symm.trans hrun
    exact ⟨entries, henrolled, hmem⟩
  · cases hrun'.symm.trans hrun
    exact ⟨_, henters.enrolled, List.mem_cons_self⟩
  · cases hrun'.symm.trans hrun

/-- A registered atom is found again. -/
theorem Registered.intern_eq {spelling : Bytes} (hready : Ready poking base m)
    (hh : m.Registered h spelling) :
    intern spelling m = .ok h m := by
  have hregistered := hh
  obtain ⟨entries, henrolled, hmem⟩ := hh
  obtain ⟨e, hfind⟩ : ∃ e, entries.find? (fun e => e.2 = spelling) = some e := by
    rw [← Option.isSome_iff_exists, List.find?_isSome]
    exact ⟨_, hmem, by simp⟩
  have hspelling : e.2 = spelling := by simpa using List.find?_some hfind
  have he : m.Registered e.1 e.2 := ⟨entries, henrolled, List.mem_of_find?_eq_some hfind⟩
  have hask : (ask (findAtom spelling)).run m = .ok (some h) m := by
    rw [← (he.eq_iff hready.object?_nil hregistered).mpr hspelling]
    simp only [ask, findAtom_of_enrolled hready.object?_nil henrolled, hfind, Option.map_some]
  exact Run.run_bind_of_ok hask

/-! ## The value of a name -/

/-- The first binding of a spelling. -/
def valueOf (name : Bytes) (bindings : List (Bytes × Handle)) : Option Handle :=
  (bindings.find? fun e => e.1 = name).map Prod.snd

theorem valueOf_cons (name spelling : Bytes) (value : Handle) (bindings : List (Bytes × Handle)) :
    valueOf name ((spelling, value) :: bindings) =
      if spelling = name then some value else valueOf name bindings := by
  by_cases hs : spelling = name <;> simp [valueOf, hs]

/-- An environment is no longer than the table. -/
theorem Scope.length_lt (hnil : m.object? .nil = some .nil) (hscope : Scope m env bindings) :
    bindings.length < m.walkBound := by
  have hspine : ∃ hs, m.heap.Spine env hs ∧ hs.length = bindings.length := by
    clear hnil
    induction hscope with
    | nil => exact ⟨[], .nil, rfl⟩
    | binding henv _ _ _ ih =>
      obtain ⟨hs, hspine, hlength⟩ := ih
      exact ⟨_ :: hs, .cons henv hspine, by simp [hlength]⟩
  obtain ⟨hs, hspine, hlength⟩ := hspine
  have hcapacity := hspine.length_le_capacity hnil
  rw [walkBound]
  omega

theorem Scope.globalFrom_eq (hnil : m.object? .nil = some .nil) (hscope : Scope m env bindings)
    (name : Bytes) {n : ℕ} (hn : bindings.length < n) :
    globalFrom m name n env = .ok (valueOf name bindings) := by
  induction hscope generalizing n with
  | nil =>
    obtain ⟨n, rfl⟩ : ∃ j, n = j + 1 := ⟨n - 1, by omega⟩
    simp [globalFrom, hnil, valueOf]
  | @binding env binding rest key value spelling bindings henv hbinding hkey _ ih =>
    obtain ⟨n, rfl⟩ : ∃ j, n = j + 1 := ⟨n - 1, by omega⟩
    rw [List.length_cons] at hn
    have hatom : m.atom? key = some spelling := atom?_eq_some_iff.mpr hkey.object?_eq
    rw [valueOf_cons]
    by_cases hs : spelling = name
    · simp [globalFrom, henv, hbinding, hatom, hs]
    · simpa [globalFrom, henv, hbinding, hatom, hs] using ih (by omega)

/-- Comparing spellings finds the first binding of a name. -/
theorem Scope.global_eq (hnil : m.object? .nil = some .nil) (hscope : Scope m m.registers.env bindings)
    (name : Bytes) : global name m = .ok (valueOf name bindings) :=
  hscope.globalFrom_eq hnil name (hscope.length_lt hnil)

theorem car_of_pair {car cdr : Handle} (ho : m.object? h = some (.pair car cdr)) :
    Machine.car h m = .ok car := by
  rw [Machine.car, ho]

theorem cdr_of_pair {car cdr : Handle} (ho : m.object? h = some (.pair car cdr)) :
    Machine.cdr h m = .ok cdr := by
  rw [Machine.cdr, ho]

/-- What looking up a name should answer. -/
def orUnbound (name : Bytes) : Option Handle → Except Stop Handle
  | some value => .ok value
  | none => .error (.fault (.unbound name))

/-- A key is looked up in the first binding of an environment, and then in the others. -/
theorem lookupFrom_of_pair {binding rest key value : Handle} (hnil : m.object? .nil = some .nil)
    (henv : m.object? env = some (.pair binding rest)) (hbinding : m.object? binding = some (.pair key value))
    (name : Bytes) (n : ℕ) : lookupFrom m k name (n + 1) env =
      if key = k then .ok value else lookupFrom m k name n rest := by
  have hne : ¬ env.isNil = true := by
    intro hempty
    rw [(Handle.isNil_iff env).mp hempty] at henv
    cases hnil.symm.trans henv
  rw [lookupFrom, if_neg hne, car_of_pair henv, cdr_of_pair henv]
  simp only [bind, Except.bind, car_of_pair hbinding, cdr_of_pair hbinding]

theorem Scope.lookupFrom_eq (hnil : m.object? .nil = some .nil) (hscope : Scope m env bindings)
    {name : Bytes} (hk : m.Registered k name) {n : ℕ} (hn : bindings.length < n) :
    lookupFrom m k name n env = orUnbound name (valueOf name bindings) := by
  induction hscope generalizing n with
  | nil =>
    obtain ⟨n, rfl⟩ : ∃ j, n = j + 1 := ⟨n - 1, by omega⟩
    rw [lookupFrom, if_pos (by decide)]
    rfl
  | @binding env binding rest key value spelling bindings henv hbinding hkey _ ih =>
    obtain ⟨n, rfl⟩ : ∃ j, n = j + 1 := ⟨n - 1, by omega⟩
    rw [List.length_cons] at hn
    rw [lookupFrom_of_pair hnil henv hbinding, valueOf_cons]
    -- the keys are registered, so comparing handles is comparing spellings
    by_cases hs : spelling = name
    · rw [if_pos ((hkey.eq_iff hnil hk).mpr hs), if_pos hs]
      rfl
    · rw [if_neg (mt (hkey.eq_iff hnil hk).mp hs), if_neg hs]
      exact ih (by omega)

/-- Comparing handles finds the first binding of a name. -/
theorem Scope.lookup_eq (hnil : m.object? .nil = some .nil) (hscope : Scope m env bindings)
    {name : Bytes} (hk : m.Registered k name) : lookup env k m = orUnbound name (valueOf name bindings) := by
  have hatom : m.atom? k = some name := atom?_eq_some_iff.mpr hk.object?_eq
  rw [lookup, hatom]
  exact hscope.lookupFrom_eq hnil hk (hscope.length_lt hnil)

/-! ## After any calls -/

/-- After any calls on a machine without raw access, however they ended, the registry lists atoms with
different spellings, among them every atom that the roots lead to. So atoms that can be met are the same
exactly if their spellings are. Whenever interning succeeds it gives the same atom for the same spelling
and different atoms for different spellings, whatever is called in between. Looking up an interned name by
its handle in the initial environment answers as comparing spellings does. -/
theorem atom_identity (slots : UInt64) (source : Bytes) (sink : Sink) (tracing : Bool) (platform : Platform)
    (calls : List Call) :
    ∃ m entries, after (history calls) (blank slots.toNat source sink tracing platform) = m ∧
      m.heap.Enrolled m.registers.registry entries ∧
      (∀ {h s}, m.heap.Reaches m.roots h → m.object? h = some (.atom s) → (h, s) ∈ entries) ∧
      (∀ {h k s t}, m.heap.Reaches m.roots h → m.object? h = some (.atom s) →
        m.heap.Reaches m.roots k → m.object? k = some (.atom t) → (h = k ↔ s = t)) ∧
      (∀ {s t h k m₁ m₂ later}, intern s m = .ok h m₁ → intern t (after (serve later) m₁) = .ok k m₂ →
        (h = k ↔ s = t)) ∧
      ∀ {name k m₁}, intern name m = .ok k m₁ → ∃ value, global name m = .ok value ∧
        global name m₁ = .ok value ∧ lookup m₁.registers.env k m₁ = orUnbound name value := by
  have hm := orderly_history slots source sink tracing platform calls
  generalize after (history calls) (blank slots.toNat source sink tracing platform) = m at hm
  have hnil := hm.intact.sound.object?_nil
  obtain ⟨entries, henrolled⟩ := hm.canonical.enrolled
  have hregistered : ∀ {h s}, m.heap.Reaches m.roots h → m.object? h = some (.atom s) →
      m.Registered h s := fun hh ho => (hm.canonical.known_of_reaches hh).registered ho
  -- what interning leaves can be relied on, and has left alone what it should
  have hintern : ∀ {s h m₁}, intern s m = .ok h m₁ →
      Ready True m.shadow m₁ ∧ Lasts True m.shadow m m₁ ∧ m₁.Registered h s := by
    intro s h m₁ hrun
    have hlasting : Lasting True m.shadow (intern s) m := lasting_intern s
    obtain ⟨hready, hlasts, -⟩ := hlasting hm.ready
    rw [after_of_ok hrun] at hready hlasts
    exact ⟨hready, hlasts, registered_of_intern hm.ready hrun⟩
  refine ⟨m, entries, rfl, henrolled, ?_, ?_, ?_, ?_⟩
  · intro h s hh ho
    obtain ⟨entries', henrolled', hmem⟩ := hregistered hh ho
    rwa [henrolled'.unique hnil henrolled] at hmem
  · intro h k s t hh hs hk ht
    exact (hregistered hh hs).eq_iff hnil (hregistered hk ht)
  · intro s t h k m₁ m₂ later hrun hrun'
    obtain ⟨hready₁, -, hh⟩ := hintern hrun
    have hlater : Lasting True m.shadow (serve later) m₁ :=
      (compositional_lasting True).serve fun _ _ => trivial
    obtain ⟨hready, hlasts, -⟩ := hlater hready₁
    have hlast : Lasting True m.shadow (intern t) (after (serve later) m₁) := lasting_intern t
    obtain ⟨hready₂, hlasts₂, -⟩ := hlast hready
    rw [after_of_ok hrun'] at hready₂ hlasts₂
    exact ((hh.lasts hlasts).lasts hlasts₂).eq_iff hready₂.object?_nil (registered_of_intern hready hrun')
  · intro name k m₁ hrun
    obtain ⟨hready, hlasts, hk⟩ := hintern hrun
    obtain ⟨bindings, hscope⟩ := hm.scope
    have hscope₁ : Scope m₁ m₁.registers.env bindings := by
      rw [hlasts.env_eq]
      exact hscope.lasts (anchored_of_mem_constants (by simp [Registers.constants])) hlasts
    exact ⟨valueOf name bindings, hscope.global_eq hnil name, hscope₁.global_eq hready.object?_nil name,
      hscope₁.lookup_eq hready.object?_nil hk⟩

end PushLisp.Machine
