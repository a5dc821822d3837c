import PushLisp.Proofs.ShapedSteps

/-!
# What builtins demand of their operands

Five of the builtins without raw access look at a value that they took off the stack and complain if it is
not of the kind that they ask for. A table says which value that is, and what they complain about. There is
no other complaint about a kind, apart from one about values that are not there at all. And a builtin that
has reason to complain does.

## Main definitions

* `Demand`, `Builtin.demand?`: the kinds that builtins ask for.
* `Machine.Refuses`: a complaint of a builtin about a value on the stack.

## Main statements

* `Machine.shaped_effect`: the builtins leave a machine in shape.
* `Machine.exists_perform_of_refuses`: a complaint is always made.
-/
namespace PushLisp

/-- The kind that an operation asks for of a value on the stack, and how it complains about another. -/
structure Demand where
  op : String
  expected : String
  kind : Kind
  position : ℕ

/-- What builtins without raw access ask for, if anything. -/
def Builtin.demand? : Builtin → Option Demand
  | .push => some ⟨"env_find", "atom key", .atom, 0⟩
  | .car => some ⟨"car", "pair", .pair, 0⟩
  | .cdr => some ⟨"cdr", "pair", .pair, 0⟩
  | .stringPeek => some ⟨"string-peek", "string", .string, 1⟩
  | .stringPoke => some ⟨"string-poke", "string", .string, 2⟩
  | _ => none

namespace Machine

variable {α β : Type} {code : Code} {B : Blame} {m m' : Machine}

/-- A value on the stack, with the number of those above it. -/
def Operand (m : Machine) (position : ℕ) (h : Handle) : Prop :=
  ∃ values, m.heap.Spine m.registers.stack values ∧ values[position]? = some h

/-- A builtin complains about a value on the stack that is not of the kind it asks for. -/
def Refuses (b : Builtin) (m : Machine) (reason : Stop) : Prop :=
  ∃ d h, b.demand? = some d ∧ m.Operand d.position h ∧ m.kind? h ≠ some d.kind ∧
    reason = m.mismatch d.op d.expected h

theorem kind?_congr {h : Handle} (hheap : m'.heap = m.heap) : m'.kind? h = m.kind? h := by
  rw [kind?, kind?, object?, object?, hheap]

theorem mismatch_congr {op expected : String} {h : Handle} (hheap : m'.heap = m.heap) :
    m'.mismatch op expected h = m.mismatch op expected h := by
  rw [mismatch, mismatch, kind?_congr hheap]

section Popped

variable {value h : Handle} {i : ℕ}

theorem Popped.operand (hpopped : Popped m value m') (hm' : m'.Shapely code) : m.Operand 0 value := by
  obtain ⟨values, hspine⟩ := hm'.stack
  refine ⟨value :: values, .cons hpopped.object?_eq ?_, rfl⟩
  rw [hpopped.rest_eq] at hspine
  exact hspine

theorem Popped.operand_succ (hpopped : Popped m value m') (hh : m'.Operand i h) : m.Operand (i + 1) h := by
  obtain ⟨values, hspine, hi⟩ := hh
  refine ⟨value :: values, .cons hpopped.object?_eq ?_, hi⟩
  rw [hpopped.rest_eq] at hspine
  exact hspine

end Popped

theorem shaped_arithmetic (f : Int64 → Int64 → Int64) : Shaped code B (arithmetic f) m :=
  shaped_popNumber.bind fun _ _ => shaped_popNumber.bind fun _ _ => shaped_pushNumber _

theorem shaped_popBound {env : Handle} (henv : m.heap.IsScope env) :
    Shaped code B (popBound env) m fun env' n => n.heap.IsScope env' := by
  apply shaped_pop.bind
  intro key m₁ _ hpopped₁
  apply shaped_pop.bind
  intro value m₂ _ hpopped₂
  apply shaped_define
  rw [hpopped₂.rest_eq, hpopped₁.rest_eq]
  exact henv

theorem shaped_consPair : Shaped code B consPair m := by
  apply shaped_pop.bind
  intro first _ _ _
  apply shaped_pop.bind
  intro second _ _ _
  exact (shaped_makePair first second).bind fun _ _ => shaped_push _

theorem shaped_compareTop : Shaped code B compareTop m := by
  apply shaped_pop.bind
  intro a _ _ _
  apply shaped_pop.bind
  intro b _ _ _
  apply (shaped_uses [a, b]).bind
  intro _ _ _ _
  exact shaped_get (shaped_push _)

theorem shaped_swapIf : Shaped code B swapIf m := by
  apply shaped_pop.bind
  intro condition _ _ _
  apply shaped_getRegisters
  split
  · apply shaped_pop.bind
    intro a _ _ _
    apply shaped_pop.bind
    intro b m₁ _ _
    have hpush : Shaped code B (withRoots [b] (push a)) m₁ := Shaped.withRoots (shaped_push a)
    exact hpush.bind fun _ _ => shaped_push b
  · exact shaped_pure trivial

theorem shaped_kindCode (htag : ∀ found P, B.on P (.fault (.typeMismatch "tag" "object" found))) :
    Shaped code B kindCode m := by
  apply shaped_popUsing
  intro value n _
  apply shaped_get
  split
  · exact shaped_pushNumber _
  · exact shaped_get (shaped_stop fun _ => htag _)

theorem shaped_newString : Shaped code B newString m := by
  apply shaped_popNumber.bind
  intro length _ _ _
  cases natural? length with
  | none => exact shaped_fail id
  | some n =>
    apply shaped_get
    split
    · exact (shaped_make (.string (.zeroed n)) trivial (by simp [Object.kind])).bind fun _ _ => shaped_push _
    · exact shaped_fail id

theorem exists_pair_of_kind? {h : Handle} (hkind : m.kind? h = some .pair) :
    ∃ a d, m.object? h = some (.pair a d) := by
  obtain ⟨o, ho, hkind⟩ := Option.map_eq_some_iff.mp hkind
  cases o <;> simp_all [Object.kind]

theorem car_eq_error {h : Handle} (hkind : m.kind? h ≠ some .pair) :
    car h m = .error (m.mismatch "car" "pair" h) := by
  unfold car
  split
  · rename_i ho
    simp [kind?, ho, Object.kind] at hkind
  · rfl

theorem cdr_eq_error {h : Handle} (hkind : m.kind? h ≠ some .pair) :
    cdr h m = .error (m.mismatch "cdr" "pair" h) := by
  unfold cdr
  split
  · rename_i ho
    simp [kind?, ho, Object.kind] at hkind
  · rfl

/-- A component is refused of anything but a pair. -/
theorem car_error {h : Handle} {reason : Stop} (herror : car h m = .error reason) :
    m.kind? h ≠ some .pair ∧ reason = m.mismatch "car" "pair" h := by
  have hkind : m.kind? h ≠ some .pair := by
    intro hkind
    obtain ⟨a, d, ho⟩ := exists_pair_of_kind? hkind
    simp [car, ho] at herror
  rw [car_eq_error hkind] at herror
  exact ⟨hkind, (Except.error.inj herror).symm⟩

theorem cdr_error {h : Handle} {reason : Stop} (herror : cdr h m = .error reason) :
    m.kind? h ≠ some .pair ∧ reason = m.mismatch "cdr" "pair" h := by
  have hkind : m.kind? h ≠ some .pair := by
    intro hkind
    obtain ⟨a, d, ho⟩ := exists_pair_of_kind? hkind
    simp [cdr, ho] at herror
  rw [cdr_eq_error hkind] at herror
  exact ⟨hkind, (Except.error.inj herror).symm⟩

section Demands

variable {b : Builtin} {d : Demand}

/-- A question about the value on top of the stack may be refused as a builtin demands. -/
theorem shaped_popAsk {question : Handle → Machine → Except Stop Handle} {f : Handle → Run α}
    {Q : α → Machine → Prop} (hd : b.demand? = some d) (hposition : d.position = 0)
    (hblame : ∀ {reason}, Refuses b m reason → ∀ P, B.on P reason)
    (hquestion : ∀ {h n reason}, Popped m h n → question h n = .error reason → reason.IsMismatch →
      n.kind? h ≠ some d.kind ∧ reason = n.mismatch d.op d.expected h)
    (hf : ∀ {answer n}, Shaped code B (f answer) n Q) :
    Shaped code B (do
      let value ← pop
      observe (.uses [value])
      let answer ← ask (question value)
      f answer) m Q := by
  apply shaped_popUsing
  intro value n hpopped
  refine Shaped.bind (shaped_ask fun hn reason herror hmismatch => hblame ?_) fun _ _ => hf
  obtain ⟨hkind, rfl⟩ := hquestion hpopped herror hmismatch
  rw [kind?_congr hpopped.heap_eq] at hkind
  exact ⟨d, value, hd, hposition ▸ hpopped.operand hn, hkind, mismatch_congr hpopped.heap_eq⟩

theorem kind?_of_not_string {h : Handle} (hstring : ∀ buffer, m.object? h ≠ some (.string buffer)) :
    m.kind? h ≠ some .string := by
  intro hkind
  obtain ⟨o, ho, hkind⟩ := Option.map_eq_some_iff.mp hkind
  cases o <;> simp_all [Object.kind]

theorem shaped_peekString (hblame : ∀ {reason}, Refuses .stringPeek m reason → ∀ P, B.on P reason) :
    Shaped code B peekString m := by
  apply shaped_popNumber.bind
  intro offset m₁ _ hm₁
  obtain ⟨_, hpopped₁⟩ := hm₁
  apply shaped_popUsing
  intro string m₂ hpopped₂
  apply shaped_get
  split
  · exact shaped_pushNumber _
  · rename_i hstring
    apply Shaped.of_shapely
    intro hm₂
    refine shaped_stop fun _ => hblame ⟨_, string, rfl, ?_, ?_, ?_⟩
    · exact hpopped₁.operand_succ (hpopped₂.operand hm₂)
    · rw [← kind?_congr hpopped₁.heap_eq, ← kind?_congr hpopped₂.heap_eq]
      exact kind?_of_not_string hstring
    · rw [mismatch_congr hpopped₂.heap_eq, mismatch_congr hpopped₁.heap_eq]

theorem shaped_pokeString (hblame : ∀ {reason}, Refuses .stringPoke m reason → ∀ P, B.on P reason) :
    Shaped code B pokeString m := by
  apply shaped_popNumber.bind
  intro byte m₁ _ hm₁
  obtain ⟨_, hpopped₁⟩ := hm₁
  apply shaped_popNumber.bind
  intro offset m₂ _ hm₂
  obtain ⟨_, hpopped₂⟩ := hm₂
  apply shaped_popUsing
  intro string m₃ hpopped₃
  apply shaped_get
  split
  · rename_i buffer hstring
    split
    · -- without raw access the string owns its bytes
      apply Shaped.of_shapely
      intro hm₃
      have hplain := hm₃.plain hstring
      cases buffer with
      | owned bytes =>
        refine shaped_of_ok rfl ?_ (fun hm => hm.putString hstring (by simp)) trivial
        rintro hm t rfl
        exact ⟨⟨hm.putString hstring (by simp), nofun⟩, nofun⟩
      | view address length => exact hplain.elim
    · exact shaped_pure trivial
  · rename_i hstring
    apply Shaped.of_shapely
    intro hm₃
    refine shaped_stop fun _ => hblame ⟨_, string, rfl, ?_, ?_, ?_⟩
    · exact hpopped₁.operand_succ (hpopped₂.operand_succ (hpopped₃.operand hm₃))
    · rw [← kind?_congr hpopped₁.heap_eq, ← kind?_congr hpopped₂.heap_eq, ← kind?_congr hpopped₃.heap_eq]
      exact kind?_of_not_string hstring
    · rw [mismatch_congr hpopped₃.heap_eq, mismatch_congr hpopped₂.heap_eq, mismatch_congr hpopped₁.heap_eq]

end Demands

/-- The builtins without raw access leave a machine in shape. Only a binding changes the environment, and
then to another one in shape. -/
theorem shaped_effect {b : Builtin} {env : Handle} (hraw : b.isRaw = false) (henv : m.heap.IsScope env)
    (hblame : ∀ {reason}, Refuses b m reason → ∀ P, B.on P reason)
    (htag : ∀ found P, B.on P (.fault (.typeMismatch "tag" "object" found))) :
    Shaped code B (effect b env) m fun env' n => env' = env ∨ n.heap.IsScope env' := by
  have hlast : ∀ {act : Run Unit} {m : Machine}, Shaped code B act m →
      Shaped code B (do act; return env) m fun env' n => env' = env ∨ n.heap.IsScope env' :=
    fun hact => hact.bind fun _ _ => shaped_pure (.inl rfl)
  cases b with
  | push =>
    refine hlast (shaped_popAsk rfl rfl hblame ?_ (shaped_push _))
    intro key n reason hpopped herror hmismatch
    have hscope : n.heap.IsScope env := by
      rw [hpopped.rest_eq]
      exact henv
    exact lookup_error hscope herror hmismatch
  | pop => exact (shaped_popBound henv).imp fun _ _ hscope => .inr hscope
  | cons => exact hlast shaped_consPair
  | car => exact shaped_popAsk rfl rfl hblame (fun _ herror _ => car_error herror) (hlast (shaped_push _))
  | cdr => exact shaped_popAsk rfl rfl hblame (fun _ herror _ => cdr_error herror) (hlast (shaped_push _))
  | eq => exact hlast shaped_compareTop
  | cswap => exact hlast shaped_swapIf
  | tag => exact hlast (shaped_kindCode htag)
  | read => exact shaped_readTerm.bind fun _ _ => hlast (shaped_push _)
  | print => exact shaped_pop.bind fun _ _ => hlast (shaped_printValue _)
  | stack => exact shaped_getRegisters (hlast (shaped_push _))
  | env => exact hlast (shaped_push env)
  | sub | mul | nand | shiftLeft | shiftRight => exact hlast (shaped_arithmetic _)
  | makeString => exact hlast shaped_newString
  | stringPeek => exact hlast (shaped_peekString hblame)
  | stringPoke => exact hlast (shaped_pokeString hblame)
  | gc => exact shaped_collect.bind fun _ _ => shaped_pure (.inl rfl)
  | stateAddress | readWord | writeWord | objectOfHandle | handleOfObject | memoryView => cases hraw

/-! ## Complaints that are made -/

/-- A value on the stack is popped once those above it have been. -/
theorem Operand.run_pop {i : ℕ} {h : Handle} (hnil : m.object? .nil = some .nil) (hh : m.Operand i h) :
    ∃ top m', pop m = .ok top m' ∧ m'.heap = m.heap ∧ (i = 0 → top = h) ∧
      ∀ j, i = j + 1 → m'.Operand j h := by
  obtain ⟨values, hspine, hi⟩ := hh
  generalize hstack : m.registers.stack = stack at hspine
  cases hspine with
  | nil => simp at hi
  | @cons _ top rest values ho hrest =>
    rw [← hstack] at ho
    refine ⟨top, _, Machine.run_pop hnil ho, rfl, ?_, ?_⟩
    · rintro rfl
      simpa using hi
    · rintro j rfl
      exact ⟨values, hrest, by simpa using hi⟩

theorem run_popUsing {f : Handle → Run α} {value : Handle} (hrun : pop m = .ok value m') :
    (do
      let value ← pop
      observe (.uses [value])
      f value : Run α) m = f value m' :=
  (Run.run_bind_of_ok hrun).trans (Run.run_bind_of_ok rfl)

section Complaints

variable {env h : Handle}

theorem lookup_eq_error (hkind : m.kind? h ≠ some .atom) :
    lookup env h m = .error (m.mismatch "env_find" "atom key" h) := by
  unfold lookup
  split
  · rfl
  · rename_i hatom
    rw [atom?_eq_some_iff] at hatom
    simp [kind?, hatom, Object.kind] at hkind

/-- A question about the top of the stack that is refused. -/
theorem exists_run_popAsk {question : Handle → Machine → Except Stop Handle} {f : Handle → Run α}
    {op expected : String} (hnil : m.object? .nil = some .nil) (hh : m.Operand 0 h)
    (hquestion : ∀ {n : Machine}, n.heap = m.heap → question h n = .error (n.mismatch op expected h)) :
    ∃ m', (do
      let value ← pop
      observe (.uses [value])
      let answer ← ask (question value)
      f answer : Run α) m = .error (m.mismatch op expected h) m' := by
  obtain ⟨top, m', hrun, hheap, htop, -⟩ := hh.run_pop hnil
  cases htop rfl
  have hask : (ask (question h)).run m' = .error (m.mismatch op expected h) m' := by
    simp only [ask, hquestion hheap, mismatch_congr hheap]
  exact ⟨m', (run_popUsing hrun).trans (Run.run_bind_of_error hask)⟩

/-- A number is taken off the stack above a value. -/
theorem Operand.run_popNumber {i : ℕ} (hnil : m.object? .nil = some .nil) (hh : m.Operand (i + 1) h) :
    ∃ n m', popNumber m = .ok n m' ∧ m'.heap = m.heap ∧ m'.Operand i h := by
  obtain ⟨top, m', hrun, hheap, -, hrest⟩ := hh.run_pop hnil
  exact ⟨_, m', run_popUsing hrun, hheap, hrest i rfl⟩

/-- An operation that asks for a string on top of the stack. -/
theorem exists_run_popString {f : Handle → Machine → Buffer → Run Unit} {op : String}
    (hnil : m.object? .nil = some .nil) (hh : m.Operand 0 h) (hkind : m.kind? h ≠ some .string) :
    ∃ m', (do
      let string ← pop
      observe (.uses [string])
      let m ← get
      match m.object? string with
      | some (.string buffer) => f string m buffer
      | _ => stop (m.mismatch op "string" string) : Run Unit) m = .error (m.mismatch op "string" h) m' := by
  obtain ⟨top, m', hrun, hheap, htop, -⟩ := hh.run_pop hnil
  cases htop rfl
  refine ⟨m', (run_popUsing hrun).trans ((Run.run_bind_of_ok (x := (get : Run Machine)) rfl).trans ?_)⟩
  rw [← kind?_congr hheap] at hkind
  rw [← mismatch_congr hheap]
  split
  · rename_i ho
    simp [kind?, ho, Object.kind] at hkind
  · rfl

/-- A builtin that has reason to complain does. -/
theorem exists_perform_of_refuses {b : Builtin} {reason : Stop} (hnil : m.object? .nil = some .nil)
    (h : Refuses b m reason) (env : Handle) : ∃ m', perform b env m = .error reason m' := by
  obtain ⟨d, value, hd, hvalue, hkind, rfl⟩ := h
  have hthen : ∀ {act : Run Unit} {reason : Stop} {m' : Machine}, act m = .error reason m' →
      (do act; return env : Run Handle) m = .error reason m' := fun hrun => Run.run_bind_of_error hrun
  suffices heffect : ∃ m', effect b env m = .error (m.mismatch d.op d.expected value) m' by
    obtain ⟨m', hrun⟩ := heffect
    exact ⟨m', (Run.run_bind_of_ok rfl).trans hrun⟩
  cases b with
  | push =>
    cases hd
    have hbound : ∃ m', pushBound env m = .error (m.mismatch "env_find" "atom key" value) m' := by
      refine exists_run_popAsk hnil hvalue fun hheap => lookup_eq_error ?_
      rwa [kind?_congr hheap]
    obtain ⟨m', hrun⟩ := hbound
    exact ⟨m', hthen hrun⟩
  | car =>
    cases hd
    refine exists_run_popAsk hnil hvalue fun hheap => car_eq_error ?_
    rwa [kind?_congr hheap]
  | cdr =>
    cases hd
    refine exists_run_popAsk hnil hvalue fun hheap => cdr_eq_error ?_
    rwa [kind?_congr hheap]
  | stringPeek =>
    cases hd
    obtain ⟨offset, m₁, hrun₁, hheap₁, hvalue₁⟩ := hvalue.run_popNumber hnil
    rw [← kind?_congr hheap₁] at hkind
    rw [← mismatch_congr hheap₁]
    have hpeek : ∃ m', peekString m = .error (m₁.mismatch "string-peek" "string" value) m' := by
      rw [object?, ← hheap₁] at hnil
      exact (exists_run_popString hnil hvalue₁ hkind).imp fun m' hrun => (Run.run_bind_of_ok hrun₁).trans hrun
    obtain ⟨m', hrun⟩ := hpeek
    exact ⟨m', hthen hrun⟩
  | stringPoke =>
    cases hd
    obtain ⟨byte, m₁, hrun₁, hheap₁, hvalue₁⟩ := hvalue.run_popNumber hnil
    rw [object?, ← hheap₁] at hnil
    obtain ⟨offset, m₂, hrun₂, hheap₂, hvalue₂⟩ := hvalue₁.run_popNumber hnil
    rw [← hheap₂] at hnil
    rw [← kind?_congr hheap₁, ← kind?_congr hheap₂] at hkind
    rw [← mismatch_congr hheap₁, ← mismatch_congr hheap₂]
    have hpoke : ∃ m', pokeString m = .error (m₂.mismatch "string-poke" "string" value) m' :=
      (exists_run_popString hnil hvalue₂ hkind).imp fun m' hrun =>
        (Run.run_bind_of_ok hrun₁).trans ((Run.run_bind_of_ok hrun₂).trans hrun)
    obtain ⟨m', hrun⟩ := hpoke
    exact ⟨m', hthen hrun⟩
  | _ => cases hd

end Complaints

end Machine

end PushLisp
