import PushLisp.Proofs.Simulation.Walk

/-!
# Operations under a simulation

Every operation that a program can bring about without raw access agrees with itself under a lawful
simulation. What an operation takes off the stack is held by nobody, so each proof has to show that
such a handle is used before the next allocation, or is among the references of the object allocated.

## Main statements

* `Simulation.Storing.lawful`: the laws about the value stack hold if the stack corresponds like a value.
* `Simulation.agree_define`: environments.
* `Simulation.agree_readTerm`: reading.
* `Simulation.agree_perform`: the builtins without raw access.
-/
namespace PushLisp

/-- A string that cannot be read is no matter of kinds. -/
theorem Source.ne_typeMismatch_of_scanStringFrom {position : ℕ} {decoded rest : Bytes} {f : Fault}
    (h : (scanStringFrom position decoded rest).1 = .error f) (op expected : String)
    (found : Option Kind) : f ≠ .typeMismatch op expected found := by
  fun_induction scanStringFrom position decoded rest <;> grind

namespace Simulation

open Machine

variable {S : Simulation} {α β : Type} {Γ : Held} {w : S.World} {m₁ m₂ : Machine}
  {h₁ h₂ k₁ k₂ : Handle}

/-! ## Registers and pairs -/

/-- Registers may be overwritten with related handles. -/
theorem agree_modifyRegisters (L : S.Coherent) {f₁ f₂ : Registers → Registers} (hrel : S.Rel Γ w m₁ m₂)
    (hr : (f₁ m₁.registers).Alike (S.handle w) (f₂ m₂.registers) (S.stack w))
    (h₁ : m₁.registers.Fixed (f₁ m₁.registers)) (h₂ : m₂.registers.Fixed (f₂ m₂.registers)) :
    S.Agree Γ (S.still w fun _ _ => True) (modifyRegisters f₁) m₁ (modifyRegisters f₂) m₂ :=
  agree_modify_last L (hrel.setRegisters L hr h₁ h₂) rfl ⟨rfl, trivial⟩

/-- Pairs of related values are related. -/
theorem agree_makePair (L : S.Storing) (hrel : S.Rel Γ w m₁ m₂) (h : S.handle w h₁ h₂)
    (k : S.handle w k₁ k₂) :
    S.Agree Γ (fun w' p₁ p₂ => S.handle w' p₁ p₂ ∧ S.handle w' h₁ h₂ ∧ S.handle w' k₁ k₂)
      (makePair h₁ k₁) m₁ (makePair h₂ k₂) m₂ := by
  refine (L.allocate hrel (.pair h k) nofun).imp ?_
  rintro Γ' w' n₁ n₂ p₁ p₂ hΓ - ⟨hp, halike⟩
  cases halike with
  | pair h k => exact ⟨hΓ, hp, h, k⟩

/-! ## Stacks that correspond as values -/

section Stack

variable (L : S.Storing)
  (hstack : ∀ {w m₁ m₂}, S.core w m₁ m₂ → S.handle w m₁.registers.stack m₂.registers.stack)
  (hset : ∀ {w m₁ m₂ h₁ h₂}, S.core w m₁ m₂ → S.handle w h₁ h₂ →
    S.core w { m₁ with registers := { m₁.registers with stack := h₁ } }
      { m₂ with registers := { m₂.registers with stack := h₂ } })
include L hstack hset

/-- Related values are pushed. -/
theorem agree_push_of_stack (hrel : S.Rel Γ w m₁ m₂) (h : S.handle w h₁ h₂) :
    S.Agree Γ S.anything (push h₁) m₁ (push h₂) m₂ := by
  refine agree_getRegisters ?_
  refine (agree_makePair L hrel h (hstack hrel.core)).bind fun hrel ⟨hcell, _⟩ => ?_
  exact agree_modify_last L (hrel.update (hset hrel.core hcell) rfl rfl) rfl trivial

/-- Related values are popped, or there are none on either side. -/
theorem agree_tryPop_of_stack (hrel : S.Rel Γ w m₁ m₂) :
    S.Agree Γ (S.still w (Option.Rel (S.handle w))) tryPop m₁ tryPop m₂ := by
  have hstack := hstack hrel.core
  refine agree_getRegisters ?_
  refine agree_ite (isNil_iff L hrel.core hstack) (fun _ _ => ?_) fun _ _ => ?_
  · exact agree_pure hrel rfl ⟨rfl, .none⟩
  · refine agree_ask L hrel (answers_car L hrel.core hstack) fun top₁ top₂ htop => ?_
    refine agree_ask L hrel (answers_cdr L hrel.core hstack) fun rest₁ rest₂ hrest => ?_
    have hrel' := hrel.update (hset hrel.core hrest) rfl rfl
    exact agree_modify L hrel' (agree_pure hrel' rfl ⟨rfl, .some htop⟩)

theorem agree_pop_of_stack (hrel : S.Rel Γ w m₁ m₂) :
    S.Agree Γ (S.still w (S.handle w)) pop m₁ pop m₂ := by
  refine (agree_tryPop_of_stack L hstack hset hrel).bind_still fun hrel htop => ?_
  cases htop with
  | some htop => exact agree_pure hrel rfl ⟨rfl, htop⟩
  | none => exact agree_fail L nofun hrel

/-- A simulation obeys the laws if the value stacks correspond like values. -/
theorem Storing.lawful : S.Lawful where
  toStoring := L
  push := agree_push_of_stack L hstack hset
  pop := agree_pop_of_stack L hstack hset
  depth {_ m₁ m₂} hcore := by
    have hitems := answers_items L hcore (hstack hcore)
    simp only [stackDepth, stackItems]
    generalize items _ m₁ = r₁ at hitems ⊢
    generalize items _ m₂ = r₂ at hitems ⊢
    cases hitems with
    | ok => exact .ok trivial
    | error htame => exact .error htame
  reflect hrel henv := by
    refine agree_observe L hrel (.performs (hrel.held _ henv)) (agree_getRegisters ?_)
    refine (agree_push_of_stack L hstack hset hrel (hstack hrel.core)).bind fun hrel _ => ?_
    exact agree_pure hrel rfl (hrel.held _ henv)

end Stack

variable (L : S.Lawful)
include L

/-! ## Numbers and lists -/

/-- Numbers that are related are equal. -/
theorem agree_popNumber (hrel : S.Rel Γ w m₁ m₂) :
    S.Agree Γ (S.still w (· = ·)) popNumber m₁ popNumber m₂ := by
  refine (L.pop hrel).bind_still fun hrel htop => ?_
  refine agree_observe L hrel (.uses (.cons htop .nil)) (agree_get ?_)
  exact agree_pure hrel rfl ⟨rfl, numberOrZero_eq L hrel.core htop⟩

theorem agree_pushNumber (n : Int64) (hrel : S.Rel Γ w m₁ m₂) :
    S.Agree Γ S.anything (pushNumber n) m₁ (pushNumber n) m₂ :=
  (L.allocate hrel (.number n) nofun).bind fun hrel ⟨h, _⟩ => L.push hrel h

/-- Values that are held can be put in front of a list. -/
theorem agree_consAll (ps : Held) (hps : ∀ p ∈ ps, p ∈ Γ) (hrel : S.Rel Γ w m₁ m₂)
    (h : S.handle w h₁ h₂) :
    S.Agree Γ S.handle (consAll h₁ (ps.map Prod.fst)) m₁ (consAll h₂ (ps.map Prod.snd)) m₂ := by
  induction ps generalizing w m₁ m₂ h₁ h₂ with
  | nil => exact agree_pure hrel rfl h
  | cons p ps ih =>
    have hp : S.handle w p.1 p.2 := hrel.held p (hps p List.mem_cons_self)
    refine (agree_makePair L.toStoring hrel hp h).bind fun hrel ⟨hlist, _⟩ => ?_
    exact ih (fun q hq => hps q (List.mem_cons_of_mem p hq)) hrel hlist

/-- Lists of related values are related. -/
theorem agree_makeList (ps : Held) (hps : ∀ p ∈ ps, S.handle w p.1 p.2) (hrel : S.Rel Γ w m₁ m₂) :
    S.Agree Γ S.handle (makeList (ps.map Prod.fst)) m₁ (makeList (ps.map Prod.snd)) m₂ := by
  refine (agree_withRoots (V := S.handle) L ps hrel hps fun hrel => ?_).imp fun hΓ _ h => ⟨hΓ, h.1⟩
  rw [← List.map_reverse, ← List.map_reverse]
  refine agree_consAll L ps.reverse (fun p hp => ?_) hrel (L.nil hrel.core)
  exact List.mem_append_left Γ (List.mem_reverse.mp hp)

/-! ## Environments -/

/-- Environments that are related stay so with related keys and values. -/
theorem agree_define {e₁ e₂ : Handle} (hrel : S.Rel Γ w m₁ m₂) (henv : S.handle w e₁ e₂)
    (hkey : S.handle w k₁ k₂) (hvalue : S.handle w h₁ h₂) :
    S.Agree Γ S.handle (define e₁ k₁ h₁) m₁ (define e₂ k₂ h₂) m₂ := by
  have hroot : ∀ p ∈ [(e₁, e₂)], S.handle w p.1 p.2 := by simpa using henv
  have hbinding := agree_withRoots L [(e₁, e₂)] hrel hroot fun hrel =>
    agree_makePair L.toStoring hrel hkey hvalue
  refine hbinding.bind fun hrel ⟨⟨hbinding, _⟩, henv⟩ => ?_
  have henv : S.handle _ e₁ e₂ := henv _ List.mem_cons_self
  exact (agree_makePair L.toStoring hrel hbinding henv).imp fun hΓ _ h => ⟨hΓ, h.1⟩

/-! ## Reading -/

/-- The same word gives related atoms, or the same number. -/
theorem agree_scalar (word : Bytes) (hrel : S.Rel Γ w m₁ m₂) :
    S.Agree Γ S.handle (scalar word) m₁ (scalar word) m₂ := by
  unfold scalar
  split
  · exact (L.allocate hrel (.number _) nofun).imp fun hΓ _ h => ⟨hΓ, h.1⟩
  · exact L.intern word hrel

theorem agree_dequeue (hrel : S.Rel Γ w m₁ m₂) (h : S.handle w h₁ h₂) :
    S.Agree Γ S.handle (dequeue h₁) m₁ (dequeue h₂) m₂ := by
  refine agree_ask L hrel (answers_cdr L hrel.core h) fun rest₁ rest₂ hrest => ?_
  refine (agree_modifyRegisters L hrel ?_ ⟨rfl, rfl, rfl, rfl, rfl⟩
    ⟨rfl, rfl, rfl, rfl, rfl⟩).bind_still fun hrel _ => ?_
  · exact { L.registers hrel.core with readQueue := hrest }
  · exact agree_ask_last L hrel (answers_car L hrel.core h) rfl fun _ _ => id

/-- Operations on the source alone agree. -/
theorem agree_scan {γ : Type} {P : Held → Prop} {V : S.World → α → β → Prop}
    (scan : Source → γ × Source) {f₁ : γ → Run α} {f₂ : γ → Run β} (hrel : S.Rel Γ w m₁ m₂)
    (hf : ∀ {n₁ n₂}, S.Rel Γ w n₁ n₂ →
      S.AgreeIn Γ P V (f₁ (scan m₁.source).1) n₁ (f₂ (scan m₁.source).1) n₂) :
    S.AgreeIn Γ P V
      ((modifyGet fun m => ((scan m.source).1, { m with source := (scan m.source).2 })) >>= f₁) m₁
      ((modifyGet fun m => ((scan m.source).1, { m with source := (scan m.source).2 })) >>= f₂)
      m₂ := by
  have hsource := L.source hrel.core
  have hrel' := hrel.setSource L (scan m₁.source).2
  refine agree_modifyGet L (?_ : S.Rel Γ w _ _) ?_
  · simpa only [hsource] using hrel'
  · simp only [hsource] at hrel' hf ⊢
    exact hf hrel'

theorem agree_peek (hrel : S.Rel Γ w m₁ m₂) : S.Agree Γ (S.still w (· = ·)) peek m₁ peek m₂ :=
  agree_get (agree_pure hrel rfl ⟨rfl, congrArg Source.peek (L.source hrel.core)⟩)

/-- Both sides find the same string, or fail in the same way. -/
theorem agree_takeString (hrel : S.Rel Γ w m₁ m₂) :
    S.Agree Γ (S.still w (· = ·)) takeString m₁ takeString m₂ := by
  refine agree_scan L Source.scanString hrel fun hrel => ?_
  cases hresult : (Source.scanString m₁.source).1 with
  | ok bytes => exact agree_pure hrel rfl ⟨rfl, rfl⟩
  | error f => exact agree_fail L (Source.ne_typeMismatch_of_scanStringFrom hresult) hrel

/-- A directive queues related terms. -/
theorem agree_queueDirective (sign : UInt8) (op : Registers → Handle)
    (hop : ∀ {w} {r₁ r₂ : Registers}, r₁.Alike (S.handle w) r₂ (S.stack w) →
      S.handle w (op r₁) (op r₂))
    (hrel : S.Rel Γ w m₁ m₂) :
    S.Agree Γ S.anything (queueDirective sign op) m₁ (queueDirective sign op) m₂ := by
  refine agree_scan L Source.scanWord hrel fun hrel => ?_
  refine agree_ite Iff.rfl (fun _ _ => ?_) fun _ _ => ?_
  · exact agree_fail_bind L nofun hrel
  · refine (agree_scalar L _ hrel).bind fun hrel hname => agree_getRegisters ?_
    have hregs := L.registers hrel.core
    refine (agree_makeList L [(_, _), (_, _), (_, _)] ?_ hrel).bind fun hrel hqueue => ?_
    · simpa using ⟨hregs.atomQuote, hname, hop hregs⟩
    · refine (agree_modifyRegisters L hrel ?_ ⟨rfl, rfl, rfl, rfl, rfl⟩ ⟨rfl, rfl, rfl, rfl, rfl⟩).imp
        fun h _ _ => ⟨h, trivial⟩
      exact { L.registers hrel.core with readQueue := hqueue }

/-- Lists of related handles. -/
def handles (S : Simulation) (w : S.World) (l₁ l₂ : List Handle) : Prop :=
  ∃ ps : Held, l₁ = ps.map Prod.fst ∧ l₂ = ps.map Prod.snd ∧ ∀ p ∈ ps, S.handle w p.1 p.2

/-- Terms are read alike within a bound. -/
def ReadsTerms (S : Simulation) (n : ℕ) : Prop :=
  ∀ ⦃Γ w m₁ m₂⦄, S.Rel Γ w m₁ m₂ → S.Agree Γ S.handle (readTermFrom n) m₁ (readTermFrom n) m₂

/-- The items of a list are read alike within a bound, if the items read so far are held. -/
def ReadsItems (S : Simulation) (n : ℕ) : Prop :=
  ∀ ⦃Γ w m₁ m₂⦄ (ps : Held), (∀ p ∈ ps, p ∈ Γ) → S.Rel Γ w m₁ m₂ →
    S.AgreeOver Γ S.handles (readItemsFrom n (ps.map Prod.fst)) m₁
      (readItemsFrom n (ps.map Prod.snd)) m₂

/-- The items of a list are read in a scope. -/
theorem agree_readList {n : ℕ} (hitems : S.ReadsItems n) (hrel : S.Rel Γ w m₁ m₂) :
    S.Agree Γ S.handle
      (keepingRoots do
        let items ← readItemsFrom n []
        makeList items) m₁
      (keepingRoots do
        let items ← readItemsFrom n []
        makeList items) m₂ := by
  refine agree_keepingRoots L hrel ((hitems [] nofun hrel).bind ?_)
  rintro Γ' w' _ _ n₁ n₂ hsuf hrel ⟨ps, rfl, rfl, hps⟩
  refine ((agree_makeList L ps hps hrel).imp ?_).of_suffix hsuf
  rintro _ w' n₁ n₂ a₁ a₂ rfl - h
  exact ⟨hsuf, h⟩

/-- Terms are read with one step more. All that the first byte may be is looked at. -/
theorem readsTerms_succ {n : ℕ} (hterms : S.ReadsTerms n) (hitems : S.ReadsItems n) :
    S.ReadsTerms (n + 1) := by
  intro Γ w m₁ m₂ hrel
  rw [readTermFrom]
  have hregs := L.registers hrel.core
  refine agree_getRegisters (agree_ite ?_ (fun _ _ => ?_) fun _ _ => ?_)
  · exact not_congr (L.same hrel.core hregs.readQueue hregs.nil)
  · exact agree_dequeue L hrel hregs.readQueue
  refine agree_scan L (fun s => ((), s.skipBlank)) hrel fun hrel => ?_
  refine (agree_peek L hrel).bind_still fun hrel hc => ?_
  subst hc
  split
  · exact agree_fail L nofun hrel
  have hadvance : ∀ {f₁ f₂ : Unit → Run Handle},
      (∀ {n₁ n₂}, S.Rel Γ w n₁ n₂ → S.Agree Γ S.handle (f₁ ()) n₁ (f₂ ()) n₂) →
      S.Agree Γ S.handle (advance >>= f₁) _ (advance >>= f₂) _ := fun hf =>
    agree_scan L (fun s => ((), s.advance)) hrel hf
  refine agree_ite Iff.rfl (fun _ _ => ?_) fun _ _ => agree_ite Iff.rfl (fun _ _ => ?_) fun _ _ =>
    agree_ite Iff.rfl (fun _ _ => ?_) fun _ _ => agree_ite Iff.rfl (fun _ _ => ?_) fun _ _ =>
    agree_ite Iff.rfl (fun _ _ => ?_) fun _ _ => agree_ite Iff.rfl (fun _ _ => ?_) fun _ _ => ?_
  · exact hadvance fun hrel => agree_pure hrel rfl hregs.atomQuote
  · refine hadvance fun hrel => ?_
    exact (agree_queueDirective L _ _ (fun h => h.atomPush) hrel).bind fun hrel _ => hterms hrel
  · refine hadvance fun hrel => ?_
    exact (agree_queueDirective L _ _ (fun h => h.atomPop) hrel).bind fun hrel _ => hterms hrel
  · exact hadvance fun hrel => agree_readList L hitems hrel
  · refine hadvance fun hrel => (agree_takeString L hrel).bind_still fun hrel hbytes => ?_
    subst hbytes
    exact (L.allocate hrel (.string _) nofun).imp fun hΓ _ h => ⟨hΓ, h.1⟩
  · refine agree_get ?_
    rw [L.source hrel.core]
    exact hadvance fun hrel => agree_fail L nofun hrel
  · exact agree_scan L Source.scanWord hrel fun hrel => agree_scalar L _ hrel

/-- So are items: one is read and held, and then the others. -/
theorem readsItems_succ {n : ℕ} (hterms : S.ReadsTerms n) (hitems : S.ReadsItems n) :
    S.ReadsItems (n + 1) := by
  intro Γ w m₁ m₂ ps hps hrel
  rw [readItemsFrom, readItemsFrom]
  have hregs := L.registers hrel.core
  have hitem : ∀ {l₁ l₂ : Machine}, S.Rel Γ w l₁ l₂ → S.AgreeOver Γ S.handles
      (do let item ← readTermFrom n
          root [item]
          readItemsFrom n (item :: ps.map Prod.fst)) l₁
      (do let item ← readTermFrom n
          root [item]
          readItemsFrom n (item :: ps.map Prod.snd)) l₂ := by
    intro l₁ l₂ hrel
    refine (hterms hrel).bind fun {w' h₁ h₂ _ _} hrel h => ?_
    have hheld := hrel.hold L [(h₁, h₂)] (by simpa using h)
    refine agree_modify L hheld ?_
    refine ((hitems ((h₁, h₂) :: ps) ?_ hheld).imp ?_).of_suffix (List.suffix_cons _ Γ)
    · intro p hp
      rcases List.mem_cons.mp hp with rfl | hp
      · exact List.mem_cons_self
      · exact List.mem_cons_of_mem _ (hps p hp)
    · intro Γ' _ _ _ _ _ hsuf _ hitems
      exact ⟨(List.suffix_cons _ Γ).trans hsuf, hitems⟩
  refine agree_getRegisters (agree_ite ?_ (fun _ _ => ?_) fun _ _ => hitem hrel)
  · exact L.same hrel.core hregs.readQueue hregs.nil
  · refine agree_scan L (fun s => ((), s.skipBlank)) hrel fun hrel => ?_
    refine (agree_peek L hrel).bind_still fun hrel hc => ?_
    subst hc
    refine agree_ite Iff.rfl (fun _ _ => ?_) fun _ _ => hitem hrel
    refine agree_scan L (fun s => ((), s.advance)) hrel fun hrel => ?_
    refine agree_pure hrel (List.suffix_refl Γ) ⟨ps.reverse, ?_, ?_, ?_⟩
    · exact List.map_reverse.symm
    · exact List.map_reverse.symm
    · exact fun p hp => hrel.held p (hps p (List.mem_reverse.mp hp))

/-- The induction is on the bound, for terms and items at once since each calls the other. -/
theorem readsTerms_and_readsItems (n : ℕ) : S.ReadsTerms n ∧ S.ReadsItems n := by
  induction n with
  | zero =>
    constructor
    · exact fun _ _ _ _ hrel => agree_stop L hrel Stop.tame_unfinished
    · exact fun _ _ _ _ ps _ hrel => agree_stop L hrel Stop.tame_unfinished
  | succ n ih => exact ⟨readsTerms_succ L ih.1 ih.2, readsItems_succ L ih.1 ih.2⟩

/-- Both sides have the same bound, since they have the same text. -/
theorem agree_readTerm (hrel : S.Rel Γ w m₁ m₂) :
    S.Agree Γ S.handle readTerm m₁ readTerm m₂ := by
  have hbound : m₁.readBound = m₂.readBound := by rw [readBound, readBound, L.source hrel.core]
  refine agree_get ?_
  rw [hbound]
  exact (readsTerms_and_readsItems L _).1 hrel

/-! ## Builtins -/

theorem agree_arithmetic (f : Int64 → Int64 → Int64) (hrel : S.Rel Γ w m₁ m₂) :
    S.Agree Γ S.anything (arithmetic f) m₁ (arithmetic f) m₂ := by
  refine (agree_popNumber L hrel).bind_still fun hrel hb => ?_
  refine (agree_popNumber L hrel).bind_still fun hrel ha => ?_
  rw [ha, hb]
  exact agree_pushNumber L _ hrel

theorem agree_pushBound (hrel : S.Rel Γ w m₁ m₂) (h : S.handle w h₁ h₂) :
    S.Agree Γ S.anything (pushBound h₁) m₁ (pushBound h₂) m₂ := by
  refine (L.pop hrel).bind_still fun hrel hkey => ?_
  refine agree_observe L hrel (.uses (.cons hkey .nil)) ?_
  exact agree_ask L hrel (answers_lookup L hrel.core h hkey) fun _ _ hvalue => L.push hrel hvalue

theorem agree_popBound (hrel : S.Rel Γ w m₁ m₂) (h : S.handle w h₁ h₂) :
    S.Agree Γ S.handle (popBound h₁) m₁ (popBound h₂) m₂ := by
  refine (L.pop hrel).bind_still fun hrel hkey => ?_
  refine (L.pop hrel).bind_still fun hrel hvalue => ?_
  exact agree_define L hrel h hkey hvalue

theorem agree_consPair (hrel : S.Rel Γ w m₁ m₂) :
    S.Agree Γ S.anything consPair m₁ consPair m₂ := by
  refine (L.pop hrel).bind_still fun hrel hfirst => ?_
  refine (L.pop hrel).bind_still fun hrel hsecond => ?_
  exact (agree_makePair L.toStoring hrel hfirst hsecond).bind fun hrel ⟨hpair, _⟩ => L.push hrel hpair

/-- Two values are the same on one side just if they are on the other. -/
theorem agree_compareTop (hrel : S.Rel Γ w m₁ m₂) :
    S.Agree Γ S.anything compareTop m₁ compareTop m₂ := by
  refine (L.pop hrel).bind_still fun hrel ha => ?_
  refine (L.pop hrel).bind_still fun hrel hb => ?_
  refine agree_observe L hrel (.uses (.cons ha (.cons hb .nil))) (agree_get ?_)
  rw [same_eq L hrel.core ha hb]
  have hregs := L.registers hrel.core
  refine L.push hrel ?_
  split
  · exact hregs.atomTrue
  · exact hregs.nil

/-- The condition is truth on one side just if it is on the other. -/
theorem agree_swapIf (hrel : S.Rel Γ w m₁ m₂) : S.Agree Γ S.anything swapIf m₁ swapIf m₂ := by
  refine (L.pop hrel).bind_still fun hrel hcond => ?_
  refine agree_getRegisters (agree_ite ?_ (fun _ _ => ?_) fun _ _ => ?_)
  · exact L.same hrel.core hcond (L.registers hrel.core).atomTrue
  · refine (L.pop hrel).bind_still fun hrel ha => ?_
    refine (L.pop hrel).bind_still fun {b₁ b₂ _ _} hrel hb => ?_
    -- the value pushed second is held while the first is pushed
    have hroot : ∀ p ∈ [(b₁, b₂)], S.handle w p.1 p.2 := by simpa using hb
    have hfirst := agree_withRoots L [(b₁, b₂)] hrel hroot fun hrel => L.push hrel ha
    exact hfirst.bind fun hrel ⟨_, hb⟩ => L.push hrel (hb _ List.mem_cons_self)
  · exact agree_pure hrel rfl trivial

theorem agree_kindCode (hrel : S.Rel Γ w m₁ m₂) :
    S.Agree Γ S.anything kindCode m₁ kindCode m₂ := by
  refine (L.pop hrel).bind_still fun hrel hvalue => ?_
  refine agree_observe L hrel (.uses (.cons hvalue .nil)) (agree_get ?_)
  obtain ⟨kind, hkind⟩ := Option.isSome_iff_exists.mp (isSome_kind? L hrel.core hvalue)
  rw [← kind?_eq L hrel.core hvalue, hkind]
  exact agree_pushNumber L _ hrel

/-- Both platforms grant the same lengths. -/
theorem agree_newString (hrel : S.Rel Γ w m₁ m₂) :
    S.Agree Γ S.anything newString m₁ newString m₂ := by
  refine (agree_popNumber L hrel).bind_still fun hrel hlength => ?_
  subst hlength
  split
  · exact agree_fail L nofun hrel
  · rename_i n _
    refine agree_get ?_
    rw [L.grants hrel.core]
    split
    · refine (L.allocate hrel (.string _) nofun).bind fun hrel ⟨hstring, _⟩ => ?_
      exact L.push hrel hstring
    · exact agree_fail L nofun hrel

theorem agree_peekString (hrel : S.Rel Γ w m₁ m₂) :
    S.Agree Γ S.anything peekString m₁ peekString m₂ := by
  refine (agree_popNumber L hrel).bind_still fun hrel hoffset => ?_
  refine (L.pop hrel).bind_still fun hrel hstring => ?_
  refine agree_observe L hrel (.uses (.cons hstring .nil)) (agree_get ?_)
  subst hoffset
  obtain ⟨o₁, o₂, ho₁, ho₂, halike⟩ := L.object hrel.core hstring
  rw [ho₁, ho₂, ← mismatch_eq L hrel.core hstring]
  cases halike with
  | string bytes => exact agree_pushNumber L _ hrel
  | _ => exact agree_stop L hrel (tame_mismatch L _ (by decide) hrel.core hstring)

/-- The same byte is written to strings that are related. -/
theorem agree_pokeString (hrel : S.Rel Γ w m₁ m₂) :
    S.Agree Γ S.anything pokeString m₁ pokeString m₂ := by
  refine (agree_popNumber L hrel).bind_still fun hrel hvalue => ?_
  refine (agree_popNumber L hrel).bind_still fun hrel hoffset => ?_
  refine (L.pop hrel).bind_still fun hrel hstring => ?_
  refine agree_observe L hrel (.uses (.cons hstring .nil)) (agree_get ?_)
  subst hvalue hoffset
  obtain ⟨o₁, o₂, ho₁, ho₂, halike⟩ := L.object hrel.core hstring
  rw [ho₁, ho₂, ← mismatch_eq L hrel.core hstring]
  cases halike with
  | string bytes =>
    dsimp only
    split
    · refine agree_set_last L (hrel.update ?_ rfl rfl) rfl trivial
      exact L.putString hrel.core hstring ho₁ ho₂ (by simp)
    · exact agree_pure hrel rfl trivial
  | _ => exact agree_stop L hrel (tame_mismatch L _ (by decide) hrel.core hstring)

/-- What builtins without raw access do agrees, in environments that are held. -/
theorem agree_effect {b : Builtin} (hb : b.isRaw = false) (hstack : b ≠ .stack)
    (hrel : S.Rel Γ w m₁ m₂) (henv : (h₁, h₂) ∈ Γ) :
    S.Agree Γ S.handle (effect b h₁) m₁ (effect b h₂) m₂ := by
  have hlast : ∀ {x₁ x₂ : Run Unit}, S.Agree Γ S.anything x₁ m₁ x₂ m₂ →
      S.Agree Γ S.handle (do x₁; return h₁) m₁ (do x₂; return h₂) m₂ := fun hx =>
    hx.bind fun hrel _ => agree_pure hrel rfl (hrel.held _ henv)
  cases b with
  | push => exact hlast (agree_pushBound L hrel (hrel.held _ henv))
  | pop => exact agree_popBound L hrel (hrel.held _ henv)
  | cons => exact hlast (agree_consPair L hrel)
  | car =>
    refine (L.pop hrel).bind_still fun hrel hpair => ?_
    refine agree_observe L hrel (.uses (.cons hpair .nil)) ?_
    refine agree_ask L hrel (answers_car L hrel.core hpair) fun _ _ hcar => ?_
    exact (L.push hrel hcar).bind fun hrel _ => agree_pure hrel rfl (hrel.held _ henv)
  | cdr =>
    refine (L.pop hrel).bind_still fun hrel hpair => ?_
    refine agree_observe L hrel (.uses (.cons hpair .nil)) ?_
    refine agree_ask L hrel (answers_cdr L hrel.core hpair) fun _ _ hcdr => ?_
    exact (L.push hrel hcdr).bind fun hrel _ => agree_pure hrel rfl (hrel.held _ henv)
  | eq => exact hlast (agree_compareTop L hrel)
  | cswap => exact hlast (agree_swapIf L hrel)
  | tag => exact hlast (agree_kindCode L hrel)
  | read =>
    refine (agree_readTerm L hrel).bind fun hrel hterm => ?_
    exact (L.push hrel hterm).bind fun hrel _ => agree_pure hrel rfl (hrel.held _ henv)
  | print =>
    refine (L.pop hrel).bind_still fun hrel hvalue => ?_
    exact (L.print hrel hvalue).bind fun hrel _ => agree_pure hrel rfl (hrel.held _ henv)
  | stack => exact absurd rfl hstack
  | env => exact hlast (L.push hrel (hrel.held _ henv))
  | sub | mul | nand | shiftLeft | shiftRight => exact hlast (agree_arithmetic L _ hrel)
  | makeString => exact hlast (agree_newString L hrel)
  | stringPeek => exact hlast (agree_peekString L hrel)
  | stringPoke => exact hlast (agree_pokeString L hrel)
  | gc => exact (L.collect hrel).bind fun hrel _ => agree_pure hrel rfl (hrel.held _ henv)
  | stateAddress | readWord | writeWord | objectOfHandle | handleOfObject | memoryView => cases hb

/-- Builtins without raw access agree, in environments that are held. -/
theorem agree_perform {b : Builtin} (hb : b.isRaw = false) (hrel : S.Rel Γ w m₁ m₂)
    (henv : (h₁, h₂) ∈ Γ) : S.Agree Γ S.handle (perform b h₁) m₁ (perform b h₂) m₂ := by
  by_cases hstack : b = .stack
  · subst hstack
    exact L.reflect hrel henv
  · exact agree_observe L hrel (.performs (hrel.held _ henv)) (agree_effect L hb hstack hrel henv)

end Simulation

end PushLisp
