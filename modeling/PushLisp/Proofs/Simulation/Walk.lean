import PushLisp.Proofs.Simulation.Laws
import PushLisp.Proofs.Walks

/-!
# Questions under a simulation

Looking a name up, counting a list, finding an atom and writing a value out all walk along references.
From corresponding handles they meet objects that are alike, so within the same bound they answer
alike. The bounds come from the sizes of the two tables and may differ, but they are enough for both.

## Main definitions

* `Machine.Shown`, `Machine.ShowsClosure`: what is met when a value is written out.
* `Simulation.SinksAlike`: how outputs correspond.

## Main statements

* `Simulation.Answers.of_settles`: the bounds of two walks need not be equal.
* `Simulation.answers_lookup`, `Simulation.answers_findAtom`, `Simulation.answers_items`.
* `Simulation.answers_pieces`: the pieces of corresponding values differ only if a closure is met.
* `Simulation.agree_write`, `Simulation.agree_printValue`: output, given how the sinks correspond.
-/
namespace PushLisp

namespace Sink

theorem flushFails_writeAll (s : Sink) (pieces : List Bytes) :
    (s.writeAll pieces).2.flushFails = s.flushFails := by
  rw [writeAll_eq_write, write]
  split <;> rfl

/-- An unlimited sink takes all pieces. -/
theorem writeAll_of_limit_eq_none {s : Sink} (h : s.limit = none) (pieces : List Bytes) :
    s.writeAll pieces = (none, { s with written := s.written ++ pieces.flatten.toArray }) := by
  rw [writeAll_eq_write, write_of_limit_eq_none h]

end Sink

namespace Machine

/-- The handles met when a value is written out. The environment of a closure is not written. -/
inductive Shown (m : Machine) : Handle → Handle → Prop
  | self (h : Handle) : Shown m h h
  | car {h a d k : Handle} (ho : m.object? h = some (.pair a d)) (hk : Shown m a k) : Shown m h k
  | cdr {h a d k : Handle} (ho : m.object? h = some (.pair a d)) (hk : Shown m d k) : Shown m h k
  | body {h b e k : Handle} (ho : m.object? h = some (.closure b e)) (hk : Shown m b k) :
      Shown m h k

/-- Whether a closure is met when a value is written out. -/
def ShowsClosure (m : Machine) (h : Handle) : Prop :=
  ∃ k body env, m.Shown h k ∧ m.object? k = some (.closure body env)

/-- A closure shows itself. -/
theorem showsClosure_of_closure {m : Machine} {h body env : Handle}
    (ho : m.object? h = some (.closure body env)) : m.ShowsClosure h :=
  ⟨h, body, env, .self h, ho⟩

/-- A pair shows what its components show. -/
theorem ShowsClosure.of_car {m : Machine} {h a d : Handle} (ho : m.object? h = some (.pair a d))
    (hs : m.ShowsClosure a) : m.ShowsClosure h := by
  obtain ⟨k, body, env, hk, hclosure⟩ := hs
  exact ⟨k, body, env, .car ho hk, hclosure⟩

theorem ShowsClosure.of_cdr {m : Machine} {h a d : Handle} (ho : m.object? h = some (.pair a d))
    (hs : m.ShowsClosure d) : m.ShowsClosure h := by
  obtain ⟨k, body, env, hk, hclosure⟩ := hs
  exact ⟨k, body, env, .cdr ho hk, hclosure⟩

end Machine

namespace Simulation

open Machine

variable {S : Simulation}

/-- Questions that are answered alike within every bound are answered alike within bounds that are
enough. -/
theorem Answers.of_settles {α β : Type} {V : α → β → Prop} {f₁ : ℕ → Except Stop α}
    {f₂ : ℕ → Except Stop β} {bound₁ bound₂ : ℕ} (h : ∀ n, S.Answers V (f₁ n) (f₂ n))
    (h₁ : Settles f₁ bound₁) (h₂ : Settles f₂ bound₂) : S.Answers V (f₁ bound₁) (f₂ bound₂) := by
  by_cases hdone : f₁ bound₁ = .error .unfinished
  · have hdone₂ : f₂ bound₂ = .error .unfinished := by
      by_contra hdone₂
      have hdone₁ := mt (h bound₂).unfinished_iff.mp hdone₂
      exact hdone₁ (h₁ _ hdone₁ ▸ hdone)
    rw [hdone, hdone₂]
    exact .error Stop.tame_unfinished
  · rw [h₂ _ (mt (h bound₁).unfinished_iff.mpr hdone)]
    exact h bound₁

variable (L : S.Coherent) {w : S.World} {m₁ m₂ : Machine} {h₁ h₂ k₁ k₂ : Handle}
include L

/-! ## What a handle names -/

/-- Related handles name objects of the same kind. -/
theorem kind?_eq (hcore : S.core w m₁ m₂) (h : S.handle w h₁ h₂) : m₁.kind? h₁ = m₂.kind? h₂ := by
  obtain ⟨o₁, o₂, ho₁, ho₂, halike⟩ := L.object hcore h
  simp only [kind?, ho₁, ho₂, Option.map_some, halike.kind_eq]

theorem isSome_kind? (hcore : S.core w m₁ m₂) (h : S.handle w h₁ h₂) : (m₁.kind? h₁).isSome := by
  obtain ⟨o₁, o₂, ho₁, ho₂, halike⟩ := L.object hcore h
  simp only [kind?, ho₁, Option.map_some, Option.isSome_some]

theorem isAtom_eq (hcore : S.core w m₁ m₂) (h : S.handle w h₁ h₂) : m₁.isAtom h₁ = m₂.isAtom h₂ := by
  rw [isAtom, isAtom, kind?_eq L hcore h]

/-- Atoms that are related have the same spelling. -/
theorem atom?_eq (hcore : S.core w m₁ m₂) (h : S.handle w h₁ h₂) : m₁.atom? h₁ = m₂.atom? h₂ := by
  obtain ⟨o₁, o₂, ho₁, ho₂, halike⟩ := L.object hcore h
  simp only [atom?, ho₁, ho₂]
  cases halike <;> rfl

theorem number?_eq (hcore : S.core w m₁ m₂) (h : S.handle w h₁ h₂) :
    m₁.number? h₁ = m₂.number? h₂ := by
  obtain ⟨o₁, o₂, ho₁, ho₂, halike⟩ := L.object hcore h
  simp only [number?, ho₁, ho₂]
  cases halike <;> rfl

theorem numberOrZero_eq (hcore : S.core w m₁ m₂) (h : S.handle w h₁ h₂) :
    m₁.numberOrZero h₁ = m₂.numberOrZero h₂ := by
  rw [numberOrZero, numberOrZero, number?_eq L hcore h]

/-- Values are the same on one side just if they are on the other. -/
theorem same_eq (hcore : S.core w m₁ m₂) (h : S.handle w h₁ h₂) (k : S.handle w k₁ k₂) :
    m₁.same h₁ k₁ = m₂.same h₂ k₂ := by
  have heq : decide (h₁ = k₁) = decide (h₂ = k₂) := decide_eq_decide.mpr (L.same hcore h k)
  rw [Machine.same, Machine.same, number?_eq L hcore h, number?_eq L hcore k, heq]

/-- Complaints about corresponding values are the same. -/
theorem mismatch_eq (hcore : S.core w m₁ m₂) (h : S.handle w h₁ h₂) (op expected : String) :
    m₁.mismatch op expected h₁ = m₂.mismatch op expected h₂ := by
  rw [mismatch, mismatch, kind?_eq L hcore h]

theorem tame_mismatch {op : String} (expected : String) (hop : op ≠ "tag") (hcore : S.core w m₁ m₂)
    (h : S.handle w h₁ h₂) : (m₁.mismatch op expected h₁).Tame := by
  intro op' expected' found hstop
  simp only [mismatch, Stop.fault.injEq, Fault.typeMismatch.injEq] at hstop
  obtain ⟨rfl, rfl, rfl⟩ := hstop
  exact ⟨hop, isSome_kind? L hcore h⟩

/-- The two sides complain of the same kind of object. -/
theorem answers_mismatch {α β : Type} {V : α → β → Prop} {op : String} (expected : String)
    (hop : op ≠ "tag") (hcore : S.core w m₁ m₂) (h : S.handle w h₁ h₂) :
    S.Answers V (.error (m₁.mismatch op expected h₁)) (.error (m₂.mismatch op expected h₂)) := by
  rw [← mismatch_eq L hcore h]
  exact .error (tame_mismatch L expected hop hcore h)

/-- The empty list is related to itself only. -/
theorem isNil_iff (hcore : S.core w m₁ m₂) (h : S.handle w h₁ h₂) :
    h₁.isNil = true ↔ h₂.isNil = true := by
  rw [Handle.isNil_iff, Handle.isNil_iff]
  exact L.same hcore h (L.nil hcore)

/-! ## Components -/

/-- The components of related pairs are related. -/
theorem answers_car (hcore : S.core w m₁ m₂) (h : S.handle w h₁ h₂) :
    S.Answers (S.handle w) (car h₁ m₁) (car h₂ m₂) := by
  have hop : "car" ≠ "tag" := by decide
  obtain ⟨o₁, o₂, ho₁, ho₂, halike⟩ := L.object hcore h
  simp only [car, ho₁, ho₂]
  cases halike with
  | pair hcar hcdr => exact .ok hcar
  | _ => exact answers_mismatch L _ hop hcore h

theorem answers_cdr (hcore : S.core w m₁ m₂) (h : S.handle w h₁ h₂) :
    S.Answers (S.handle w) (cdr h₁ m₁) (cdr h₂ m₂) := by
  have hop : "cdr" ≠ "tag" := by decide
  obtain ⟨o₁, o₂, ho₁, ho₂, halike⟩ := L.object hcore h
  simp only [cdr, ho₁, ho₂]
  cases halike with
  | pair hcar hcdr => exact .ok hcdr
  | _ => exact answers_mismatch L _ hop hcore h

/-! ## Walks along lists -/

/-- The induction is on the bound. Keys are compared, and values found, at the same places. -/
theorem answers_lookupFrom {name : Bytes} (hcore : S.core w m₁ m₂) (hkey : S.handle w k₁ k₂)
    (henv : S.handle w h₁ h₂) (n : ℕ) :
    S.Answers (S.handle w) (lookupFrom m₁ k₁ name n h₁) (lookupFrom m₂ k₂ name n h₂) := by
  induction n generalizing h₁ h₂ with
  | zero => exact .error Stop.tame_unfinished
  | succ n ih =>
    rw [lookupFrom, lookupFrom]
    rw [Bool.eq_iff_iff.mpr (isNil_iff L hcore henv)]
    split
    · exact .error (by intro op expected found h; cases h)
    · refine (answers_car L hcore henv).bind fun b₁ b₂ hb => ?_
      refine (answers_car L hcore hb).bind fun c₁ c₂ hc => ?_
      have heq := L.same hcore hc hkey
      by_cases hfound : c₁ = k₁
      · rw [if_pos hfound, if_pos (heq.mp hfound)]
        exact answers_cdr L hcore hb
      · rw [if_neg hfound, if_neg (mt heq.mpr hfound)]
        refine (answers_cdr L hcore henv).bind fun e₁ e₂ he => ?_
        exact ih he

theorem answers_lookup (hcore : S.core w m₁ m₂) (henv : S.handle w h₁ h₂)
    (hkey : S.handle w k₁ k₂) :
    S.Answers (S.handle w) (lookup h₁ k₁ m₁) (lookup h₂ k₂ m₂) := by
  rw [lookup, lookup, ← atom?_eq L hcore hkey]
  cases hname : m₁.atom? k₁ with
  | none => exact answers_mismatch L _ (by decide) hcore hkey
  | some name =>
    exact .of_settles (answers_lookupFrom L hcore hkey henv) (settles_lookup m₁ h₁ k₁ name)
      (settles_lookup m₂ h₂ k₂ name)

/-- So it is in the registry. -/
theorem answers_findAtomFrom (spelling : Bytes) (hcore : S.core w m₁ m₂) (hlist : S.handle w h₁ h₂)
    (n : ℕ) :
    S.Answers (Option.Rel (S.handle w)) (findAtomFrom m₁ spelling n h₁)
      (findAtomFrom m₂ spelling n h₂) := by
  induction n generalizing h₁ h₂ with
  | zero => exact .error Stop.tame_unfinished
  | succ n ih =>
    obtain ⟨o₁, o₂, ho₁, ho₂, halike⟩ := L.object hcore hlist
    simp only [findAtomFrom, ho₁, ho₂]
    cases halike with
    | pair hcar hcdr =>
      simp only [atom?_eq L hcore hcar]
      split
      · exact .ok (.some hcar)
      · exact ih hcdr
    | _ => exact .ok .none

theorem answers_findAtom (spelling : Bytes) (hcore : S.core w m₁ m₂) :
    S.Answers (Option.Rel (S.handle w)) (findAtom spelling m₁) (findAtom spelling m₂) :=
  .of_settles (answers_findAtomFrom L spelling hcore (L.registers hcore).registry)
    (settles_findAtom m₁ spelling _) (settles_findAtom m₂ spelling _)

/-- Lists that are related come to an end together. -/
theorem answers_itemsFrom (hcore : S.core w m₁ m₂) (hlist : S.handle w h₁ h₂) (n : ℕ)
    (met₁ met₂ : List Handle) :
    S.Answers (fun _ _ => True) (itemsFrom m₁ n h₁ met₁) (itemsFrom m₂ n h₂ met₂) := by
  induction n generalizing h₁ h₂ met₁ met₂ with
  | zero => exact .error Stop.tame_unfinished
  | succ n ih =>
    obtain ⟨o₁, o₂, ho₁, ho₂, halike⟩ := L.object hcore hlist
    simp only [itemsFrom, ho₁, ho₂]
    cases halike with
    | pair hcar hcdr => exact ih hcdr _ _
    | _ => exact .ok trivial

theorem answers_items (hcore : S.core w m₁ m₂) (hlist : S.handle w h₁ h₂) :
    S.Answers (fun _ _ => True) (items h₁ m₁) (items h₂ m₂) :=
  .of_settles (answers_itemsFrom L hcore hlist · [] []) (settles_items m₁ h₁) (settles_items m₂ h₂)

/-! ## Interning -/

/-- Interning agrees if atoms are allocated like other objects, and the registry may be replaced. -/
theorem agree_intern_of_allocate {Γ : Held} (spelling : Bytes) (hrel : S.Rel Γ w m₁ m₂)
    (hallocate : ∀ {w n₁ n₂ o₁ o₂}, S.Rel Γ w n₁ n₂ → o₁.Alike (S.handle w) o₂ →
      S.Agree Γ (fun w' h₁ h₂ => S.handle w' h₁ h₂ ∧ o₁.Alike (S.handle w') o₂)
        (allocate o₁) n₁ (allocate o₂) n₂)
    (hregistry : ∀ {w n₁ n₂ r₁ r₂}, S.core w n₁ n₂ → S.handle w r₁ r₂ →
      S.core w { n₁ with registers := { n₁.registers with registry := r₁ } }
        { n₂ with registers := { n₂.registers with registry := r₂ } }) :
    S.Agree Γ S.handle (intern spelling) m₁ (intern spelling) m₂ := by
  refine agree_ask L hrel (answers_findAtom L spelling hrel.core) fun _ _ hfound => ?_
  cases hfound with
  | some hatom => exact agree_pure hrel rfl hatom
  | none =>
    refine (hallocate hrel (.atom spelling)).bind fun hrel ⟨hatom, _⟩ => ?_
    refine agree_getRegisters ?_
    have hpair := hallocate hrel (.pair hatom (L.registers hrel.core).registry)
    refine hpair.bind fun hrel ⟨hregistered, halike⟩ => ?_
    have hrel' := hrel.update (hregistry hrel.core hregistered) rfl rfl
    refine agree_modify L hrel' (agree_pure hrel' rfl ?_)
    cases halike with
    | pair hatom _ => exact hatom

/-! ## Texts -/

omit L in
/-- Whether only equal handles correspond. -/
def Literal (S : Simulation) : Prop := ∀ {w h₁ h₂}, S.handle w h₁ h₂ → h₁ = h₂

omit L in
/-- The pieces of a value on two machines, after pieces `out₁` and `out₂`, are the same if those are and
no closure is met, or handles are the same too. -/
def SamePieces (S : Simulation) (m : Machine) (h : Handle) (out₁ out₂ text₁ text₂ : Array Bytes) : Prop :=
  (S.Literal ∨ ¬ m.ShowsClosure h) → out₁ = out₂ → text₁ = text₂

omit L in
/-- All pieces on two machines, or those up to a bound on both. -/
inductive Written (V : Array Bytes → Array Bytes → Prop) :
    Except (Array Bytes) (Array Bytes) → Except (Array Bytes) (Array Bytes) → Prop
  | ok {text₁ text₂ : Array Bytes} (h : V text₁ text₂) : Written V (.ok text₁) (.ok text₂)
  | error {cut₁ cut₂ : Array Bytes} (h : V cut₁ cut₂) : Written V (.error cut₁) (.error cut₂)

omit L in
theorem Written.imp {V W : Array Bytes → Array Bytes → Prop}
    {r₁ r₂ : Except (Array Bytes) (Array Bytes)} (h : Written V r₁ r₂)
    (himp : ∀ t₁ t₂, V t₁ t₂ → W t₁ t₂) : Written W r₁ r₂ := by
  cases h with
  | ok hV => exact .ok (himp _ _ hV)
  | error hV => exact .error (himp _ _ hV)

omit L in
/-- What is written after related outputs is related. -/
theorem Written.bind {V : Array Bytes → Array Bytes → Prop}
    {r₁ r₂ : Except (Array Bytes) (Array Bytes)}
    {f₁ f₂ : Array Bytes → Except (Array Bytes) (Array Bytes)} (h : Written V r₁ r₂)
    (hf : ∀ t₁ t₂, V t₁ t₂ → Written V (f₁ t₁) (f₂ t₂)) : Written V (r₁ >>= f₁) (r₂ >>= f₂) := by
  cases h with
  | ok hV => exact hf _ _ hV
  | error hV => exact .error hV

/-- Values and tails of lists are written alike. The induction is on the bound, for both at once since
each calls the other. -/
theorem written_print (hcore : S.core w m₁ m₂) (h : S.handle w h₁ h₂) (n : ℕ)
    (out₁ out₂ : Array Bytes) :
    Written (S.SamePieces m₁ h₁ out₁ out₂) (printFrom m₁ n h₁ out₁) (printFrom m₂ n h₂ out₂) ∧
      Written (S.SamePieces m₁ h₁ out₁ out₂) (printTailFrom m₁ n h₁ out₁)
        (printTailFrom m₂ n h₂ out₂) := by
  induction n generalizing h₁ h₂ out₁ out₂ with
  | zero => exact ⟨.error fun _ hout => hout, .error fun _ hout => hout⟩
  | succ n ih =>
    obtain ⟨o₁, o₂, ho₁, ho₂, halike⟩ := L.object hcore h
    have hpush : ∀ piece : Bytes, S.SamePieces m₁ h₁ out₁ out₂ (out₁.push piece) (out₂.push piece) :=
      fun piece _ hout => congrArg (·.push piece) hout
    -- a pair is written the same way in both places, but for the piece in front of it
    have hpair : ∀ {a₁ a₂ d₁ d₂ : Handle} (c : Bytes), m₁.object? h₁ = some (.pair a₁ d₁) →
        S.handle w a₁ a₂ → S.handle w d₁ d₂ →
        Written (S.SamePieces m₁ h₁ out₁ out₂)
          (printFrom m₁ n a₁ (out₁.push c) >>= printTailFrom m₁ n d₁)
          (printFrom m₂ n a₂ (out₂.push c) >>= printTailFrom m₂ n d₂) := by
      intro a₁ a₂ d₁ d₂ c ho hcar hcdr
      have hfirst := (ih hcar (out₁.push c) (out₂.push c)).1.imp (W := S.SamePieces m₁ h₁ out₁ out₂)
        fun t₁ t₂ ht hplain hout => ht (hplain.imp_right (mt (ShowsClosure.of_car ho))) (hpush c hplain hout)
      refine hfirst.bind fun t₁ t₂ ht => (ih hcdr t₁ t₂).2.imp fun u₁ u₂ hu hplain hout => ?_
      exact hu (hplain.imp_right (mt (ShowsClosure.of_cdr ho))) (ht hplain hout)
    have hdot : o₁.kind ≠ .nil → o₁.kind ≠ .pair →
        Written (S.SamePieces m₁ h₁ out₁ out₂) (printTailFrom m₁ (n + 1) h₁ out₁)
          (printTailFrom m₂ (n + 1) h₂ out₂) := by
      intro hnil hpair
      have hkind : m₁.kind? h₁ = some o₁.kind := by simp only [kind?, ho₁, Option.map_some]
      have hnil₁ : m₁.kind? h₁ ≠ some .nil := by simpa [hkind] using hnil
      have hpair₁ : m₁.kind? h₁ ≠ some .pair := by simpa [hkind] using hpair
      have hsame := kind?_eq L hcore h
      rw [printTailFrom_dot hnil₁ hpair₁, printTailFrom_dot (hsame ▸ hnil₁) (hsame ▸ hpair₁)]
      have hfirst := (ih h (out₁.push (Bytes.ofString " . ")) (out₂.push (Bytes.ofString " . "))).1.imp
        (W := S.SamePieces m₁ h₁ out₁ out₂) fun t₁ t₂ ht hplain hout => ht hplain (hpush _ hplain hout)
      refine hfirst.bind fun t₁ t₂ ht => .ok fun hplain hout => ?_
      rw [ht hplain hout]
    cases halike with
    | nil =>
      simp only [printFrom, printTailFrom, ho₁, ho₂]
      exact ⟨.ok (hpush _), .ok (hpush _)⟩
    | pair hcar hcdr =>
      rw [printFrom_pair ho₁, printFrom_pair ho₂, printTailFrom_pair ho₁, printTailFrom_pair ho₂]
      exact ⟨hpair _ ho₁ hcar hcdr, hpair _ ho₁ hcar hcdr⟩
    | closure hbody henv =>
      refine ⟨?_, hdot (by simp [Object.kind]) (by simp [Object.kind])⟩
      rw [printFrom_closure ho₁, printFrom_closure ho₂]
      -- the closure itself is met, so that handles are the same or nothing is claimed
      have hliteral : (S.Literal ∨ ¬ m₁.ShowsClosure h₁) → S.Literal :=
        fun hplain => hplain.resolve_right (not_not.mpr (showsClosure_of_closure ho₁))
      have hfirst := (ih hbody (out₁.push (Bytes.ofString "CLOSURE<"))
        (out₂.push (Bytes.ofString "CLOSURE<"))).1.imp (W := S.SamePieces m₁ h₁ out₁ out₂)
        fun t₁ t₂ ht hplain hout => ht (.inl (hliteral hplain)) (hpush _ hplain hout)
      refine hfirst.bind fun t₁ t₂ ht => .ok fun hplain hout => ?_
      rw [ht hplain hout, hliteral hplain henv]
    | _ =>
      refine ⟨?_, hdot (by simp [Object.kind]) (by simp [Object.kind])⟩
      simp only [printFrom, ho₁, ho₂, Buffer.bytes]
      exact .ok (hpush _)

/-- The pieces of related values are related, whatever the bounds on the steps. -/
theorem answers_pieces (hcore : S.core w m₁ m₂) (h : S.handle w h₁ h₂) :
    S.Answers (S.SamePieces m₁ h₁ #[] #[]) (pieces h₁ m₁) (pieces h₂ m₂) := by
  refine .of_settles (fun n => ?_) (settles_pieces m₁ h₁) (settles_pieces m₂ h₂)
  have hwritten := (written_print L hcore h n #[] #[]).1
  simp only [piecesWithin]
  generalize printFrom m₁ n h₁ #[] = r₁ at hwritten ⊢
  generalize printFrom m₂ n h₂ #[] = r₂ at hwritten ⊢
  cases hwritten with
  | ok hsame => exact .ok hsame
  | error hsame => exact .error Stop.tame_unfinished

theorem samePieces_firstPieces (hcore : S.core w m₁ m₂) (h : S.handle w h₁ h₂) (n : ℕ) :
    S.SamePieces m₁ h₁ #[] #[] (m₁.firstPieces n h₁) (m₂.firstPieces n h₂) := by
  have hwritten := (written_print L hcore h n #[] #[]).1
  simp only [firstPieces]
  generalize printFrom m₁ n h₁ #[] = r₁ at hwritten ⊢
  generalize printFrom m₂ n h₂ #[] = r₂ at hwritten ⊢
  cases hwritten with
  | ok hsame => exact hsame
  | error hsame => exact hsame

/-- What is written for corresponding values, where the outputs have the same room. -/
theorem answers_printout (hcore : S.core w m₁ m₂) (h : S.handle w h₁ h₂)
    (hroom : m₁.sink.room? = m₂.sink.room?) :
    S.Answers (fun p₁ p₂ => (S.Literal ∨ ¬ m₁.ShowsClosure h₁) → p₁ = p₂) (printout h₁ m₁)
      (printout h₂ m₂) := by
  have hpieces := answers_pieces L hcore h
  simp only [printout, ← hroom]
  generalize pieces h₁ m₁ = r₁ at hpieces ⊢
  generalize pieces h₂ m₂ = r₂ at hpieces ⊢
  cases hpieces with
  | ok hsame => exact .ok fun hplain => by rw [hsame hplain rfl]
  | error htame =>
    cases m₁.sink.room? with
    | none => exact .error htame
    | some room => exact .ok fun hplain => by rw [samePieces_firstPieces L hcore h _ hplain rfl]

/-- The same pieces can be written to equal outputs. -/
theorem agree_write {Γ : Held} (pieces : List Bytes) (hrel : S.Rel Γ w m₁ m₂)
    (hsink : m₁.sink = m₂.sink)
    (hset : S.core w { m₁ with sink := (m₁.sink.writeAll pieces).2 }
      { m₂ with sink := (m₁.sink.writeAll pieces).2 }) :
    S.Agree Γ S.anything (write pieces) m₁ (write pieces) m₂ := by
  have hrel' := hrel.update hset rfl rfl
  rcases hresult₁ : m₁.sink.writeAll pieces with ⟨result, sink⟩
  have hresult₂ : m₂.sink.writeAll pieces = (result, sink) := hsink ▸ hresult₁
  rw [hresult₁] at hrel'
  refine agree_modifyGet L (?_ : S.Rel Γ w _ _) ?_ <;> simp only [hresult₁, hresult₂]
  · exact hrel'
  · cases result with
    | none => exact agree_pure hrel' rfl trivial
    | some cause => exact agree_fail L nofun hrel'

omit L in
/-- Outputs that are equal, or that may differ in what was written because they have no limit. -/
structure SinksAlike (quiet failing : Bool) (s₁ s₂ : Sink) : Prop where
  flushFails₁ : s₁.flushFails = failing
  flushFails₂ : s₂.flushFails = failing
  same : quiet = true → s₁ = s₂
  unlimited : quiet = false → s₁.limit = none ∧ s₂.limit = none

/-- Corresponding values are written out alike, where a closure that is shown excuses the runs. Outputs
that need not be the same have no limit and take any text. -/
theorem agree_printValue {quiet failing : Bool} {Γ : Held} (hrel : S.Rel Γ w m₁ m₂)
    (h : S.handle w h₁ h₂) (hsinks : SinksAlike quiet failing m₁.sink m₂.sink)
    (hset : ∀ {sink₁ sink₂ : Sink}, SinksAlike quiet failing sink₁ sink₂ →
      S.core w { m₁ with sink := sink₁ } { m₂ with sink := sink₂ })
    (hexc : quiet = true → m₁.ShowsClosure h₁ →
      S.excuses ((printValue h₁).trail m₁) ((printValue h₂).trail m₂)) :
    S.Agree Γ S.anything (printValue h₁) m₁ (printValue h₂) m₂ := by
  cases quiet with
  | true =>
    have hsame := hsinks.same rfl
    by_cases hshows : m₁.ShowsClosure h₁
    · exact .inl (hexc rfl hshows)
    · refine agree_observe L hrel (.prints h) ?_
      refine agree_ask L hrel (answers_printout L hrel.core h (by rw [hsame])) fun p₁ p₂ hp => ?_
      rw [hp (.inr hshows)]
      have hflush := (Sink.flushFails_writeAll m₁.sink p₂).trans hsinks.flushFails₁
      exact agree_write L _ hrel hsame (hset ⟨hflush, hflush, fun _ => rfl, nofun⟩)
  | false =>
    obtain ⟨hlimit₁, hlimit₂⟩ := hsinks.unlimited rfl
    have hroom : m₁.sink.room? = m₂.sink.room? := by simp [Sink.room?, hlimit₁, hlimit₂]
    refine agree_observe L hrel (.prints h) ?_
    refine agree_ask L hrel (answers_printout L hrel.core h hroom) fun p₁ p₂ _ => ?_
    have hwrite₁ := Sink.writeAll_of_limit_eq_none hlimit₁ p₁
    have hwrite₂ := Sink.writeAll_of_limit_eq_none hlimit₂ p₂
    have hrel' : S.Rel Γ w
        { m₁ with sink := { m₁.sink with written := m₁.sink.written ++ p₁.flatten.toArray } }
        { m₂ with sink := { m₂.sink with written := m₂.sink.written ++ p₂.flatten.toArray } } :=
      hrel.update (hset ⟨hsinks.flushFails₁, hsinks.flushFails₂, nofun, fun _ => ⟨hlimit₁, hlimit₂⟩⟩)
        rfl rfl
    refine agree_modifyGet L (?_ : S.Rel Γ w _ _) ?_ <;> simp only [hwrite₁, hwrite₂]
    · exact hrel'
    · exact agree_pure hrel' rfl trivial

theorem answers_render (hcore : S.core w m₁ m₂) (h : S.handle w h₁ h₂) :
    S.Answers (fun _ _ => True) (render h₁ m₁) (render h₂ m₂) := by
  have hpieces := answers_pieces L hcore h
  simp only [render, textOf]
  generalize pieces h₁ m₁ = r₁ at hpieces ⊢
  generalize pieces h₂ m₂ = r₂ at hpieces ⊢
  cases hpieces with
  | ok => exact .ok trivial
  | error htame => exact .error htame

end Simulation

end PushLisp
