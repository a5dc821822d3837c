import PushLisp.Proofs.Elementary
import PushLisp.Proofs.SuccessiveReads
import PushLisp.Proofs.TableSize
import PushLisp.Proofs.Truncation

/-!
# Text that is not reached

Every scan decides by the bytes that it takes and by one byte more where to stop. So an operation that stops
at some position of the text has used what is before that position and the byte there, and whatever comes
after can be replaced without any effect: same answer, same output, same machine. This includes how reading
was bounded, for the bound on its steps grows with the text and is never met.

## Main definitions

* `Source.Nearsighted`: a scan that looks one byte ahead at most.
* `Machine.reading`: a machine with another text left.
* `Machine.Echoes`: an operation that looks one byte ahead at most.
* `Machine.Prolongs`: an operation ends like another one unless that runs out of steps.

## Main statements

* `Machine.echoes_readTerm`: reading a term.
* `Machine.launch_eq_of_take_eq`: running a program.
-/
namespace PushLisp

namespace Source

variable {α β : Type} {g g₁ : Bytes → α × Source} {position : ℕ} {c : UInt8} {bs : Bytes} {a : α}

/-! ## Scans -/

/-- From a place on, a scan depends on the bytes that it takes and on the byte after them. -/
def Nearsighted (g : Bytes → α × Source) (position : ℕ) (bs : Bytes) : Prop :=
  ∃ k a, ∀ bs', bs'.take (k + 1) = bs.take (k + 1) → g bs' = (a, ⟨position + k, bs'.drop k⟩)

theorem nearsighted_nil (hg : g [] = (a, ⟨position, []⟩)) : Nearsighted g position [] := by
  refine ⟨0, a, fun bs' hbs' => ?_⟩
  have hnil : bs' = [] := by simpa using hbs'
  simp [hnil, hg]

/-- A scan that takes nothing after a look at the next byte. -/
theorem nearsighted_look (hg : ∀ rest, g (c :: rest) = (a, ⟨position, c :: rest⟩)) :
    Nearsighted g position (c :: bs) := by
  refine ⟨0, a, fun bs' hbs' => ?_⟩
  cases bs' with
  | nil => simp at hbs'
  | cons c' rest =>
    obtain rfl : c' = c := by simpa using hbs'
    simp [hg]

/-- A scan that takes nothing. -/
theorem nearsighted_of_forall (hg : ∀ rest, g rest = (a, ⟨position, rest⟩)) : Nearsighted g position bs :=
  ⟨0, a, fun bs' _ => by simp [hg]⟩

/-- A scan that takes a byte and goes on. -/
theorem Nearsighted.cons (hrest : Nearsighted g₁ (position + 1) bs) (hg : ∀ rest, g (c :: rest) = g₁ rest) :
    Nearsighted g position (c :: bs) := by
  obtain ⟨k, a, hk⟩ := hrest
  refine ⟨k + 1, a, fun bs' hbs' => ?_⟩
  cases bs' with
  | nil => simp at hbs'
  | cons c' rest =>
    obtain ⟨rfl, hrest⟩ : c' = c ∧ rest.take (k + 1) = bs.take (k + 1) := by simpa using hbs'
    have hposition : position + 1 + k = position + (k + 1) := by omega
    simp [hg, hk rest hrest, hposition]

theorem Nearsighted.append (taken : Bytes) (hrest : Nearsighted g₁ (position + taken.length) bs)
    (hg : ∀ rest, g (taken ++ rest) = g₁ rest) : Nearsighted g position (taken ++ bs) := by
  induction taken generalizing g position with
  | nil =>
    have heq : g = g₁ := funext hg
    simpa [heq] using hrest
  | cons c taken ih =>
    have hposition : position + (c :: taken).length = position + 1 + taken.length := by
      rw [List.length_cons]
      omega
    have hcons : Nearsighted (fun rest => g (c :: rest)) (position + 1) (taken ++ bs) :=
      ih (hposition ▸ hrest) hg
    exact hcons.cons fun _ => rfl

/-- A scan that takes some bytes and no more. -/
theorem nearsighted_of_taken (taken : Bytes)
    (hg : ∀ rest, g (taken ++ rest) = (a, ⟨position + taken.length, rest⟩)) :
    Nearsighted g position (taken ++ bs) :=
  (nearsighted_of_forall hg).append taken fun _ => rfl

/-- A scan that comes to the end of the text. -/
theorem nearsighted_of_end {taken : Bytes} (hg : g taken = (a, ⟨position + taken.length, []⟩)) :
    Nearsighted g position taken := by
  have hend : Nearsighted (fun rest => g (taken ++ rest)) (position + taken.length) [] :=
    nearsighted_nil (by simpa using hg)
  simpa using hend.append taken fun _ => rfl

theorem Nearsighted.map (f : α → β) (hg : Nearsighted g position bs) :
    Nearsighted (fun bs => (f (g bs).1, (g bs).2)) position bs := by
  obtain ⟨k, a, hk⟩ := hg
  exact ⟨k, f a, fun bs' hbs' => by simp [hk bs' hbs']⟩

theorem nearsighted_skipBlankFrom (comment : Bool) (position : ℕ) (bs : Bytes) :
    Nearsighted (fun bs => ((), skipBlankFrom comment position bs)) position bs := by
  induction bs generalizing comment position with
  | nil => exact nearsighted_nil rfl
  | cons c bs ih =>
    by_cases hcomment : comment = true
    · refine (ih (c ≠ Ascii.newline) (position + 1)).cons fun rest => ?_
      simp [skipBlankFrom, hcomment]
    by_cases hwhite : isWhite c = true
    · refine (ih false (position + 1)).cons fun rest => ?_
      simp [skipBlankFrom, hcomment, hwhite]
    by_cases hsemicolon : c = Ascii.semicolon
    · refine (ih true (position + 1)).cons fun rest => ?_
      rw [skipBlankFrom, if_neg hcomment, if_neg hwhite, if_pos hsemicolon]
    · refine nearsighted_look (a := ()) fun rest => ?_
      simp [skipBlankFrom, hcomment, hwhite, hsemicolon]

theorem nearsighted_scanWord (position : ℕ) (bs : Bytes) :
    Nearsighted (fun bs => scanWord ⟨position, bs⟩) position bs := by
  induction bs generalizing position with
  | nil => exact nearsighted_nil rfl
  | cons c bs ih =>
    by_cases hc : isPunctuation c = true
    · refine nearsighted_look (a := []) fun rest => ?_
      simp [scanWord, hc]
    · refine ((ih (position + 1)).map (c :: ·)).cons fun rest => ?_
      simp [scanWord, hc, Nat.add_assoc, Nat.add_comm]

theorem nearsighted_scanStringFrom (position : ℕ) (decoded bs : Bytes) :
    Nearsighted (scanStringFrom position decoded) position bs := by
  fun_induction scanStringFrom position decoded bs with
  | case1 => exact nearsighted_of_end (by rw [scanStringFrom]; rfl)
  | case2 position decoded bs =>
    refine nearsighted_of_taken (a := .ok decoded.reverse) [Ascii.doubleQuote] fun rest => ?_
    rw [scanStringFrom.eq_def]
    simp
  | case3 => exact nearsighted_of_end (by simp [scanStringFrom, *]; rfl)
  | case4 position decoded bs _ ih =>
    refine ih.append [Ascii.backslash, Ascii.letterN] fun rest => ?_
    rw [scanStringFrom.eq_def]
    simp [*]
  | case5 => exact nearsighted_of_end (by simp [scanStringFrom, *]; rfl)
  | case6 => exact nearsighted_of_end (by simp [scanStringFrom, *]; rfl)
  | case7 position decoded high low bs b hpair _ _ ih =>
    exact ih.append [Ascii.backslash, Ascii.letterX, high, low] fun rest => by simp [scanStringFrom, *]
  | case8 position decoded high low bs =>
    refine nearsighted_of_taken (a := .error (.badEscape high low))
      [Ascii.backslash, Ascii.letterX, high, low] fun rest => ?_
    simp [scanStringFrom, *]
  | case9 position decoded e bs _ _ _ ih =>
    refine ih.append [Ascii.backslash, e] fun rest => ?_
    rw [scanStringFrom.eq_def]
    simp [*]
  | case10 position decoded c bs _ _ ih =>
    refine ih.cons fun rest => ?_
    rw [scanStringFrom.eq_def]
    simp [*]

end Source

/-! ## Operations -/

/-- A machine with another text left. -/
def Machine.reading (m : Machine) (source : Source) : Machine := { m with source := source }

/-- An outcome with another text left. -/
def Outcome.reading {α : Type} (source : Source) : Outcome α → Outcome α
  | .ok a m => .ok a (m.reading source)
  | .error reason m => .error reason (m.reading source)

namespace Machine

open Grammar

variable {α β : Type} {base : List Handle} {m m' : Machine}

/-- An operation depends on the bytes that it takes off the text and on the byte after them, and leaves the
text after what it took. -/
def Echoes (act : Run α) (m : Machine) : Prop :=
  ∃ k, ∀ rest, rest.take (k + 1) = m.source.rest.take (k + 1) →
    act (m.reading ⟨m.source.position, rest⟩) =
      Outcome.reading ⟨m.source.position + k, rest.drop k⟩ (act m)

/-- An operation that neither looks at the text nor takes anything off it. -/
theorem echoes_of_forall {act : Run α}
    (hact : ∀ source, act (m.reading source) = Outcome.reading source (act m)) : Echoes act m :=
  ⟨0, fun _ _ => hact _⟩

/-- What the operation leaves of the text that it was given. -/
theorem source_of_echoes {act : Run α} {k : ℕ} {rest : Bytes}
    (hact : act (m.reading ⟨m.source.position, m.source.rest⟩) =
      Outcome.reading ⟨m.source.position + k, rest⟩ (act m)) :
    (after act m).source = ⟨m.source.position + k, rest⟩ := by
  have hself : act m = Outcome.reading ⟨m.source.position + k, rest⟩ (act m) := hact
  rw [after, hself]
  cases act m <;> rfl

theorem Echoes.bind {x : Run α} {f : α → Run β} (hx : Echoes x m)
    (hf : ∀ {a m'}, x m = .ok a m' → Echoes (f a) m') : Echoes (x >>= f) m := by
  obtain ⟨k, hk⟩ := hx
  cases hrun : x.run m with
  | error reason m' =>
    refine ⟨k, fun rest hrest => ?_⟩
    have hx' := hk rest hrest
    rw [hrun] at hx'
    rw [Run.run_bind_of_error hx', Run.run_bind_of_error hrun]
    rfl
  | ok a m' =>
    obtain ⟨l, hl⟩ := hf hrun
    have hsource : m'.source = ⟨m.source.position + k, m.source.rest.drop k⟩ := by
      simpa [after_of_ok hrun] using source_of_echoes (hk m.source.rest rfl)
    refine ⟨k + l, fun rest hrest => ?_⟩
    have hfirst : rest.take (k + 1) = m.source.rest.take (k + 1) := by
      have hmin : min (k + 1) (k + l + 1) = k + 1 := by omega
      simpa [List.take_take, hmin] using congrArg (List.take (k + 1)) hrest
    have hsecond : (rest.drop k).take (l + 1) = (m.source.rest.drop k).take (l + 1) := by
      have hsub : k + l + 1 - k = l + 1 := by omega
      simpa [List.drop_take, hsub] using congrArg (List.drop k) hrest
    have hx' := hk rest hfirst
    rw [hrun] at hx'
    have hf' := hl (rest.drop k) (by rw [hsource]; exact hsecond)
    rw [Run.run_bind_of_ok hx', Run.run_bind_of_ok hrun]
    rw [hsource, List.drop_drop, Nat.add_assoc] at hf'
    exact hf'

theorem Echoes.keepingRoots {act : Run α} (hact : Echoes act m) : Echoes (keepingRoots act) m := by
  obtain ⟨k, hk⟩ := hact
  refine ⟨k, fun rest hrest => ?_⟩
  simp only [Machine.keepingRoots, hk rest hrest]
  cases act m <;> rfl

theorem Echoes.attempt {act : Run α} (hact : Echoes act m) : Echoes (attempt act) m := by
  obtain ⟨k, hk⟩ := hact
  refine ⟨k, fun rest hrest => ?_⟩
  simp only [Machine.attempt, hk rest hrest]
  cases act m <;> rfl

theorem echoes_ask {question : Machine → Except Stop α}
    (hquestion : ∀ source, question (m.reading source) = question m) : Echoes (ask question) m := by
  refine echoes_of_forall fun source => ?_
  simp only [ask, hquestion source]
  cases question m <;> rfl

theorem echoes_get {f : Machine → Run α} (hblind : Blind f m) (hf : Echoes (f m) m) :
    Echoes (get >>= f) m := by
  obtain ⟨k, hk⟩ := hf
  refine ⟨k, fun rest hrest => ?_⟩
  have hfunction : f (m.reading ⟨m.source.position, rest⟩) = f m := hblind _ m.sink
  exact (congrFun (congrArg Run.run hfunction) _).trans (hk rest hrest)

/-- Nothing that sequences are made of looks at the text. -/
theorem sequential_echoes : Sequential (Regardless Echoes) where
  bind := Echoes.bind
  pure _ := echoes_of_forall fun _ => rfl
  stop _ := echoes_of_forall fun _ => rfl
  observe _ := echoes_of_forall fun _ => rfl
  ask {_ _ m _} hblind := echoes_ask fun source => hblind source m.sink
  get := echoes_get
  note {_ m} e := by
    refine echoes_of_forall fun source => ?_
    obtain ⟨_, _, _, _, _, tracing, _⟩ := m
    cases tracing <;> rfl
  modifyShadow _ := echoes_of_forall fun _ => rfl
  modifyRegisters _ _ _ _ _ := echoes_of_forall fun _ => rfl
  keepingRoots := Echoes.keepingRoots

theorem echoes_tryAllocate (o : Object) : Echoes (tryAllocate o) m := by
  refine echoes_of_forall fun source => ?_
  have hheap : (m.reading source).heap = m.heap := rfl
  simp only [tryAllocate, hheap]
  cases m.heap.findFree? <;> rfl

theorem placing_echoes : Placing True (Regardless Echoes) where
  toSequential := sequential_echoes
  tryAllocate _ := echoes_tryAllocate _
  reclaim := echoes_of_forall fun _ => rfl
  redirect _ _ _ := echoes_of_forall fun _ => rfl

/-! ## Reading -/

theorem echoes_scan {f : Source → α × Source}
    (hf : Source.Nearsighted (fun rest => f ⟨m.source.position, rest⟩) m.source.position m.source.rest) :
    Echoes (scan f) m := by
  obtain ⟨k, a, hk⟩ := hf
  refine ⟨k, fun rest hrest => ?_⟩
  have hrun : ∀ n : Machine, scan f n = .ok (f n.source).1 { n with source := (f n.source).2 } := fun _ => rfl
  have hself : f m.source = (a, ⟨m.source.position + k, m.source.rest.drop k⟩) := hk m.source.rest rfl
  have hother : f (m.reading ⟨m.source.position, rest⟩).source = (a, ⟨m.source.position + k, rest.drop k⟩) :=
    hk rest hrest
  rw [hrun, hrun, hother, hself]
  rfl

theorem echoes_peek : Echoes peek m := by
  refine ⟨0, fun rest hrest => ?_⟩
  have hhead : rest.head? = m.source.rest.head? := by
    simpa [List.head?_take] using congrArg List.head? hrest
  have hrun : ∀ n : Machine, peek n = .ok n.source.rest.head? n := fun _ => rfl
  rw [hrun, hrun, ← hhead]
  rfl

theorem echoes_advance : Echoes advance m := by
  refine echoes_scan (f := fun source => ((), source.advance)) ?_
  cases m.source.rest with
  | nil => exact Source.nearsighted_nil rfl
  | cons c rest => exact Source.nearsighted_of_taken (a := ()) [c] fun _ => rfl

theorem echoes_skipBlank : Echoes skipBlank m :=
  echoes_scan (f := fun source => ((), source.skipBlank)) (Source.nearsighted_skipBlankFrom false _ _)

theorem echoes_takeWord : Echoes takeWord m :=
  echoes_scan (f := Source.scanWord) (Source.nearsighted_scanWord _ _)

theorem echoes_takeString : Echoes takeString m := by
  have hscan : Echoes (scan Source.scanString) m := echoes_scan (Source.nearsighted_scanStringFrom _ [] _)
  refine Echoes.bind hscan fun {result _} _ => ?_
  cases result <;> exact echoes_of_forall fun _ => rfl

theorem lexical_echoes : Lexical (Regardless Echoes) where
  bind := Echoes.bind
  pure := sequential_echoes.pure
  unfinished := sequential_echoes.stop .unfinished
  fail _ := sequential_echoes.fail _
  component _ := ⟨echoes_ask fun _ => rfl, echoes_ask fun _ => rfl⟩
  getRegisters := sequential_echoes.getRegisters
  -- what is looked at here is the position, which stays the same
  getPosition hf := hf
  setQueue _ := echoes_of_forall fun _ => rfl
  root := sequential_echoes.root
  keepingRoots := Echoes.keepingRoots
  makeNumber := placing_echoes.storing.makeNumber
  makePair := placing_echoes.storing.makePair
  makeString _ := placing_echoes.allocate fun _ => trivial
  intern := placing_echoes.intern
  skipBlank := echoes_skipBlank
  peek := echoes_peek
  advance := echoes_advance
  takeWord := echoes_takeWord
  takeString := echoes_takeString

/-! ### The bound on the steps of reading -/

/-- One operation ends like another, unless that one runs out of steps. -/
def Prolongs (x y : Run α) (m : Machine) : Prop := x m = y m ∨ ∃ m', y m = .error .unfinished m'

theorem Prolongs.refl (x : Run α) (m : Machine) : Prolongs x x m := .inl rfl

theorem Prolongs.bind {x y : Run α} {f g : α → Run β} (hx : Prolongs x y m)
    (hf : ∀ {a m'}, y m = .ok a m' → Prolongs (f a) (g a) m') : Prolongs (x >>= f) (y >>= g) m := by
  rcases hx with hx | ⟨m', hy⟩
  · cases hy : y.run m with
    | error reason m' =>
      left
      rw [Run.run_bind_of_error hy, Run.run_bind_of_error (hx.trans hy)]
    | ok a m' =>
      rw [Prolongs, Run.run_bind_of_ok hy, Run.run_bind_of_ok (hx.trans hy)]
      exact hf hy
  · exact .inr ⟨m', Run.run_bind_of_error hy⟩

/-- Two operations that begin alike. -/
theorem Prolongs.after {x : Run α} {f g : α → Run β} (hf : ∀ {a m'}, Prolongs (f a) (g a) m') :
    Prolongs (x >>= f) (x >>= g) m :=
  (Prolongs.refl x m).bind fun _ => hf

theorem Prolongs.keepingRoots {x y : Run α} (hx : Prolongs x y m) :
    Prolongs (keepingRoots x) (keepingRoots y) m := by
  rcases hx with hx | ⟨m', hy⟩
  · left
    simp only [Machine.keepingRoots, hx]
  · right
    simp only [Machine.keepingRoots, hy]
    exact ⟨_, rfl⟩

theorem prolongs_readNext {n k : ℕ} {r : Registers} {next : Option UInt8}
    (hterm : ∀ {m}, Prolongs (readTermFrom (n + k)) (readTermFrom n) m)
    (hitems : ∀ {m} items, Prolongs (readItemsFrom (n + k) items) (readItemsFrom n items) m) :
    Prolongs (readNext (n + k) r next) (readNext n r next) m := by
  cases next with
  | none => exact .refl _ m
  | some c =>
    simp only [readNext]
    split
    · exact .refl _ m
    split
    · exact .after (.after hterm)
    split
    · exact .after (.after hterm)
    split
    · exact .after (((hitems []).bind fun _ => .refl _ _).keepingRoots)
    · exact .refl _ m

/-- Reading that ends within some steps ends the same way within more. The induction is on the smaller
number, for terms and for the items of lists at once. -/
theorem prolongs_readFrom (n k : ℕ) : (∀ {m}, Prolongs (readTermFrom (n + k)) (readTermFrom n) m) ∧
    ∀ {m} items, Prolongs (readItemsFrom (n + k) items) (readItemsFrom n items) m := by
  induction n with
  | zero =>
    constructor
    · intro m
      right
      rw [readTermFrom]
      exact ⟨m, rfl⟩
    · intro m items
      right
      rw [readItemsFrom]
      exact ⟨m, rfl⟩
  | succ n ih =>
    obtain ⟨hterm, hitems⟩ := ih
    have hmore : ∀ {m} items, Prolongs (readMore (n + k) items) (readMore n items) m := fun items =>
      hterm.bind fun _ => .after (hitems _)
    rw [Nat.add_right_comm]
    constructor
    · intro m
      rw [readTermFrom_succ, readTermFrom_succ]
      refine .after fun {r m'} => ?_
      split
      · exact .refl _ m'
      · exact .after (.after (prolongs_readNext hterm hitems))
    · intro m items
      rw [readItemsFrom_succ, readItemsFrom_succ]
      refine .after fun {r m'} => ?_
      split
      · refine .after (.after fun {next m''} => ?_)
        split
        · exact .refl _ m''
        · exact hmore items
      · exact hmore items

/-- The bound on the steps of reading is never met. -/
theorem readTerm_ne_unfinished (hm : Literate base m) : readTerm m ≠ .error .unfinished m' := by
  intro hrun
  by_cases hqueue : m.registers.readQueue = m.registers.nil
  · have hpending : Pending m [] := pending_nil_iff.mpr (hqueue.trans hm.nil_eq)
    have hbound : 4 * m.source.rest.length < m.readBound := by
      rw [readBound]
      omega
    obtain ⟨s, hgap, hsolid⟩ := exists_gap m.source.rest
    rcases exists_phrase s le_rfl hsolid with ⟨r, rest, hphrase⟩ | ⟨rest, rfl⟩
    · cases r with
      | ok ts =>
        rcases (faithful m.readBound).term hm hpending hgap hphrase hbound with h | ⟨a, n, h, -⟩
        · obtain ⟨capacity, n, h, -⟩ := h
          cases hrun.symm.trans h
        · cases hrun.symm.trans h
      | error f =>
        rcases (faithful m.readBound).termFails hm hpending hgap hphrase hbound with h | ⟨n, h, -⟩
        · obtain ⟨capacity, n, h, -⟩ := h
          cases hrun.symm.trans h
        · cases hrun.symm.trans h
    · obtain ⟨n, h, -⟩ := readTerm_of_close hm hpending hgap
      cases hrun.symm.trans h
  · have hbound : readTerm m = readTermFrom (4 * m.source.rest.length + 3 + 1) m := rfl
    have hregisters : getRegisters.run m = .ok m.registers m := rfl
    rw [hbound, readTermFrom_succ, Run.run_bind_of_ok hregisters, if_pos hqueue] at hrun
    rcases dequeue_cases m.registers.readQueue m with ⟨first, rest, h⟩ | ⟨f, h⟩ <;> cases hrun.symm.trans h

theorem readTermFrom_add {n : ℕ} (k : ℕ) (hn : ∀ m', readTermFrom n m ≠ .error .unfinished m') :
    readTermFrom (n + k) m = readTermFrom n m := by
  rcases (prolongs_readFrom n k).1 (m := m) with h | ⟨m', h⟩
  · exact h
  · exact absurd h (hn m')

/-- Reading looks one byte ahead at most. -/
theorem echoes_readTerm (hm : Literate base m) : Echoes readTerm m := by
  have hbound : ∀ n : Machine, readTerm n = readTermFrom n.readBound n := fun _ => rfl
  obtain ⟨k, hk⟩ : Regardless Echoes Handle base (readTermFrom m.readBound) m :=
    (lexical_echoes.readFrom m.readBound).1
  refine ⟨k, fun rest hrest => ?_⟩
  specialize hk rest hrest
  rw [← hbound] at hk
  generalize hm₁ : m.reading ⟨m.source.position, rest⟩ = m₁ at hk ⊢
  have hliterate : Literate base m₁ := hm₁ ▸ { hm with }
  have hfinished : ∀ m', readTermFrom m.readBound m₁ ≠ .error .unfinished m' := by
    intro m' hrun
    cases hread : readTerm.run m with
    | ok a n => simp [hread, Outcome.reading, hrun] at hk
    | error reason n =>
      rw [hread, hrun] at hk
      cases hk
      exact readTerm_ne_unfinished hm hread
  have hfinished₁ : ∀ m', readTermFrom m₁.readBound m₁ ≠ .error .unfinished m' := fun m' => by
    rw [← hbound]
    exact readTerm_ne_unfinished hliterate
  calc readTerm m₁ = readTermFrom (m₁.readBound + m.readBound) m₁ := by
        rw [readTermFrom_add m.readBound hfinished₁, hbound]
    _ = readTermFrom m.readBound m₁ := by rw [Nat.add_comm, readTermFrom_add m₁.readBound hfinished]
    _ = Outcome.reading ⟨m.source.position + k, rest.drop k⟩ (readTerm m) := hk

/-! ## Programs -/

/-- An operation leaves alone what it should, and on a machine that is fit to read it looks one byte ahead at
most. -/
def Heeds (base : List Handle) (act : Run α) (m : Machine) : Prop :=
  Lasting True base act m ∧ (Ready True base m → Literate base m → Echoes act m)

theorem Heeds.bind {x : Run α} {f : α → Run β} (hx : Heeds base x m)
    (hf : ∀ {a m'}, x m = .ok a m' → Heeds base (f a) m') : Heeds base (x >>= f) m := by
  refine ⟨hx.1.bind fun hrun => (hf hrun).1, fun hready hliterate => ?_⟩
  refine (hx.2 hready hliterate).bind fun hrun => ?_
  obtain ⟨hready', hlasts, -⟩ := hx.1 hready
  rw [after_of_ok hrun] at hready' hlasts
  exact (hf hrun).2 hready' (hliterate.lasts hready'.strict hlasts)

theorem Heeds.keepingRoots {act : Run α} (hact : Heeds m.shadow act m) : Heeds base (keepingRoots act) m := by
  refine ⟨hact.1.keepingRoots, fun hready hliterate => ?_⟩
  exact (hact.2 hready.shadow { hliterate with toReady := hliterate.toReady.shadow }).keepingRoots

theorem Heeds.attempt {act : Run α} (hact : Heeds base act m) : Heeds base (attempt act) m :=
  ⟨hact.1.attempt, fun hready hliterate => (hact.2 hready hliterate).attempt⟩

theorem heeds_of_echoes {act : Run α} (hlasting : Lasting True base act m)
    (hact : Regardless Echoes α base act m) : Heeds base act m :=
  ⟨hlasting, fun _ _ => hact⟩

theorem sequential_heeds : Sequential fun _ base act m => Heeds base act m where
  bind := Heeds.bind
  pure a := heeds_of_echoes (lasting_pure a) (sequential_echoes.pure a)
  stop reason := heeds_of_echoes (lasting_stop reason) (sequential_echoes.stop reason)
  observe hstep := heeds_of_echoes (lasting_observe _) (sequential_echoes.observe hstep)
  ask hblind := heeds_of_echoes (lasting_ask _) (sequential_echoes.ask hblind)
  get hblind hf := ⟨lasting_get hf.1, fun hready hliterate => echoes_get hblind (hf.2 hready hliterate)⟩
  note e := heeds_of_echoes (lasting_note e) (sequential_echoes.note e)
  modifyShadow hheld := heeds_of_echoes (lasting_modify rfl rfl hheld rfl)
    (sequential_echoes.modifyShadow hheld)
  modifyRegisters hconstants hregistry hqueue hslots hcapacity :=
    heeds_of_echoes (lasting_modifyRegisters hconstants hregistry)
      (sequential_echoes.modifyRegisters hconstants hregistry hqueue hslots hcapacity)
  keepingRoots := Heeds.keepingRoots

/-- Storing a byte in a string has nothing to do with the text. -/
theorem heeds_setByte (string : Handle) (offset : Int64) (value : UInt8) : Heeds base (do
    let m ← get
    match m.object? string with
    | some (.string buffer) =>
      match natural? offset with
      | some k => set (m.pokeBuffer string buffer k value)
      | none => return ()
    | _ => stop (m.mismatch "string-poke" "string" string)) m := by
  refine ⟨?_, fun hready _ => echoes_of_forall fun source => ?_⟩
  · exact (solitary_lasting True).setByte (lasting_putString trivial) (lasting_of_plain trivial) _ _ _
  · have hget : ∀ n : Machine, (get : Run Machine) n = .ok n n := fun _ => rfl
    rw [Run.run_bind_of_ok (hget m), Run.run_bind_of_ok (hget (m.reading source))]
    have hobject : (m.reading source).object? string = m.object? string := rfl
    rw [hobject]
    split
    · rename_i buffer hstring
      cases buffer with
      | owned bytes => cases natural? offset <;> rfl
      | view address length => exact (hready.plain trivial hstring).elim
    · rfl

theorem heeds_poke (env : Handle) : Heeds base (perform .stringPoke env) m := by
  have R := sequential_heeds
  refine R.bind (R.observe rfl) fun _ => R.bind ?_ fun _ => R.pure env
  refine R.bind R.popNumber fun _ => R.bind R.popNumber fun _ => R.popUsing ?_
  exact heeds_setByte _ _ _

theorem echoes_printValue (h : Handle) : Echoes (printValue h) m := by
  have hwrite : ∀ {m : Machine} (pieces : List Bytes), Echoes (write pieces) m := by
    intro m pieces
    refine Echoes.bind (echoes_of_forall fun _ => rfl) fun {result _} _ => ?_
    cases result <;> exact echoes_of_forall fun _ => rfl
  refine Echoes.bind (echoes_of_forall fun _ => rfl) fun {_ m₁} _ => ?_
  exact (echoes_ask fun source => printout_of_source h source).bind fun _ => hwrite _

theorem echoes_passOn (ended : Except Stop Unit) : Echoes (passOn ended) m := by
  rw [passOn_eq]
  exact echoes_ask fun _ => rfl

/-- Looking one byte ahead at most passes from the parts of evaluation to the whole. -/
theorem compositional_heeds : Compositional True fun _ base act m => Heeds base act m where
  toSequential := sequential_heeds
  allocate ho := heeds_of_echoes (lasting_allocate ho) (placing_echoes.allocate ho)
  collect := heeds_of_echoes lasting_collect placing_echoes.collect
  intern spelling := heeds_of_echoes (lasting_intern spelling) (placing_echoes.intern spelling)
  readTerm := ⟨lasting_readTerm, fun _ => echoes_readTerm⟩
  printValue h := heeds_of_echoes ((compositional_lasting True).printValue h) (echoes_printValue h)
  poke _ := heeds_poke
  raw _ hp hraw _ := ⟨(compositional_lasting True).raw trivial hp hraw _, fun hready _ =>
    absurd (hraw.symm.trans (hready.plain trivial hp)) (by simp)⟩
  attempt := Heeds.attempt
  passOn ended := heeds_of_echoes ((compositional_lasting True).passOn ended) (echoes_passOn ended)

/-- A run of a program looks one byte ahead at most. -/
theorem echoes_launch (slots : UInt64) (source : Bytes) (sink : Sink) (tracing : Bool)
    (platform : Platform) (bound : ℕ) :
    Echoes (launch bound) (blank slots.toNat source sink tracing platform) := by
  obtain ⟨m, hprepare, hfresh, -⟩ := exists_fresh false slots source sink tracing platform
  have hsetup : Regardless Echoes Unit [] (prepare false) (blank slots.toNat source sink tracing platform) :=
    placing_echoes.prepare (fun _ _ => echoes_of_forall fun _ => rfl) fun _ => rfl
  refine Echoes.bind hsetup fun hrun => ?_
  cases hprepare.symm.trans hrun
  have hready : Ready True [] m := by simpa using hfresh.ready
  exact (compositional_heeds.runNext trivial bound).2 hready hfresh.literate

/-- What a run has not reached has no influence on it. If another text begins with the same bytes, up to and
including the one at which the run ended, then a run on that text ends the same way, with the same output
and the same machine, at the same position. -/
theorem launch_eq_of_take_eq (slots : UInt64) {source source' : Bytes} (sink : Sink) (tracing : Bool)
    (platform : Platform) (bound : ℕ) {p : ℕ}
    (hp : (after (launch bound) (blank slots.toNat source sink tracing platform)).source.position = p)
    (htake : source'.take (p + 1) = source.take (p + 1)) :
    launch bound (blank slots.toNat source' sink tracing platform) =
      Outcome.reading ⟨p, source'.drop p⟩
        (launch bound (blank slots.toNat source sink tracing platform)) := by
  obtain ⟨k, hk⟩ := echoes_launch slots source sink tracing platform bound
  have hsource : (after (launch bound) (blank slots.toNat source sink tracing platform)).source =
      ⟨0 + k, source.drop k⟩ := source_of_echoes (hk source rfl)
  have hk_eq : k = p := by simpa [hsource] using hp
  subst hk_eq
  have hrun : launch bound (blank slots.toNat source' sink tracing platform) =
      Outcome.reading ⟨0 + k, source'.drop k⟩
        (launch bound (blank slots.toNat source sink tracing platform)) :=
    hk source' htake
  rwa [Nat.zero_add] at hrun

/-- The program reads one term after its own text and writes it out. What follows may be anything. -/
theorem launch_eq_of_unread :
    let source := Bytes.ofString "(read print) 7 8"
    let source' := Bytes.ofString "(read print) 7 ((\""
    (after (launch 20) (blank (256 : UInt64).toNat source {} false {})).source.position = 14 ∧
      source'.take 15 = source.take 15 ∧
      launch 20 (blank (256 : UInt64).toNat source' {} false {}) =
        Outcome.reading ⟨14, source'.drop 14⟩
          (launch 20 (blank (256 : UInt64).toNat source {} false {})) := by
  intro source source'
  have hposition : (after (launch 20) (blank (256 : UInt64).toNat source {} false {})).source.position =
      14 := by
    decide +kernel
  have htake : source'.take (14 + 1) = source.take (14 + 1) := by decide +kernel
  exact ⟨hposition, htake, launch_eq_of_take_eq 256 {} false {} 20 hposition htake⟩

end Machine

end PushLisp
