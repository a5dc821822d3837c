import PushLisp.Proofs.Calls
import PushLisp.Proofs.SuccessiveReads

/-!
# Readable terms

A term is readable if it is a number, an atom that is written as a word, or a list of readable terms. From a
text without strings nothing else is read, whatever else is done in between and however it ends: only words
are put into the queue, and it is a root, so what is queued stays until it is handed out.

## Main definitions

* `Term.Readable`: the readable terms.
* `Grammar.Stringless`: a text in which no string begins outside of comments.
* `Machine.Prosaic`: a machine that has only readable terms in front of it.

## Main statements

* `Grammar.Phrase.readable`: the phrases of a text without strings.
* `Machine.upholds_readTerm`: reading leaves only readable terms in front of a machine.
* `Machine.Prosaic.serve`: so does all else.
* `Machine.Prosaic.readable`: what is read is readable.
-/
namespace PushLisp

open Grammar

/-! ## Terms -/

/-- The terms that can be written without strings and dots. -/
inductive Term.Readable : Term → Prop
  | number (n : Int64) : Readable (.number n)
  | atom {s : Bytes} : s ≠ [] → (∀ c ∈ s, c ∉ punctuation) → (∀ i, Grammar.Literal s i → ¬ InRange i) →
      Readable (.atom s)
  | list {ts : List Term} : (∀ t ∈ ts, Readable t) → Readable (.list ts)

/-- What a word stands for is readable. -/
theorem Grammar.Scalar.readable {word : Bytes} {t : Term} (h : Scalar word t) (hne : word ≠ [])
    (hplain : ∀ c ∈ word, c ∉ punctuation) : t.Readable := by
  cases h with
  | number _ _ => exact .number _
  | atom hnone => exact .atom hne hplain hnone

theorem Grammar.readable_name {text : String} (hne : Bytes.ofString text ≠ [])
    (hplain : ∀ c ∈ Bytes.ofString text, c ∉ punctuation)
    (hnone : Numeral.readInt64? (Bytes.ofString text) = none) : (name text).Readable :=
  .atom hne hplain (readInt64?_eq_none_iff.mp hnone)

theorem Grammar.readable_quote : (name "quote").Readable :=
  readable_name (by decide +kernel) (by decide +kernel) (by decide +kernel)

theorem Grammar.readable_directive {sign : UInt8} {op : String} (h : (sign, op) ∈ directives) :
    (name op).Readable := by
  rcases mem_directives.mp h with ⟨-, rfl⟩ | ⟨-, rfl⟩ <;>
    exact readable_name (by decide +kernel) (by decide +kernel) (by decide +kernel)

/-- A readable term has no strings, so it unfolds wherever the objects are that are none. -/
theorem Term.Readable.unfoldsWith_congr {heap heap' : Heap} {known known' : Handle → Bytes → Prop}
    {h : Handle} {t : Term} (ht : t.Readable) (hh : heap.UnfoldsWith known h t)
    (hkeep : ∀ {k o}, heap.Reaches [h] k → heap.get? k = some o → o.kind ≠ .string →
      heap'.get? k = some o)
    (hknown : ∀ {k s}, known k s → known' k s) : heap'.UnfoldsWith known' h t := by
  induction ht generalizing h with
  | number n =>
    cases hh with
    | number ho => exact .number (hkeep (.root List.mem_cons_self) ho (by simp [Object.kind]))
  | atom =>
    cases hh with
    | atom ho hs => exact .atom (hkeep (.root List.mem_cons_self) ho (by simp [Object.kind])) (hknown hs)
  | @list ts hts ih =>
    clear hts
    induction ts generalizing h with
    | nil =>
      cases hh with
      | nil ho => exact .nil (hkeep (.root List.mem_cons_self) ho (by simp [Object.kind]))
    | cons t ts ihts =>
      cases hh with
      | @pair _ car cdr _ _ ho hcar hcdr =>
        have hroot : heap.Reaches [h] h := .root List.mem_cons_self
        have hpart : ∀ {k j}, k ∈ (Object.pair car cdr).references → heap.Reaches [k] j →
            heap.Reaches [h] j := fun hk hj =>
          hj.trans (List.forall_mem_singleton.mpr (hroot.reference ho hk))
        refine .pair (hkeep hroot ho (by simp [Object.kind])) ?_ ?_
        · exact ih t List.mem_cons_self hcar fun hk => hkeep (hpart (by simp [Object.references]) hk)
        · exact ihts (fun u hu => ih u (List.mem_cons_of_mem t hu)) hcdr fun hk =>
            hkeep (hpart (by simp [Object.references]) hk)

/-! ## Texts without strings -/

namespace Grammar

/-- No string begins in a text outside of comments; `comment` tells whether the text begins in one. -/
def stringlessFrom : Bool → Bytes → Bool
  | _, [] => true
  | true, c :: s => stringlessFrom (c ≠ Ascii.newline) s
  | false, c :: s => c ≠ Ascii.doubleQuote && stringlessFrom (c = Ascii.semicolon) s

/-- No string begins in a text outside of comments. -/
def Stringless (s : Bytes) : Prop := stringlessFrom false s = true

instance (s : Bytes) : Decidable (Stringless s) := inferInstanceAs (Decidable (_ = _))

theorem stringless_nil : Stringless [] := rfl

theorem stringless_cons_iff {c : UInt8} {s : Bytes} (hc : c ≠ Ascii.semicolon) :
    Stringless (c :: s) ↔ c ≠ Ascii.doubleQuote ∧ Stringless s := by
  simp [Stringless, stringlessFrom, hc]

theorem stringlessFrom_comment {body : Bytes} (hbody : Ascii.newline ∉ body) (s : Bytes) :
    stringlessFrom true (body ++ Ascii.newline :: s) = stringlessFrom false s := by
  induction body with
  | nil => simp [stringlessFrom]
  | cons c body ih =>
    rw [List.mem_cons, not_or] at hbody
    have hc : c ≠ Ascii.newline := fun h => hbody.1 h.symm
    simpa [stringlessFrom, hc] using ih hbody.2

theorem Gap.stringless {s rest : Bytes} (hgap : Gap s rest) (hs : Stringless s) : Stringless rest := by
  induction hgap with
  | none => exact hs
  | @blank c s rest hc _ ih =>
    have hne : c ≠ Ascii.semicolon := by
      rintro rfl
      exact absurd hc (by decide)
    exact ih ((stringless_cons_iff hne).mp hs).2
  | @comment body s rest hbody _ ih =>
    apply ih
    have hs : stringlessFrom true (body ++ Ascii.newline :: s) = true := by
      simpa [Stringless, stringlessFrom, Ascii.semicolon, Ascii.doubleQuote] using hs
    rwa [stringlessFrom_comment hbody] at hs
  | lastComment => exact stringless_nil

/-- A word is passed without meeting a comment. -/
theorem stringless_of_append {word rest : Bytes} (hplain : ∀ c ∈ word, c ∉ punctuation)
    (hs : Stringless (word ++ rest)) : Stringless rest := by
  induction word with
  | nil => exact hs
  | cons c word ih =>
    rw [List.forall_mem_cons] at hplain
    have hne : c ≠ Ascii.semicolon := by
      rintro rfl
      exact absurd (by decide) hplain.1
    exact ih hplain.2 ((stringless_cons_iff hne).mp hs).2

theorem Word.stringless {s word rest : Bytes} (hword : Word s word rest) (hs : Stringless s) :
    Stringless rest := by
  rw [← hword.append_eq] at hs
  exact stringless_of_append hword.plain hs

/-- The signs that phrases begin with, other than that of a string. -/
theorem stringless_of_sign {c : UInt8} {s : Bytes}
    (hc : c ∈ [Ascii.singleQuote, Ascii.caret, Ascii.dollar, Ascii.openParen, Ascii.closeParen])
    (hs : Stringless (c :: s)) : Stringless s := by
  have hne : c ≠ Ascii.semicolon := by
    rintro rfl
    exact absurd hc (by decide)
  exact ((stringless_cons_iff hne).mp hs).2

theorem stringless_of_directive {sign : UInt8} {op : String} {s : Bytes} (h : (sign, op) ∈ directives)
    (hs : Stringless (sign :: s)) : Stringless s := by
  rcases mem_directives.mp h with ⟨rfl, -⟩ | ⟨rfl, -⟩ <;> exact stringless_of_sign (by decide) hs

theorem not_stringless_doubleQuote {s : Bytes} : ¬ Stringless (Ascii.doubleQuote :: s) := by
  rw [stringless_cons_iff (by decide)]
  exact fun hs => hs.1 rfl

mutual

/-- The terms of a phrase are readable if the text has no strings, and none are left in it. -/
theorem Phrase.readable : ∀ {s rest : Bytes} {r : Except Fault (List Term)}, Phrase s r rest →
    Stringless s → ∀ {ts}, r = .ok ts → Stringless rest ∧ ∀ t ∈ ts, t.Readable
  | _, _, _, .quote rest, hs, _, h => by
    cases h
    exact ⟨stringless_of_sign (by decide) hs, List.forall_mem_singleton.mpr readable_quote⟩
  | _, _, _, .directive hsign hword hscalar, hs, _, h => by
    cases h
    have hterm := hscalar.readable hword.ne_nil hword.plain
    refine ⟨hword.stringless (stringless_of_directive hsign hs), ?_⟩
    simpa using ⟨readable_quote, hterm, readable_directive hsign⟩
  | _, _, _, .list hitems, hs, _, h => by
    cases h
    obtain ⟨hrest, hts⟩ := Items.readable hitems (stringless_of_sign (by decide) hs) rfl
    exact ⟨hrest, List.forall_mem_singleton.mpr (.list hts)⟩
  | _, _, _, .string _, hs, _, _ => absurd hs not_stringless_doubleQuote
  | _, _, _, .scalar hword hscalar, hs, _, h => by
    cases h
    have hterm := hscalar.readable hword.ne_nil hword.plain
    exact ⟨hword.stringless hs, List.forall_mem_singleton.mpr hterm⟩

theorem Items.readable : ∀ {s rest : Bytes} {r : Except Fault (List Term)}, Items s r rest →
    Stringless s → ∀ {ts}, r = .ok ts → Stringless rest ∧ ∀ t ∈ ts, t.Readable
  | _, _, _, .close hgap, hs, _, h => by
    cases h
    exact ⟨stringless_of_sign (by decide) (hgap.stringless hs), List.forall_mem_nil _⟩
  | _, _, _, .more hgap hphrase hitems, hs, _, h => by
    cases h
    obtain ⟨hs₂, hts⟩ := Phrase.readable hphrase (hgap.stringless hs) rfl
    obtain ⟨hrest, hus⟩ := Items.readable hitems hs₂ rfl
    exact ⟨hrest, List.forall_mem_append.mpr ⟨hts, hus⟩⟩

end

/-- Skipping blanks does not lead into a string. -/
theorem stringless_skipBlank {src : Source} (hs : Stringless src.rest) : Stringless src.skipBlank.rest := by
  obtain ⟨rest, hgap, hsolid⟩ := exists_gap src.rest
  rw [skipBlank_of_gap hgap hsolid]
  exact hgap.stringless hs

/-- The bytes of a word are no punctuation, and nothing is lost. -/
theorem scanWord_spec (src : Source) : (∀ c ∈ src.scanWord.1, c ∉ punctuation) ∧
    src.scanWord.1 ++ src.scanWord.2.rest = src.rest := by
  refine ⟨fun c hc => ?_, src.scanWord_append⟩
  exact not_isPunctuation_iff.mp (List.all_eq_true.mp List.all_takeWhile c hc)

end Grammar

namespace Machine

variable {α β : Type} {poking : Prop} {base : List Handle} {m m' : Machine} {h : Handle}

/-! ## Machines with readable terms in front of them -/

/-- A machine that is fit to read, with a text without strings and a queue of readable terms. -/
structure Prosaic (m : Machine) : Prop where
  literate : Literate [] m
  text : Stringless m.source.rest
  queue : ∃ ts, Pending m ts ∧ ∀ t ∈ ts, t.Readable

/-- A queue of readable terms stays as long as the objects that are no strings do. -/
theorem Pending.congr {ts : List Term} (hqueue : Pending m ts) (hts : ∀ t ∈ ts, t.Readable)
    (heq : m'.registers.readQueue = m.registers.readQueue)
    (hkeep : ∀ {k o}, m.heap.Reaches [m.registers.readQueue] k → m.object? k = some o →
      o.kind ≠ .string → m'.object? k = some o)
    (hregistered : ∀ {k s}, m.Registered k s → m'.Registered k s) : Pending m' ts := by
  obtain ⟨hs, hspine, hstands⟩ := hqueue
  refine ⟨hs, ?_, ?_⟩
  · rw [heq]
    exact hspine.congr fun hk ho => hkeep hk ho (by simp [Object.kind])
  · have hreach := hspine.reaches
    clear hspine
    induction hstands with
    | nil => exact .nil
    | @cons k t hs ts hk _ ih =>
      rw [List.forall_mem_cons] at hts hreach
      refine .cons (hts.1.unfoldsWith_congr hk (fun hj => hkeep (hj.trans ?_)) hregistered)
        (ih hts.2 hreach.2)
      exact List.forall_mem_singleton.mpr hreach.1

/-- What an operation has to leave alone so that the terms in front of a machine stay readable. -/
theorem Prosaic.lasts (hm : m.Prosaic) (hready : Ready poking base m') (hlasts : Lasts poking base m m')
    (htext : Stringless m'.source.rest) (heq : m'.registers.readQueue = m.registers.readQueue)
    (hkeep : ∀ {k o}, m.heap.Reaches [m.registers.readQueue] k → m.object? k = some o →
      o.kind ≠ .string → m'.object? k = some o) : m'.Prosaic := by
  obtain ⟨ts, hqueue, hts⟩ := hm.queue
  have hlasts := hlasts.of_subset (List.nil_subset base)
  exact ⟨hm.literate.lasts (hready.strict.of_suffix List.nil_suffix) hlasts, htext, ts,
    hqueue.congr hts heq hkeep fun hk => hk.lasts hlasts, hts⟩

/-- An operation leaves only readable terms in front of a machine. -/
def Upholds (poking : Prop) (base : List Handle) (act : Run α) (m : Machine) : Prop :=
  Ready poking base m → m.Prosaic → (after act m).Prosaic

theorem Upholds.bind {x : Run α} {f : α → Run β} (hlasting : Lasting poking base x m)
    (hx : Upholds poking base x m)
    (hf : ∀ {a m'}, x m = .ok a m' → m'.Prosaic → Upholds poking base (f a) m') :
    Upholds poking base (x >>= f) m := by
  intro hready hm
  have hready' := (hlasting hready).1
  have hm' := hx hready hm
  cases hrun : x.run m with
  | ok a m' =>
    rw [after_of_ok hrun] at hready' hm'
    rw [after_bind_of_ok hrun]
    exact hf hrun hm' hready' hm'
  | error reason m' =>
    rw [after_of_error hrun] at hm'
    rwa [after_bind_of_error hrun]

theorem upholds_get {f : Machine → Run α} (hf : Upholds poking base (f m) m) :
    Upholds poking base (get >>= f) m := by
  have hrun : (get : Run Machine).run m = .ok m m := rfl
  rw [Upholds, after_bind_of_ok hrun]
  exact hf

theorem upholds_getRegisters {f : Registers → Run α} (hf : Upholds poking base (f m.registers) m) :
    Upholds poking base (getRegisters >>= f) m := by
  have hrun : getRegisters.run m = .ok m.registers m := rfl
  rw [Upholds, after_bind_of_ok hrun]
  exact hf

theorem upholds_of_after_eq {act : Run α} (hafter : after act m = m) : Upholds poking base act m := by
  intro _ hm
  rwa [hafter]

/-- Operations that touch neither objects nor the queue nor the registry, nor lead into a string. -/
theorem upholds_of_heap_eq {act : Run α} (hlasting : Lasting poking base act m)
    (hheap : (after act m).heap = m.heap)
    (heq : (after act m).registers.readQueue = m.registers.readQueue)
    (htext : Stringless m.source.rest → Stringless (after act m).source.rest) :
    Upholds poking base act m := by
  intro hready hm
  obtain ⟨hready', hlasts, -⟩ := hlasting hready
  refine hm.lasts hready' hlasts (htext hm.text) heq fun _ ho _ => ?_
  rw [object?, hheap]
  exact ho

/-- Operations that drop what no root leads to. -/
theorem upholds_of_spares {act : Run α} (hlasting : Lasting poking base act m)
    (hspares : Ready poking base m → ∃ hs, Spares hs m (after act m)) : Upholds poking base act m := by
  intro hready hm
  obtain ⟨hready', hlasts, -⟩ := hlasting hready
  obtain ⟨hs, hspares⟩ := hspares hready
  have hinput := hspares.sameInput
  refine hm.lasts hready' hlasts ?_ hinput.2 fun hk ho _ => hspares.object?_eq ho (hk.mono ?_)
  · rw [hinput.1]
    exact hm.text
  · simp [roots, Registers.roots]

theorem Upholds.keepingRoots {act : Run α} (hact : Upholds poking m.shadow act m) :
    Upholds poking base (keepingRoots act) m := by
  intro hready hm
  have hm' := hact hready.shadow hm
  rw [after_keepingRoots]
  obtain ⟨ts, hqueue, hts⟩ := hm'.queue
  exact ⟨{ hm'.literate with held := List.nil_suffix }, hm'.text, ts, hqueue, hts⟩

theorem upholds_allocate (o : Object) (hplain : poking → o.Plain) : Upholds poking base (allocate o) m := by
  refine upholds_of_spares (lasting_allocate hplain) fun hready => ?_
  rcases allocate_spares o hready.unmarked hready.capacity_le with
    ⟨h, m', hrun, hplaced⟩ | ⟨m', hrun, hdenied⟩
  · rw [after_of_ok hrun]
    exact ⟨_, hplaced.spares⟩
  · rw [after_of_error hrun]
    exact ⟨_, hdenied.spares⟩

theorem upholds_collect : Upholds poking base collect m := by
  refine upholds_of_spares lasting_collect fun hready => ?_
  obtain ⟨events, hrun⟩ := run_collect m
  rw [after_of_ok hrun]
  exact ⟨[], spares_collect hready.unmarked [] events⟩

theorem upholds_intern (spelling : Bytes) : Upholds poking base (intern spelling) m := by
  intro hready hm
  have hlasting : Lasting poking base (intern spelling) m := lasting_intern spelling
  obtain ⟨hready', hlasts, -⟩ := hlasting hready
  obtain ⟨entries, henrolled⟩ := hready.enrolled
  have hroot : ∀ {k}, m.heap.Reaches [m.registers.readQueue] k →
      m.heap.Reaches (.nil :: ([] ++ m.roots)) k := fun hk => hk.mono (by simp [roots, Registers.roots])
  rcases intern_cases hready henrolled spelling with
    ⟨atom, hrun, -⟩ | ⟨atom, m', hrun, henters⟩ | ⟨m', hrun, hbarred⟩
  · rwa [after_of_ok hrun]
  · rw [after_of_ok hrun] at hready' hlasts ⊢
    refine hm.lasts hready' hlasts ?_ ?_ fun hk ho _ => henters.spares.object?_eq ho (hroot hk)
    · have hsource : m'.source = m.source := henters.spares.sameInput.1
      rw [hsource]
      exact hm.text
    · rw [henters.registers_eq]
  · rw [after_of_error hrun] at hready' hlasts ⊢
    have hinput := hbarred.spares.sameInput
    refine hm.lasts hready' hlasts ?_ hinput.2 fun hk ho _ => hbarred.spares.object?_eq ho (hroot hk)
    rw [hinput.1]
    exact hm.text

/-! ## Reading -/

theorem upholds_root (hs : List Handle) : Upholds poking base (root hs) m :=
  upholds_of_heap_eq (lasting_root hs) rfl rfl id

theorem upholds_consAll (list : Handle) (values : List Handle) :
    Upholds poking base (consAll list values) m := by
  induction values generalizing list m with
  | nil => exact upholds_of_after_eq rfl
  | cons v values ih =>
    exact Upholds.bind (lasting_makePair v list) (upholds_allocate _ fun _ => trivial) fun _ _ => ih _

theorem upholds_makeList (values : List Handle) : Upholds poking base (makeList values) m := by
  refine Upholds.keepingRoots ?_
  exact Upholds.bind (lasting_root values) (upholds_root values) fun _ _ => upholds_consAll _ _

theorem upholds_scalar (word : Bytes) : Upholds poking base (scalar word) m := by
  rw [scalar]
  cases Numeral.readInt64? word with
  | some n => exact upholds_allocate _ fun _ => trivial
  | none => exact upholds_intern word

theorem upholds_skipBlank : Upholds poking base skipBlank m :=
  upholds_of_heap_eq lasting_skipBlank rfl rfl stringless_skipBlank

theorem upholds_takeWord : Upholds poking base takeWord m := by
  refine upholds_of_heap_eq lasting_takeWord rfl rfl fun htext => ?_
  obtain ⟨hplain, happend⟩ := scanWord_spec m.source
  rw [← happend] at htext
  exact stringless_of_append hplain htext

/-- A sign is passed that begins no string. -/
theorem upholds_advance {c : UInt8} (hhead : m.source.rest.head? = some c)
    (hc : c ∈ [Ascii.singleQuote, Ascii.caret, Ascii.dollar, Ascii.openParen, Ascii.closeParen]) :
    Upholds poking base advance m := by
  refine upholds_of_heap_eq lasting_advance rfl rfl fun htext => ?_
  obtain ⟨s, hs⟩ := List.head?_eq_some_iff.mp hhead
  rw [hs] at htext
  show Stringless m.source.advance.rest
  rw [rest_advance hs]
  exact stringless_of_sign hc htext

/-- A directive queues readable terms. -/
theorem upholds_queueDirective {sign : UInt8} {op : Registers → Handle} {u : Term} (hu : u.Readable)
    (hop : ∀ {n}, Literate [] n → Stands n (op n.registers) u) :
    Upholds poking base (queueDirective sign op) m := by
  refine Upholds.bind lasting_takeWord upholds_takeWord fun {word m₁} hword hm₁ => ?_
  have hplain : ∀ c ∈ word, c ∉ punctuation := by
    cases hword
    exact (scanWord_spec m.source).1
  split
  · exact Upholds.bind (lasting_fail _) (upholds_of_after_eq rfl) fun h => nomatch h
  · rename_i hne
    obtain ⟨t, hscalar⟩ : ∃ t, Scalar word t := ⟨_, scalar_iff.mpr rfl⟩
    have ht := hscalar.readable (by simpa using hne) hplain
    refine Upholds.bind (lasting_scalar word) (upholds_scalar word) fun {name m₂} hname hm₂ => ?_
    have hstands := ((returns_scalar hm₁.literate hscalar).of_ok hname).1
    refine upholds_getRegisters (Upholds.bind (lasting_makeList _) (upholds_makeList _) ?_)
    intro queue m₃ hqueue hm₃ _ _
    have hvalues : List.Forall₂ (Stands m₂) [m₂.registers.atomQuote, name, op m₂.registers]
        [Grammar.name "quote", t, u] :=
      .cons (stands_of_registered hm₂.literate.quote) (.cons hstands (.cons (hop hm₂.literate) .nil))
    obtain ⟨hspine, hvalues, -⟩ := (returns_makeList hm₂.literate hvalues).of_ok hqueue
    refine ⟨{ hm₃.literate with }, hm₃.text, _, ⟨_, hspine, hvalues⟩, ?_⟩
    simpa using ⟨readable_quote, ht, hu⟩

/-- Where a term is queued, it is handed out. -/
theorem upholds_readTermFrom_of_pending {n : ℕ} {t : Term} {ts : List Term} (hqueue : Pending m (t :: ts))
    (hts : ∀ t ∈ ts, t.Readable) : Upholds poking base (readTermFrom (n + 1)) m := by
  intro _ hm
  rcases returns_readTermFrom_of_pending n hm.literate hqueue with
    ⟨_, _, _, hroom⟩ | ⟨h, m', hrun, -, -, hqueue', hsource, -⟩
  · exact absurd hroom (Nat.not_lt_zero _)
  · rw [after_of_ok hrun]
    refine ⟨(hm.literate.of_ok (lasting_readFrom (n + 1)).1 hrun).1, ?_, ts, hqueue', hts⟩
    rw [hsource]
    exact hm.text

/-- Reading once blanks are passed, if reading on leaves only readable terms. -/
theorem upholds_readNext {n : ℕ} (hterm : ∀ {base m}, Upholds poking base (readTermFrom n) m)
    (hitems : ∀ {base m items}, Upholds poking base (readItemsFrom n items) m) :
    Upholds poking base (readNext n m.registers m.source.rest.head?) m := by
  have hadvance : ∀ {c} {act : Run Handle}, m.source.rest.head? = some c →
      c ∈ [Ascii.singleQuote, Ascii.caret, Ascii.dollar, Ascii.openParen, Ascii.closeParen] →
      (∀ {m}, Upholds poking base act m) → Upholds poking base (do advance; act) m := fun hhead hc hact =>
    Upholds.bind lasting_advance (upholds_advance hhead hc) fun _ _ => hact
  cases hhead : m.source.rest.head? with
  | none => exact upholds_of_after_eq rfl
  | some c =>
    rw [readNext]
    split
    · rename_i hc
      exact hadvance hhead (by simp [hc]) (upholds_of_after_eq rfl)
    split
    · rename_i hc
      refine hadvance hhead (by simp [hc]) ?_
      refine Upholds.bind (lasting_queueDirective _ _) ?_ fun _ _ => hterm
      refine upholds_queueDirective (readable_directive (mem_directives.mpr (.inl ⟨rfl, rfl⟩))) ?_
      exact fun hm => stands_of_registered hm.push
    split
    · rename_i hc
      refine hadvance hhead (by simp [hc]) ?_
      refine Upholds.bind (lasting_queueDirective _ _) ?_ fun _ _ => hterm
      refine upholds_queueDirective (readable_directive (mem_directives.mpr (.inr ⟨rfl, rfl⟩))) ?_
      exact fun hm => stands_of_registered hm.pop
    split
    · rename_i hc
      refine hadvance hhead (by simp [hc]) (Upholds.keepingRoots ?_)
      exact Upholds.bind (lasting_readFrom n).2 hitems fun _ _ => upholds_makeList _
    split
    · -- no string begins here
      rename_i hc
      intro _ hm
      obtain ⟨s, hs⟩ := List.head?_eq_some_iff.mp hhead
      have htext := hm.text
      rw [hs, hc] at htext
      exact absurd htext not_stringless_doubleQuote
    split
    · rename_i hc
      exact upholds_get (hadvance hhead (by simp [hc]) (upholds_of_after_eq rfl))
    · exact Upholds.bind lasting_takeWord upholds_takeWord fun _ _ => upholds_scalar _

/-- Reading within a step bound, however it ends. -/
theorem upholds_readFrom (n : ℕ) : (∀ {base m}, Upholds poking base (readTermFrom n) m) ∧
    ∀ {base m items}, Upholds poking base (readItemsFrom n items) m := by
  induction n with
  | zero =>
    constructor
    · intro base m
      rw [readTermFrom]
      exact upholds_of_after_eq rfl
    · intro base m items
      rw [readItemsFrom]
      exact upholds_of_after_eq rfl
  | succ n ih =>
    obtain ⟨hterm, hitems⟩ := ih
    constructor
    · intro base m hready hm
      obtain ⟨ts, hqueue, hts⟩ := hm.queue
      cases ts with
      | cons t ts =>
        exact upholds_readTermFrom_of_pending hqueue (List.forall_mem_cons.mp hts).2 hready hm
      | nil =>
        have hskipped := upholds_skipBlank hready hm
        have hready' := (lasting_skipBlank hready).1
        have hnext : Upholds poking base (readNext n m.registers m.source.skipBlank.rest.head?)
            { m with source := m.source.skipBlank } := upholds_readNext hterm hitems
        rw [after_eq_of_run_eq (run_readTermFrom_of_empty n hm.literate hqueue)]
        exact hnext hready' hskipped
    · intro base m items
      have hmore : ∀ {m}, Upholds poking base (do
          let item ← readTermFrom n
          root [item]
          readItemsFrom n (item :: items)) m :=
        Upholds.bind (lasting_readFrom n).1 hterm fun _ _ =>
          Upholds.bind (lasting_root _) (upholds_root _) fun _ _ => hitems
      rw [readItemsFrom]
      refine upholds_getRegisters ?_
      split
      · refine Upholds.bind lasting_skipBlank upholds_skipBlank fun {_ m₁} _ _ => ?_
        refine Upholds.bind lasting_peek (upholds_of_after_eq rfl) fun {next m₂} hpeek _ => ?_
        split
        · rename_i hclose
          cases hpeek
          exact Upholds.bind lasting_advance (upholds_advance hclose (by decide)) fun _ _ =>
            upholds_of_after_eq rfl
        · exact hmore
      · exact hmore

/-- Reading leaves only readable terms in front of a machine. -/
theorem upholds_readTerm : Upholds poking base readTerm m := upholds_get (upholds_readFrom _).1

/-! ## Whatever else is done -/

theorem solitary_upholds (poking : Prop) :
    Solitary fun _ base act m => Lasting poking base act m ∧ Upholds poking base act m where
  bind hx hf := ⟨hx.1.bind fun hrun => (hf hrun).1, hx.2.bind hx.1 fun hrun _ => (hf hrun).2⟩
  get hf := ⟨lasting_get hf.1, upholds_get hf.2⟩
  still hafter hpasses :=
    ⟨(solitary_lasting poking).still hafter hpasses, upholds_of_after_eq hafter⟩
  change hheap hregisters hsource hheld hpasses := by
    have hlasting := (solitary_lasting poking).change hheap hregisters hsource hheld hpasses
    refine ⟨hlasting, upholds_of_heap_eq hlasting hheap (congrArg Registers.readQueue hregisters) ?_⟩
    rw [hsource]
    exact id
  modifyRegisters hconstants hregistry hqueue _ _ :=
    ⟨lasting_modifyRegisters hconstants hregistry,
      upholds_of_heap_eq (lasting_modifyRegisters hconstants hregistry) rfl hqueue id⟩
  keepingRoots hact := ⟨.keepingRoots hact.1, .keepingRoots hact.2⟩

/-- Overwriting the bytes of a string leaves only readable terms in front of a machine. -/
theorem upholds_putString {bytes bytes' : Array UInt8} (hpoking : poking)
    (hh : m.object? h = some (.string (.owned bytes))) (hsize : bytes'.size = bytes.size) :
    Upholds poking base (set { m with heap := m.heap.put h (.string (.owned bytes')) } : Run PUnit) m := by
  intro hready hm
  obtain ⟨hready', hlasts, -⟩ := lasting_putString hpoking hh hsize hready
  exact hm.lasts hready' hlasts hm.text rfl fun _ ho hkind => (object?_putString_iff hh hkind).mpr ho

/-- Leaving only readable terms in front of a machine passes from the parts of evaluation to the whole. -/
theorem compositional_upholds (poking : Prop) :
    Compositional poking fun _ base act m => Lasting poking base act m ∧ Upholds poking base act m where
  toSequential := (solitary_upholds poking).sequential
  allocate hplain := ⟨lasting_allocate hplain, upholds_allocate _ hplain⟩
  collect := ⟨lasting_collect, upholds_collect⟩
  intern spelling := ⟨lasting_intern spelling, upholds_intern spelling⟩
  readTerm := ⟨lasting_readTerm, upholds_readTerm⟩
  printValue := (solitary_upholds poking).printValue
  poke hpoking := by
    refine (solitary_upholds poking).poke (fun hh hsize => ?_) fun ho hact => ?_
    · exact ⟨lasting_putString hpoking hh hsize, upholds_putString hpoking hh hsize⟩
    · exact ⟨lasting_of_plain hpoking ho fun hplain => (hact hplain).1,
        fun hready => (hact (hready.plain hpoking ho)).2 hready⟩
  raw hpoking hp hraw env := by
    refine ⟨(compositional_lasting poking).raw hpoking hp hraw env, fun hready => ?_⟩
    exact absurd (hraw.symm.trans (hready.plain hpoking hp)) (by simp)
  attempt hact := ⟨hact.1.attempt, by rw [Upholds, after_attempt]; exact hact.2⟩
  passOn := (solitary_upholds poking).passOn

/-- Whatever is called for, only readable terms are in front of a machine. -/
theorem Prosaic.serve {calls : List Call} (hm : m.Prosaic) (hready : Ready poking [] m)
    (hrun : ∀ bound, .run bound ∈ calls → poking) : (after (serve calls) m).Prosaic :=
  ((compositional_upholds poking).serve hrun).2 hready hm

/-- What is read is readable. -/
theorem Prosaic.readable (hm : m.Prosaic) (hrun : readTerm m = .ok h m') :
    ∃ t, Stands m' h t ∧ t.Readable := by
  have hbound : 4 * m.source.rest.length < m.readBound := by
    simp only [readBound]
    omega
  obtain ⟨ts, hqueue, hts⟩ := hm.queue
  cases ts with
  | cons t ts =>
    have hread := returns_readTermFrom_of_pending (m.readBound - 1) hm.literate hqueue
    rw [Nat.sub_add_cancel (by omega)] at hread
    exact ⟨t, (hread.of_ok hrun).1, hts t List.mem_cons_self⟩
  | nil =>
    obtain ⟨s, hgap, hsolid⟩ := exists_gap m.source.rest
    rcases exists_phrase s le_rfl hsolid with ⟨r, rest, hphrase⟩ | ⟨rest, rfl⟩
    · cases r with
      | ok ts =>
        have hread := (faithful m.readBound).term hm.literate hqueue hgap hphrase hbound
        obtain ⟨t, us, rfl, hh, -⟩ := hread.of_ok hrun
        obtain ⟨-, hts⟩ := hphrase.readable (hgap.stringless hm.text) rfl
        exact ⟨t, hh, hts t List.mem_cons_self⟩
      | error f =>
        rcases (faithful m.readBound).termFails hm.literate hqueue hgap hphrase hbound with
          ⟨_, _, hrun', -⟩ | ⟨_, hrun', -⟩ <;> cases hrun.symm.trans hrun'
    · obtain ⟨_, hrun', -⟩ := readTerm_of_close hm.literate hqueue hgap
      cases hrun.symm.trans hrun'

end Machine

end PushLisp
