import PushLisp.Proofs.Acyclicity
import PushLisp.Proofs.Setup
import PushLisp.Proofs.TableSize

/-!
# Output that fails truncates the output

Nothing but printing looks at the output. So a run whose output takes a limited number of bytes is the run
with unlimited output up to the print that finds no room. Up to there the two runs pass the same moments;
then the limited one takes the pieces of the value that fit and the beginning of the one that does not, fails,
and does nothing more than let go of its roots. Without raw access no value is met inside itself, so that
every print has a last piece. With it, a value without an end is written till there is no room.

## Main definitions

* `Machine.capped`, `Moment.capped`, `Outcome.capped`: the same with a limited output.
* `Machine.Cut`, `Machine.Breaks`: how a limited run breaks off.
* `Machine.Truncates`: what limiting the output does to an operation.

## Main statements

* `Machine.Clips.bind`: limiting the output of one operation after another.
* `Sink.exists_cut`: pieces that find no room are cut within one of them.
* `Machine.run_printValue_of_endless`: a value without an end overflows every limited output.
* `Machine.evaluating_clips`: all that is evaluated is truncated.
* `Machine.launch_truncates`: a program on a limited output.
-/
namespace PushLisp

/-! ## Limited outputs -/

namespace Sink

variable {s : Sink} {limit : ℕ} {bytes : Array UInt8} {pieces : List Bytes}

/-- What fits is taken whole. -/
theorem write_of_fits (hlimit : s.limit = some limit) (hfits : s.written.size + bytes.size ≤ limit) :
    s.write bytes = (none, { s with written := s.written ++ bytes }) := by
  have hroom : bytes.size ≤ limit - s.written.size := by omega
  simp only [write, hlimit, Array.extract_eq_self_of_le hroom]
  rw [if_pos hroom]

/-- Of what does not fit the beginning is taken. -/
theorem write_of_overflow (hlimit : s.limit = some limit) (hsize : s.written.size ≤ limit)
    (hover : limit < s.written.size + bytes.size) :
    s.write bytes =
      (some .full, { s with written := s.written ++ bytes.extract 0 (limit - s.written.size) }) := by
  have hroom : ¬ bytes.size ≤ limit - s.written.size := by omega
  simp only [write, hlimit]
  rw [if_neg hroom]

theorem writeAll_of_fits (hlimit : s.limit = some limit)
    (hfits : s.written.size + pieces.flatten.length ≤ limit) :
    s.writeAll pieces = (none, { s with written := s.written ++ pieces.flatten.toArray }) := by
  rw [writeAll_eq_write, write_of_fits hlimit (by simpa using hfits)]

/-- Pieces that find no room are cut within one of them: those before it are taken whole, of it the
beginning, and those after it are not written. -/
theorem exists_cut (hlimit : s.limit = some limit) (hsize : s.written.size ≤ limit)
    (hover : limit < s.written.size + pieces.flatten.length) :
    ∃ done piece rest, pieces = done ++ piece :: rest ∧ s.written.size + done.flatten.length ≤ limit ∧
      limit < s.written.size + done.flatten.length + piece.length ∧
      s.writeAll pieces = (some .full, { s with written := s.written ++ (done.flatten ++
        piece.take (limit - (s.written.size + done.flatten.length))).toArray }) := by
  induction pieces generalizing s with
  | nil =>
    simp only [List.flatten_nil, List.length_nil] at hover
    omega
  | cons piece rest ih =>
    rw [writeAll]
    by_cases hfits : s.written.size + piece.length ≤ limit
    · have hwrite : s.write piece.toArray = (none, { s with written := s.written ++ piece.toArray }) :=
        write_of_fits hlimit (by simpa using hfits)
      have hover' : limit < (s.written ++ piece.toArray).size + rest.flatten.length := by
        rw [List.flatten_cons, List.length_append] at hover
        simp only [Array.size_append, List.size_toArray]
        omega
      obtain ⟨done, cut, rest', rfl, hdone, hcut, hall⟩ :=
        ih (s := { s with written := s.written ++ piece.toArray }) hlimit (by simpa using hfits) hover'
      simp only [Array.size_append, List.size_toArray, Nat.add_assoc] at hdone hcut hall
      refine ⟨piece :: done, cut, rest', rfl, ?_, ?_, ?_⟩
      · simpa [Nat.add_assoc] using hdone
      · simpa [Nat.add_assoc] using hcut
      · rw [hwrite]
        refine hall.trans ?_
        simp
    · have hwrite : s.write piece.toArray = (some .full, { s with
          written := s.written ++ piece.toArray.extract 0 (limit - s.written.size) }) :=
        write_of_overflow hlimit hsize (by simpa using hfits)
      refine ⟨[], piece, rest, rfl, hsize, by simpa using hfits, ?_⟩
      rw [hwrite]
      simp

end Sink

/-- The same machine with an output that takes so many bytes altogether. -/
def Machine.capped (n : ℕ) (m : Machine) : Machine := { m with sink := { m.sink with limit := some n } }

/-- The same step between such machines. -/
def Step.capped (n : ℕ) : Step → Step
  | .changes before => .changes (before.capped n)
  | step => step

/-- The same moment on such a machine. -/
def Moment.capped (n : ℕ) (t : Moment) : Moment := ⟨t.step.capped n, t.machine.capped n⟩

/-- The same outcome on such a machine. -/
def Outcome.capped {α : Type} (n : ℕ) : Outcome α → Outcome α
  | .ok a m => .ok a (m.capped n)
  | .error reason m => .error reason (m.capped n)

theorem Step.capped_of_not_change {step : Step} (hstep : step.isChange = false) (n : ℕ) :
    step.capped n = step := by
  cases step with
  | changes before => cases hstep
  | _ => rfl

namespace Machine

variable {α β : Type} {m m' s : Machine} {h : Handle} {n : ℕ} {cause : SinkFault}

/-- The bytes that the output has taken. -/
def output (m : Machine) : Bytes := m.sink.written.toList

theorem after_of_capped {act : Run α} (hrun : act (m.capped n) = Outcome.capped n (act m)) :
    after act (m.capped n) = (after act m).capped n := by
  cases hact : act.run m with
  | ok a m₁ =>
    rw [hact] at hrun
    rw [after_of_ok hrun, after_of_ok hact]
  | error reason m₁ =>
    rw [hact] at hrun
    rw [after_of_error hrun, after_of_error hact]

/-- An unlimited output, and no access to raw memory. -/
structure Open (m : Machine) : Prop where
  limit_eq : m.sink.limit = none
  plain : ∀ {h o}, m.object? h = some o → o.Plain

/-- The objects, the state block and the text are those of another machine. -/
def HaltedAt (s m : Machine) : Prop := m.heap = s.heap ∧ m.registers = s.registers ∧ m.source = s.source

/-- Pieces that are written to an output that takes `n` bytes altogether, and holds some of them, find
no room within one of them. Those before it were taken whole, of it the beginning, and nothing of those
after it. -/
structure Cut (n : ℕ) (held taken : Bytes) (pieces done : List Bytes) (piece : Bytes)
    (rest : List Bytes) : Prop where
  pieces_eq : pieces = done ++ piece :: rest
  fits : (held ++ done.flatten).length ≤ n
  overflows : n < (held ++ done.flatten ++ piece).length
  taken_eq : taken = held ++ done.flatten ++ piece.take (n - (held ++ done.flatten).length)

/-- A run with a limited output breaks off at a print, where the other run goes on. Up to there the two pass
the same moments, and from there on the limited one changes neither objects nor registers nor text. Of the
pieces of the value and the newline after them it wrote what had room. -/
structure Breaks (n : ℕ) (act : Run α) (m : Machine) (h : Handle) (s : Machine) (cause : SinkFault)
    (m' : Machine) : Prop where
  prints : act.passes m ⟨.prints h, s⟩
  fits : s.output.length ≤ n
  overflows : ∃ text, textOf h s = .ok text ∧ n < s.output.length + text.size + 1
  cut : ∃ pieces done piece rest, Machine.pieces h s = .ok pieces ∧
    Cut n s.output m'.output (pieces.toList ++ [[Ascii.newline]]) done piece rest
  run : act (m.capped n) = .error (.fault (.output cause)) m'
  cause : cause = .full ∨ m.sink.flushFails = true ∧ cause = .flush
  output : m'.output = (after act m).output.take n
  flushFails : m'.sink.flushFails = m.sink.flushFails
  halted : HaltedAt s m'
  before : ∀ t, act.passes m t → t.machine.output.length ≤ n → act.passes (m.capped n) (t.capped n)
  within : ∀ t, act.passes (m.capped n) t →
    (∃ t₀, act.passes m t₀ ∧ t₀.machine.output.length ≤ n ∧ t = t₀.capped n) ∨ HaltedAt s t.machine

/-- What limiting the output does to an operation on a machine whose output is unlimited. -/
structure Truncates (n : ℕ) (act : Run α) (m : Machine) : Prop where
  opened : (after act m).Open
  flushFails : (after act m).sink.flushFails = m.sink.flushFails
  grows : m.output <+: (after act m).output
  moments : ∀ t, act.passes m t →
    m.output <+: t.machine.output ∧ t.machine.output <+: (after act m).output
  fits : (after act m).output.length ≤ n → act (m.capped n) = Outcome.capped n (act m) ∧
    ∀ t, act.passes (m.capped n) t ↔ ∃ t₀, act.passes m t₀ ∧ t = t₀.capped n
  breaks : m.output.length ≤ n → n < (after act m).output.length →
    ∃ h s cause m', Breaks n act m h s cause m'

/-- Every value that an operation prints has a last piece. -/
def Printable (act : Run α) (m : Machine) : Prop :=
  ∀ h s, act.passes m ⟨.prints h, s⟩ → ∃ pieces, Machine.pieces h s = .ok pieces

/-- An operation that can be compared with itself on a limited output. -/
def Clips (n : ℕ) (act : Run α) (m : Machine) : Prop := m.Open → Printable act m → Truncates n act m

/-! ## One operation after another -/

theorem take_eq_of_prefix {l₁ l₂ : Bytes} (hle : l₁ <+: l₂) (hn : n ≤ l₁.length) :
    l₁.take n = l₂.take n := by
  obtain ⟨rest, rfl⟩ := hle
  rw [List.take_append_of_le_length hn]

/-- What a cut leaves is the beginning of all that was to be written. -/
theorem Cut.taken_eq_take {held taken piece : Bytes} {pieces done rest : List Bytes}
    (hcut : Cut n held taken pieces done piece rest) : taken = (held ++ pieces.flatten).take n := by
  have hpiece : n - (held ++ done.flatten).length ≤ piece.length := by
    have hover := hcut.overflows
    rw [List.length_append] at hover
    omega
  rw [hcut.taken_eq, hcut.pieces_eq, List.flatten_append, List.flatten_cons, ← List.append_assoc,
    List.take_append, List.take_of_length_le hcut.fits, List.take_append_of_le_length hpiece]

/-- If the first operation stops, so does the sequence, with or without the limit. -/
theorem Truncates.bind_error {x : Run α} {f : α → Run β} {reason : Stop} (hx : Truncates n x m)
    (hrun : x m = .error reason m') : Truncates n (x >>= f) m := by
  have hafter : after (x >>= f) m = after x m := (after_bind_of_error hrun).trans (after_of_error hrun).symm
  have hpasses : ∀ {t}, (x >>= f).passes m t ↔ x.passes m t := Run.passes_bind_of_error hrun
  refine ⟨?_, ?_, ?_, fun t ht => ?_, fun hfits => ?_, fun hroom hover => ?_⟩
  · rw [hafter]
    exact hx.opened
  · rw [hafter]
    exact hx.flushFails
  · rw [hafter]
    exact hx.grows
  · rw [hafter]
    exact hx.moments t (hpasses.mp ht)
  · rw [hafter] at hfits
    obtain ⟨hcapped, hmoments⟩ := hx.fits hfits
    rw [hrun] at hcapped
    refine ⟨?_, fun t => ?_⟩
    · rw [Run.run_bind_of_error hcapped, Run.run_bind_of_error hrun]
      rfl
    · rw [Run.passes_bind_of_error hcapped, hmoments]
      simp only [hpasses]
  · rw [hafter] at hover
    obtain ⟨h, s, cause, m₁, hbreaks⟩ := hx.breaks hroom hover
    have hcapped : ∀ {t}, (x >>= f).passes (m.capped n) t ↔ x.passes (m.capped n) t :=
      Run.passes_bind_of_error hbreaks.run
    refine ⟨h, s, cause, m₁,
      { hbreaks with prints := ?_, run := ?_, output := ?_, before := ?_, within := ?_ }⟩
    · exact hpasses.mpr hbreaks.prints
    · exact Run.run_bind_of_error hbreaks.run
    · rw [hafter]
      exact hbreaks.output
    · intro t ht hle
      exact hcapped.mpr (hbreaks.before t (hpasses.mp ht) hle)
    · intro t ht
      simpa only [hpasses] using hbreaks.within t (hcapped.mp ht)

/-- If the first operation answers, the sequence breaks off within the first or within the second. -/
theorem Truncates.bind_ok {x : Run α} {f : α → Run β} {a : α} (hx : Truncates n x m)
    (hrun : x m = .ok a m') (hf : Truncates n (f a) m') : Truncates n (x >>= f) m := by
  have hafter : after (x >>= f) m = after (f a) m' := after_bind_of_ok hrun
  have hpasses : ∀ {t}, (x >>= f).passes m t ↔ x.passes m t ∨ (f a).passes m' t :=
    Run.passes_bind_of_ok hrun
  have hgrows := hx.grows
  have hmoments := hx.moments
  have hfits := hx.fits
  have hbreaks := hx.breaks
  have hflush := hx.flushFails
  rw [after_of_ok hrun] at hgrows hmoments hfits hbreaks hflush
  refine ⟨?_, ?_, ?_, fun t ht => ?_, fun hle => ?_, fun hroom hover => ?_⟩
  · rw [hafter]
    exact hf.opened
  · rw [hafter, hf.flushFails, hflush]
  · rw [hafter]
    exact hgrows.trans hf.grows
  · rw [hafter]
    rcases hpasses.mp ht with ht | ht
    · exact ⟨(hmoments t ht).1, (hmoments t ht).2.trans hf.grows⟩
    · exact ⟨hgrows.trans (hf.moments t ht).1, (hf.moments t ht).2⟩
  · rw [hafter] at hle
    obtain ⟨hcapped, hfirst⟩ := hfits (hf.grows.length_le.trans hle)
    obtain ⟨hcapped', hsecond⟩ := hf.fits hle
    rw [hrun] at hcapped
    refine ⟨?_, fun t => ?_⟩
    · rw [Run.run_bind_of_ok hcapped, Run.run_bind_of_ok hrun, hcapped']
    · rw [Run.passes_bind_of_ok hcapped, hfirst, hsecond]
      simp only [hpasses, or_and_right, exists_or]
  · rw [hafter] at hover
    by_cases hmid : m'.output.length ≤ n
    · -- the first operation fits, and the second breaks off
      obtain ⟨hcapped, hfirst⟩ := hfits hmid
      rw [hrun] at hcapped
      obtain ⟨h, s, cause, m₁, hb⟩ := hf.breaks hmid hover
      have hpasses' : ∀ {t}, (x >>= f).passes (m.capped n) t ↔
          x.passes (m.capped n) t ∨ (f a).passes (m'.capped n) t := Run.passes_bind_of_ok hcapped
      refine ⟨h, s, cause, m₁, hpasses.mpr (.inr hb.prints), hb.fits, hb.overflows, hb.cut, ?_, ?_, ?_,
        ?_, hb.halted, fun t ht hle => ?_, fun t ht => ?_⟩
      · rw [Run.run_bind_of_ok hcapped]
        exact hb.run
      · rw [← hflush]
        exact hb.cause
      · rw [hafter]
        exact hb.output
      · rw [hb.flushFails, hflush]
      · rcases hpasses.mp ht with ht | ht
        · exact hpasses'.mpr (.inl ((hfirst _).mpr ⟨t, ht, rfl⟩))
        · exact hpasses'.mpr (.inr (hb.before t ht hle))
      · rcases hpasses'.mp ht with ht | ht
        · obtain ⟨t₀, ht₀, rfl⟩ := (hfirst t).mp ht
          exact .inl ⟨t₀, hpasses.mpr (.inl ht₀), (hmoments t₀ ht₀).2.length_le.trans hmid, rfl⟩
        · refine (hb.within t ht).imp_left ?_
          rintro ⟨t₀, ht₀, hle, rfl⟩
          exact ⟨t₀, hpasses.mpr (.inr ht₀), hle, rfl⟩
    · -- the first operation breaks off, and what the second passes lies beyond
      have hmid : n < m'.output.length := by omega
      obtain ⟨h, s, cause, m₁, hb⟩ := hbreaks hroom hmid
      have hpasses' : ∀ {t}, (x >>= f).passes (m.capped n) t ↔ x.passes (m.capped n) t :=
        Run.passes_bind_of_error hb.run
      refine ⟨h, s, cause, m₁, hpasses.mpr (.inl hb.prints), hb.fits, hb.overflows, hb.cut,
        Run.run_bind_of_error hb.run, hb.cause, ?_, hb.flushFails, hb.halted, fun t ht hle => ?_,
        fun t ht => ?_⟩
      · rw [hb.output, hafter, after_of_ok hrun]
        exact take_eq_of_prefix hf.grows hmid.le
      · rcases hpasses.mp ht with ht | ht
        · exact hpasses'.mpr (hb.before t ht hle)
        · have hbeyond := (hf.moments t ht).1.length_le
          omega
      · refine (hb.within t (hpasses'.mp ht)).imp_left ?_
        rintro ⟨t₀, ht₀, hle, rfl⟩
        exact ⟨t₀, hpasses.mpr (.inl ht₀), hle, rfl⟩

theorem Clips.bind {x : Run α} {f : α → Run β} (hx : Clips n x m)
    (hf : ∀ {a m'}, x m = .ok a m' → Clips n (f a) m') : Clips n (x >>= f) m := by
  intro hm hprintable
  have hfirst := hx hm fun h s ht => hprintable h s (.inl ht)
  cases hrun : x.run m with
  | error reason m₁ => exact hfirst.bind_error hrun
  | ok a m₁ =>
    refine hfirst.bind_ok hrun (hf hrun (after_of_ok hrun ▸ hfirst.opened) fun h s ht => ?_)
    exact hprintable h s ((Run.passes_bind_of_ok hrun).mpr (.inr ht))

/-! ## Operations that leave the output alone -/

/-- An operation that does the same whatever the output is, and leaves it alone. -/
theorem clips_of_sink_eq {act : Run α} (hplain : m.Open → ∀ {h o}, (after act m).object? h = some o → o.Plain)
    (hsink : (after act m).sink = m.sink) (hmoments : ∀ t, act.passes m t → t.machine.sink = m.sink)
    (hrun : act (m.capped n) = Outcome.capped n (act m))
    (hpasses : ∀ t, act.passes (m.capped n) t ↔ ∃ t₀, act.passes m t₀ ∧ t = t₀.capped n) :
    Clips n act m := by
  intro hm _
  have houtput : (after act m).output = m.output := by rw [output, hsink, output]
  refine ⟨⟨?_, hplain hm⟩, ?_, ?_, fun t ht => ?_, fun _ => ⟨hrun, hpasses⟩, fun hroom hover => ?_⟩
  · rw [hsink]
    exact hm.limit_eq
  · rw [hsink]
  · rw [houtput]
  · rw [houtput, output, output, hmoments t ht]
    simp
  · rw [houtput] at hover
    omega

theorem clips_of_still {act : Run α} (hafter : after act m = m)
    (hmoments : ∀ t, act.passes m t → t.machine = m) (hrun : act (m.capped n) = Outcome.capped n (act m))
    (hpasses : ∀ t, act.passes (m.capped n) t ↔ ∃ t₀, act.passes m t₀ ∧ t = t₀.capped n) :
    Clips n act m := by
  refine clips_of_sink_eq (fun hm => ?_) (by rw [hafter]) (fun t ht => ?_) hrun hpasses
  · rw [hafter]
    exact hm.plain
  · rw [hmoments t ht]

theorem clips_modifyGet {g : Machine → α × Machine}
    (hplain : m.Open → ∀ {h o}, (g m).2.object? h = some o → o.Plain) (hsink : (g m).2.sink = m.sink)
    (hg : g (m.capped n) = ((g m).1, (g m).2.capped n)) : Clips n (modifyGet g) m := by
  refine clips_of_sink_eq hplain hsink ?_ ?_ fun t => ?_
  · rintro t rfl
    exact hsink
  · simp only [modifyGet, MonadStateOf.modifyGet, hg, Outcome.capped]
  · simp [modifyGet, MonadStateOf.modifyGet, hg, Moment.capped, Step.capped]

theorem clips_modifyHeap {g : Machine → α × Machine} (hheap : (g m).2.heap = m.heap)
    (hsink : (g m).2.sink = m.sink) (hg : g (m.capped n) = ((g m).1, (g m).2.capped n)) :
    Clips n (modifyGet g) m := by
  refine clips_modifyGet (fun hm => ?_) hsink hg
  intro h o ho
  rw [object?, hheap] at ho
  exact hm.plain ho

theorem clips_ask {question : Machine → Except Stop α} (hsame : question (m.capped n) = question m) :
    Clips n (ask question) m := by
  refine clips_of_still (after_ask question m) ?_ ?_ fun t => ?_
  · rintro t ⟨reason, -, rfl⟩
    rfl
  · simp only [ask, hsame]
    cases question m <;> rfl
  · simp only [ask, hsame]
    constructor
    · rintro ⟨reason, hreason, rfl⟩
      exact ⟨_, ⟨reason, hreason, rfl⟩, rfl⟩
    · rintro ⟨_, ⟨reason, hreason, rfl⟩, rfl⟩
      exact ⟨reason, hreason, rfl⟩

theorem clips_get {f : Machine → Run α} (hsame : f (m.capped n) = f m) (hf : Clips n (f m) m) :
    Clips n (get >>= f) m := by
  have hpasses := Run.passes_get_bind f m
  have hcapped : (get >>= f).passes (m.capped n) = (f m).passes (m.capped n) := by
    rw [Run.passes_get_bind, hsame]
  have hrun : (get >>= f) (m.capped n) = (f m) (m.capped n) := by
    rw [← hsame]
    rfl
  intro hm hprintable
  obtain ⟨hopen, hflush, hgrows, hmoments, hfits, hbreaks⟩ :=
    hf hm fun h s ht => hprintable h s (hpasses ▸ ht)
  refine ⟨hopen, hflush, hgrows, ?_, fun hle => ?_, fun hroom hover => ?_⟩
  · rwa [hpasses]
  · rw [hpasses, hcapped, hrun]
    exact hfits hle
  · obtain ⟨h, s, cause, m₁, hb⟩ := hbreaks hroom hover
    refine ⟨h, s, cause, m₁, { hb with prints := ?_, run := hrun.trans hb.run, before := ?_, within := ?_ }⟩
    · rw [hpasses]
      exact hb.prints
    · rw [hpasses, hcapped]
      exact hb.before
    · rw [hpasses, hcapped]
      exact hb.within

/-- Roots are let go of with or without the limit, and where the run broke off too. -/
theorem Clips.keepingRoots {act : Run α} (hact : Clips n act m) : Clips n (keepingRoots act) m := by
  intro hm hprintable
  obtain ⟨hopen, hflush, hgrows, hmoments, hfits, hbreaks⟩ := hact hm fun h s ht => hprintable h s (.inl ht)
  have hafter := after_keepingRoots act m
  have houtput : (after (Machine.keepingRoots act) m).output = (after act m).output := by
    rw [hafter]
    rfl
  refine ⟨?_, ?_, ?_, ?_, fun hle => ?_, fun hroom hover => ?_⟩
  · rw [hafter]
    exact ⟨hopen.limit_eq, hopen.plain⟩
  · rw [hafter]
    exact hflush
  · rwa [houtput]
  · rw [houtput]
    rintro t (ht | rfl | rfl)
    · exact hmoments t ht
    · exact ⟨hgrows, List.prefix_refl _⟩
    · exact ⟨hgrows, List.prefix_refl _⟩
  · rw [houtput] at hle
    obtain ⟨hcapped, hpasses⟩ := hfits hle
    refine ⟨?_, fun t => ?_⟩
    · simp only [Machine.keepingRoots, hcapped]
      cases act m <;> rfl
    · have hlast := after_of_capped hcapped
      simp only [Machine.keepingRoots, hpasses, hlast, or_and_right, exists_or, exists_eq_left]
      rfl
  · rw [houtput] at hover
    obtain ⟨h, s, cause, m₁, hb⟩ := hbreaks hroom hover
    have hlast := after_of_error hb.run
    refine ⟨h, s, cause, { m₁ with shadow := m.shadow }, .inl hb.prints, hb.fits, hb.overflows, hb.cut,
      ?_, hb.cause, ?_, hb.flushFails, hb.halted, fun t ht hle => ?_, fun t ht => ?_⟩
    · simp only [Machine.keepingRoots, hb.run]
      rfl
    · rw [houtput]
      exact hb.output
    · rcases ht with ht | rfl | rfl
      · exact .inl (hb.before t ht hle)
      · simp only at hle
        omega
      · simp only [output] at hle hover
        omega
    · rcases ht with ht | rfl | rfl
      · rcases hb.within t ht with ⟨t₀, ht₀, hle, heq⟩ | hhalted
        · exact .inl ⟨t₀, .inl ht₀, hle, heq⟩
        · exact .inr hhalted
      · rw [hlast]
        exact .inr hb.halted
      · rw [hlast]
        exact .inr hb.halted

theorem sequential_clips : Sequential (Regardless (Clips n)) where
  bind := Clips.bind
  pure a := clips_of_still rfl (fun t ht => absurd ht (Run.not_passes_pure a _ t)) rfl fun t => by
    simp [Pure.pure, Run.pure]
  stop reason := by
    refine clips_of_still rfl (fun _ ht => congrArg Moment.machine ht) rfl fun t => ?_
    simp [Machine.stop, Moment.capped, Step.capped]
  observe {_ m step} hstep := by
    refine clips_of_still rfl (fun _ ht => congrArg Moment.machine ht) rfl fun t => ?_
    simp [Machine.observe, Moment.capped, Step.capped_of_not_change hstep]
  ask hblind := clips_ask (hblind _ _)
  get hblind := clips_get (hblind _ _)
  note {_ m} e := by
    refine clips_modifyHeap ?_ ?_ ?_
    · cases htracing : m.tracing <;> simp [htracing]
    · cases htracing : m.tracing <;> simp [htracing]
    · cases htracing : m.tracing <;> simp [capped, htracing]
  modifyShadow _ := clips_modifyHeap rfl rfl rfl
  modifyRegisters _ _ _ _ _ := clips_modifyHeap rfl rfl rfl
  keepingRoots := Clips.keepingRoots

theorem clips_tryAllocate {o : Object} (ho : o.Plain) : Clips n (tryAllocate o) m := by
  have hcapped : (m.capped n).heap = m.heap := rfl
  cases hfree : m.heap.findFree? with
  | none =>
    have hrun := run_tryAllocate_of_full (o := o) hfree
    refine clips_of_still (after_of_ok hrun) ?_ ?_ fun t => ?_
    · rintro t ⟨i, hi, -⟩
      simp [hfree] at hi
    · rw [hrun]
      exact run_tryAllocate_of_full hfree
    · simp [tryAllocate, hcapped, hfree]
  | some i =>
    have hrun := run_tryAllocate_of_free (o := o) hfree
    have hafter := after_of_ok hrun
    refine clips_of_sink_eq (fun hm => ?_) ?_ ?_ ?_ fun t => ?_
    · rw [hafter]
      intro k o' ho'
      rcases Heap.get?_of_place hfree ho' with rfl | hold
      · exact ho
      · exact hm.plain hold
    · rw [hafter]
    · rintro t ⟨j, hj, rfl | rfl⟩ <;> rfl
    · rw [hrun]
      exact run_tryAllocate_of_free hfree
    · simp only [tryAllocate, hcapped, hfree, Option.some.injEq, exists_eq_left', or_and_right, exists_or,
        exists_eq_left]
      rfl

theorem elementary_clips : Elementary True (Regardless (Clips n)) where
  toSequential := sequential_clips
  tryAllocate ho := clips_tryAllocate (ho trivial)
  reclaim := clips_modifyGet (fun hm _ _ ho => hm.plain (Heap.get?_of_collect ho)) rfl rfl
  redirect _ _ _ := clips_modifyHeap rfl rfl rfl
  look hsame := clips_get (hsame _)
  scan _ := clips_modifyHeap rfl rfl rfl

/-! ## Printing -/

section Printing

variable {pieces : List Bytes} {parts : Array Bytes} {sink : Sink}

theorem run_write_of_none (hwrite : m.sink.writeAll pieces = (none, sink)) :
    write pieces m = .ok () { m with sink := sink } ∧
      ∀ t, (write pieces).passes m t ↔ t = ⟨.changes m, { m with sink := sink }⟩ := by
  have hfirst : (modifyGet fun m : Machine =>
      ((m.sink.writeAll pieces).1, { m with sink := (m.sink.writeAll pieces).2 }) :
      Run (Option SinkFault)).run m = .ok none { m with sink := sink } := by
    simp only [modifyGet, MonadStateOf.modifyGet, hwrite]
  refine ⟨Run.run_bind_of_ok hfirst, fun t => (Run.passes_bind_of_ok hfirst).trans ?_⟩
  simp [modifyGet, MonadStateOf.modifyGet, hwrite]

theorem run_write_of_some (hwrite : m.sink.writeAll pieces = (some cause, sink)) :
    write pieces m = .error (.fault (.output cause)) { m with sink := sink } ∧
      ∀ t, (write pieces).passes m t ↔ t = ⟨.changes m, { m with sink := sink }⟩ ∨
        t = ⟨.stops (.fault (.output cause)), { m with sink := sink }⟩ := by
  have hfirst : (modifyGet fun m : Machine =>
      ((m.sink.writeAll pieces).1, { m with sink := (m.sink.writeAll pieces).2 }) :
      Run (Option SinkFault)).run m = .ok (some cause) { m with sink := sink } := by
    simp only [modifyGet, MonadStateOf.modifyGet, hwrite]
  refine ⟨Run.run_bind_of_ok hfirst, fun t => (Run.passes_bind_of_ok hfirst).trans ?_⟩
  simp [modifyGet, MonadStateOf.modifyGet, hwrite, fail, stop]

theorem run_printValue (hprintout : printout h m = .ok pieces) :
    printValue h m = write pieces m ∧
      ∀ t, (printValue h).passes m t ↔ t = ⟨.prints h, m⟩ ∨ (write pieces).passes m t := by
  have hfirst : (observe (.prints h)).run m = .ok () m := rfl
  have hsecond : (ask (printout h)).run m = .ok pieces m := by simp only [ask, hprintout]
  refine ⟨(Run.run_bind_of_ok hfirst).trans (Run.run_bind_of_ok hsecond), fun t => ?_⟩
  refine (Run.passes_bind_of_ok hfirst).trans (or_congr Iff.rfl ((Run.passes_bind_of_ok hsecond).trans ?_))
  simp [ask, hprintout]

theorem printout_of_pieces (hparts : Machine.pieces h m = .ok parts) :
    printout h m = .ok (parts.toList ++ [[Ascii.newline]]) := by
  simp only [printout, hparts]

theorem textOf_of_pieces (hparts : Machine.pieces h m = .ok parts) :
    textOf h m = .ok parts.toList.flatten.toArray := by
  simp only [textOf, hparts]

/-- A value without an end is more than any limited output has room for, and printing it fails. -/
theorem run_printValue_of_endless {limit : ℕ} (hendless : Machine.pieces h m = .error .unfinished)
    (hlimit : m.sink.limit = some limit) (hsize : m.sink.written.size ≤ limit) :
    ∃ m', printValue h m = .error (.fault (.output .full)) m' ∧ m'.output.length = limit := by
  have hprintout : printout h m =
      .ok (m.firstPieces (limit - m.sink.written.size + 1) h).toList := by
    simp only [printout, hendless, Sink.room?, hlimit, Option.map_some]
  have hextent := le_extent_firstPieces hendless (limit - m.sink.written.size + 1)
  rw [extent] at hextent
  have hover : limit < m.sink.written.size +
      (m.firstPieces (limit - m.sink.written.size + 1) h).toList.flatten.length := by omega
  obtain ⟨done, piece, rest, -, hdone, hcut, hwrite⟩ := Sink.exists_cut hlimit hsize hover
  refine ⟨_, (run_printValue hprintout).1.trans (run_write_of_some hwrite).1, ?_⟩
  simp only [output, Array.toList_append, List.length_append, Array.length_toList, List.length_take]
  omega

/-- A print on a limited output takes the whole text, or what fits of it. -/
theorem clips_printValue (h : Handle) : Clips n (printValue h) m := by
  intro hm hprintable
  obtain ⟨parts, hparts⟩ := hprintable h m (.inl rfl)
  have hparts' : Machine.pieces h (m.capped n) = .ok parts := (blind_pieces h _ _).trans hparts
  obtain ⟨hrun, hpasses⟩ := run_printValue (printout_of_pieces hparts)
  obtain ⟨hrun', hpasses'⟩ := run_printValue (printout_of_pieces hparts')
  generalize hpieces : parts.toList ++ [[Ascii.newline]] = pieces at hrun hpasses hrun' hpasses'
  obtain ⟨hwrite, hmoments⟩ := run_write_of_none (Sink.writeAll_of_limit_eq_none hm.limit_eq pieces)
  have hafter := after_of_ok (hrun.trans hwrite)
  have houtput : (after (printValue h) m).output = m.output ++ pieces.flatten := by
    rw [hafter]
    simp [output]
  have hsize : m.sink.written.size = m.output.length := by simp [output]
  refine ⟨?_, ?_, ?_, fun t ht => ?_, fun hle => ?_, fun hroom hover => ?_⟩
  · rw [hafter]
    exact ⟨hm.limit_eq, hm.plain⟩
  · rw [hafter]
  · rw [houtput]
    exact List.prefix_append _ _
  · rcases (hpasses t).mp ht with rfl | ht
    · rw [houtput]
      exact ⟨List.prefix_refl _, List.prefix_append _ _⟩
    · rw [(hmoments t).mp ht, hafter]
      refine ⟨?_, List.prefix_refl _⟩
      simp [output]
  · rw [houtput, List.length_append] at hle
    obtain ⟨hwrite', hmoments'⟩ := run_write_of_none
      (Sink.writeAll_of_fits (s := (m.capped n).sink) rfl (hsize ▸ hle))
    refine ⟨?_, fun t => ?_⟩
    · rw [hrun', hwrite', hrun, hwrite]
      rfl
    · rw [hpasses', hmoments']
      simp only [hpasses, hmoments, or_and_right, exists_or, exists_eq_left]
      rfl
  · rw [houtput, List.length_append] at hover
    obtain ⟨done, piece, rest, hsplit, hdone, hcut, hall⟩ :=
      Sink.exists_cut (s := (m.capped n).sink) rfl (hsize ▸ hroom) (hsize ▸ hover)
    obtain ⟨hwrite', hmoments'⟩ := run_write_of_some hall
    have hdone : m.output.length + done.flatten.length ≤ n := hsize ▸ hdone
    have hcut : n < m.output.length + done.flatten.length + piece.length := hsize ▸ hcut
    have hbreak : Cut n m.output (output { m.capped n with sink := { (m.capped n).sink with
        written := (m.capped n).sink.written ++ (done.flatten ++
          piece.take (n - ((m.capped n).sink.written.size + done.flatten.length))).toArray } })
        pieces done piece rest := by
      refine ⟨hsplit, by rwa [List.length_append], by rwa [List.length_append, List.length_append], ?_⟩
      have hcapped : (m.capped n).sink.written = m.sink.written := rfl
      simp [output, hcapped]
    refine ⟨h, m, .full, _, (hpasses _).mpr (.inl rfl), hroom, ⟨_, textOf_of_pieces hparts, ?_⟩,
      ⟨parts, done, piece, rest, hparts, hpieces ▸ hbreak⟩, hrun'.trans hwrite', .inl rfl,
      houtput ▸ hbreak.taken_eq_take, rfl, ⟨rfl, rfl, rfl⟩, fun t ht hle => ?_, fun t ht => ?_⟩
    · rw [← hpieces] at hover
      simpa [Nat.add_assoc] using hover
    · rcases (hpasses t).mp ht with rfl | ht
      · exact (hpasses' _).mpr (.inl rfl)
      · rw [(hmoments t).mp ht, ← hafter, houtput, List.length_append] at hle
        omega
    · rcases (hpasses' t).mp ht with rfl | ht
      · exact .inl ⟨⟨.prints h, m⟩, (hpasses _).mpr (.inl rfl), hroom, rfl⟩
      · rcases (hmoments' t).mp ht with rfl | rfl
        · exact .inr ⟨rfl, rfl, rfl⟩
        · exact .inr ⟨rfl, rfl, rfl⟩

end Printing

/-! ## Evaluation -/

/-- Setting a machine that was got before, and that differs in its objects. -/
theorem clips_setHeap {f : Machine → Run Unit} (heap : Heap)
    (hplain : m.Open → ∀ {h o}, heap.get? h = some o → o.Plain) (hf : f m = set { m with heap := heap })
    (hf' : f (m.capped n) = set { m.capped n with heap := heap }) : Clips n (get >>= f) m := by
  have hafter : after (get >>= f) m = { m with heap := heap } := by
    rw [after_get_bind, hf]
    rfl
  refine clips_of_sink_eq (fun hm => ?_) ?_ (fun t ht => ?_) ?_ fun t => ?_
  · rw [hafter]
    exact hplain hm
  · rw [hafter]
  · rw [Run.passes_get_bind, hf] at ht
    rw [show t = ⟨.changes m, { m with heap := heap }⟩ from ht]
  · show (f (m.capped n)) (m.capped n) = Outcome.capped n ((f m) m)
    rw [hf, hf']
    rfl
  · rw [Run.passes_get_bind, Run.passes_get_bind, hf, hf']
    simp [set, MonadStateOf.set, Moment.capped, Step.capped, capped]

/-- Storing a byte in a string has nothing to do with the output. -/
theorem clips_setByte (string : Handle) (offset : Int64) (value : UInt8) : Clips n (do
    let m ← get
    match m.object? string with
    | some (.string buffer) =>
      match natural? offset with
      | some k => set (m.pokeBuffer string buffer k value)
      | none => return ()
    | _ => stop (m.mismatch "string-poke" "string" string)) m := by
  have R : Sequential (Regardless (Clips n)) := sequential_clips
  have hobject : (m.capped n).object? string = m.object? string := rfl
  by_cases hstring : ∃ buffer, m.object? string = some (.string buffer)
  · obtain ⟨buffer, hstring⟩ := hstring
    cases hoffset : natural? offset with
    | none => exact clips_get rfl (by simp only [hstring]; exact (R.pure () : Regardless _ Unit [] _ _))
    | some k =>
      intro hm hprintable
      -- without raw access the string owns its bytes
      cases buffer with
      | view address length => exact (hm.plain hstring).elim
      | owned bytes =>
        refine clips_setHeap (m.heap.put string (.string (.owned (bytes.setIfInBounds k value))))
          (fun hm {h o} ho => ?_) ?_ ?_ hm hprintable
        · rcases object?_of_putString hstring ho with ⟨-, rfl⟩ | hold
          · trivial
          · exact hm.plain hold
        · simp only [hstring]
          rfl
        · simp only [hobject, hstring]
          rfl
  · refine clips_get ?_ ?_
    · rw [hobject]
      split
      · rename_i buffer hbuffer
        exact absurd ⟨buffer, hbuffer⟩ hstring
      · rfl
    · split
      · rename_i buffer hbuffer
        exact absurd ⟨buffer, hbuffer⟩ hstring
      · exact (R.stop _ : Regardless _ Unit [] _ _)

theorem clips_poke (env : Handle) : Clips n (perform .stringPoke env) m := by
  have R : Sequential (Regardless (Clips n)) := sequential_clips
  have hact : Regardless (Clips n) Handle [] (perform .stringPoke env) m := by
    refine R.bind (R.observe rfl) fun _ => R.bind ?_ fun _ => R.pure env
    refine R.bind R.popNumber fun _ => R.bind R.popNumber fun _ => R.popUsing ?_
    exact clips_setByte _ _ _
  exact hact

theorem evaluating_clips : Evaluating True (Regardless (Clips n)) where
  toOperational := elementary_clips.operational clips_printValue
  poke _ := clips_poke
  raw _ hp hraw _ hm _ := absurd (hraw.symm.trans (hm.plain hp)) (by simp)

/-! ## Programs -/

/-- How a run ends once its output was passed on, or was not. -/
def flushed (ended : Except Stop Unit) (m : Machine) : Except Stop Unit :=
  match ended with
  | .error .unfinished => .error .unfinished
  | ended => if m.sink.flushFails then .error (.fault (.output .flush)) else ended

theorem passOn_eq (ended : Except Stop Unit) : passOn ended = ask (flushed ended) := by
  ext m t
  · unfold passOn flushed
    split
    · rfl
    · cases hfails : m.sink.flushFails <;> cases ended <;>
        simp [Sink.flush, hfails, ask, Run.run_bind, get, getThe, MonadStateOf.get, fail, stop]
  · unfold passOn flushed
    split
    · simp [ask, stop]
    · rw [Run.passes_get_bind]
      cases hfails : m.sink.flushFails <;> cases ended <;> simp [Sink.flush, hfails, ask, fail, stop]

/-- An operation and the flush after it. -/
theorem run_flushAfter {act : Run Unit} {ended : Except Stop Unit} (hrun : attempt act m = .ok ended m') :
    flushAfter act m = ask (flushed ended) m' ∧
      ∀ t, (flushAfter act).passes m t ↔ act.passes m t ∨ (ask (flushed ended)).passes m' t := by
  rw [← passOn_eq]
  exact ⟨Run.run_bind_of_ok hrun, fun t => Run.passes_bind_of_ok hrun⟩

theorem Clips.flushAfter {act : Run Unit} (hact : Clips n act m) : Clips n (flushAfter act) m := by
  intro hm hprintable
  obtain ⟨ended, hended⟩ : ∃ ended, attempt act m = .ok ended (after act m) := by
    cases hrun : act.run m with
    | ok a m₁ => exact ⟨_, after_of_ok hrun ▸ run_attempt_of_ok hrun⟩
    | error reason m₁ => exact ⟨_, after_of_error hrun ▸ run_attempt_of_error hrun⟩
  obtain ⟨hrun, hpasses⟩ := run_flushAfter hended
  have htruncates := hact hm fun h s ht => hprintable h s ((hpasses _).mpr (.inl ht))
  have hafter : after (Machine.flushAfter act) m = after act m := by
    rw [after_eq_of_run_eq hrun, after_ask]
  have hlast : ∀ t, (ask (flushed ended)).passes (after act m) t → t.machine = after act m := by
    rintro t ⟨reason, -, rfl⟩
    rfl
  refine ⟨?_, ?_, ?_, fun t ht => ?_, fun hle => ?_, fun hroom hover => ?_⟩
  · rw [hafter]
    exact htruncates.opened
  · rw [hafter]
    exact htruncates.flushFails
  · rw [hafter]
    exact htruncates.grows
  · rw [hafter]
    rcases (hpasses t).mp ht with ht | ht
    · exact htruncates.moments t ht
    · rw [hlast t ht]
      exact ⟨htruncates.grows, List.prefix_refl _⟩
  · rw [hafter] at hle
    obtain ⟨hcapped, hmoments⟩ := htruncates.fits hle
    have hended' : attempt act (m.capped n) = .ok ended ((after act m).capped n) := by
      cases hact : act.run m with
      | ok a m₁ =>
        rw [run_attempt_of_ok hact] at hended
        cases hended
        rw [hact] at hcapped
        exact run_attempt_of_ok hcapped
      | error reason m₁ =>
        rw [run_attempt_of_error hact] at hended
        cases hended
        rw [hact] at hcapped
        exact run_attempt_of_error hcapped
    obtain ⟨hrun', hpasses'⟩ := run_flushAfter hended'
    have hask : Truncates n (ask (flushed ended)) (after act m) := by
      refine clips_ask rfl htruncates.opened fun h s hs => ?_
      obtain ⟨reason, -, hstops⟩ := hs
      cases hstops
    obtain ⟨hflush, hstops⟩ := hask.fits (by rwa [after_ask])
    refine ⟨?_, fun t => ?_⟩
    · rw [hrun', hrun, hflush]
    · rw [hpasses', hmoments, hstops]
      simp only [hpasses, or_and_right, exists_or]
  · rw [hafter] at hover
    obtain ⟨h, s, cause, m₁, hb⟩ := htruncates.breaks hroom hover
    obtain ⟨hrun', hpasses'⟩ := run_flushAfter (run_attempt_of_error hb.run)
    have hwithin : ∀ t, (Machine.flushAfter act).passes (m.capped n) t →
        (∃ t₀, (Machine.flushAfter act).passes m t₀ ∧ t₀.machine.output.length ≤ n ∧ t = t₀.capped n) ∨
          HaltedAt s t.machine := by
      intro t ht
      rcases (hpasses' t).mp ht with ht | ⟨reason, -, rfl⟩
      · refine (hb.within t ht).imp_left ?_
        rintro ⟨t₀, ht₀, hle, rfl⟩
        exact ⟨t₀, (hpasses t₀).mpr (.inl ht₀), hle, rfl⟩
      · exact .inr hb.halted
    have hbefore : ∀ t, (Machine.flushAfter act).passes m t → t.machine.output.length ≤ n →
        (Machine.flushAfter act).passes (m.capped n) (t.capped n) := by
      intro t ht hle
      rcases (hpasses t).mp ht with ht | ht
      · exact (hpasses' _).mpr (.inl (hb.before t ht hle))
      · rw [hlast t ht] at hle
        omega
    have houtput : m₁.output = (after (Machine.flushAfter act) m).output.take n := by
      rw [hafter]
      exact hb.output
    have hprints := (hpasses _).mpr (.inl hb.prints)
    -- a flush that fails outranks the write that found no room
    cases hfails : m.sink.flushFails with
    | true =>
      refine ⟨h, s, .flush, m₁, hprints, hb.fits, hb.overflows, hb.cut, hrun'.trans ?_,
        .inr ⟨hfails, rfl⟩, houtput, hb.flushFails, hb.halted, hbefore, hwithin⟩
      simp [ask, flushed, hb.flushFails, hfails]
    | false =>
      have hcause : cause = .full := hb.cause.resolve_right (by simp [hfails])
      refine ⟨h, s, .full, m₁, hprints, hb.fits, hb.overflows, hb.cut, hrun'.trans ?_, .inl rfl, houtput,
        hb.flushFails, hb.halted, hbefore, hwithin⟩
      simp [ask, flushed, hb.flushFails, hfails, hcause]

/-- Reading a term and running it is truncated. -/
theorem clips_runNext (bound : ℕ) : Clips n (runNext bound) m := by
  have R : Evaluating True (Regardless (Clips n)) := evaluating_clips
  have hact : Regardless (Clips n) Unit [] (runNext bound) m := by
    refine R.bind R.readTerm fun _ => R.bind (R.modifyRegisters rfl rfl rfl rfl rfl) fun _ => ?_
    refine R.getRegisters (Clips.flushAfter ?_)
    exact (R.compute trivial bound _ _ : Regardless _ Unit [] _ _)
  exact hact

theorem clips_launch (bound : ℕ) : Clips n (launch bound) m := by
  have hprepare : Regardless (Clips n) Unit [] (prepare false) m :=
    elementary_clips.prepare (fun _ _ => clips_modifyHeap rfl rfl rfl) fun _ => rfl
  exact Clips.bind hprepare fun _ => clips_runNext bound

/-- A flush that fails is how a run ends, whatever was computed. -/
theorem run_runNext_of_flush {bound : ℕ} {program : Handle} {m₁ m₂ : Machine} {ended : Except Stop Unit}
    (hread : readTerm m = .ok program m₁)
    (hcompute : attempt (compute bound program m₁.registers.env)
      { m₁ with registers := { m₁.registers with program := program } } = .ok ended m₂)
    (hended : ended ≠ .error .unfinished) (hfails : m₂.sink.flushFails = true) :
    runNext bound m = .error (.fault (.output .flush)) m₂ := by
  have hflushed : flushed ended m₂ = .error (.fault (.output .flush)) := by
    unfold flushed
    split
    · contradiction
    · rw [if_pos hfails]
  have hrun : runNext bound m = ask (flushed ended) m₂ :=
    (Run.run_bind_of_ok hread).trans (run_flushAfter hcompute).1
  simp only [hrun, ask, hflushed]

/-- Without raw access no value is met inside itself, so that all that a program prints has an end. -/
theorem printable_launch (slots : UInt64) (source : Bytes) (sink : Sink) (tracing : Bool)
    (platform : Platform) (bound : ℕ) :
    Printable (launch bound) (blank slots.toNat source sink tracing platform) := by
  intro h s ht
  have hunknotted : s.Unknotted := by
    rcases Run.passes_bind.mp ht with ht | ⟨_, m₁, hrun, ht⟩
    · exact (unknotted_prepare slots source sink tracing platform).2 _ ht
    · have hreachable : m₁.Reachable :=
        after_of_ok hrun ▸ Reachable.start slots source sink tracing platform
      exact unknotted_of_reachable (.during (.run bound) hreachable trivial ht)
  exact exists_pieces hunknotted.wellFounded h

/-- A program on a limited output writes the beginning of what it writes on an unlimited one. If that is
all, the runs are the same; else the limited run breaks off at a print, within one of the pieces of the value
or before the newline, and was the same up to there. A flush that fails is how a run ends, whatever was
computed. -/
theorem launch_truncates (slots : UInt64) (bound n : ℕ) (source : Bytes) (fails tracing : Bool)
    (platform : Platform) :
    let m := blank slots.toNat source { flushFails := fails } tracing platform
    let limited := blank slots.toNat source { limit := some n, flushFails := fails } tracing platform
    (after (launch bound) limited).output = (after (launch bound) m).output.take n ∧
      ((after (launch bound) m).output.length ≤ n →
        launch bound limited = Outcome.capped n (launch bound m) ∧
          ∀ t, (launch bound).passes limited t ↔ ∃ t₀, (launch bound).passes m t₀ ∧ t = t₀.capped n) ∧
      (n < (after (launch bound) m).output.length →
        ∃ h s cause m', Breaks n (launch bound) m h s cause m') ∧
      ∀ {m₀ m₁ m₂ program ended}, readTerm m₀ = .ok program m₁ →
        attempt (compute bound program m₁.registers.env)
          { m₁ with registers := { m₁.registers with program := program } } = .ok ended m₂ →
        ended ≠ .error .unfinished → m₂.sink.flushFails = true →
        runNext bound m₀ = .error (.fault (.output .flush)) m₂ := by
  intro m limited
  have hm : m.Open := by
    refine ⟨rfl, fun ho => ?_⟩
    rw [eq_nil_of_get?_new ho]
    trivial
  have htruncates : Truncates n (launch bound) m :=
    clips_launch bound hm (printable_launch slots source _ tracing platform bound)
  have hbreaks := htruncates.breaks (Nat.zero_le n)
  refine ⟨?_, htruncates.fits, hbreaks, run_runNext_of_flush⟩
  by_cases hle : (after (launch bound) m).output.length ≤ n
  · have hafter : after (launch bound) limited = (after (launch bound) m).capped n :=
      after_of_capped (htruncates.fits hle).1
    rw [hafter, List.take_of_length_le hle]
    rfl
  · obtain ⟨h, s, cause, m', hb⟩ := hbreaks (by omega)
    have hafter : after (launch bound) limited = m' := after_of_error hb.run
    rw [hafter, hb.output]

end Machine

end PushLisp
