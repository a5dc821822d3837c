import PushLisp.Proofs.Setup

/-!
# Reading a whole text

A machine that has been set up reads its text term by term, until a read fails. The terms and the failure are
those of the grammar, for every text. A term is looked at when it is given: once the next read begins,
nothing holds it any more.

## Main definitions

* `Machine.Reads`: one read after another.

## Main statements

* `Machine.reads_of_text`: reads follow the grammar.
* `Machine.reads_iff_text`: the grammar says what a machine reads, and nothing else.
-/
namespace PushLisp.Machine

open Grammar

variable {base : List Handle} {m m' : Machine}

/-- One read after another gives some terms, each as it is when it is given, and then a fault. -/
inductive Reads : Machine → List Term → Fault → Machine → Prop
  | stop {m m' : Machine} {f : Fault} : readTerm m = .error (.fault f) m' → Reads m [] f m'
  | next {m m₁ m' : Machine} {h : Handle} {t : Term} {ts : List Term} {f : Fault} :
      readTerm m = .ok h m₁ → m₁.heap.Unfolds h t → Reads m₁ ts f m' → Reads m (t :: ts) f m'

/-- A machine reads in one way. -/
theorem Reads.unique {ts ts' : List Term} {f f' : Fault} {n : Machine} (hreads : Reads m ts f m')
    (hreads' : Reads m ts' f' n) : ts = ts' ∧ f = f' ∧ m' = n := by
  induction hreads generalizing ts' with
  | stop hrun =>
    cases hreads' with
    | stop hrun' =>
      cases hrun.symm.trans hrun'
      exact ⟨rfl, rfl, rfl⟩
    | next hrun' => cases hrun.symm.trans hrun'
  | next hrun ht _ ih =>
    cases hreads' with
    | stop hrun' => cases hrun.symm.trans hrun'
    | next hrun' ht' hrest =>
      cases hrun.symm.trans hrun'
      obtain ⟨rfl, rfl, rfl⟩ := ih hrest
      exact ⟨by rw [ht.unique ht'], rfl, rfl⟩

/-- Reads first hand out what is queued. -/
theorem reads_of_pending {queued : List Term} (hm : Literate base m) (hqueue : Pending m queued) :
    ∃ m₁, Literate base m₁ ∧ Pending m₁ [] ∧ m₁.source = m.source ∧ m₁.heap = m.heap ∧
      ∀ {ts f n}, Reads m₁ ts f n → Reads m (queued ++ ts) f n := by
  induction queued generalizing m with
  | nil => exact ⟨m, hm, hqueue, rfl, rfl, id⟩
  | cons t queued ih =>
    rcases returns_readTermFrom_of_pending (m.readBound - 1) hm hqueue with
      ⟨_, _, _, hroom⟩ | ⟨h, m₁, hrun, -, hh, hqueue₁, hsource, hheap⟩
    · exact absurd hroom (Nat.not_lt_zero _)
    · have hbound : m.readBound - 1 + 1 = m.readBound := by
        simp only [readBound]
        omega
      rw [hbound] at hrun
      have hm₁ := (hm.of_ok lasting_readTerm hrun).1
      obtain ⟨m₂, hm₂, hqueue₂, hsource₂, hheap₂, hrest⟩ := ih hm₁ hqueue₁
      exact ⟨m₂, hm₂, hqueue₂, hsource₂.trans hsource, hheap₂.trans hheap,
        fun hreads => .next hrun hh.unfolds (hrest hreads)⟩

/-- A closing parenthesis outside of lists stops a read, and its position is told. -/
theorem readTerm_of_close {rest : Bytes} (hm : Literate base m) (hqueue : Pending m [])
    (hgap : Gap m.source.rest (Ascii.closeParen :: rest)) :
    ∃ m', readTerm m = .error (.fault (.unbalancedClose (m.source.extent - (rest.length + 1)))) m' ∧
      m'.source.rest = rest := by
  have hsolid := solid_closeParen rest
  have hskip := skipBlank_of_gap hgap hsolid
  have hposition : m.source.skipBlank.position = m.source.extent - (rest.length + 1) := by
    have hextent := m.source.extent_skipBlank
    rw [Source.extent, hskip, List.length_cons] at hextent
    omega
  obtain ⟨n, hn⟩ : ∃ n, m.readBound = n + 1 := ⟨4 * m.source.rest.length + 3, rfl⟩
  have hnext : Fails 0 (readNext n m.registers (some Ascii.closeParen))
      { m with source := m.source.skipBlank }
      (.unbalancedClose (m.source.extent - (rest.length + 1))) fun m' => m'.source.rest = rest := by
    rw [readNext, if_neg (by decide), if_neg (by decide), if_neg (by decide), if_neg (by decide),
      if_neg (by decide), if_pos rfl, ← hposition]
    exact .inr ⟨_, rfl, rest_advance hskip⟩
  have hread := fails_readTermFrom_of_gap hm hqueue hgap hsolid hnext
  rw [← hn] at hread
  rcases hread with ⟨_, _, _, hroom⟩ | hread
  · exact absurd hroom (Nat.not_lt_zero _)
  · exact hread

/-- A read that fails loses nothing of the text. -/
theorem extent_of_readTerm {reason : Stop} (hm : Literate base m) (hrun : readTerm m = .error reason m') :
    m'.source.extent = m.source.extent := by
  have hlasts := (lasting_readTerm hm.toReady).2.1
  rw [after_of_error hrun] at hlasts
  exact hlasts.extent_eq

/-- A sequence of reads follows the grammar. With room for five objects a byte it does not run out of it,
and if it does then the terms read so far are those that the text begins with. -/
theorem reads_of_text {size : ℕ} {s rest : Bytes} {ts : List Term} {f : Fault}
    (htext : Text size s ts f rest) (hm : Literate base m) (hqueue : Pending m [])
    (hs : m.source.rest = s) (hsize : m.source.extent = size) :
    (∃ ts₁ ts₂ capacity m', ts = ts₁ ++ ts₂ ∧ Reads m ts₁ (.exhausted capacity) m' ∧
      m.heap.room < 5 * s.length) ∨
    ∃ m', Reads m ts f m' ∧ m'.source.rest = rest ∧ m'.source.extent = size := by
  have hbound : ∀ n : Machine, 4 * n.source.rest.length < n.readBound := by
    intro n
    simp only [readBound]
    omega
  induction htext generalizing m with
  | close hgap =>
    rw [← hs] at hgap
    obtain ⟨m', hrun, hrest⟩ := readTerm_of_close hm hqueue hgap
    have hextent := extent_of_readTerm hm hrun
    rw [hsize] at hrun
    exact .inr ⟨m', .stop hrun, hrest, hextent.trans hsize⟩
  | broken hgap hphrase =>
    have hlen := hgap.length_le
    rw [← hs] at hgap
    rcases (faithful m.readBound).termFails hm hqueue hgap hphrase (hbound m) with
      ⟨capacity, m', hrun, hroom⟩ | ⟨m', hrun, hrest⟩
    · exact .inl ⟨[], [], capacity, m', rfl, .stop hrun, by omega⟩
    · exact .inr ⟨m', .stop hrun, hrest, (extent_of_readTerm hm hrun).trans hsize⟩
  | @more s s₁ s₂ rest ts us f hgap hphrase _ ih =>
    have hlen := hgap.length_le
    have houtlay := hphrase.outlay_le
    rw [outlay, cost_list] at houtlay
    have hphraselen := hphrase.length
    rw [← hs] at hgap
    rcases (faithful m.readBound).term hm hqueue hgap hphrase (hbound m) with
      ⟨capacity, m', hrun, hroom⟩ | ⟨h, m₁, hrun, hroom, t, queued, rfl, hh, hqueue₁, hrest₁⟩
    · exact .inl ⟨[], ts ++ us, capacity, m', rfl, .stop hrun, by omega⟩
    · obtain ⟨hm₁, hlasts⟩ := hm.of_ok lasting_readTerm hrun
      obtain ⟨m₂, hm₂, hqueue₂, hsource₂, hheap₂, hdrain⟩ := reads_of_pending hm₁ hqueue₁
      have hextent₂ : m₂.source.extent = size := by rw [hsource₂, hlasts.extent_eq, hsize]
      have hfirst : ∀ {vs g n}, Reads m₂ vs g n → Reads m (t :: queued ++ vs) g n := fun hreads =>
        .next hrun hh.unfolds (hdrain hreads)
      rcases ih hm₂ hqueue₂ (hsource₂ ▸ hrest₁) hextent₂ with
        ⟨us₁, us₂, capacity, m', rfl, hreads, hroom₂⟩ | ⟨m', hreads, hrest, hextent⟩
      · refine .inl ⟨t :: queued ++ us₁, us₂, capacity, m', ?_, hfirst hreads, ?_⟩
        · rw [List.append_assoc]
        · rw [hheap₂] at hroom₂
          omega
      · exact .inr ⟨m', hfirst hreads, hrest, hextent⟩

/-- Reading a text again and again on a machine that has been set up gives the terms of the grammar in
order, whatever is collected in between, and then its fault; the text consumed is that of the grammar. Only a
table without room for five objects a byte can be too small, and then the terms read before are those that
the text begins with. -/
theorem reads_iff_text (lowlevel : Bool) (slots : UInt64) (source : Bytes) (sink : Sink)
    (tracing : Bool) (platform : Platform) :
    ∃ m, prepare lowlevel (blank slots.toNat source sink tracing platform) = .ok () m ∧
      ∃ ts f m', Reads m ts f m' ∧
        ((∀ us g rest, Text source.length source us g rest ↔ us = ts ∧ g = f ∧ rest = m'.source.rest) ∧
            m'.source.position + m'.source.rest.length = source.length ∨
          (∃ capacity, f = .exhausted capacity) ∧ m.heap.room < 5 * source.length ∧
            ∃ us g rest, Text source.length source (ts ++ us) g rest) := by
  obtain ⟨m, hprepare, hfresh, hsource⟩ := exists_fresh lowlevel slots source sink tracing platform
  refine ⟨m, hprepare, ?_⟩
  have hqueue : Pending m [] := pending_nil_iff.mpr hfresh.queue
  have hrest : m.source.rest = source := congrArg Source.rest hsource
  have hextent : m.source.extent = source.length := by
    rw [hsource, Source.extent, Source.new, Nat.zero_add]
  have hreads := fun {us g rest} (htext : Text source.length source us g rest) =>
    reads_of_text htext hfresh.literate hqueue hrest hextent
  by_cases hroom : ∃ ts us capacity m', (∃ g rest, Text source.length source (ts ++ us) g rest) ∧
      Reads m ts (.exhausted capacity) m' ∧ m.heap.room < 5 * source.length
  · obtain ⟨ts, us, capacity, m', htext, hts, hroom⟩ := hroom
    exact ⟨ts, _, m', hts, .inr ⟨⟨capacity, rfl⟩, hroom, us, htext⟩⟩
  · -- no derivation of the grammar runs out of room, so each of them is what is read
    have hall : ∀ {us g rest}, Text source.length source us g rest →
        ∃ m', Reads m us g m' ∧ m'.source.rest = rest ∧ m'.source.extent = source.length := by
      intro us g rest htext
      rcases hreads htext with ⟨us₁, us₂, capacity, m', rfl, hus, hlt⟩ | hus
      · exact absurd ⟨us₁, us₂, capacity, m', ⟨g, rest, htext⟩, hus, hlt⟩ hroom
      · exact hus
    obtain ⟨ts, f, rest, htext⟩ := exists_text source.length source
    obtain ⟨m', hts, hrest', hextent'⟩ := hall htext
    refine ⟨ts, f, m', hts, .inl ⟨fun us g rest' => ⟨fun hus => ?_, ?_⟩, hextent'⟩⟩
    · obtain ⟨n, hus, hn, -⟩ := hall hus
      obtain ⟨rfl, rfl, rfl⟩ := hts.unique hus
      exact ⟨rfl, rfl, hn.symm⟩
    · rintro ⟨rfl, rfl, rfl⟩
      rw [hrest']
      exact htext

end PushLisp.Machine
