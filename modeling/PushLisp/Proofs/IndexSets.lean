import Mathlib.Data.Finset.Insert
import PushLisp.Proofs.Collection

/-!
# Marks are sets of indices

The marks are kept in words of thirty-two bits, but what is asked of them can be answered from a set of
indices alone: reading a mark asks for membership, setting one inserts, and clearing empties. After every
history of such accesses to indices below the bound, the words hold exactly the indices that were set since
the last clearing, and every answer on the way is the one that the set gives. An access fails where there is
no word for its index. Up to `2 ^ 64 - 32` bits that does not happen; from there on the number of words wraps
around to zero, and no access finds one.

## Main definitions

* `Marks.Access`, `Marks.replay?`: histories of marks.
* `Marks.SetSince`: an index was set and not cleared since.
* `Marks.Represents`: marks hold a given set.

## Main statements

* `Marks.Represents.perform?`: one access does to the words what it does to the set.
* `Marks.mem_members_iff`: the set after a history.
* `Marks.history_exact`: every history behaves like one of a set.
* `Marks.no_word_beyond`: where the number of words wraps around, the first access fails.
-/
namespace PushLisp.Marks

/-! ## Histories -/

/-- What the owner of the marks can ask of them. -/
inductive Access where
  | get (i : ℕ)
  | testAndSet (i : ℕ)
  | clear
  deriving Repr, DecidableEq

namespace Access

/-- The index that an access is about. -/
def index? : Access → Option ℕ
  | .get i => some i
  | .testAndSet i => some i
  | .clear => none

/-- An access is to no index from `n` on. -/
def Below (n : ℕ) (a : Access) : Prop := ∀ i ∈ a.index?, i < n

instance (n : ℕ) (a : Access) : Decidable (a.Below n) := inferInstanceAs (Decidable (∀ i ∈ a.index?, i < n))

/-- The answer to an access and the marks after it, unless there is no word for its index. -/
def perform? (marks : Marks) : Access → Option (Option Bool × Marks)
  | .get i => (marks.get? i).map fun old => (some old, marks)
  | .testAndSet i => (marks.testAndSet? i).map fun set => (some set.1, set.2)
  | .clear => some (none, marks.clear)

/-- The answer to an access where the marks hold the set `s`. -/
def answer (s : Finset ℕ) : Access → Option Bool
  | .get i => some (decide (i ∈ s))
  | .testAndSet i => some (decide (i ∈ s))
  | .clear => none

/-- The set after an access. -/
def update (s : Finset ℕ) : Access → Finset ℕ
  | .get _ => s
  | .testAndSet i => insert i s
  | .clear => ∅

end Access

variable {n i j : ℕ} {marks : Marks} {s : Finset ℕ} {a : Access} {history : List Access} {w : UInt32}

/-- The answers along a history, in order, and the marks after it, unless one of the accesses fails. -/
def replay? (marks : Marks) : List Access → Option (List (Option Bool) × Marks)
  | [] => some ([], marks)
  | a :: rest => do
    let (answer, marks) ← a.perform? marks
    let (answers, marks) ← marks.replay? rest
    return (answer :: answers, marks)

/-- The answers that a set gives along a history, in order. -/
def setAnswers (s : Finset ℕ) : List Access → List (Option Bool)
  | [] => []
  | a :: rest => a.answer s :: setAnswers (a.update s) rest

/-- The set after a history that begins with the empty one. -/
def members (history : List Access) : Finset ℕ := history.foldl Access.update ∅

/-- An index was set, and nothing was cleared since. -/
def SetSince (history : List Access) (i : ℕ) : Prop :=
  ∃ before after, history = before ++ .testAndSet i :: after ∧ Access.clear ∉ after

/-! ## The set after a history -/

theorem setSince_append_singleton :
    SetSince (history ++ [a]) i ↔ a = .testAndSet i ∨ a ≠ .clear ∧ SetSince history i := by
  constructor
  · rintro ⟨before, after, heq, hclear⟩
    rcases List.eq_nil_or_concat after with rfl | ⟨after, last, rfl⟩
    · exact .inl (List.singleton_inj.mp (List.append_inj' heq rfl).2)
    · rw [List.concat_eq_append] at heq hclear
      rw [← List.cons_append, ← List.append_assoc] at heq
      obtain ⟨rfl, hlast⟩ := List.append_inj' heq rfl
      obtain rfl := List.singleton_inj.mp hlast
      rw [List.mem_append, not_or, List.mem_singleton] at hclear
      exact .inr ⟨Ne.symm hclear.2, before, after, rfl, hclear.1⟩
  · rintro (rfl | ⟨hne, before, after, rfl, hclear⟩)
    · exact ⟨history, [], rfl, List.not_mem_nil⟩
    · refine ⟨before, after ++ [a], by simp, ?_⟩
      simp [hclear, Ne.symm hne]

/-- The set after a history holds the indices that were set since the last clearing. -/
theorem mem_members_iff : i ∈ members history ↔ SetSince history i := by
  induction history using List.reverseRecOn with
  | nil => simp [members, SetSince]
  | append_singleton history a ih =>
    rw [setSince_append_singleton, members, List.foldl_append, List.foldl_cons, List.foldl_nil, ← members]
    cases a with
    | get k => simp [Access.update, ih]
    | testAndSet k => simp [Access.update, ih, eq_comm]
    | clear => simp [Access.update]

/-! ## One access -/

/-- Marks for the indices below `n` hold the set `s`. -/
structure Represents (n : ℕ) (marks : Marks) (s : Finset ℕ) : Prop where
  size_words : marks.words.size = wordsFor n
  get_eq : ∀ i, marks.get i = decide (i ∈ s)

theorem represents_empty (n : ℕ) : Represents n (empty n) ∅ where
  size_words := Array.size_replicate
  get_eq i := by simp

theorem Represents.div_lt (h : Represents n marks s) (hi : i < n) : i / 32 < marks.words.size :=
  h.size_words ▸ div_lt_wordsFor hi

theorem Represents.get?_eq (h : Represents n marks s) (hi : i < n) :
    marks.get? i = some (decide (i ∈ s)) := by
  rw [get?, if_pos (h.div_lt hi), h.get_eq]

theorem Represents.testAndSet?_eq (h : Represents n marks s) (hi : i < n) :
    marks.testAndSet? i = some (decide (i ∈ s), (marks.testAndSet i).2) := by
  rw [testAndSet?, if_pos (h.div_lt hi), ← h.get_eq]
  rfl

/-- Setting an index inserts it. -/
theorem Represents.testAndSet (h : Represents n marks s) (hi : i < n) :
    Represents n (marks.testAndSet i).2 (insert i s) where
  size_words := (size_words_testAndSet marks i).trans h.size_words
  get_eq j := by
    rw [get_testAndSet marks i j (h.div_lt hi), h.get_eq j]
    simp [eq_comm]

theorem Represents.clear (h : Represents n marks s) : Represents n marks.clear ∅ where
  size_words := by simpa [Marks.clear] using h.size_words
  get_eq j := by simp

/-- An access finds its word, answers as the set does and leaves what the set becomes. -/
theorem Represents.perform? (h : Represents n marks s) (ha : a.Below n) :
    ∃ marks', a.perform? marks = some (a.answer s, marks') ∧ Represents n marks' (a.update s) := by
  cases a with
  | get i => exact ⟨marks, by rw [Access.perform?, h.get?_eq (ha i rfl)]; rfl, h⟩
  | testAndSet i =>
    have hi : i < n := ha i rfl
    exact ⟨_, by rw [Access.perform?, h.testAndSet?_eq hi]; rfl, h.testAndSet hi⟩
  | clear => exact ⟨_, rfl, h.clear⟩

/-- A history answers as the set does, and leaves what the set becomes. -/
theorem Represents.replay? (h : Represents n marks s) (hbelow : ∀ a ∈ history, a.Below n) :
    ∃ marks', marks.replay? history = some (setAnswers s history, marks') ∧
      Represents n marks' (history.foldl Access.update s) := by
  induction history generalizing marks s with
  | nil => exact ⟨marks, rfl, h⟩
  | cons a rest ih =>
    rw [List.forall_mem_cons] at hbelow
    obtain ⟨marks₁, hstep, h₁⟩ := h.perform? hbelow.1
    obtain ⟨marks₂, hrest, h₂⟩ := ih h₁ hbelow.2
    refine ⟨marks₂, ?_, h₂⟩
    simp only [Marks.replay?, hstep, hrest, setAnswers, Option.bind_eq_bind, Option.bind_some]
    rfl

/-! ## The word of an index -/

theorem shiftRight_eq_div (i : ℕ) : i >>> 5 = i / 32 := Nat.shiftRight_eq_div_pow i 5

theorem get_of_word (hw : marks.words[i / 32]? = some w) : marks.get i = (w &&& mask i != 0) := by
  rw [get, Array.getD_eq_getD_getElem?, hw, Option.getD_some]

theorem words_testAndSet (hw : marks.words[i / 32]? = some w) :
    (marks.testAndSet i).2.words = marks.words.setIfInBounds (i / 32) (w ||| mask i) := by
  obtain ⟨hlt, rfl⟩ := Array.getElem?_eq_some_iff.mp hw
  rw [testAndSet]
  apply Array.ext
  · simp
  · intro k hk hk'
    rw [Array.getElem_modify, Array.getElem_setIfInBounds]
    split
    · rename_i hik
      subst hik
      rfl
    · rfl

/-! ## Every history -/

/-- At the index `i`, marks of so many bits behave like a set after the given history. -/
structure Faithful (bits : UInt64) (history : List Access) (marks : Marks) (i : ℕ) : Prop where
  get_iff : marks.get? i = some true ↔ SetSince history i
  testAndSet_iff : (marks.testAndSet? i).map Prod.fst = some true ↔ SetSince history i
  /-- An access to the index leaves all others as they are, also those of its own word. -/
  get_perform : ∀ a : Access, a.index? = some i → ∃ answer marks',
    a.perform? marks = some (answer, marks') ∧ ∀ j ≠ i, marks'.get? j = marks.get? j
  /-- There is a word for the index, -/
  shiftRight_lt : i >>> 5 < (wordCount bits).toNat
  /-- and it is this word that is read and written. -/
  word : ∃ w, marks.words[i >>> 5]? = some w ∧ marks.get? i = some (w &&& mask i != 0) ∧
    ∃ old marks', marks.testAndSet? i = some (old, marks') ∧
      marks'.words = marks.words.setIfInBounds (i >>> 5) (w ||| mask i)

/-- Setting an index leaves the others as they are. -/
theorem Represents.get?_testAndSet (h : Represents n marks s) (hi : i < n) (hj : j ≠ i) :
    (marks.testAndSet i).2.get? j = marks.get? j := by
  rw [get?, get?, size_words_testAndSet, get_testAndSet marks i j (h.div_lt hi),
    decide_eq_false hj.symm, Bool.false_or]

theorem Represents.faithful {bits : UInt64} (hbits : bits ≤ 0xffffffffffffffe0)
    (h : Represents bits.toNat marks (members history)) (hi : i < bits.toNat) :
    Faithful bits history marks i where
  get_iff := by rw [h.get?_eq hi, Option.some_inj, decide_eq_true_iff, mem_members_iff]
  testAndSet_iff := by
    rw [h.testAndSet?_eq hi, Option.map_some, Option.some_inj, decide_eq_true_iff, mem_members_iff]
  get_perform a ha := by
    cases a with
    | get k =>
      obtain rfl : k = i := Option.some.inj ha
      exact ⟨_, marks, by rw [Access.perform?, h.get?_eq hi]; rfl, fun j _ => rfl⟩
    | testAndSet k =>
      obtain rfl : k = i := Option.some.inj ha
      exact ⟨_, _, by rw [Access.perform?, h.testAndSet?_eq hi]; rfl, fun j hj => h.get?_testAndSet hi hj⟩
    | clear => cases ha
  shiftRight_lt := by
    rw [shiftRight_eq_div, toNat_wordCount hbits]
    exact div_lt_wordsFor hi
  word := by
    rw [shiftRight_eq_div]
    have hw := Array.getElem?_eq_getElem (h.div_lt hi)
    refine ⟨_, hw, ?_, _, _, h.testAndSet?_eq hi, words_testAndSet hw⟩
    rw [get?, if_pos (h.div_lt hi), get_of_word hw]

/-- The marks are a set of indices. Along every history of accesses to indices below the bound, starting
from new marks of at most `2 ^ 64 - 32` bits, every access finds its word and the answers are those of the
set. After it, reading and setting an index tell whether the index was set since the last clearing, an
access to one index leaves all others alone, and the word that it goes to exists. -/
theorem history_exact (bits : UInt64) (hbits : bits ≤ 0xffffffffffffffe0) (history : List Access)
    (hbelow : ∀ a ∈ history, a.Below bits.toNat) :
    ∃ marks, (new bits).replay? history = some (setAnswers ∅ history, marks) ∧
      ∀ i < bits.toNat, Faithful bits history marks i := by
  rw [new_eq_empty hbits]
  obtain ⟨marks, hreplay, hrep⟩ := (represents_empty bits.toNat).replay? hbelow
  exact ⟨marks, hreplay, fun i hi => Represents.faithful hbits hrep hi⟩

/-- Both sides of a word boundary and the last word, which is not full, with a clearing in between. -/
def straddling : List Access :=
  [.testAndSet 31, .testAndSet 32, .testAndSet 69, .clear, .testAndSet 32, .get 31, .get 69, .testAndSet 32]

theorem history_exact_straddling : (∀ a ∈ straddling, a.Below 70) ∧
    ∃ marks, (new 70).replay? straddling = some
        ([some false, some false, some false, none, some false, some false, some false, some true], marks) ∧
      ∀ i < 70, Faithful 70 straddling marks i := by
  have hbelow : ∀ a ∈ straddling, a.Below (70 : UInt64).toNat := by decide
  obtain ⟨marks, hreplay, hfaithful⟩ := history_exact 70 (by decide) straddling hbelow
  have hanswers : setAnswers ∅ straddling =
      [some false, some false, some false, none, some false, some false, some false, some true] := by
    decide
  exact ⟨hbelow, marks, by rw [hreplay, hanswers], hfaithful⟩

/-- With more than `2 ^ 64 - 32` bits there are no words, and no index can be set, although all of them are
below the bound. -/
theorem no_word_beyond : Access.Below (0xffffffffffffffff : UInt64).toNat (.testAndSet 0) ∧
    (wordCount 0xffffffffffffffff).toNat = 0 ∧
    (new 0xffffffffffffffff).replay? [.testAndSet 0] = none := by
  decide

end PushLisp.Marks
