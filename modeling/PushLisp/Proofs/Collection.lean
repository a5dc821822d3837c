import Mathlib.Data.Finset.Card
import Mathlib.Data.Finset.Range
import PushLisp.Heap.Collect

/-!
# Collections are exact

A collection keeps what can be reached from the empty list and the roots, and nothing else. The
worklist may name a slot twice, an empty slot or no slot at all, and the objects may refer to each
other in circles. Marking ends all the same: every step takes a handle off the list, and only a slot
marked for the first time puts at most two others on it.

## Main definitions

* `Heap.Reaches`: what roots lead to.
* `Heap.Unmarked`: no slot is marked.
* `Heap.Collected`: what a collection does to a heap.

## Main statements

* `Heap.get_mark_iff`: marking finds exactly the occupied slots that are reached.
* `Heap.collected_collect`: every collection is exact.
-/
namespace PushLisp

theorem Object.length_references_le (o : Object) : o.references.length ≤ 2 := by
  cases o <;> simp [references]

namespace Marks

@[simp] theorem size_words_testAndSet (m : Marks) (i : Nat) :
    (m.testAndSet i).2.words.size = m.words.size := by
  simp [testAndSet]

/-- Putting in an index that is there changes nothing. -/
theorem testAndSet_of_get {m : Marks} {i : Nat} (h : m.get i = true) : (m.testAndSet i).2 = m := by
  rw [get_eq_testBit] at h
  have hwords : m.words.modify (i / 32) (· ||| mask i) = m.words := by
    apply Array.ext
    · simp
    · intro j hj hj'
      rw [Array.getElem_modify]
      split
      · rename_i hij
        subst hij
        simp only [Array.getD, hj', dite_true] at h
        apply UInt32.toNat_inj.mp
        apply Nat.eq_of_testBit_eq
        intro k
        rw [UInt32.toNat_or, Nat.testBit_or, testBit_mask]
        by_cases hk : i % 32 = k
        · subst hk
          simpa using h
        · simp [hk]
      · rfl
  simp [testAndSet, hwords]

/-- A cleared set is the empty set. -/
theorem clear_eq_empty {m : Marks} (h : m.words.size = wordsFor m.size) :
    m.clear = empty m.size := by
  simp [clear, empty, ← h, Array.map_const']

end Marks

namespace Heap

/-! ## Slots -/

theorem slot?_eq_some_iff {heap : Heap} {i : Nat} {o : Object} :
    heap.slot? i = some o ↔ heap.slots[i]? = some (some o) := by
  by_cases h : i < heap.slots.size
  · simp [slot?, h]
  · simp [slot?, h]

theorem get?_eq_some_iff {heap : Heap} {h : Handle} {o : Object} :
    heap.get? h = some o ↔ heap.slots[h.slot]? = some (some o) := slot?_eq_some_iff

theorem lt_capacity_of_slot? {heap : Heap} {i : Nat} {o : Object} (h : heap.slot? i = some o) :
    i < heap.capacity := by
  by_contra hi
  simp [slot?, show ¬ i < heap.slots.size from hi] at h

/-! ## Reachability -/

/-- What roots lead to, by the references of the objects in occupied slots. -/
inductive Reaches (heap : Heap) (roots : List Handle) : Handle → Prop
  | root {h : Handle} (hmem : h ∈ roots) : Reaches heap roots h
  | reference {h k : Handle} {o : Object} (hh : Reaches heap roots h)
      (ho : heap.get? h = some o) (hk : k ∈ o.references) : Reaches heap roots k

theorem Reaches.mono {heap : Heap} {roots roots' : List Handle} {h : Handle}
    (hsub : roots ⊆ roots') (hr : heap.Reaches roots h) : heap.Reaches roots' h := by
  induction hr with
  | root hmem => exact .root (hsub hmem)
  | reference _ ho hk ih => exact .reference ih ho hk

/-! ## Marking -/

/-- The occupied slots that are still to be marked. -/
def unmarked (slots : Array (Option Object)) (marks : Marks) : Finset ℕ :=
  {i ∈ Finset.range slots.size | slots[i]?.join.isSome ∧ marks.get i = false}

theorem mem_unmarked {slots : Array (Option Object)} {marks : Marks} {i : ℕ} :
    i ∈ unmarked slots marks ↔ (∃ o, slots[i]? = some (some o)) ∧ marks.get i = false := by
  simp only [unmarked, Finset.mem_filter, Finset.mem_range, Option.isSome_iff_exists,
    Option.join_eq_some_iff, and_iff_right_iff_imp]
  rintro ⟨⟨o, ho⟩, -⟩
  exact (Array.getElem?_eq_some_iff.mp ho).1

theorem card_unmarked_le (slots : Array (Option Object)) (marks : Marks) :
    (unmarked slots marks).card ≤ slots.size := by
  calc
    (unmarked slots marks).card ≤ (Finset.range slots.size).card := Finset.card_filter_le _ _
    _ = slots.size := Finset.card_range _

section Marking

variable {slots : Array (Option Object)} {marks : Marks} {work : List Handle} {h : Handle} {n : ℕ}

/-- There is a mark for every slot. -/
def Fits (slots : Array (Option Object)) (marks : Marks) : Prop :=
  marks.words.size = Marks.wordsFor slots.size

theorem Fits.testAndSet (hfit : Fits slots marks) (i : ℕ) : Fits slots (marks.testAndSet i).2 := by
  simpa [Fits] using hfit

/-- Marking an occupied slot marks that slot and no other. -/
theorem get_testAndSet_of_occupied (hfit : Fits slots marks) {o : Object}
    (ho : slots[h.slot]? = some (some o)) (i : ℕ) :
    (marks.testAndSet h.slot).2.get i = true ↔ h.slot = i ∨ marks.get i = true := by
  have hlt : h.slot < slots.size := (Array.getElem?_eq_some_iff.mp ho).1
  have hword : h.slot / 32 < marks.words.size := by
    rw [hfit]
    exact Marks.div_lt_wordsFor hlt
  simp [Marks.get_testAndSet marks h.slot i hword]

/-- Marking a slot for the first time leaves one fewer to be marked. -/
theorem card_unmarked_testAndSet (hfit : Fits slots marks) {o : Object}
    (ho : slots[h.slot]? = some (some o)) (hnew : marks.get h.slot = false) :
    (unmarked slots (marks.testAndSet h.slot).2).card + 1 = (unmarked slots marks).card := by
  have hmem : h.slot ∈ unmarked slots marks := mem_unmarked.mpr ⟨⟨o, ho⟩, hnew⟩
  have herase : unmarked slots (marks.testAndSet h.slot).2 = (unmarked slots marks).erase h.slot := by
    ext i
    have hget := get_testAndSet_of_occupied hfit ho i
    rw [Finset.mem_erase, mem_unmarked, mem_unmarked, ← Bool.not_eq_true, ← Bool.not_eq_true, hget]
    tauto
  rw [herase]
  exact Finset.card_erase_add_one hmem

/-- What one step of marking does: it passes over a handle, or marks an occupied slot for the first
time and puts the references of its object on the worklist. -/
theorem markFrom_cons (slots : Array (Option Object)) (h : Handle) (work : List Handle)
    (marks : Marks) :
    ((∀ o, slots[h.slot]? = some (some o) → marks.get h.slot = true) ∧
      ∀ n, markFrom slots (n + 1) (h :: work) marks = markFrom slots n work marks) ∨
    ∃ o, slots[h.slot]? = some (some o) ∧ marks.get h.slot = false ∧
      ∀ n, markFrom slots (n + 1) (h :: work) marks =
        markFrom slots n (o.references ++ work) (marks.testAndSet h.slot).2 := by
  by_cases hfull : ∃ o, slots[h.slot]? = some (some o)
  · obtain ⟨o, ho⟩ := hfull
    cases hold : marks.get h.slot with
    | true =>
      have hset : marks.testAndSet h.slot = (true, marks) :=
        Prod.ext hold (Marks.testAndSet_of_get hold)
      exact .inl ⟨fun _ _ => rfl, fun n => by simp only [markFrom, ho, hset]⟩
    | false =>
      have hset : marks.testAndSet h.slot = (false, (marks.testAndSet h.slot).2) :=
        Prod.ext hold rfl
      refine .inr ⟨o, ho, rfl, fun n => ?_⟩
      rw [markFrom]
      simp only [ho]
      rw [hset]
  · refine .inl ⟨fun o ho => absurd ⟨o, ho⟩ hfull, fun n => ?_⟩
    rw [markFrom]
    split
    · rename_i o ho
      exact absurd ⟨o, ho⟩ hfull
    · rfl

/-- The number of steps that marking still takes at most. -/
def markMeasure (slots : Array (Option Object)) (work : List Handle) (marks : Marks) : ℕ :=
  work.length + 2 * (unmarked slots marks).card

theorem markMeasure_new (work : List Handle) (hfit : Fits slots marks) {o : Object}
    (ho : slots[h.slot]? = some (some o)) (hnew : marks.get h.slot = false) :
    markMeasure slots (o.references ++ work) (marks.testAndSet h.slot).2 <
      markMeasure slots (h :: work) marks := by
  have hcard := card_unmarked_testAndSet hfit ho hnew
  have hlen := o.length_references_le
  simp only [markMeasure, List.length_append, List.length_cons]
  omega

/-- With as many steps as the measure, marking ends because the worklist is empty. -/
theorem fst_markFrom (hfit : Fits slots marks) (hn : markMeasure slots work marks ≤ n) :
    (markFrom slots n work marks).1 = [] := by
  induction n generalizing work marks with
  | zero =>
    have hwork : work = [] := List.length_eq_zero_iff.mp (by unfold markMeasure at hn; omega)
    exact hwork
  | succ n ih =>
    cases work with
    | nil => rfl
    | cons h work =>
      rcases markFrom_cons slots h work marks with ⟨-, heq⟩ | ⟨o, ho, hnew, heq⟩
      · rw [heq]
        exact ih hfit (by simp only [markMeasure, List.length_cons] at hn ⊢; omega)
      · have hless := markMeasure_new work hfit ho hnew
        rw [heq]
        exact ih (hfit.testAndSet _) (by omega)

/-- Once the worklist is empty, more steps make no difference. -/
theorem markFrom_eq_of_le {k : ℕ} (hdone : (markFrom slots n work marks).1 = []) (hk : n ≤ k) :
    markFrom slots k work marks = markFrom slots n work marks := by
  induction n generalizing work marks k with
  | zero =>
    have hwork : work = [] := hdone
    subst hwork
    cases k <;> rfl
  | succ n ih =>
    obtain ⟨k, rfl⟩ : ∃ j, k = j + 1 := ⟨k - 1, by omega⟩
    cases work with
    | nil => rfl
    | cons h work =>
      rcases markFrom_cons slots h work marks with ⟨-, heq⟩ | ⟨o, -, -, heq⟩
      · rw [heq] at hdone
        rw [heq, heq]
        exact ih hdone (by omega)
      · rw [heq] at hdone
        rw [heq, heq]
        exact ih hdone (by omega)

/-- Marking keeps the number of marks. -/
theorem fits_markFrom (hfit : Fits slots marks) : Fits slots (markFrom slots n work marks).2 := by
  induction n generalizing work marks with
  | zero => exact hfit
  | succ n ih =>
    cases work with
    | nil => exact hfit
    | cons h work =>
      rcases markFrom_cons slots h work marks with ⟨-, heq⟩ | ⟨o, -, -, heq⟩
      · rw [heq]; exact ih hfit
      · rw [heq]; exact ih (hfit.testAndSet _)

theorem size_markFrom : (markFrom slots n work marks).2.size = marks.size := by
  induction n generalizing work marks with
  | zero => rfl
  | succ n ih =>
    cases work with
    | nil => rfl
    | cons h work =>
      rcases markFrom_cons slots h work marks with ⟨-, heq⟩ | ⟨o, -, -, heq⟩
      · rw [heq, ih]
      · rw [heq, ih, Marks.size_testAndSet]

/-- Nothing else is marked: a slot marked on the way belongs to a handle that has every property which
the worklist has and references pass on. -/
theorem of_get_markFrom {P : Handle → Prop} (hfit : Fits slots marks) (hwork : ∀ h ∈ work, P h)
    (hpass : ∀ h o, P h → slots[h.slot]? = some (some o) → ∀ k ∈ o.references, P k) {i : ℕ}
    (hi : (markFrom slots n work marks).2.get i = true) :
    marks.get i = true ∨ ∃ h, P h ∧ h.slot = i := by
  induction n generalizing work marks with
  | zero => exact .inl hi
  | succ n ih =>
    cases work with
    | nil => exact .inl hi
    | cons h work =>
      have hh : P h := hwork h List.mem_cons_self
      have hrest : ∀ k ∈ work, P k := fun k hk => hwork k (List.mem_cons_of_mem _ hk)
      rcases markFrom_cons slots h work marks with ⟨-, heq⟩ | ⟨o, ho, -, heq⟩
      · rw [heq] at hi
        exact ih hfit hrest hi
      · rw [heq] at hi
        have hmore : ∀ k ∈ o.references ++ work, P k := by
          intro k hk
          rcases List.mem_append.mp hk with hk | hk
          · exact hpass h o hh ho k hk
          · exact hrest k hk
        rcases ih (hfit.testAndSet _) hmore hi with hold | hnew
        · rcases (get_testAndSet_of_occupied hfit ho i).mp hold with heqi | hold
          · exact .inr ⟨h, hh, heqi⟩
          · exact .inl hold
        · exact .inr hnew

/-- What is marked stays marked. -/
theorem get_markFrom_of_get (hfit : Fits slots marks) {i : ℕ} (hi : marks.get i = true) :
    (markFrom slots n work marks).2.get i = true := by
  induction n generalizing work marks with
  | zero => exact hi
  | succ n ih =>
    cases work with
    | nil => exact hi
    | cons h work =>
      rcases markFrom_cons slots h work marks with ⟨-, heq⟩ | ⟨o, ho, -, heq⟩
      · rw [heq]; exact ih hfit hi
      · rw [heq]
        exact ih (hfit.testAndSet _) ((get_testAndSet_of_occupied hfit ho i).mpr (.inr hi))

/-- The references of marked objects are marked or on the worklist. -/
def Frontier (slots : Array (Option Object)) (work : List Handle) (marks : Marks) : Prop :=
  ∀ i o, marks.get i = true → slots[i]? = some (some o) → ∀ k ∈ o.references,
    (∃ o', slots[k.slot]? = some (some o')) → marks.get k.slot = true ∨ k ∈ work

/-- A handle to no slot that is still to be marked can be taken off the worklist. -/
theorem Frontier.pop {h : Handle} (hfront : Frontier slots (h :: work) marks)
    (hseen : ∀ o, slots[h.slot]? = some (some o) → marks.get h.slot = true) :
    Frontier slots work marks := by
  intro i o hi ho k hk hocc
  rcases hfront i o hi ho k hk hocc with hmark | hmem
  · exact .inl hmark
  · rcases List.mem_cons.mp hmem with rfl | hmem
    · obtain ⟨o', ho'⟩ := hocc
      exact .inl (hseen o' ho')
    · exact .inr hmem

/-- A slot that gets marked is replaced by its references. -/
theorem Frontier.testAndSet {h : Handle} {o : Object} (hfront : Frontier slots (h :: work) marks)
    (hfit : Fits slots marks) (ho : slots[h.slot]? = some (some o)) :
    Frontier slots (o.references ++ work) (marks.testAndSet h.slot).2 := by
  intro i oi hi hoi k hk hocc
  rw [get_testAndSet_of_occupied hfit ho] at hi
  rw [get_testAndSet_of_occupied hfit ho, List.mem_append]
  rcases hi with rfl | hi
  · rw [ho] at hoi
    cases hoi
    exact .inr (.inl hk)
  · rcases hfront i oi hi hoi k hk hocc with hmark | hmem
    · exact .inl (.inr hmark)
    · rcases List.mem_cons.mp hmem with rfl | hmem
      · exact .inl (.inl rfl)
      · exact .inr (.inr hmem)

/-- With steps enough, the whole worklist gets marked, and then all that marked objects refer to. -/
theorem frontier_markFrom (hfit : Fits slots marks) (hn : markMeasure slots work marks ≤ n)
    (hfront : Frontier slots work marks) :
    (∀ h ∈ work, (∃ o, slots[h.slot]? = some (some o)) →
      (markFrom slots n work marks).2.get h.slot = true) ∧
    Frontier slots [] (markFrom slots n work marks).2 := by
  induction n generalizing work marks with
  | zero =>
    have hwork : work = [] := List.length_eq_zero_iff.mp (by unfold markMeasure at hn; omega)
    subst hwork
    exact ⟨by simp, hfront⟩
  | succ n ih =>
    cases work with
    | nil => exact ⟨by simp, hfront⟩
    | cons h work =>
      rcases markFrom_cons slots h work marks with ⟨hseen, heq⟩ | ⟨o, ho, hnew, heq⟩
      · rw [heq]
        have hsteps : markMeasure slots work marks ≤ n := by
          simp only [markMeasure, List.length_cons] at hn ⊢
          omega
        obtain ⟨hdone, hclosed⟩ := ih hfit hsteps (hfront.pop hseen)
        refine ⟨fun k hk hocc => ?_, hclosed⟩
        rcases List.mem_cons.mp hk with rfl | hk
        · obtain ⟨o, ho⟩ := hocc
          exact get_markFrom_of_get hfit (hseen o ho)
        · exact hdone k hk hocc
      · rw [heq]
        have hless := markMeasure_new work hfit ho hnew
        have hfit' := hfit.testAndSet h.slot
        obtain ⟨hdone, hclosed⟩ := ih hfit' (by omega) (hfront.testAndSet hfit ho)
        refine ⟨fun k hk hocc => ?_, hclosed⟩
        rcases List.mem_cons.mp hk with rfl | hk
        · exact get_markFrom_of_get hfit' ((get_testAndSet_of_occupied hfit ho _).mpr (.inl rfl))
        · exact hdone k (List.mem_append_right _ hk) hocc

end Marking

/-- No slot is marked, and there is a mark for each. -/
def Unmarked (heap : Heap) : Prop := heap.marks = Marks.empty heap.capacity

theorem Unmarked.fits {heap : Heap} (h : heap.Unmarked) : Fits heap.slots heap.marks := by
  rw [Fits, h]
  simp [Marks.empty, capacity]

/-- The measure of a collection is within the bound on its steps. -/
theorem markMeasure_le_markBound (slots : Array (Option Object)) (work : List Handle)
    (marks : Marks) : markMeasure slots work marks ≤ markBound slots work := by
  have hcard := card_unmarked_le slots marks
  simp only [markMeasure, markBound]
  omega

/-- Marking finds exactly the occupied slots that the empty list and the roots reach. -/
theorem get_mark_iff {heap : Heap} (hclear : heap.Unmarked) (roots : List Handle) {i : ℕ} {o : Object}
    (ho : heap.slot? i = some o) :
    (heap.mark roots).get i = true ↔ ∃ h, heap.Reaches (.nil :: roots) h ∧ h.slot = i := by
  have hfit := hclear.fits
  have hnone : ∀ j, heap.marks.get j = false := by
    intro j
    rw [hclear, Marks.get_empty]
  constructor
  · intro hi
    have hpass : ∀ h o, heap.Reaches (.nil :: roots) h → heap.slots[h.slot]? = some (some o) →
        ∀ k ∈ o.references, heap.Reaches (.nil :: roots) k :=
      fun h o hh ho k hk => .reference hh (get?_eq_some_iff.mpr ho) hk
    rcases of_get_markFrom hfit (fun h hh => Reaches.root hh) hpass hi with hold | hreach
    · rw [hnone] at hold
      cases hold
    · exact hreach
  · rintro ⟨h, hreach, rfl⟩
    have hfront : Frontier heap.slots (.nil :: roots) heap.marks := by
      intro j _ hj
      rw [hnone] at hj
      cases hj
    obtain ⟨hroots, hclosed⟩ :=
      frontier_markFrom hfit (markMeasure_le_markBound _ (.nil :: roots) _) hfront
    -- what is on the way to an occupied slot is occupied itself, so the marks follow the path
    have hmarked : ∀ k, heap.Reaches (.nil :: roots) k →
        (∃ o, heap.slots[k.slot]? = some (some o)) → (heap.mark roots).get k.slot = true := by
      intro k hk
      induction hk with
      | root hmem => exact hroots _ hmem
      | reference _ ho hk ih =>
        intro hocc
        have ho := get?_eq_some_iff.mp ho
        rcases hclosed _ _ (ih ⟨_, ho⟩) ho _ hk hocc with hmark | hmem
        · exact hmark
        · cases hmem
    exact hmarked h hreach ⟨o, slot?_eq_some_iff.mp ho⟩

/-! ## Sweeping -/

theorem slot?_collect (heap : Heap) (roots : List Handle) (i : ℕ) :
    (heap.collect roots).2.slot? i = if (heap.mark roots).get i then heap.slot? i else none := by
  by_cases hi : i < heap.slots.size
  · simp [collect, sweep, slot?, hi]
  · simp [collect, sweep, slot?, hi]

theorem cell_collect (heap : Heap) (roots : List Handle) (i : ℕ) :
    (heap.collect roots).2.cell i = if (heap.mark roots).get i then heap.cell i else .vacant := by
  by_cases hi : i < heap.cells.size
  · simp [collect, sweepCells, cell, hi]
  · simp [collect, sweepCells, cell, hi]

/-- What is there after a collection was there before. -/
theorem get?_of_collect {heap : Heap} {roots : List Handle} {h : Handle} {o : Object}
    (ho : (heap.collect roots).2.get? h = some o) : heap.get? h = some o := by
  rw [get?, slot?_collect] at ho
  split at ho
  · exact ho
  · cases ho

/-- The occupied slots. -/
def occupiedSlots (heap : Heap) : Finset ℕ := {i ∈ Finset.range heap.capacity | (heap.slot? i).isSome}

theorem countP_eq_card (p : Option Object → Bool) (l : List (Option Object)) :
    l.countP p = (Finset.filter (fun i => (l[i]?.map p).getD false) (Finset.range l.length)).card := by
  induction l using List.reverseRecOn with
  | nil => rfl
  | append_singleton l a ih =>
    have hold : Finset.filter (fun i => (((l ++ [a])[i]?).map p).getD false) (Finset.range l.length) =
        Finset.filter (fun i => (l[i]?.map p).getD false) (Finset.range l.length) := by
      apply Finset.filter_congr
      intro i hi
      rw [List.getElem?_append_left (Finset.mem_range.mp hi)]
    rw [List.countP_append, ih, List.length_append, List.length_singleton, Finset.range_add_one,
      Finset.filter_insert, hold]
    cases hp : p a <;> simp [hp]

/-- The count of occupied slots. -/
theorem occupied_eq_card (heap : Heap) : occupied heap.slots = heap.occupiedSlots.card := by
  rw [occupied, ← Array.countP_toList, countP_eq_card, occupiedSlots]
  congr 1
  apply Finset.filter_congr
  intro i hi
  have hi : i < heap.slots.size := by simpa using hi
  simp [slot?, hi]

theorem mem_occupiedSlots {heap : Heap} {i : ℕ} :
    i ∈ heap.occupiedSlots ↔ (heap.slot? i).isSome := by
  simp only [occupiedSlots, Finset.mem_filter, Finset.mem_range, and_iff_right_iff_imp]
  intro h
  obtain ⟨o, ho⟩ := Option.isSome_iff_exists.mp h
  exact lt_capacity_of_slot? ho

/-- A collection puts nothing into an empty slot. -/
theorem occupiedSlots_collect_subset (heap : Heap) (roots : List Handle) :
    (heap.collect roots).2.occupiedSlots ⊆ heap.occupiedSlots := by
  intro i
  rw [mem_occupiedSlots, mem_occupiedSlots, slot?_collect]
  split
  · exact id
  · simp

/-- The number a collection answers is that of the slots it emptied. -/
theorem fst_collect (heap : Heap) (roots : List Handle) :
    (heap.collect roots).1 = (heap.occupiedSlots \ (heap.collect roots).2.occupiedSlots).card := by
  have hfreed : (heap.collect roots).1 =
      occupied heap.slots - occupied (heap.collect roots).2.slots := rfl
  rw [hfreed, occupied_eq_card, occupied_eq_card,
    Finset.card_sdiff_of_subset (occupiedSlots_collect_subset heap roots)]

/-- A collection leaves no mark. -/
theorem Unmarked.collect {heap : Heap} (h : heap.Unmarked) (roots : List Handle) :
    (heap.collect roots).2.Unmarked := by
  have hsize : (heap.mark roots).size = heap.capacity := by
    rw [mark, size_markFrom, h]
    rfl
  have hfit : (heap.mark roots).words.size = Marks.wordsFor (heap.mark roots).size := by
    rw [hsize]
    exact fits_markFrom h.fits
  rw [Unmarked, capacity_collect, ← hsize]
  exact Marks.clear_eq_empty hfit

/-- A collection from roots turns a heap into another and frees a number of slots. -/
structure Collected (heap : Heap) (roots : List Handle) (freed : ℕ) (heap' : Heap) : Prop where
  /-- Marking ends because nothing is left on the worklist, within the bound on its steps; a higher
  bound makes no difference. -/
  ends : ∀ n, markBound heap.slots (.nil :: roots) ≤ n →
    markFrom heap.slots n (.nil :: roots) heap.marks = ([], heap.mark roots)
  /-- Occupied afterwards is what was occupied and is reached. -/
  isSome_slot?_iff : ∀ i, (heap'.slot? i).isSome ↔
    (heap.slot? i).isSome ∧ ∃ h, heap.Reaches (.nil :: roots) h ∧ h.slot = i
  /-- What survives is unchanged. -/
  slot?_eq : ∀ i o, heap'.slot? i = some o → heap.slot? i = some o
  /-- The count is that of the slots emptied. -/
  freed_eq : freed = (heap.occupiedSlots \ heap'.occupiedSlots).card
  /-- The number of live objects drops by the count. -/
  live_eq : heap'.live = heap.live - freed
  /-- It is the number of occupied slots if it was before, and then the count does not exceed it. -/
  live_eq_occupied : heap.live = occupied heap.slots →
    freed ≤ heap.live ∧ heap'.live = occupied heap'.slots
  collections_eq : heap'.stats.collections = heap.stats.collections + 1
  totalFreed_eq : heap'.stats.freed = heap.stats.freed + freed
  totalAllocated_eq : heap'.stats.allocated = heap.stats.allocated
  cursor_eq : heap'.cursor = heap.cursor
  capacity_eq : heap'.capacity = heap.capacity
  unmarked : heap'.Unmarked

/-- Every collection is exact, whatever the objects refer to and whatever the roots name. -/
theorem collected_collect (heap : Heap) (roots : List Handle) (hclear : heap.Unmarked) :
    Collected heap roots (heap.collect roots).1 (heap.collect roots).2 where
  ends n hn := by
    have hdone := fst_markFrom hclear.fits (markMeasure_le_markBound _ (.nil :: roots) _)
    rw [markFrom_eq_of_le hdone hn]
    exact Prod.ext hdone rfl
  isSome_slot?_iff i := by
    rw [slot?_collect]
    cases ho : heap.slot? i with
    | none => simp
    | some o =>
      have hmark := get_mark_iff hclear roots ho
      by_cases hi : (heap.mark roots).get i = true
      · simpa [hi] using hmark.mp hi
      · simpa [hi] using fun h hreach hslot => hi (hmark.mpr ⟨h, hreach, hslot⟩)
  slot?_eq i o ho := by
    rw [slot?_collect] at ho
    split at ho
    · exact ho
    · cases ho
  freed_eq := fst_collect heap roots
  live_eq := rfl
  live_eq_occupied hlive := by
    have hle := Finset.card_le_card (occupiedSlots_collect_subset heap roots)
    rw [← occupied_eq_card, ← occupied_eq_card] at hle
    have hfreed : (heap.collect roots).1 =
        occupied heap.slots - occupied (heap.collect roots).2.slots := rfl
    have hlive' : (heap.collect roots).2.live = heap.live - (heap.collect roots).1 := rfl
    omega
  collections_eq := rfl
  totalFreed_eq := rfl
  totalAllocated_eq := rfl
  cursor_eq := rfl
  capacity_eq := capacity_collect heap roots
  unmarked := hclear.collect roots

/-- A table with two objects that refer to each other and to no slot, one that refers to itself, and
an empty slot. -/
def tangled : Heap where
  slots := #[some .nil, some (.pair ⟨2⟩ ⟨1⟩), some (.closure ⟨1⟩ ⟨9⟩), some (.number 5), none,
    some (.pair ⟨5⟩ ⟨3⟩)]
  cells := .replicate 6 .vacant
  marks := Marks.empty 6
  cursor := 5
  live := 5
  stats := {}
  platform := {}

/-- From a root named twice, an empty slot and a handle beyond the table, the two slots that only the
self-referring pair leads to are freed. -/
theorem collected_tangled :
    tangled.Unmarked ∧ (tangled.collect [⟨1⟩, ⟨4⟩, ⟨77⟩, ⟨1⟩]).1 = 2 ∧
      Collected tangled [⟨1⟩, ⟨4⟩, ⟨77⟩, ⟨1⟩] (tangled.collect [⟨1⟩, ⟨4⟩, ⟨77⟩, ⟨1⟩]).1
        (tangled.collect [⟨1⟩, ⟨4⟩, ⟨77⟩, ⟨1⟩]).2 :=
  ⟨rfl, by decide, collected_collect tangled _ rfl⟩

end Heap

end PushLisp
