import PushLisp.Proofs.Terms
import PushLisp.Term.Printer

/-!
# Walks end or run in circles

Looking a name up, finding an atom, counting a list and writing a value out follow references under a
bound on their steps, which comes from the size of the table. The bound is never what decides: a walk
that ends within any number of steps ends within the bound and gives the same answer, for on its way it
meets no object twice. So the answers do not depend on the size of the table.

## Main definitions

* `Settles`: a bound is enough wherever some bound is.
* `Heap.Walk`: questions that follow one reference at a time.
* `Machine.Shallow`: values that are written out within a depth.

## Main statements

* `Heap.Walk.settles`: the bound of a walk is enough.
* `Machine.settles_lookup`, `Machine.settles_findAtom`, `Machine.settles_items`: the walks along lists.
* `Machine.settles_print`: writing a value out.
-/
namespace PushLisp

/-- If a question is answered within some number of steps then it is within the bound, and alike. -/
def Settles {α : Type} (f : ℕ → Except Stop α) (bound : ℕ) : Prop :=
  ∀ n, f n ≠ .error .unfinished → f bound = f n

/-- What holds of a number and not of zero begins to hold somewhere. -/
theorem exists_first {P : ℕ → Prop} {n : ℕ} (hzero : ¬ P 0) (hn : P n) :
    ∃ j < n, ¬ P j ∧ P (j + 1) := by
  induction n with
  | zero => exact absurd hn hzero
  | succ n ih =>
    by_cases hbefore : P n
    · obtain ⟨j, hj, hfirst⟩ := ih hbefore
      exact ⟨j, by omega, hfirst⟩
    · exact ⟨n, by omega, hbefore, hn⟩

namespace Heap

/-- A question about a handle that is answered at once, or by the answer for another handle, which the
object named leads to. -/
structure Walk {α : Type} (heap : Heap) (f : ℕ → Handle → Except Stop α) : Prop where
  zero : ∀ h, f 0 h = .error .unfinished
  succ : ∀ h, (∃ r, r ≠ .error .unfinished ∧ ∀ n, f (n + 1) h = r) ∨
    ∃ o, heap.get? h = some o ∧ ∃ k ∈ o.references, ∃ post : Except Stop α → Except Stop α,
      (∀ r, post r = .error .unfinished ↔ r = .error .unfinished) ∧ ∀ n, f (n + 1) h = post (f n k)

namespace Walk

variable {α : Type} {heap : Heap} {f : ℕ → Handle → Except Stop α}

/-- More steps than are needed make no difference. -/
theorem add_eq (W : heap.Walk f) {n : ℕ} {h : Handle} (hn : f n h ≠ .error .unfinished) (j : ℕ) :
    f (n + j) h = f n h := by
  induction n generalizing h with
  | zero => exact absurd (W.zero h) hn
  | succ n ih =>
    rw [Nat.add_right_comm]
    rcases W.succ h with ⟨r, -, hr⟩ | ⟨-, -, k, -, post, hpost, hk⟩
    · rw [hr, hr]
    · rw [hk, hk, ih]
      rwa [hk, Ne, hpost] at hn

theorem eq_of_le (W : heap.Walk f) {n k : ℕ} {h : Handle} (hn : f n h ≠ .error .unfinished)
    (hle : n ≤ k) : f k h = f n h := by
  obtain ⟨j, rfl⟩ := Nat.exists_eq_add_of_le hle
  exact W.add_eq hn j

/-- The handles that are met have ever fewer steps to go, so they are different. -/
theorem steps_le_capacity (W : heap.Walk f) {n : ℕ} {h : Handle} (hn : f n h = .error .unfinished)
    (hsucc : f (n + 1) h ≠ .error .unfinished) : n ≤ heap.capacity := by
  refine rank_le_capacity
    (R := fun h n => f n h = .error .unfinished ∧ f (n + 1) h ≠ .error .unfinished) ?_ ?_ ⟨hn, hsucc⟩
  · intro h a b ha hb
    by_contra hne
    rcases Nat.lt_or_gt_of_ne hne with hlt | hlt
    · exact ha.2 ((W.eq_of_le ha.2 hlt).symm.trans hb.1)
    · exact hb.2 ((W.eq_of_le hb.2 hlt).symm.trans ha.1)
  · intro h n hrank
    rcases W.succ h with ⟨r, hr, hall⟩ | ⟨o, ho, k, -, post, hpost, hk⟩
    · exact absurd ((hall n).symm.trans hrank.1) hr
    · rw [hk, hk, Ne, hpost, hpost] at hrank
      exact ⟨Option.isSome_of_eq_some ho, .inr ⟨k, hrank⟩⟩

/-- A bound above the number of slots is enough. -/
theorem settles (W : heap.Walk f) (h : Handle) {bound : ℕ} (hbound : heap.capacity < bound) :
    Settles (f · h) bound := by
  intro n hn
  obtain ⟨j, hj, hbefore, hfirst⟩ :=
    exists_first (P := (f · h ≠ .error .unfinished)) (not_not.mpr (W.zero h)) hn
  have hle := W.steps_le_capacity (not_not.mp hbefore) hfirst
  show f bound h = f n h
  rw [W.eq_of_le hfirst (by omega : j + 1 ≤ bound), W.eq_of_le hfirst hj]

/-- All bounds above the number of slots are alike. -/
theorem eq_of_capacity_lt (W : heap.Walk f) (h : Handle) {a b : ℕ} (ha : heap.capacity < a)
    (hb : heap.capacity < b) : f a h = f b h := by
  by_cases hcut : f b h = .error .unfinished
  · by_contra hne
    have hsettled : f b h = f a h := W.settles h hb a fun hcut' => hne (hcut'.trans hcut.symm)
    exact hne hsettled.symm
  · exact W.settles h ha b hcut

end Walk

end Heap

namespace Machine

variable {m : Machine}

/-! ## Walks along lists -/

theorem car_ne_unfinished (h : Handle) (m : Machine) : car h m ≠ .error .unfinished := by
  unfold car
  split <;> simp [mismatch]

theorem cdr_ne_unfinished (h : Handle) (m : Machine) : cdr h m ≠ .error .unfinished := by
  unfold cdr
  split <;> simp [mismatch]

/-- What has a component is a pair. -/
theorem exists_pair_of_car {h a : Handle} (hcar : car h m = .ok a) :
    ∃ d, m.object? h = some (.pair a d) := by
  unfold car at hcar
  split at hcar
  · rename_i d ho
    cases hcar
    exact ⟨d, ho⟩
  · cases hcar

theorem walk_lookupFrom (m : Machine) (key : Handle) (name : Bytes) :
    m.heap.Walk (lookupFrom m key name) where
  zero _ := rfl
  succ env := by
    by_cases hnil : env.isNil = true
    · refine .inl ⟨.error (.fault (.unbound name)), nofun, fun n => ?_⟩
      rw [lookupFrom, if_pos hnil]
    cases hcar : car env m with
    | error reason =>
      refine .inl ⟨.error reason, hcar ▸ car_ne_unfinished env m, fun n => ?_⟩
      rw [lookupFrom, if_neg hnil, hcar]
      rfl
    | ok binding =>
      obtain ⟨rest, ho⟩ := exists_pair_of_car hcar
      cases hkey : car binding m with
      | error reason =>
        refine .inl ⟨.error reason, hkey ▸ car_ne_unfinished binding m, fun n => ?_⟩
        simp only [lookupFrom, if_neg hnil, hcar, hkey, bind, Except.bind]
      | ok found =>
        by_cases hfound : found = key
        · refine .inl ⟨cdr binding m, cdr_ne_unfinished binding m, fun n => ?_⟩
          simp only [lookupFrom, if_neg hnil, hcar, hkey, bind, Except.bind, if_pos hfound]
        · refine .inr ⟨_, ho, rest, by simp [Object.references], id, fun _ => Iff.rfl, fun n => ?_⟩
          have hcdr : cdr env m = .ok rest := by simp only [cdr, ho]
          simp only [lookupFrom, if_neg hnil, hcar, hkey, hcdr, bind, Except.bind, if_neg hfound, id]

theorem walk_findAtomFrom (m : Machine) (spelling : Bytes) :
    m.heap.Walk (findAtomFrom m spelling) where
  zero _ := rfl
  succ list := by
    by_cases hpair : ∃ atom rest, m.object? list = some (.pair atom rest)
    · obtain ⟨atom, rest, ho⟩ := hpair
      by_cases hatom : m.atom? atom = some spelling
      · refine .inl ⟨.ok (some atom), by simp, fun n => ?_⟩
        simp only [findAtomFrom, ho, if_pos hatom]
      · refine .inr ⟨_, ho, rest, by simp [Object.references], id, fun _ => Iff.rfl, fun n => ?_⟩
        simp only [findAtomFrom, ho, if_neg hatom, id]
    · refine .inl ⟨.ok none, by simp, fun n => ?_⟩
      rw [findAtomFrom]
      split
      · rename_i atom rest ho
        exact absurd ⟨atom, rest, ho⟩ hpair
      · rfl

theorem walk_globalFrom (m : Machine) (name : Bytes) : m.heap.Walk (globalFrom m name) where
  zero _ := rfl
  succ env := by
    by_cases hpair : ∃ binding rest, m.object? env = some (.pair binding rest)
    · obtain ⟨binding, rest, ho⟩ := hpair
      have hnext : (∀ n, globalFrom m name (n + 1) env = globalFrom m name n rest) →
          ∃ o, m.heap.get? env = some o ∧ ∃ k ∈ o.references,
            ∃ post : Except Stop (Option Handle) → Except Stop (Option Handle),
              (∀ r, post r = .error .unfinished ↔ r = .error .unfinished) ∧
                ∀ n, globalFrom m name (n + 1) env = post (globalFrom m name n k) := fun hall =>
        ⟨_, ho, rest, by simp [Object.references], id, fun _ => Iff.rfl, hall⟩
      by_cases hbound : ∃ key value, m.object? binding = some (.pair key value)
      · obtain ⟨key, value, hbinding⟩ := hbound
        by_cases hkey : m.atom? key = some name
        · refine .inl ⟨.ok (some value), by simp, fun n => ?_⟩
          simp only [globalFrom, ho, hbinding, if_pos hkey]
        · refine .inr (hnext fun n => ?_)
          simp only [globalFrom, ho, hbinding, if_neg hkey]
      · refine .inr (hnext fun n => ?_)
        simp only [globalFrom, ho]
        split
        · rename_i key value hbinding
          exact absurd ⟨key, value, hbinding⟩ hbound
        · rfl
    · refine .inl ⟨.ok none, by simp, fun n => ?_⟩
      rw [globalFrom]
      split
      · rename_i binding rest ho
        exact absurd ⟨binding, rest, ho⟩ hpair
      · rfl

/-- The values met before come before those still to be met. -/
theorem itemsFrom_append (n : ℕ) (list : Handle) (met : List Handle) :
    itemsFrom m n list met = (itemsFrom m n list []).map (met.reverse ++ ·) := by
  induction n generalizing list met with
  | zero => rfl
  | succ n ih =>
    simp only [itemsFrom]
    split
    · rename_i car cdr ho
      rw [ih cdr (car :: met), ih cdr [car]]
      cases itemsFrom m n cdr [] <;> simp [Except.map]
    · simp [Except.map]

theorem walk_itemsFrom (m : Machine) : m.heap.Walk fun n list => itemsFrom m n list [] where
  zero _ := rfl
  succ list := by
    by_cases hpair : ∃ car cdr, m.object? list = some (.pair car cdr)
    · obtain ⟨car, cdr, ho⟩ := hpair
      refine .inr ⟨_, ho, cdr, by simp [Object.references], Except.map (car :: ·), fun r => ?_, fun n => ?_⟩
      · cases r <;> simp [Except.map]
      · simp only [itemsFrom, ho]
        rw [itemsFrom_append]
        rfl
    · refine .inl ⟨.ok [], by simp, fun n => ?_⟩
      simp only [itemsFrom]
      split
      · rename_i car cdr ho
        exact absurd ⟨car, cdr, ho⟩ hpair
      · rfl

theorem capacity_lt_walkBound (m : Machine) : m.heap.capacity < m.walkBound := by
  unfold walkBound
  omega

theorem settles_lookup (m : Machine) (env key : Handle) (name : Bytes) :
    Settles (lookupFrom m key name · env) m.walkBound :=
  (walk_lookupFrom m key name).settles env m.capacity_lt_walkBound

theorem settles_findAtom (m : Machine) (spelling : Bytes) (list : Handle) :
    Settles (findAtomFrom m spelling · list) m.walkBound :=
  (walk_findAtomFrom m spelling).settles list m.capacity_lt_walkBound

theorem settles_items (m : Machine) (list : Handle) :
    Settles (fun n => itemsFrom m n list []) m.walkBound :=
  (walk_itemsFrom m).settles list m.capacity_lt_walkBound

end Machine

/-- The references that are followed when an object is written out. -/
def Object.shown : Object → List Handle
  | .pair car cdr => [car, cdr]
  | .closure body _ => [body]
  | _ => []

namespace Machine

variable {m : Machine}

/-! ## Steps of writing a value out -/

section Steps

variable {m : Machine} {h a d : Handle} {n : ℕ} {out : Array Bytes}

theorem printFrom_pair (ho : m.object? h = some (.pair a d)) :
    printFrom m (n + 1) h out =
      printFrom m n a (out.push (Bytes.ofString "(")) >>= printTailFrom m n d := by
  simp only [printFrom, ho]
  cases printFrom m n a _ <;> rfl

theorem printFrom_closure (ho : m.object? h = some (.closure a d)) :
    printFrom m (n + 1) h out =
      printFrom m n a (out.push (Bytes.ofString "CLOSURE<")) >>= fun out =>
        .ok (out.push (Bytes.ofString ", 0x" ++ Numeral.hex d.raw.toNat ++ Bytes.ofString ">")) := by
  simp only [printFrom, ho]
  cases printFrom m n a _ <;> rfl

theorem printTailFrom_pair (ho : m.object? h = some (.pair a d)) :
    printTailFrom m (n + 1) h out =
      printFrom m n a (out.push (Bytes.ofString " ")) >>= printTailFrom m n d := by
  simp only [printTailFrom, ho]
  cases printFrom m n a _ <;> rfl

/-- A tail that is neither the empty list nor a pair is written after a dot. -/
theorem printTailFrom_dot (hnil : m.kind? h ≠ some .nil) (hpair : m.kind? h ≠ some .pair) :
    printTailFrom m (n + 1) h out =
      printFrom m n h (out.push (Bytes.ofString " . ")) >>= fun out =>
        .ok (out.push (Bytes.ofString ")")) := by
  rw [printTailFrom]
  split
  · rename_i ho
    exact absurd (by simp only [kind?, ho, Option.map_some, Object.kind]) hnil
  · rename_i ho
    exact absurd (by simp only [kind?, ho, Option.map_some, Object.kind]) hpair
  · cases printFrom m n h _ <;> rfl

end Steps

/-! ## Writing values out -/

/-- Every way down from a value that is written out meets fewer objects than a number. -/
def Shallow (m : Machine) : ℕ → Handle → Prop
  | 0, _ => False
  | d + 1, h => ∀ o, m.object? h = some o → ∀ k ∈ o.shown, Shallow m d k

theorem Shallow.succ {d : ℕ} {h : Handle} (hd : m.Shallow d h) : m.Shallow (d + 1) h := by
  induction d generalizing h with
  | zero => exact hd.elim
  | succ d ih => exact fun o ho k hk => ih (hd o ho k hk)

theorem Shallow.of_le {d d' : ℕ} {h : Handle} (hd : m.Shallow d h) (hle : d ≤ d') : m.Shallow d' h := by
  induction hle with
  | refl => exact hd
  | step _ ih => exact ih.succ

/-- The handles on a way down have ever smaller depths, so no depth exceeds the number of slots. -/
theorem Shallow.of_capacity {d : ℕ} {h : Handle} (hd : m.Shallow d h) :
    m.Shallow (m.heap.capacity + 1) h := by
  obtain ⟨j, -, hbefore, hleast⟩ := exists_first (P := (m.Shallow · h)) id hd
  have hle : j ≤ m.heap.capacity := by
    refine Heap.rank_le_capacity (R := fun h n => m.Shallow (n + 1) h ∧ ¬ m.Shallow n h) ?_ ?_
      ⟨hleast, hbefore⟩
    · intro h a b ha hb
      by_contra hne
      rcases Nat.lt_or_gt_of_ne hne with hlt | hlt
      · exact hb.2 (ha.1.of_le hlt)
      · exact ha.2 (hb.1.of_le hlt)
    · rintro h n ⟨hdeep, hnot⟩
      simp only [Shallow, not_forall] at hnot
      obtain ⟨o, ho, k, hk, hnot⟩ := hnot
      exact ⟨Option.isSome_of_eq_some ho, .inr ⟨k, hdeep o ho k hk, hnot⟩⟩
  exact hleast.of_le (by omega)

/-- A value is a pair, a closure, or written out at once. -/
theorem print_one (m : Machine) (h : Handle) :
    (∃ a d, m.object? h = some (.pair a d)) ∨ (∃ b e, m.object? h = some (.closure b e)) ∨
      (∀ o, m.object? h = some o → o.shown = []) ∧
        ∃ piece, ∀ n out, printFrom m (n + 1) h out = .ok (out.push piece) := by
  cases ho : m.object? h with
  | none => exact .inr (.inr ⟨nofun, _, fun n out => by simp only [printFrom, ho]; rfl⟩)
  | some o =>
    cases o with
    | pair a d => exact .inl ⟨a, d, rfl⟩
    | closure b e => exact .inr (.inl ⟨b, e, rfl⟩)
    | _ =>
      refine .inr (.inr ⟨?_, _, fun n out => by simp only [printFrom, ho]; rfl⟩)
      rintro _ ⟨⟩
      rfl

/-- The tail of a list is its end, a pair, or written out after a dot. -/
theorem printTail_one (m : Machine) (h : Handle) (out : Array Bytes) :
    m.object? h = some .nil ∧
        (∀ n, printTailFrom m (n + 1) h out = .ok (out.push (Bytes.ofString ")"))) ∨
      (∃ a d, m.object? h = some (.pair a d)) ∨
      ∀ n, printTailFrom m (n + 1) h out =
        printFrom m n h (out.push (Bytes.ofString " . ")) >>= fun out =>
          .ok (out.push (Bytes.ofString ")")) := by
  by_cases hnil : m.object? h = some .nil
  · exact .inl ⟨hnil, fun n => by simp only [printTailFrom, hnil]⟩
  by_cases hpair : ∃ a d, m.object? h = some (.pair a d)
  · exact .inr (.inl hpair)
  · refine .inr (.inr fun n => ?_)
    rw [printTailFrom]
    split
    · contradiction
    · rename_i a d ho
      exact absurd ⟨a, d, ho⟩ hpair
    · cases printFrom m n h _ <;> rfl

theorem Shallow.of_pair {d : ℕ} {h a b : Handle} (ho : m.object? h = some (.pair a b))
    (ha : m.Shallow d a) (hb : m.Shallow d b) : m.Shallow (d + 1) h := by
  intro o ho' k hk
  cases ho.symm.trans ho'
  rcases List.mem_pair.mp hk with rfl | rfl
  · exact ha
  · exact hb

theorem Shallow.pair {d : ℕ} {h a b : Handle} (hd : m.Shallow (d + 1) h)
    (ho : m.object? h = some (.pair a b)) : m.Shallow d a ∧ m.Shallow d b :=
  ⟨hd _ ho a (by simp [Object.shown]), hd _ ho b (by simp [Object.shown])⟩

/-- A value is written out within a bound only if it has a depth, and nothing else stops the writing. -/
theorem print_cases (n : ℕ) (h : Handle) (out : Array Bytes) :
    ((∃ text, printFrom m n h out = .ok text) ∧ m.Shallow n h ∨
        ∃ cut, printFrom m n h out = .error cut) ∧
      ((∃ text, printTailFrom m n h out = .ok text) ∧ m.Shallow n h ∨
        ∃ cut, printTailFrom m n h out = .error cut) := by
  induction n generalizing h out with
  | zero => exact ⟨.inr ⟨out, rfl⟩, .inr ⟨out, rfl⟩⟩
  | succ n ih =>
    -- a pair is written the same way in both places, but for the piece in front of it
    have hpair : ∀ {a d : Handle} (c : Bytes), m.object? h = some (.pair a d) →
        (∃ text, (printFrom m n a (out.push c) >>= printTailFrom m n d) = .ok text) ∧
            m.Shallow (n + 1) h ∨
          ∃ cut, (printFrom m n a (out.push c) >>= printTailFrom m n d) = .error cut := by
      intro a d c ho
      rcases (ih a (out.push c)).1 with ⟨⟨text, htext⟩, hcar⟩ | ⟨cut, hcut⟩
      · rw [htext]
        rcases (ih d text).2 with ⟨hwritten, hcdr⟩ | hcut
        · exact .inl ⟨hwritten, .of_pair ho hcar hcdr⟩
        · exact .inr hcut
      · rw [hcut]
        exact .inr ⟨cut, rfl⟩
    constructor
    · rcases print_one m h with ⟨a, d, ho⟩ | ⟨b, e, ho⟩ | ⟨hleaf, hwritten⟩
      · rw [printFrom_pair ho]
        exact hpair _ ho
      · rw [printFrom_closure ho]
        rcases (ih b (out.push (Bytes.ofString "CLOSURE<"))).1 with ⟨⟨text, htext⟩, hbody⟩ | ⟨cut, hcut⟩
        · rw [htext]
          refine .inl ⟨⟨_, rfl⟩, fun o ho' k hk => ?_⟩
          cases ho.symm.trans ho'
          rw [List.mem_singleton.mp hk]
          exact hbody
        · rw [hcut]
          exact .inr ⟨cut, rfl⟩
      · obtain ⟨piece, hpiece⟩ := hwritten
        refine .inl ⟨⟨_, hpiece n out⟩, fun o ho k hk => ?_⟩
        rw [hleaf o ho] at hk
        cases hk
    · rcases printTail_one m h out with ⟨ho, hend⟩ | ⟨a, d, ho⟩ | hdot
      · refine .inl ⟨⟨_, hend n⟩, fun o ho' k hk => ?_⟩
        cases ho.symm.trans ho'
        cases hk
      · rw [printTailFrom_pair ho]
        exact hpair _ ho
      · rw [hdot]
        rcases (ih h (out.push (Bytes.ofString " . "))).1 with ⟨⟨text, htext⟩, hshallow⟩ | ⟨cut, hcut⟩
        · rw [htext]
          exact .inl ⟨⟨_, rfl⟩, hshallow.succ⟩
        · rw [hcut]
          exact .inr ⟨cut, rfl⟩

/-- The bound makes no difference once it is twice the depth: a last tail other than the empty list is
met once as a tail and once as a value. -/
theorem print_eq_of_shallow {d : ℕ} {h : Handle} (hd : m.Shallow d h) (out : Array Bytes) :
    (∀ n k, 2 * d ≤ n → 2 * d ≤ k → printFrom m n h out = printFrom m k h out) ∧
      ∀ n k, 2 * d < n → 2 * d < k → printTailFrom m n h out = printTailFrom m k h out := by
  induction d generalizing h out with
  | zero => exact hd.elim
  | succ d ih =>
    have hpair : ∀ {a b : Handle} (out : Array Bytes) (c : Bytes) (n k : ℕ),
        m.object? h = some (.pair a b) →
        2 * d < n → 2 * d < k →
        (printFrom m n a (out.push c) >>= printTailFrom m n b) =
          printFrom m k a (out.push c) >>= printTailFrom m k b := by
      intro a b out c n k ho hn hk
      obtain ⟨ha, hb⟩ := hd.pair ho
      rw [(ih ha (out.push c)).1 n k hn.le hk.le]
      congr 1
      funext text
      exact (ih hb text).2 n k hn hk
    have hfrom : ∀ out n k, 2 * d < n → 2 * d < k →
        printFrom m (n + 1) h out = printFrom m (k + 1) h out := by
      intro out n k hn hk
      rcases print_one m h with ⟨a, b, ho⟩ | ⟨b, e, ho⟩ | ⟨-, hwritten⟩
      · rw [printFrom_pair ho, printFrom_pair ho]
        exact hpair out _ n k ho hn hk
      · rw [printFrom_closure ho, printFrom_closure ho,
          (ih (hd _ ho b (by simp [Object.shown])) _).1 n k hn.le hk.le]
      · obtain ⟨piece, hpiece⟩ := hwritten
        rw [hpiece, hpiece]
    constructor
    · intro n k hn hk
      obtain ⟨n, rfl⟩ := Nat.exists_eq_add_of_lt (show 0 < n by omega)
      obtain ⟨k, rfl⟩ := Nat.exists_eq_add_of_lt (show 0 < k by omega)
      exact hfrom out _ _ (by omega) (by omega)
    · intro n k hn hk
      obtain ⟨n, rfl⟩ := Nat.exists_eq_add_of_lt (show 1 < n by omega)
      obtain ⟨k, rfl⟩ := Nat.exists_eq_add_of_lt (show 1 < k by omega)
      rcases printTail_one m h out with ⟨-, hend⟩ | ⟨a, b, ho⟩ | hdot
      · rw [hend, hend]
      · rw [printTailFrom_pair ho, printTailFrom_pair ho]
        exact hpair out _ _ _ ho (by omega) (by omega)
      · rw [hdot, hdot, Nat.add_comm 1 n, Nat.add_comm 1 k, hfrom _ n k (by omega) (by omega)]

/-- More steps than are needed make no difference. -/
theorem print_succ {n : ℕ} {h : Handle} {out text : Array Bytes} :
    (printFrom m n h out = .ok text → printFrom m (n + 1) h out = .ok text) ∧
      (printTailFrom m n h out = .ok text → printTailFrom m (n + 1) h out = .ok text) := by
  induction n generalizing h out text with
  | zero => exact ⟨nofun, nofun⟩
  | succ n ih =>
    have hbind : ∀ {k : Handle} {out' : Array Bytes}
        {f g : Array Bytes → Except (Array Bytes) (Array Bytes)},
        (∀ out, f out = .ok text → g out = .ok text) →
        (printFrom m n k out' >>= f) = .ok text → (printFrom m (n + 1) k out' >>= g) = .ok text := by
      intro k out' f g hnext hdone
      cases hfirst : printFrom m n k out' with
      | error cut =>
        rw [hfirst] at hdone
        cases hdone
      | ok first =>
        rw [ih.1 hfirst]
        rw [hfirst] at hdone
        exact hnext first hdone
    constructor
    · rcases print_one m h with ⟨a, d, ho⟩ | ⟨b, e, ho⟩ | ⟨-, hwritten⟩
      · rw [printFrom_pair ho, printFrom_pair ho]
        exact hbind fun _ => ih.2
      · rw [printFrom_closure ho, printFrom_closure ho]
        exact hbind fun _ => id
      · obtain ⟨piece, hpiece⟩ := hwritten
        rw [hpiece, hpiece]
        exact id
    · rcases printTail_one m h out with ⟨-, hend⟩ | ⟨a, d, ho⟩ | hdot
      · rw [hend, hend]
        exact id
      · rw [printTailFrom_pair ho, printTailFrom_pair ho]
        exact hbind fun _ => ih.2
      · rw [hdot, hdot]
        exact hbind fun _ => id

theorem print_of_le {n k : ℕ} {h : Handle} {out text : Array Bytes}
    (htext : printFrom m n h out = .ok text) (hle : n ≤ k) : printFrom m k h out = .ok text := by
  induction hle with
  | refl => exact htext
  | step _ ih => exact print_succ.1 ih

theorem piecesWithin_of_ok {n : ℕ} {h : Handle} {text : Array Bytes}
    (htext : printFrom m n h #[] = .ok text) : m.piecesWithin n h = .ok text := by
  simp only [piecesWithin, htext]

/-- A value is written out within a bound, or its pieces are not all reached. -/
theorem piecesWithin_cases (m : Machine) (n : ℕ) (h : Handle) :
    (∃ text, printFrom m n h #[] = .ok text ∧ m.piecesWithin n h = .ok text ∧ m.Shallow n h) ∨
      ∃ cut, printFrom m n h #[] = .error cut ∧ m.piecesWithin n h = .error .unfinished := by
  rcases (print_cases (m := m) n h #[]).1 with ⟨⟨text, htext⟩, hshallow⟩ | ⟨cut, hcut⟩
  · exact .inl ⟨text, htext, piecesWithin_of_ok htext, hshallow⟩
  · exact .inr ⟨cut, hcut, by simp only [piecesWithin, hcut]⟩

/-- The bound on writing a value out is enough. -/
theorem settles_pieces (m : Machine) (h : Handle) : Settles (m.piecesWithin · h) m.printBound := by
  intro n hn
  rcases m.piecesWithin_cases n h with ⟨text, htext, hpieces, hshallow⟩ | ⟨cut, -, hcut⟩
  · have hbound : 2 * (m.heap.capacity + 1) ≤ m.printBound := by
      unfold printBound
      omega
    have heq := (print_eq_of_shallow hshallow.of_capacity #[]).1 m.printBound (n + m.printBound)
      hbound (by omega)
    rw [print_of_le htext (Nat.le_add_right n _)] at heq
    exact (piecesWithin_of_ok heq).trans hpieces.symm
  · exact absurd hcut hn

theorem pieces_cases (m : Machine) (h : Handle) :
    (∃ text, pieces h m = .ok text) ∨ pieces h m = .error .unfinished := by
  rcases m.piecesWithin_cases m.printBound h with ⟨text, -, htext, -⟩ | ⟨-, -, hcut⟩
  · exact .inl ⟨text, htext⟩
  · exact .inr hcut

/-- There is no other reason for a value not to be written out than that it has no end. -/
theorem textOf_error {h : Handle} {reason : Stop} (herror : textOf h m = .error reason) :
    reason = .unfinished := by
  rcases m.pieces_cases h with ⟨text, htext⟩ | hcut
  · simp [textOf, htext] at herror
  · simpa [textOf, hcut, eq_comm] using herror

theorem printout_error {h : Handle} {reason : Stop} (herror : printout h m = .error reason) :
    reason = .unfinished := by
  rcases m.pieces_cases h with ⟨text, htext⟩ | hcut
  · simp [printout, htext] at herror
  · cases hroom : m.sink.room? with
    | some room => simp [printout, hcut, hroom] at herror
    | none => simpa [printout, hcut, hroom, eq_comm] using herror

/-! ## Values without an end -/

/-- The number of bytes that pieces have together. -/
def extent (pieces : Array Bytes) : ℕ := pieces.toList.flatten.length

@[simp] theorem extent_push (out : Array Bytes) (piece : Bytes) :
    extent (out.push piece) = extent out + piece.length := by
  simp [extent]

/-- Pieces come after those that were there, and where the bound of `n` steps was reached there are at
least as many bytes more. -/
def Gains (n : ℕ) (out : Array Bytes) : Except (Array Bytes) (Array Bytes) → Prop
  | .ok text => extent out ≤ extent text
  | .error cut => extent out + n ≤ extent cut

theorem Gains.bind {n : ℕ} {out : Array Bytes} {piece : Bytes}
    {r : Except (Array Bytes) (Array Bytes)} {f : Array Bytes → Except (Array Bytes) (Array Bytes)}
    (hpiece : 1 ≤ piece.length) (hr : Gains n (out.push piece) r)
    (hf : ∀ text, Gains n text (f text)) : Gains (n + 1) out (r >>= f) := by
  cases r with
  | error cut =>
    rw [Gains, extent_push] at hr
    show extent out + (n + 1) ≤ extent cut
    omega
  | ok text =>
    rw [Gains, extent_push] at hr
    have hrest := hf text
    show Gains (n + 1) out (f text)
    cases hlast : f text with
    | error cut =>
      rw [hlast, Gains] at hrest
      show extent out + (n + 1) ≤ extent cut
      omega
    | ok last =>
      rw [hlast, Gains] at hrest
      show extent out ≤ extent last
      omega

/-- Every step on the way down writes at least one byte. -/
theorem gains_print (m : Machine) (n : ℕ) (h : Handle) (out : Array Bytes) :
    Gains n out (printFrom m n h out) ∧ Gains n out (printTailFrom m n h out) := by
  induction n generalizing h out with
  | zero => exact ⟨Nat.le_refl _, Nat.le_refl _⟩
  | succ n ih =>
    have hpush : ∀ {k : ℕ} (out : Array Bytes) (piece : Bytes), Gains k out (.ok (out.push piece)) := by
      intro k out piece
      rw [Gains, extent_push]
      omega
    constructor
    · rcases print_one m h with ⟨a, d, ho⟩ | ⟨b, e, ho⟩ | ⟨-, piece, hpiece⟩
      · rw [printFrom_pair ho]
        exact .bind (by decide) (ih a _).1 fun text => (ih d text).2
      · rw [printFrom_closure ho]
        exact .bind (by decide) (ih b _).1 fun text => hpush text _
      · rw [hpiece]
        exact hpush out piece
    · rcases printTail_one m h out with ⟨-, hend⟩ | ⟨a, d, ho⟩ | hdot
      · rw [hend]
        exact hpush out _
      · rw [printTailFrom_pair ho]
        exact .bind (by decide) (ih a _).1 fun text => (ih d text).2
      · rw [hdot]
        exact .bind (by decide) (ih h _).1 fun text => hpush text _

/-- A value without an end has as many bytes as one likes. -/
theorem le_extent_firstPieces {h : Handle} (hpieces : pieces h m = .error .unfinished) (n : ℕ) :
    n ≤ extent (m.firstPieces n h) := by
  have hcut : ∃ cut, printFrom m n h #[] = .error cut := by
    rcases m.piecesWithin_cases n h with ⟨text, -, htext, -⟩ | ⟨cut, hcut, -⟩
    · have hbound : pieces h m = m.piecesWithin n h := m.settles_pieces h n (by simp [htext])
      rw [htext, hpieces] at hbound
      cases hbound
    · exact ⟨cut, hcut⟩
  obtain ⟨cut, hcut⟩ := hcut
  have hgains := (m.gains_print n h #[]).1
  rw [hcut, Gains] at hgains
  rw [firstPieces, hcut]
  exact (Nat.le_add_left n _).trans hgains

end Machine

end PushLisp
