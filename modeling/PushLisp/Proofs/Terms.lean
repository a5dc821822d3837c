import PushLisp.Machine.Binding
import PushLisp.Proofs.Allocation

/-!
# Terms as trees

What a program reads and prints are trees, and a machine holds them as objects that refer to each other.
A handle unfolds to at most one tree. A tree that unfolds, and a list that ends, are never deeper or
longer than the table has slots: on the way down no handle is met twice. The bounds on walks along lists
and down trees are therefore never what ends them.

## Main definitions

* `Term`: the trees.
* `Heap.Spine`: a list that ends.
* `Heap.Unfolds`, `Heap.UnfoldsWith`: a handle stands for a tree, with atoms of a given kind.
* `Heap.Enrolled`: the atoms of a registry, with their spellings.

## Main statements

* `Heap.rank_le_capacity`: a descent along handles is no longer than the table.
* `Heap.UnfoldsWith.unique`, `Heap.UnfoldsWith.congr`: what an unfolding depends on.
* `Heap.UnfoldsWith.depth_le_capacity`: the depth of a tree that unfolds.
* `Machine.findAtom_of_enrolled`: looking for an atom in the registry.
-/
namespace PushLisp

/-- The tree that a value stands for. -/
inductive Term where
  /-- The empty list. -/
  | nil
  /-- A 64-bit integer. -/
  | number (value : Int64)
  /-- A symbol with its spelling. -/
  | atom (spelling : Bytes)
  /-- A string of bytes. -/
  | string (bytes : Bytes)
  /-- A pair of trees. -/
  | pair (car cdr : Term)
  deriving Repr, DecidableEq

namespace Term

/-- The proper list of some terms. -/
def list (ts : List Term) : Term := ts.foldr .pair .nil

@[simp] theorem list_nil : list [] = .nil := rfl

@[simp] theorem list_cons (t : Term) (ts : List Term) : list (t :: ts) = .pair t (list ts) := rfl

/-- The number of terms met on the longest way down. -/
def depth : Term → ℕ
  | .pair car cdr => max car.depth cdr.depth + 1
  | _ => 1

/-- The number of objects that a term may need, each atom with its entry in the registry. -/
def cost : Term → ℕ
  | .nil => 0
  | .number _ => 1
  | .atom _ => 2
  | .string _ => 1
  | .pair car cdr => car.cost + cdr.cost + 1

theorem cost_list_append (ts us : List Term) :
    (list (ts ++ us)).cost = (list ts).cost + (list us).cost := by
  induction ts with
  | nil => simp [cost]
  | cons t ts ih =>
    simp only [List.cons_append, list_cons, cost, ih]
    omega

end Term

namespace Heap

variable {heap : Heap}

/-- What is reached from handles that are reached is reached. -/
theorem Reaches.trans {roots roots' : List Handle} {h : Handle} (hh : heap.Reaches roots' h)
    (hroots : ∀ k ∈ roots', heap.Reaches roots k) : heap.Reaches roots h := by
  induction hh with
  | root hmem => exact hroots _ hmem
  | reference _ ho hk ih => exact .reference ih ho hk

/-- What is reached stays so as long as all of it is left alone. -/
theorem Reaches.congr {heap' : Heap} {roots : List Handle} {h : Handle} (hh : heap.Reaches roots h)
    (hkeep : ∀ {k o}, heap.Reaches roots k → heap.get? k = some o → heap'.get? k = some o) :
    heap'.Reaches roots h := by
  induction hh with
  | root hmem => exact .root hmem
  | reference hk ho href ih => exact .reference ih (hkeep hk ho) href

/-- There are no more handles that name objects than slots. -/
theorem length_le_capacity_of_nodup {hs : List Handle} (hnodup : hs.Nodup)
    (hlive : ∀ h ∈ hs, (heap.get? h).isSome) : hs.length ≤ heap.capacity := by
  have hslots : (hs.map Handle.slot).Nodup := hnodup.map fun _ _ => Handle.eq_of_slot_eq
  have hsub : (hs.map Handle.slot).toFinset ⊆ Finset.range heap.capacity := by
    intro i hi
    rw [List.mem_toFinset, List.mem_map] at hi
    obtain ⟨h, hh, rfl⟩ := hi
    obtain ⟨o, ho⟩ := Option.isSome_iff_exists.mp (hlive h hh)
    exact Finset.mem_range.mpr (slot_lt_capacity ho)
  calc
    hs.length = (hs.map Handle.slot).toFinset.card := by
      rw [List.toFinset_card_of_nodup hslots, List.length_map]
    _ ≤ (Finset.range heap.capacity).card := Finset.card_le_card hsub
    _ = heap.capacity := Finset.card_range _

/-- If each handle has one rank at most, and each rank above one leads to a handle of the next lower
rank, then no rank exceeds the number of slots. -/
theorem rank_le_capacity {R : Handle → ℕ → Prop} (hone : ∀ {h a b}, R h a → R h b → a = b)
    (hdown : ∀ {h n}, R h (n + 1) → (heap.get? h).isSome ∧ (n = 0 ∨ ∃ k, R k n)) {h : Handle} {n : ℕ}
    (hn : R h n) : n ≤ heap.capacity := by
  -- the way down is a list of different handles: each has a smaller rank than those before
  have hpath : ∀ n h, R h n → ∃ hs : List Handle, hs.length = n ∧ hs.Nodup ∧
      ∀ k ∈ hs, (heap.get? k).isSome ∧ ∃ a ≤ n, R k a := by
    intro n
    induction n with
    | zero =>
      intro h _
      exact ⟨[], rfl, List.nodup_nil, by simp⟩
    | succ n ih =>
      intro h hn
      obtain ⟨hlive, hrest⟩ := hdown hn
      rcases hrest with rfl | ⟨k, hk⟩
      · exact ⟨[h], rfl, List.nodup_singleton h, by simpa using ⟨hlive, 1, le_rfl, hn⟩⟩
      · obtain ⟨hs, hlen, hnodup, hall⟩ := ih k hk
        have hnew : h ∉ hs := by
          intro hmem
          obtain ⟨-, a, ha, hra⟩ := hall h hmem
          have := hone hn hra
          omega
        refine ⟨h :: hs, by rw [List.length_cons, hlen], List.nodup_cons.mpr ⟨hnew, hnodup⟩, ?_⟩
        intro j hj
        rcases List.mem_cons.mp hj with rfl | hj
        · exact ⟨hlive, n + 1, le_rfl, hn⟩
        · obtain ⟨hl, a, ha, hra⟩ := hall j hj
          exact ⟨hl, a, by omega, hra⟩
  obtain ⟨hs, hlen, hnodup, hall⟩ := hpath n h hn
  rw [← hlen]
  exact length_le_capacity_of_nodup hnodup fun k hk => (hall k hk).1

variable {heap' : Heap} {h : Handle}

/-! ## Lists -/

/-- A handle names a list of some values, which ends at the empty list. -/
inductive Spine (heap : Heap) : Handle → List Handle → Prop
  | nil : Spine heap .nil []
  | cons {h car cdr : Handle} {hs : List Handle} : heap.get? h = some (.pair car cdr) →
      Spine heap cdr hs → Spine heap h (car :: hs)

/-- A list is there as long as its pairs are. -/
theorem Spine.congr {hs : List Handle} (hspine : heap.Spine h hs)
    (hkeep : ∀ {k car cdr}, heap.Reaches [h] k → heap.get? k = some (.pair car cdr) →
      heap'.get? k = some (.pair car cdr)) : heap'.Spine h hs := by
  induction hspine with
  | nil => exact .nil
  | @cons h car cdr hs ho _ ih =>
    have hroot : heap.Reaches [h] h := .root (by simp)
    have hcdr : heap.Reaches [h] cdr := hroot.reference ho (by simp [Object.references])
    refine .cons (hkeep hroot ho) (ih fun hk hpair => hkeep (hk.trans ?_) hpair)
    simpa using hcdr

/-- The values of a list are reached from it. -/
theorem Spine.reaches {hs : List Handle} (hspine : heap.Spine h hs) : ∀ k ∈ hs, heap.Reaches [h] k := by
  induction hspine with
  | nil => simp
  | @cons h car cdr hs ho _ ih =>
    have hroot : heap.Reaches [h] h := .root (by simp)
    have hcdr : heap.Reaches [h] cdr := hroot.reference ho (by simp [Object.references])
    intro k hk
    rcases List.mem_cons.mp hk with rfl | hk
    · exact hroot.reference ho (by simp [Object.references])
    · exact (ih k hk).trans (by simpa using hcdr)

/-- A list has one sequence of values, as the empty list is no pair. -/
theorem Spine.unique {hs ks : List Handle} (hnil : heap.get? .nil = some .nil) (hhs : heap.Spine h hs)
    (hks : heap.Spine h ks) : hs = ks := by
  induction hhs generalizing ks with
  | nil =>
    cases hks with
    | nil => rfl
    | cons ho _ => cases hnil.symm.trans ho
  | cons ho _ ih =>
    cases hks with
    | nil => cases hnil.symm.trans ho
    | cons ho' hrest =>
      cases ho.symm.trans ho'
      rw [ih hrest]

/-- A list that ends is no longer than the table. -/
theorem Spine.length_le_capacity {hs : List Handle} (hnil : heap.get? .nil = some .nil)
    (hspine : heap.Spine h hs) : hs.length ≤ heap.capacity := by
  refine rank_le_capacity (R := fun k n => ∃ ks, heap.Spine k ks ∧ ks.length = n) ?_ ?_ ⟨hs, hspine, rfl⟩
  · rintro k a b ⟨ks, hks, rfl⟩ ⟨ks', hks', rfl⟩
    rw [hks.unique hnil hks']
  · rintro k n ⟨ks, hks, hlen⟩
    cases hks with
    | nil => cases hlen
    | @cons _ car cdr ks ho hrest =>
      rw [List.length_cons, Nat.add_right_cancel_iff] at hlen
      exact ⟨Option.isSome_of_eq_some ho, .inr ⟨cdr, ks, hrest, hlen⟩⟩

/-! ## Unfolding -/

/-- A handle stands for a tree, and each atom in it is `known` with its spelling. Strings that are windows
onto memory stand for none. -/
inductive UnfoldsWith (heap : Heap) (known : Handle → Bytes → Prop) : Handle → Term → Prop
  | nil {h : Handle} : heap.get? h = some .nil → UnfoldsWith heap known h .nil
  | number {h : Handle} {n : Int64} : heap.get? h = some (.number n) → UnfoldsWith heap known h (.number n)
  | atom {h : Handle} {s : Bytes} : heap.get? h = some (.atom s) → known h s →
      UnfoldsWith heap known h (.atom s)
  | string {h : Handle} {bytes : Array UInt8} : heap.get? h = some (.string (.owned bytes)) →
      UnfoldsWith heap known h (.string bytes.toList)
  | pair {h car cdr : Handle} {a d : Term} : heap.get? h = some (.pair car cdr) →
      UnfoldsWith heap known car a → UnfoldsWith heap known cdr d → UnfoldsWith heap known h (.pair a d)

/-- A handle stands for a tree. -/
abbrev Unfolds (heap : Heap) (h : Handle) (t : Term) : Prop := heap.UnfoldsWith (fun _ _ => True) h t

namespace UnfoldsWith

variable {known known' : Handle → Bytes → Prop} {t t' : Term}

/-- What unfolds is there. -/
theorem isSome (ht : heap.UnfoldsWith known h t) : (heap.get? h).isSome := by
  cases ht with
  | atom ho _ => exact Option.isSome_of_eq_some ho
  | _ ho => exact Option.isSome_of_eq_some ho

/-- A handle stands for one tree at most. -/
theorem unique (ht : heap.UnfoldsWith known h t) (ht' : heap.UnfoldsWith known' h t') : t = t' := by
  induction ht generalizing t' with
  | pair ho _ _ iha ihd =>
    cases ht' with
    | pair ho' ha hd =>
      cases ho.symm.trans ho'
      rw [iha ha, ihd hd]
    | atom ho' _ => cases ho.symm.trans ho'
    | _ ho' => cases ho.symm.trans ho'
  | atom ho _ =>
    cases ht' with
    | atom ho' _ => cases ho.symm.trans ho'; rfl
    | _ ho' => cases ho.symm.trans ho'
  | _ ho =>
    cases ht' with
    | atom ho' _ => cases ho.symm.trans ho'
    | _ ho' => cases ho.symm.trans ho' <;> rfl

/-- A handle stands for the same tree as long as what it leads to is there. -/
theorem congr (ht : heap.UnfoldsWith known h t)
    (hkeep : ∀ {k o}, heap.Reaches [h] k → heap.get? k = some o → heap'.get? k = some o)
    (hknown : ∀ {k s}, known k s → known' k s) : heap'.UnfoldsWith known' h t := by
  induction ht with
  | nil ho => exact .nil (hkeep (.root (by simp)) ho)
  | number ho => exact .number (hkeep (.root (by simp)) ho)
  | atom ho hs => exact .atom (hkeep (.root (by simp)) ho) (hknown hs)
  | string ho => exact .string (hkeep (.root (by simp)) ho)
  | @pair h car cdr a d ho _ _ iha ihd =>
    have hroot : heap.Reaches [h] h := .root (by simp)
    have hcar : heap.Reaches [h] car := hroot.reference ho (by simp [Object.references])
    have hcdr : heap.Reaches [h] cdr := hroot.reference ho (by simp [Object.references])
    refine .pair (hkeep hroot ho) (iha fun hk hok => hkeep (hk.trans ?_) hok)
      (ihd fun hk hok => hkeep (hk.trans ?_) hok)
    · simpa using hcar
    · simpa using hcdr

theorem unfolds (ht : heap.UnfoldsWith known h t) : heap.Unfolds h t :=
  ht.congr (fun _ ho => ho) fun _ => trivial

end UnfoldsWith

/-- A list of values that stand for trees stands for the list of the trees. -/
theorem Spine.unfoldsWith {known : Handle → Bytes → Prop} {hs : List Handle} {ts : List Term}
    (hnil : heap.get? .nil = some .nil) (hspine : heap.Spine h hs)
    (hts : List.Forall₂ (heap.UnfoldsWith known) hs ts) : heap.UnfoldsWith known h (.list ts) := by
  induction hspine generalizing ts with
  | nil =>
    cases hts
    exact .nil hnil
  | cons ho _ ih =>
    cases hts with
    | cons hcar hrest => exact .pair ho hcar (ih hrest)

/-! ## The registry -/

/-- A handle names the list of some atoms, whose spellings are all different. -/
structure Enrolled (heap : Heap) (registry : Handle) (entries : List (Handle × Bytes)) : Prop where
  spine : heap.Spine registry (entries.map Prod.fst)
  atom : ∀ e ∈ entries, heap.get? e.1 = some (.atom e.2)
  nodup : (entries.map Prod.snd).Nodup

/-- A registry is there as long as its pairs and atoms are. -/
theorem Enrolled.congr {registry : Handle} {entries : List (Handle × Bytes)}
    (henrolled : heap.Enrolled registry entries)
    (hkeep : ∀ {k o}, heap.Reaches [registry] k → heap.get? k = some o → o.kind ≠ .string →
      heap'.get? k = some o) : heap'.Enrolled registry entries where
  spine := henrolled.spine.congr fun hk ho => hkeep hk ho (by simp [Object.kind])
  atom e he :=
    hkeep (henrolled.spine.reaches e.1 (List.mem_map_of_mem he)) (henrolled.atom e he) (by simp [Object.kind])
  nodup := henrolled.nodup

/-- A registry has one sequence of entries. -/
theorem Enrolled.unique {registry : Handle} {entries entries' : List (Handle × Bytes)}
    (hnil : heap.get? .nil = some .nil) (henrolled : heap.Enrolled registry entries)
    (henrolled' : heap.Enrolled registry entries') : entries = entries' := by
  have hfst := henrolled.spine.unique hnil henrolled'.spine
  have hatom := henrolled.atom
  have hatom' := henrolled'.atom
  clear henrolled henrolled'
  induction entries generalizing entries' with
  | nil => exact (List.map_eq_nil_iff.mp hfst.symm).symm
  | cons e entries ih =>
    cases entries' with
    | nil => simp at hfst
    | cons e' entries' =>
      rw [List.map_cons, List.map_cons, List.cons.injEq] at hfst
      rw [List.forall_mem_cons] at hatom hatom'
      have hspelling := hatom.1
      rw [hfst.1, hatom'.1, Option.some_inj, Object.atom.injEq] at hspelling
      rw [Prod.ext hfst.1 hspelling.symm, ih hfst.2 hatom.2 hatom'.2]

end Heap

namespace Machine

variable {m : Machine} {h : Handle} {spelling : Bytes} {entries : List (Handle × Bytes)}

theorem atom?_eq_some_iff : m.atom? h = some spelling ↔ m.object? h = some (.atom spelling) := by
  rw [atom?]
  cases m.object? h with
  | none => simp
  | some o => cases o <;> simp

theorem findAtomFrom_of_spine {n : ℕ} {hs : List Handle} (hnil : m.object? .nil = some .nil)
    (hspine : m.heap.Spine h hs) (hn : hs.length < n) :
    findAtomFrom m spelling n h = .ok (hs.find? fun k => m.atom? k = some spelling) := by
  induction hspine generalizing n with
  | nil =>
    obtain ⟨n, rfl⟩ : ∃ k, n = k + 1 := ⟨n - 1, by omega⟩
    simp [findAtomFrom, hnil]
  | @cons h car cdr hs ho _ ih =>
    obtain ⟨n, rfl⟩ : ∃ k, n = k + 1 := ⟨n - 1, by omega⟩
    rw [List.length_cons] at hn
    have ho : m.object? h = some (.pair car cdr) := ho
    have hrest := ih (n := n) (by omega)
    by_cases hcar : m.atom? car = some spelling
    · simp [findAtomFrom, ho, hcar]
    · simp [findAtomFrom, ho, hcar, hrest]

/-- Looking for an atom finds the entry with its spelling. -/
theorem findAtom_of_enrolled (hnil : m.object? .nil = some .nil)
    (henrolled : m.heap.Enrolled m.registers.registry entries) (spelling : Bytes) :
    findAtom spelling m = .ok ((entries.find? fun e => e.2 = spelling).map Prod.fst) := by
  have hlen := henrolled.spine.length_le_capacity hnil
  have hbound : (entries.map Prod.fst).length < m.walkBound := by
    simp only [walkBound]
    omega
  refine (findAtomFrom_of_spine hnil henrolled.spine hbound).trans (congrArg _ ?_)
  -- the handle of an entry names an atom of a spelling exactly if the entry has that spelling
  have hatom := henrolled.atom
  clear henrolled hlen hbound
  induction entries with
  | nil => rfl
  | cons e entries ih =>
    have he : m.atom? e.1 = some e.2 := atom?_eq_some_iff.mpr (hatom e List.mem_cons_self)
    have hrest := ih fun e' he' => hatom e' (List.mem_cons_of_mem e he')
    by_cases hs : e.2 = spelling
    · simp [he, hs]
    · simpa [he, hs] using hrest

/-! ## The value stack -/

/-- A list that ends has its values as items. -/
theorem itemsFrom_of_spine {n : ℕ} {hs : List Handle} (hnil : m.object? .nil = some .nil)
    (hspine : m.heap.Spine h hs) (hn : hs.length < n) (met : List Handle) :
    itemsFrom m n h met = .ok (met.reverse ++ hs) := by
  induction hspine generalizing n met with
  | nil =>
    obtain ⟨n, rfl⟩ : ∃ k, n = k + 1 := ⟨n - 1, by omega⟩
    simp [itemsFrom, hnil]
  | @cons h car cdr hs ho _ ih =>
    obtain ⟨n, rfl⟩ : ∃ k, n = k + 1 := ⟨n - 1, by omega⟩
    rw [List.length_cons] at hn
    have ho : m.object? h = some (.pair car cdr) := ho
    simp [itemsFrom, ho, ih (n := n) (by omega)]

theorem stackItems_of_spine {hs : List Handle} (hnil : m.object? .nil = some .nil)
    (hspine : m.heap.Spine m.registers.stack hs) : m.stackItems = .ok hs := by
  have hlen := hspine.length_le_capacity hnil
  apply itemsFrom_of_spine hnil hspine
  simp only [walkBound]
  omega

/-- Nothing can be popped off an empty stack. -/
theorem run_pop_of_nil (hempty : m.registers.stack = .nil) : pop m = .error (.fault .stackUnderflow) m := by
  have hnil : m.registers.stack.isNil = true := (Handle.isNil_iff _).mpr hempty
  have htry : tryPop m = .ok none m := by
    refine (Run.run_bind_of_ok (x := getRegisters) rfl).trans ?_
    dsimp only
    rw [if_pos hnil]
    rfl
  exact Run.run_bind_of_ok htry

/-- A value on top of the stack is popped. -/
theorem run_pop {value rest : Handle} (hnil : m.object? .nil = some .nil)
    (ho : m.object? m.registers.stack = some (.pair value rest)) :
    pop m = .ok value { m with registers := { m.registers with stack := rest } } := by
  have hne : ¬ m.registers.stack.isNil = true := by
    intro hempty
    rw [Handle.isNil_iff] at hempty
    rw [hempty] at ho
    cases hnil.symm.trans ho
  have hcar : (ask (car m.registers.stack)).run m = .ok value m := by simp only [ask, car, ho]
  have hcdr : (ask (cdr m.registers.stack)).run m = .ok rest m := by simp only [ask, cdr, ho]
  have htry : tryPop m = .ok (some value) { m with registers := { m.registers with stack := rest } } := by
    refine (Run.run_bind_of_ok (x := getRegisters) rfl).trans ?_
    dsimp only
    rw [if_neg hne]
    exact (Run.run_bind_of_ok hcar).trans (Run.run_bind_of_ok hcdr)
  exact Run.run_bind_of_ok htry

end Machine

end PushLisp
