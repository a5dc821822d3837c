import PushLisp.Proofs.Elementary
import PushLisp.Proofs.LexicalScope

/-!
# Objects refer to older ones

Without raw access an object can only refer to what was there when it was made. Slots are used again once
their objects are reclaimed, so the numbers of slots say nothing about age; but a slot is given to a new
object only while it is empty, and at that time nothing refers to it. Hence no object leads back to itself,
however often slots are reused, and whatever follows references comes to an end.

## Main definitions

* `Heap.Refers`: an object holds a reference.
* `Machine.Unknotted`: no object leads back to itself, and none gives raw access.

## Main statements

* `Heap.Walk.finishes`, `Machine.exists_textOf`: following references comes to an end.
* `Machine.wellFounded_place`, `Machine.invariant_unknotted`: what keeps objects from leading back to
  themselves.
* `Machine.reachable_wellFounded`: this is so in all states that operations lead to.
-/
namespace PushLisp

namespace Heap

variable {heap heap' : Heap}

/-- The object that the second handle names refers to the first. -/
def Refers (heap : Heap) (k h : Handle) : Prop := ∃ o, heap.get? h = some o ∧ k ∈ o.references

/-- Fewer references lead to no more circles. -/
theorem wellFounded_of_refers (hsub : ∀ {k h}, heap'.Refers k h → heap.Refers k h)
    (hwf : WellFounded heap.Refers) : WellFounded heap'.Refers :=
  Subrelation.wf hsub hwf

/-- A walk ends where no object leads back to itself. -/
theorem Walk.finishes {α : Type} {f : ℕ → Handle → Except Stop α} (W : heap.Walk f)
    (hwf : WellFounded heap.Refers) (h : Handle) {bound : ℕ} (hbound : heap.capacity < bound) :
    f bound h ≠ .error .unfinished := by
  have hends : ∃ n, f n h ≠ .error .unfinished := by
    induction h using hwf.induction with
    | h h ih =>
      rcases W.succ h with ⟨r, hr, hall⟩ | ⟨o, ho, k, hk, post, hpost, hall⟩
      · exact ⟨1, by rwa [hall 0]⟩
      · obtain ⟨n, hn⟩ := ih k ⟨o, ho, hk⟩
        exact ⟨n + 1, by rwa [hall, Ne, hpost]⟩
  obtain ⟨n, hn⟩ := hends
  have hbounded : f bound h = f n h := W.settles h hbound n hn
  rwa [hbounded]

end Heap

theorem Object.mem_references_of_mem_shown {o : Object} {k : Handle} (hk : k ∈ o.shown) :
    k ∈ o.references := by
  cases o with
  | pair car cdr => exact hk
  | closure body env => exact List.mem_cons.mpr (.inl (List.mem_singleton.mp hk))
  | _ => cases hk

namespace Machine

variable {m m' : Machine} {h : Handle}

/-! ## Following references comes to an end -/

/-- A value of some depth is written out within twice as many steps. -/
theorem print_of_shallow {d : ℕ} (hd : m.Shallow d h) (out : Array Bytes) :
    (∃ text, printFrom m (2 * d) h out = .ok text) ∧
      ∃ text, printTailFrom m (2 * d + 1) h out = .ok text := by
  induction d generalizing h out with
  | zero => exact hd.elim
  | succ d ih =>
    have hpair : ∀ {a b : Handle} (out : Array Bytes), m.object? h = some (.pair a b) →
        ∃ text, (printFrom m (2 * d + 1) a out >>= printTailFrom m (2 * d + 1) b) = .ok text := by
      intro a b out ho
      obtain ⟨ha, hb⟩ := hd.pair ho
      obtain ⟨text, htext⟩ := (ih ha out).1
      rw [print_of_le htext (by omega)]
      exact (ih hb text).2
    have hfrom : ∀ out, ∃ text, printFrom m (2 * d + 2) h out = .ok text := by
      intro out
      rcases print_one m h with ⟨a, b, ho⟩ | ⟨b, e, ho⟩ | ⟨-, hwritten⟩
      · rw [printFrom_pair ho]
        exact hpair _ ho
      · obtain ⟨text, htext⟩ :=
          (ih (hd _ ho b (by simp [Object.shown])) (out.push (Bytes.ofString "CLOSURE<"))).1
        rw [printFrom_closure ho, print_of_le htext (by omega)]
        exact ⟨_, rfl⟩
      · obtain ⟨piece, hpiece⟩ := hwritten
        exact ⟨_, hpiece _ out⟩
    refine ⟨hfrom out, ?_⟩
    rcases printTail_one m h out with ⟨-, hend⟩ | ⟨a, b, ho⟩ | hdot
    · exact ⟨_, hend _⟩
    · obtain ⟨text, htext⟩ := hpair (out.push (Bytes.ofString " ")) ho
      rw [← printTailFrom_pair ho] at htext
      exact ⟨text, print_succ.2 htext⟩
    · obtain ⟨text, htext⟩ := hfrom (out.push (Bytes.ofString " . "))
      exact ⟨_, by rw [hdot, show 2 * (d + 1) = 2 * d + 2 by omega, htext]; rfl⟩

/-- Where no object leads back to itself, every value has a depth. -/
theorem shallow_of_wellFounded (hwf : WellFounded m.heap.Refers) (h : Handle) :
    m.Shallow (m.heap.capacity + 1) h := by
  induction h using hwf.induction with
  | h h ih =>
    have hdeep : m.Shallow (m.heap.capacity + 2) h := fun o ho k hk =>
      ih k ⟨o, ho, Object.mem_references_of_mem_shown hk⟩
    exact hdeep.of_capacity

/-- Where no object leads back to itself, every value can be written out. -/
theorem exists_pieces (hwf : WellFounded m.heap.Refers) (h : Handle) : ∃ text, pieces h m = .ok text := by
  obtain ⟨⟨text, htext⟩, -⟩ := print_of_shallow (shallow_of_wellFounded hwf h) #[]
  refine ⟨text, piecesWithin_of_ok (print_of_le htext ?_)⟩
  unfold printBound
  omega

theorem exists_textOf (hwf : WellFounded m.heap.Refers) (h : Handle) : ∃ text, textOf h m = .ok text := by
  obtain ⟨text, htext⟩ := exists_pieces hwf h
  exact ⟨_, by rw [textOf, htext]⟩

theorem stackDepth_ne_unfinished (hwf : WellFounded m.heap.Refers) :
    stackDepth m ≠ .error .unfinished := by
  have hitems := (walk_itemsFrom m).finishes hwf m.registers.stack m.capacity_lt_walkBound
  unfold stackDepth
  split
  · simp
  · rename_i reason hreason
    rw [stackItems, items] at hreason
    rw [hreason] at hitems
    exact fun hstop => hitems (by cases hstop; rfl)

theorem lookup_ne_unfinished (hwf : WellFounded m.heap.Refers) (env key : Handle) :
    lookup env key m ≠ .error .unfinished := by
  unfold lookup
  split
  · simp [mismatch]
  · exact (walk_lookupFrom m key _).finishes hwf env m.capacity_lt_walkBound

/-! ## What keeps objects from leading back to themselves -/

/-- No object leads back to itself, and nothing has raw access to memory. -/
structure Unknotted (m : Machine) : Prop where
  wellFounded : WellFounded m.heap.Refers
  plain : ∀ {h o}, m.object? h = some o → o.Plain

/-- A new object refers to objects other than itself, and as yet nothing refers to it. -/
theorem wellFounded_place {i : ℕ} {o : Object} (hm : m.Sound) (hfree : m.heap.findFree? = some i)
    (ho : ∀ k ∈ o.references, m.Live k) (hwf : WellFounded m.heap.Refers) :
    WellFounded (m.heap.place i o).Refers := by
  have hget := Heap.get?_place hfree hm.capacity_le o
  have hnew : ∀ {k}, m.Live k → k ≠ .ofSlot i := by
    rintro k hk rfl
    simp [Live, object?, Heap.get?_ofSlot_of_findFree? hfree hm.capacity_le] at hk
  have hold : ∀ k, k ≠ .ofSlot i → Acc (m.heap.place i o).Refers k := by
    intro k
    induction k using hwf.induction with
    | h k ih =>
      intro hk
      constructor
      rintro j ⟨o', ho', hj⟩
      rw [hget, if_neg hk] at ho'
      exact ih j ⟨o', ho', hj⟩ (hnew (hm.live_of_mem_references ho' hj))
  constructor
  intro k
  by_cases hk : k = .ofSlot i
  · constructor
    rintro j ⟨o', ho', hj⟩
    rw [hget, if_pos hk, Option.some.injEq] at ho'
    subst ho'
    exact hold j (hnew (ho j hj))
  · exact hold k hk

theorem unknotted_place {i : ℕ} {o : Object} (hplain : o.Plain) (hfree : m.heap.findFree? = some i)
    (hsound : Moment.Sound ⟨.uses o.references, m⟩) (hm : m.Unknotted) :
    Unknotted { m with heap := m.heap.place i o } where
  wellFounded := wellFounded_place hsound.machine.sound hfree hsound.step hm.wellFounded
  plain {k o'} ho' := by
    rcases Heap.get?_of_place hfree ho' with rfl | hold
    · exact hplain
    · exact hm.plain hold

theorem Unknotted.collect (hm : m.Unknotted) (roots : List Handle) :
    Unknotted { m with heap := (m.heap.collect roots).2 } where
  wellFounded := by
    refine Heap.wellFounded_of_refers ?_ hm.wellFounded
    rintro k h ⟨o, ho, hk⟩
    exact ⟨o, Heap.get?_of_collect ho, hk⟩
  plain ho := hm.plain (Heap.get?_of_collect ho)

/-- A string refers to nothing, whatever its bytes are. -/
theorem Unknotted.putString {bytes bytes' : Array UInt8} (hm : m.Unknotted)
    (hh : m.object? h = some (.string (.owned bytes))) :
    Unknotted { m with heap := m.heap.put h (.string (.owned bytes')) } where
  wellFounded := by
    refine Heap.wellFounded_of_refers ?_ hm.wellFounded
    rintro k h' ⟨o, ho, hk⟩
    rcases object?_of_putString hh ho with ⟨-, rfl⟩ | hold
    · cases hk
    · exact ⟨o, hold, hk⟩
  plain ho := by
    rcases object?_of_putString hh ho with ⟨-, rfl⟩ | hold
    · trivial
    · exact hm.plain hold

theorem invariant_unknotted : Invariant True Moment.Sound Unknotted where
  congr hheap _ _ _ hm := by
    refine ⟨?_, fun ho => ?_⟩
    · rw [hheap]
      exact hm.wellFounded
    · rw [object?, hheap] at ho
      exact hm.plain ho
  place hplain := unknotted_place (hplain trivial)
  collect hm := hm.collect _

theorem compositional_unknotted : Compositional True (Regardless (Sustains Moment.Sound Unknotted)) :=
  invariant_unknotted.compositional_of_plain (fun hm ho => hm.plain ho) fun hh hm => hm.putString hh

/-! ## Reachable states -/

/-- There is nothing to refer to. -/
theorem unknotted_blank (slots : ℕ) (source : Bytes) (sink : Sink) (tracing : Bool) (platform : Platform) :
    (blank slots source sink tracing platform).Unknotted where
  wellFounded := by
    constructor
    intro h
    constructor
    rintro k ⟨o, ho, hk⟩
    rw [eq_nil_of_get?_new ho] at hk
    cases hk
  plain ho := by
    rw [eq_nil_of_get?_new ho]
    trivial

theorem unknotted_prepare (slots : UInt64) (source : Bytes) (sink : Sink) (tracing : Bool)
    (platform : Platform) :
    (after (prepare false) (blank slots.toNat source sink tracing platform)).Unknotted ∧
      ∀ t, (prepare false).passes (blank slots.toNat source sink tracing platform) t →
        t.machine.Unknotted := by
  have hprepare : Regardless (Sustains Moment.Sound Unknotted) Unit [] (prepare false)
      (blank slots.toNat source sink tracing platform) :=
    invariant_unknotted.elementary.prepare
      (fun _ _ => sustains_of_after (fun hm => ⟨hm.wellFounded, hm.plain⟩) fun _ ht =>
        congrArg Moment.machine ht) fun _ => rfl
  exact hprepare (safe_prepare slots source sink tracing platform).passes (unknotted_blank _ _ _ _ _)

theorem unknotted_of_reachable (hm : m.Reachable) : m.Unknotted := by
  have hact : ∀ {m} (op : Operation), Sustains Moment.Sound Unknotted op.act m := fun {m} op =>
    (compositional_unknotted.act op fun _ => trivial : Regardless _ Unit [] op.act m)
  have hsafe : ∀ {m} {op : Operation}, m.Reachable → op.Fits m → ∀ t, op.act.passes m t → t.Sound :=
    fun hm hfits => (safe_of_agree (agree_act _ hfits (reliable_of_reachable hm).intact) nofun).passes
  induction hm with
  | start slots source sink tracing platform => exact (unknotted_prepare slots source sink tracing platform).1
  | ended op hm hfits ih => exact (hact op (hsafe hm hfits) ih).1
  | during op hm hfits ht ih => exact (hact op (hsafe hm hfits) ih).2 _ ht
  | hold hs _ _ ih => exact ⟨ih.wellFounded, ih.plain⟩
  | release n _ ih => exact ⟨ih.wellFounded, ih.plain⟩

/-- In every state that operations without raw access lead to, no object leads back to itself, and all
that follows references comes to an end. -/
theorem reachable_wellFounded (hm : m.Reachable) :
    WellFounded m.heap.Refers ∧ (∀ h, ∃ text, textOf h m = .ok text) ∧
      (∀ list, items list m ≠ .error .unfinished) ∧ stackDepth m ≠ .error .unfinished ∧
      (∀ env key, lookup env key m ≠ .error .unfinished) ∧
      (∀ name, global name m ≠ .error .unfinished) ∧
      ∀ spelling m', intern spelling m ≠ .error .unfinished m' := by
  have hwf := (unknotted_of_reachable hm).wellFounded
  have hreliable := reliable_of_reachable hm
  refine ⟨hwf, exists_textOf hwf, fun list => ?_, stackDepth_ne_unfinished hwf, lookup_ne_unfinished hwf,
    fun name => ?_, fun spelling m' => ?_⟩
  · exact (walk_itemsFrom m).finishes hwf list m.capacity_lt_walkBound
  · exact (walk_globalFrom m name).finishes hwf m.registers.env m.capacity_lt_walkBound
  · obtain ⟨entries, henrolled⟩ := hreliable.enrolled
    rcases intern_cases hreliable.ready henrolled spelling with
      ⟨_, hrun, -⟩ | ⟨_, _, hrun, -⟩ | ⟨_, hrun, -⟩ <;> simp [hrun]

/-- A closure that captured the binding of another is left on the stack, a collection is made, and a second
term runs in the slots that became free. -/
theorem reachable_wellFounded_reused :
    ∃ m, m = after (Operation.run 40).act (after Operation.collect.act (after (Operation.run 40).act
        (after (prepare false)
          (blank (1024 : UInt64).toNat (Bytes.ofString "((^x) $x ^x (^x)) (env $y ^y (^y))") {} false {})))) ∧
      m.Reachable ∧ WellFounded m.heap.Refers ∧ (∃ text, textOf m.registers.stack m = .ok text) ∧
      stackDepth m ≠ .error .unfinished := by
  have hall : ∀ m : Machine, m.Reachable → m.Reachable ∧ WellFounded m.heap.Refers ∧
      (∃ text, textOf m.registers.stack m = .ok text) ∧ stackDepth m ≠ .error .unfinished := by
    intro m hm
    obtain ⟨hwf, htext, -, hdepth, -⟩ := reachable_wellFounded hm
    exact ⟨hm, hwf, htext _, hdepth⟩
  refine ⟨_, rfl, hall _ ?_⟩
  exact .ended (.run 40) (.ended .collect (.ended (.run 40) (.start 1024 _ _ false {}) trivial) trivial)
    trivial

end Machine

end PushLisp
