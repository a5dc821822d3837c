import Mathlib.Data.Nat.Notation
import PushLisp.Term.Reader

/-!
# What holds of reading

Reading is put together from a few operations: scanning the text, making numbers, strings, pairs and atoms,
and keeping a queue. A property that holds of these and passes to sequences of operations holds of reading.
The induction is the same for all of them, and it is done once here.

## Main definitions

* `Fault.OfText`: the faults that are found in the text.
* `Machine.Lexical`: a property that passes from the parts of reading to the whole.

## Main statements

* `Machine.Lexical.readFrom`: reading within a step bound.
-/
namespace PushLisp

/-- The faults that reading finds in the text. -/
def Fault.OfText : Fault → Prop
  | .endOfInput | .emptyDirective _ | .badEscape _ _ | .unbalancedClose _ => True
  | _ => False

namespace Machine

/-- A property of operations that passes from the parts of reading to the whole. It may refer to roots that
are held when an operation begins. -/
structure Lexical (J : (α : Type) → List Handle → Run α → Machine → Prop) : Prop where
  bind : ∀ {α β base m} {x : Run α} {f : α → Run β}, J α base x m →
    (∀ {a m'}, x m = .ok a m' → J β base (f a) m') → J β base (x >>= f) m
  pure : ∀ {α base m} (a : α), J α base (Pure.pure a) m
  unfinished : ∀ {α base m}, J α base (stop .unfinished) m
  fail : ∀ {α base m} {f : Fault}, f.OfText → J α base (fail f) m
  component : ∀ {base m} (queue : Handle), J Handle base (ask (car queue)) m ∧
    J Handle base (ask (cdr queue)) m
  getRegisters : ∀ {α base m} {f : Registers → Run α}, J α base (f m.registers) m →
    J α base (Machine.getRegisters >>= f) m
  getPosition : ∀ {α base m} {f : ℕ → Run α}, J α base (f m.source.position) m →
    J α base (get >>= fun m => f m.source.position) m
  setQueue : ∀ {base m} (queue : Handle),
    J Unit base (modifyRegisters fun r => { r with readQueue := queue }) m
  root : ∀ {base m} (hs : List Handle), J Unit base (root hs) m
  keepingRoots : ∀ {α base m} {act : Run α}, J α m.shadow act m → J α base (keepingRoots act) m
  makeNumber : ∀ {base m} (n : Int64), J Handle base (makeNumber n) m
  makePair : ∀ {base m} (car cdr : Handle), J Handle base (makePair car cdr) m
  makeString : ∀ {base m} (bytes : Bytes), J Handle base (makeString bytes) m
  intern : ∀ {base m} (spelling : Bytes), J Handle base (intern spelling) m
  skipBlank : ∀ {base m}, J Unit base skipBlank m
  peek : ∀ {base m}, J (Option UInt8) base peek m
  advance : ∀ {base m}, J Unit base advance m
  takeWord : ∀ {base m}, J Bytes base takeWord m
  takeString : ∀ {base m}, J Bytes base takeString m

namespace Lexical

variable {base : List Handle} {m : Machine} {J : (α : Type) → List Handle → Run α → Machine → Prop}
  (R : Lexical J)
include R

theorem scalar (word : Bytes) : J Handle base (scalar word) m := by
  rw [Machine.scalar]
  cases Numeral.readInt64? word with
  | some n => exact R.makeNumber n
  | none => exact R.intern word

theorem makeList (values : List Handle) : J Handle base (makeList values) m := by
  have hcons : ∀ {m base} (list : Handle) (values : List Handle), J Handle base (consAll list values) m := by
    intro m base list values
    induction values generalizing list m with
    | nil => exact R.pure list
    | cons v values ih => exact R.bind (R.makePair v list) fun _ => ih _
  exact R.keepingRoots (R.bind (R.root values) fun _ => hcons _ _)

theorem dequeue (queue : Handle) : J Handle base (dequeue queue) m :=
  R.bind (R.component queue).2 fun _ => R.bind (R.setQueue _) fun _ => (R.component queue).1

theorem queueDirective (sign : UInt8) (op : Registers → Handle) : J Unit base (queueDirective sign op) m := by
  refine R.bind R.takeWord fun {word _} _ => ?_
  have hqueue : ∀ {m}, J Unit base (do
      let name ← Machine.scalar word
      let r ← Machine.getRegisters
      let queue ← Machine.makeList [r.atomQuote, name, op r]
      modifyRegisters fun r => { r with readQueue := queue }) m :=
    R.bind (R.scalar word) fun _ => R.getRegisters (R.bind (R.makeList _) fun _ => R.setQueue _)
  split
  · exact R.bind (R.fail trivial) fun _ => hqueue
  · exact hqueue

/-- Reading within a step bound has the property. The induction is on the bound, for terms and for the
items of lists at once. -/
theorem readFrom (n : ℕ) : (∀ {base m}, J Handle base (readTermFrom n) m) ∧
    ∀ {base m} (items : List Handle), J (List Handle) base (readItemsFrom n items) m := by
  induction n with
  | zero =>
    constructor
    · intro base m
      rw [readTermFrom]
      exact R.unfinished
    · intro base m items
      rw [readItemsFrom]
      exact R.unfinished
  | succ n ih =>
    obtain ⟨hterm, hitems⟩ := ih
    have hskip : ∀ {α base m} {act : Run α}, (∀ {m}, J α base act m) →
        J α base (do Machine.advance; act) m := fun hact => R.bind R.advance fun _ => hact
    constructor
    · intro base m
      rw [readTermFrom]
      apply R.getRegisters
      split
      · exact R.dequeue _
      refine R.bind R.skipBlank fun _ => R.bind R.peek fun {next _} _ => ?_
      cases next with
      | none => exact R.fail trivial
      | some c =>
        dsimp only
        split
        · exact hskip (R.pure _)
        split
        · exact hskip (R.bind (R.queueDirective _ _) fun _ => hterm)
        split
        · exact hskip (R.bind (R.queueDirective _ _) fun _ => hterm)
        split
        · exact hskip (R.keepingRoots (R.bind (hitems []) fun _ => R.makeList _))
        split
        · exact hskip (R.bind R.takeString fun _ => R.makeString _)
        split
        · refine R.getPosition (f := fun position => do
            Machine.advance
            Machine.fail (.unbalancedClose position)) ?_
          exact hskip (R.fail trivial)
        · exact R.bind R.takeWord fun _ => R.scalar _
    · intro base m items
      have hmore : ∀ {m}, J (List Handle) base (do
          let item ← readTermFrom n
          Machine.root [item]
          readItemsFrom n (item :: items)) m :=
        R.bind hterm fun _ => R.bind (R.root _) fun _ => hitems _
      rw [readItemsFrom]
      apply R.getRegisters
      split
      · refine R.bind R.skipBlank fun _ => R.bind R.peek fun _ => ?_
        split
        · exact hskip (R.pure _)
        · exact hmore
      · exact hmore

end Lexical

end Machine

end PushLisp
