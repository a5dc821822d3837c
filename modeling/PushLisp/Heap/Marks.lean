/-!
# Mark bits

A set of indices below a bound, one bit for each, thirty-two bits to a word. The collector keeps its
marks here rather than in the objects, so that all of them are cleared at once.

## Main definitions

* `Marks`: the set.
* `Marks.empty`, `Marks.new`: the empty sets.
* `Marks.get`, `Marks.testAndSet`, `Marks.clear`: the operations.
* `Marks.get?`, `Marks.testAndSet?`: the same where there may be no word for an index.
* `Marks.indices`: the elements in ascending order.
* `Marks.get_testAndSet`, `Marks.get_clear`: the operations as operations on sets.
-/
namespace PushLisp

/-- A set of indices below `size`. -/
structure Marks where
  words : Array UInt32
  size : Nat
  deriving Repr, DecidableEq

namespace Marks

/-- The number of words that `n` bits need. -/
def wordsFor (n : Nat) : Nat := (n + 31) / 32

/-- The empty set of indices below `n`. -/
def empty (n : Nat) : Marks := ⟨Array.replicate (wordsFor n) 0, n⟩

/-- The number of words that are taken for so many bits. It is computed in a word, and what lies above
`2 ^ 64 - 32` wraps around: there are no words at all then. -/
def wordCount (bits : UInt64) : UInt64 := (bits + 31) / 32

/-- The empty set of indices below a number that fits in a word. A table is far smaller than the numbers
for which this is not `empty`. -/
def new (bits : UInt64) : Marks := ⟨Array.replicate (wordCount bits).toNat 0, bits.toNat⟩

/-- The place of an index inside its word. -/
def mask (i : Nat) : UInt32 := 1 <<< (i % 32).toUInt32

/-- Whether an index is in the set. -/
def get (m : Marks) (i : Nat) : Bool := m.words.getD (i / 32) 0 &&& mask i != 0

/-- Puts an index into the set, and tells whether it was there before. -/
def testAndSet (m : Marks) (i : Nat) : Bool × Marks :=
  let old := m.get i
  (old, { m with words := m.words.modify (i / 32) (· ||| mask i) })

/-- Whether an index is in the set, if there is a word for it. -/
def get? (m : Marks) (i : Nat) : Option Bool := if i / 32 < m.words.size then some (m.get i) else none

/-- Puts an index into the set and tells whether it was there before, if there is a word for it. -/
def testAndSet? (m : Marks) (i : Nat) : Option (Bool × Marks) :=
  if i / 32 < m.words.size then some (m.testAndSet i) else none

/-- Empties the set. -/
def clear (m : Marks) : Marks := { m with words := m.words.map fun _ => 0 }

/-- The elements in ascending order. -/
def indices (m : Marks) : List Nat := (List.range m.size).filter m.get

@[simp] theorem size_clear (m : Marks) : m.clear.size = m.size := rfl

@[simp] theorem size_testAndSet (m : Marks) (i : Nat) : (m.testAndSet i).2.size = m.size := rfl

/-! ## The set of indices -/

theorem toNat_mask (i : Nat) : (mask i).toNat = 1 <<< (i % 32) := by
  have h : i % 32 < 32 := Nat.mod_lt _ (by decide)
  have hp : 2 ^ (i % 32) < 2 ^ 32 := Nat.pow_lt_pow_right (by decide) h
  simp only [mask, UInt32.toNat_shiftLeft, Nat.toUInt32_eq, UInt32.toNat_ofNat', UInt32.toNat_ofNat,
    Nat.shiftLeft_eq]
  rw [show (i % 32) % 2 ^ 32 % 32 = i % 32 by omega]
  omega

theorem testBit_mask (i j : Nat) : (mask i).toNat.testBit j = decide (i % 32 = j) := by
  rw [toNat_mask, Nat.one_shiftLeft, Nat.testBit_two_pow]

/-- A number masked by one bit. -/
theorem and_one_shiftLeft (n k : Nat) : n &&& 1 <<< k = if n.testBit k then 1 <<< k else 0 := by
  apply Nat.eq_of_testBit_eq
  intro j
  by_cases hk : k = j
  · subst hk
    cases hb : n.testBit k <;> simp [hb]
  · cases hb : n.testBit k <;> simp [hk, Nat.one_shiftLeft]

theorem and_mask_ne_zero (w : UInt32) (i : Nat) :
    (w &&& mask i != 0) = w.toNat.testBit (i % 32) := by
  have h : (w &&& mask i).toNat = if w.toNat.testBit (i % 32) then 1 <<< (i % 32) else 0 := by
    rw [UInt32.toNat_and, toNat_mask, and_one_shiftLeft]
  cases hb : w.toNat.testBit (i % 32) with
  | false =>
    rw [hb] at h
    have hz : w &&& mask i = 0 := UInt32.toNat_inj.mp h
    simp [hz]
  | true =>
    rw [hb, if_pos rfl, Nat.one_shiftLeft] at h
    have hpos : 0 < 2 ^ (i % 32) := Nat.pow_pos (by decide)
    have hnz : w &&& mask i ≠ 0 := by
      intro hz
      rw [hz, UInt32.toNat_zero] at h
      omega
    simp [hnz]

/-- Membership is a bit of a word. -/
theorem get_eq_testBit (m : Marks) (i : Nat) :
    m.get i = (m.words.getD (i / 32) 0).toNat.testBit (i % 32) := and_mask_ne_zero _ _

@[simp] theorem get_empty (n i : Nat) : (empty n).get i = false := by
  rw [get_eq_testBit]
  have : (Array.replicate (wordsFor n) (0 : UInt32)).getD (i / 32) 0 = 0 := by
    simp [Array.getD]
  simp [empty, this]

@[simp] theorem get_clear (m : Marks) (i : Nat) : m.clear.get i = false := by
  rw [get_eq_testBit]
  have : (m.words.map fun _ => (0 : UInt32)).getD (i / 32) 0 = 0 := by simp [Array.getD]
  simp [clear, this]

/-- The word of an index below the bound exists. -/
theorem div_lt_wordsFor {n i : Nat} (h : i < n) : i / 32 < wordsFor n := by
  unfold wordsFor
  omega

/-- Up to `2 ^ 64 - 32` bits nothing wraps around. -/
theorem toNat_wordCount {bits : UInt64} (h : bits ≤ 0xffffffffffffffe0) :
    (wordCount bits).toNat = wordsFor bits.toNat := by
  have hbits : bits.toNat ≤ 0xffffffffffffffe0 := UInt64.le_iff_toNat_le.mp h
  simp only [wordCount, wordsFor, UInt64.toNat_div, UInt64.toNat_add, UInt64.reduceToNat]
  omega

theorem new_eq_empty {bits : UInt64} (h : bits ≤ 0xffffffffffffffe0) : new bits = empty bits.toNat := by
  rw [new, toNat_wordCount h, empty]

/-- Putting an index in adds that index and no other. -/
theorem get_testAndSet (m : Marks) (i j : Nat) (h : i / 32 < m.words.size) :
    (m.testAndSet i).2.get j = (decide (i = j) || m.get j) := by
  rw [get_eq_testBit, get_eq_testBit]
  simp only [testAndSet]
  by_cases hw : i / 32 = j / 32
  · have hj : j / 32 < m.words.size := hw ▸ h
    simp [Array.getD, hj, Array.getElem_modify, hw, UInt32.toNat_or, testBit_mask]
    by_cases hij : i = j
    · simp [hij]
    · have : i % 32 ≠ j % 32 := by omega
      simp [hij, this]
  · have hij : i ≠ j := by rintro rfl; exact hw rfl
    by_cases hj : j / 32 < m.words.size
    · simp [Array.getD, hj, Array.getElem_modify, hw, hij]
    · simp [Array.getD, hj, hij]

end Marks

end PushLisp
