import PushLisp.Machine.Words
import PushLisp.Proofs.Cells

/-!
# Words in the memory of a machine

Memory is read and written byte by byte, and a machine is made of words. A word that is stored where a word
of the machine lies overwrites it one byte after another. On the way the machine goes through states in which
the low bytes are new and the others old. If each of these states takes the next byte, the word ends up as a
whole where it was stored, and nothing else has changed.

This is so for the words of the state block, for the payload of numbers, pairs and closures, and for the
kind of a pair, a closure or a number, as long as the new kind is one that the payload can be read as.
Where the state block, the slot table and the cells lie does not matter, if only they do not overlap.

## Main definitions

* `Machine.Apart`: the state block, the slot table and the cells do not overlap.
* `Machine.LiesAt`: where a word of the machine lies.
* `Machine.Overwrites`: one word of the machine is overwritten, and no other.

## Main statements

* `Machine.liesAt_register`, `Machine.liesAt_slot`, `Machine.liesAt_cell`: where the words lie.
* `Machine.loadWord_of_liesAt`, `Machine.storeWord_of_liesAt`: loading and storing a word of the machine.
* `Machine.storeWord_register`, `Machine.storeWord_cell`: what becomes of the machine.
-/
namespace PushLisp

/-! ## A word that is overwritten byte by byte -/

/-- A word whose low `k` bytes were replaced by those of another. -/
def splice (k : ℕ) (w old : UInt64) : UInt64 :=
  wordOfBytes ((wordBytes w).take k ++ (wordBytes old).drop k)

section Splice

variable {k : ℕ} {w old : UInt64}

/-- The bytes of such a word. -/
theorem wordBytes_splice (hk : k ≤ 8) :
    wordBytes (splice k w old) = (wordBytes w).take k ++ (wordBytes old).drop k := by
  apply wordBytes_wordOfBytes
  simp only [List.length_append, List.length_take, List.length_drop, length_wordBytes]
  omega

@[simp] theorem splice_zero : splice 0 w old = old := by simp [splice]

/-- With all its bytes replaced, it is the other word. -/
theorem splice_of_le (hk : 8 ≤ k) : splice k w old = w := by
  rw [splice, List.take_of_length_le (by simpa using hk), List.drop_of_length_le (by simpa using hk),
    List.append_nil, wordOfBytes_wordBytes]

/-- Where two words differ in the first byte only, one byte makes one of them the other. -/
theorem splice_succ (h : (wordBytes w).drop 1 = (wordBytes old).drop 1) : splice (k + 1) w old = w := by
  have hdrop : (wordBytes old).drop (k + 1) = (wordBytes w).drop (k + 1) := by
    rw [Nat.add_comm, ← List.drop_drop, ← List.drop_drop, h]
  rw [splice, hdrop, List.take_append_drop, wordOfBytes_wordBytes]

/-- One more byte is replaced. -/
theorem setWordByte_splice {b : UInt8} {rest : Bytes} (hk : k < 8) (hb : (wordBytes w).drop k = b :: rest) :
    setWordByte (splice k w old) k b = splice (k + 1) w old := by
  have hlength : ((wordBytes w).take k).length = k := by simp; omega
  have htake : (wordBytes w).take (k + 1) = (wordBytes w).take k ++ [b] := by
    rw [List.take_add, hb, List.take_succ_cons, List.take_zero]
  have hdrop : ∃ c, (wordBytes old).drop k = c :: (wordBytes old).drop (k + 1) :=
    ⟨_, List.drop_eq_getElem_cons (by simpa using hk)⟩
  obtain ⟨c, hc⟩ := hdrop
  rw [setWordByte, wordBytes_splice hk.le, splice, htake, hc, List.set_append_right _ _ hlength.le, hlength,
    Nat.sub_self, List.set_cons_zero, List.append_assoc, List.singleton_append]

/-- The bytes of a word one by one are its bytes. -/
theorem map_wordByte (w : UInt64) : (List.range 8).map (wordByte w) = wordBytes w := by
  apply List.ext_getElem
  · simp
  · intro i hi hi'
    simp [wordByte, List.getElem?_eq_getElem hi']

end Splice

/-! ## Cells that take a word -/

/-- The code of a number, a pair or a closure fills one byte. -/
theorem drop_wordBytes_code : ∀ code ∈ [2, 3, 4], (wordBytes code).drop 1 = List.replicate 7 0 := by
  rw [List.forall_mem_cons, List.forall_mem_cons, List.forall_mem_singleton]
  exact ⟨by decide, by decide, by decide⟩

/-- The cell of an object takes a word byte by byte: each byte leaves a number, a pair or a closure. A kind is
overwritten with the first byte, and the other bytes change nothing. -/
theorem Cell.Holds.exists_rewritten? {c : Cell} {o o' : Object} {i : ℕ} {w : UInt64} (h : c.Holds o)
    (hr : Object.Rewritten i w o o') (k : ℕ) : ∃ a, c.rewritten? i (splice k w (c.word i)) = some a := by
  cases i with
  | succ i =>
    obtain ⟨a, ha, -⟩ := Object.exists_rewritten i.succ_pos hr.lt_length (splice k w (c.word (i + 1)))
    exact ⟨a, h.rewritten?_eq ha⟩
  | zero =>
    cases k with
    | zero =>
      refine ⟨o, ?_⟩
      rw [splice_zero, rewritten?, setWord_word, h.object?_eq hr.lt_length]
      rfl
    | succ k =>
      have hnew : w ∈ [2, 3, 4] := by cases hr <;> simp
      have hold : c.word 0 ∈ [2, 3, 4] := by
        cases hr <;> simp [h.word_eq (i := 0) rfl]
      rw [splice_succ ((drop_wordBytes_code _ hnew).trans (drop_wordBytes_code _ hold).symm)]
      exact ⟨o', h.rewritten?_eq hr⟩

namespace Heap

variable {heap : Heap} {s i : ℕ} {v w : UInt64} {o o' : Object}

/-- A word that is overwritten twice is overwritten once. -/
theorem setWord_setWord (hv : (heap.cell s).rewritten? i v = some o)
    (hw : (heap.cell s).rewritten? i w = some o') :
    (heap.setWord s i v).setWord s i w = heap.setWord s i w := by
  have hcell : (heap.setWord s i v).cell s = (heap.cell s).setWord i v := by rw [cell_setWord hv, if_pos rfl]
  have hagain : ((heap.setWord s i v).cell s).rewritten? i w = some o' := by
    rw [hcell]
    exact Cell.rewritten?_setWord hv hw
  have hslots : (heap.slots.modify s (Option.map fun _ => o)).modify s (Option.map fun _ => o') =
      heap.slots.modify s (Option.map fun _ => o') := by
    apply Array.ext
    · simp
    · intro j hj hj'
      simp only [Array.getElem_modify]
      split
      · rw [Option.map_map]
        rfl
      · rfl
  rw [setWord_of_some hagain, hcell, setWord_of_some hw, setWord_of_some hv, Cell.setWord_setWord]
  simp [hslots]

/-- Writing a word of an object over itself changes nothing. -/
theorem setWord_word (hheap : heap.Represented) (ho : heap.slot? s = some o) (hi : i < o.words.length) :
    heap.setWord s i ((heap.cell s).word i) = heap := by
  have hsame : (heap.cell s).rewritten? i ((heap.cell s).word i) = some o := by
    rw [Cell.rewritten?, Cell.setWord_word, (hheap.holds ho).object?_eq hi]
    rfl
  have hslots : heap.slots.modify s (Option.map fun _ => o) = heap.slots := by
    apply Array.ext
    · simp
    · intro j hj hj'
      simp only [Array.getElem_modify]
      split
      · subst j
        simp only [slot?, Option.dite_none_right_eq_some] at ho
        rw [ho.2, Option.map_some]
      · rfl
  have hcells : heap.cells.setIfInBounds s (heap.cell s) = heap.cells := by
    apply Array.ext
    · simp
    · intro j hj hj'
      rw [Array.getElem_setIfInBounds]
      split
      · subst j
        simp [cell, hj']
      · rfl
  rw [setWord_of_some hsame, Cell.setWord_word, hslots, hcells]

end Heap

/-! ## Words of the state block -/

/-- The words of the state block are independent of each other. -/
theorem Registers.word_setWord (r : Registers) (w : UInt64) {i : ℕ} (hi : i < Registers.wordCount) (j : ℕ) :
    (r.setWord i w).word j = if j = i then w else r.word j := by
  by_cases hj : j < Registers.wordCount
  · simp only [Registers.wordCount] at hi hj
    interval_cases i <;> interval_cases j <;> rfl
  · have hword : ∀ r : Registers, r.word j = 0 := by
      intro r
      simp only [Registers.wordCount] at hj
      unfold Registers.word
      split <;> first | rfl | omega
    rw [hword, hword, if_neg (by omega)]

namespace Machine

variable {m m' : Machine} {l : Location} {A x w : UInt64} {i k s : ℕ} {h : Handle} {o o' : Object}

/-! ## Where words lie -/

/-- Two stretches of memory have no byte in common. -/
def Separate (a n b k : ℕ) : Prop := a + n ≤ b ∨ b + k ≤ a

/-- The state block, the slot table and the cells of the objects do not overlap. -/
structure Apart (m : Machine) : Prop where
  block_le : m.heap.platform.block.toNat + 8 * Registers.wordCount ≤ 2 ^ 64
  table_le : m.heap.platform.table.toNat + 8 * m.heap.capacity ≤ 2 ^ 64
  block_table : Separate m.heap.platform.block.toNat (8 * Registers.wordCount)
    m.heap.platform.table.toNat (8 * m.heap.capacity)
  address_ne_zero : ∀ {s o}, m.heap.slot? s = some o → (m.heap.cell s).address ≠ 0
  cell_le : ∀ {s o}, m.heap.slot? s = some o → (m.heap.cell s).address.toNat + Cell.size ≤ 2 ^ 64
  block_cell : ∀ {s o}, m.heap.slot? s = some o → Separate m.heap.platform.block.toNat
    (8 * Registers.wordCount)
    (m.heap.cell s).address.toNat Cell.size
  table_cell : ∀ {s o}, m.heap.slot? s = some o → Separate m.heap.platform.table.toNat (8 * m.heap.capacity)
    (m.heap.cell s).address.toNat Cell.size
  cell_cell : ∀ {s t o o'}, m.heap.slot? s = some o → m.heap.slot? t = some o' → s ≠ t →
    Separate (m.heap.cell s).address.toNat Cell.size (m.heap.cell t).address.toNat Cell.size

/-- Where no object is new, nothing comes to overlap. -/
theorem Apart.of_stays (hm : m.Apart) (hstays : Heap.Stays m.heap m'.heap) : m'.Apart := by
  obtain ⟨hplatform, hcapacity, -, haddress⟩ := hstays
  have hcell : ∀ {s o} {P : UInt64 → Prop}, m'.heap.slot? s = some o →
      (∀ {o'}, m.heap.slot? s = some o' → P (m.heap.cell s).address) → P (m'.heap.cell s).address := by
    intro s o P hs hp
    obtain ⟨⟨o', ho'⟩, heq⟩ := haddress hs
    rw [heq]
    exact hp ho'
  constructor
  case block_le => exact hplatform ▸ hm.block_le
  case table_le => exact hplatform ▸ hcapacity ▸ hm.table_le
  case block_table => exact hplatform ▸ hcapacity ▸ hm.block_table
  case address_ne_zero => exact fun hs => hcell (P := (· ≠ 0)) hs hm.address_ne_zero
  case cell_le => exact fun hs => hcell (P := fun a => a.toNat + Cell.size ≤ 2 ^ 64) hs hm.cell_le
  case block_cell =>
    intro s o hs
    rw [hplatform]
    exact hcell (P := fun a => Separate _ _ a.toNat _) hs hm.block_cell
  case table_cell =>
    intro s o hs
    rw [hplatform, hcapacity]
    exact hcell (P := fun a => Separate _ _ a.toNat _) hs hm.table_cell
  case cell_cell =>
    intro s t o o' hs ht hst
    obtain ⟨⟨_, hs'⟩, hs⟩ := haddress hs
    obtain ⟨⟨_, ht'⟩, ht⟩ := haddress ht
    rw [hs, ht]
    exact hm.cell_cell hs' ht' hst

/-- On the default platform nothing overlaps, however often objects are made and collected. -/
theorem apart_of_housed (hplatform : m.heap.platform = {}) (hheap : m.heap.Housed)
    (hcapacity : m.heap.capacity ≤ 2 ^ 40) (hallocated : m.heap.stats.allocated ≤ 2 ^ 40) : m.Apart := by
  obtain ⟨number, hnumber, hinj⟩ := hheap
  have hblock : m.heap.platform.block.toNat = 0x10000 := by rw [hplatform]; rfl
  have htable : m.heap.platform.table.toNat = 0x100000000 := by rw [hplatform]; rfl
  have hcell : ∀ {s o}, m.heap.slot? s = some o →
      (m.heap.cell s).address.toNat = 0x800000000000 + 32 * number s ∧ number s ≤ 2 ^ 40 := by
    intro s o ho
    obtain ⟨hle, haddress⟩ := hnumber ho
    rw [haddress, hplatform]
    simp only [Nat.toUInt64_eq, UInt64.toNat_ofNat']
    omega
  have hcount : Registers.wordCount = 12 := rfl
  constructor
  case block_le => omega
  case table_le => omega
  case block_table => exact .inl (by omega)
  case address_ne_zero =>
    intro s o ho hzero
    have haddress := (hcell ho).1
    rw [hzero, UInt64.toNat_zero] at haddress
    omega
  case cell_le =>
    intro s o ho
    have haddress := hcell ho
    rw [Cell.size]
    omega
  case block_cell =>
    intro s o ho
    have haddress := hcell ho
    exact .inl (by omega)
  case table_cell =>
    intro s o ho
    have haddress := hcell ho
    exact .inl (by omega)
  case cell_cell =>
    intro s t o o' hs ht hst
    have hne : number s ≠ number t := fun heq => hst (hinj hs ht heq)
    rw [Separate, (hcell hs).1, (hcell ht).1, Cell.size]
    omega

/-- A word of the machine lies at an address. -/
def LiesAt (m : Machine) (A : UInt64) (l : Location) : Prop :=
  ∀ k < 8, locate m.heap (A + k.toUInt64) = (l, k)

/-- Nothing wraps around inside a stretch of memory. -/
theorem toNat_add_word {base : UInt64} (hbase : base.toNat + 8 * i + k < 2 ^ 64) :
    (base + 8 * i.toUInt64 + k.toUInt64).toNat = base.toNat + 8 * i + k := by
  simp only [UInt64.toNat_add, UInt64.toNat_mul, Nat.toUInt64_eq, UInt64.toNat_ofNat', UInt64.reduceToNat]
  omega

/-- The words of the state block lie one after another. -/
theorem liesAt_register (hm : m.Apart) (hi : i < Registers.wordCount) :
    m.LiesAt (m.heap.platform.block + 8 * i.toUInt64) (.register i) := by
  intro k hk
  have hblock := hm.block_le
  have haddress : (m.heap.platform.block + 8 * i.toUInt64 + k.toUInt64).toNat =
      m.heap.platform.block.toNat + 8 * i + k := toNat_add_word (by omega)
  rw [locate, haddress]
  simp only
  rw [if_pos (by omega), Prod.mk.injEq, Location.register.injEq]
  omega

/-- So do those of the slot table. -/
theorem liesAt_slot (hm : m.Apart) (hi : i < m.heap.capacity) :
    m.LiesAt (m.heap.platform.table + 8 * i.toUInt64) (.slot i) := by
  intro k hk
  have htable := hm.table_le
  have hapart := hm.block_table
  rw [Separate] at hapart
  have haddress : (m.heap.platform.table + 8 * i.toUInt64 + k.toUInt64).toNat =
      m.heap.platform.table.toNat + 8 * i + k := toNat_add_word (by omega)
  rw [locate, haddress]
  simp only
  rw [if_neg (by omega), if_pos (by omega), Prod.mk.injEq, Location.slot.injEq]
  omega

/-- Which addresses are those of a cell. -/
theorem covers_iff {c : Cell} : c.covers x = true ↔
    c.address ≠ 0 ∧ c.address.toNat ≤ x.toNat ∧ x.toNat < c.address.toNat + Cell.size := by
  simp [Cell.covers, and_assoc]

/-- No two cells have a byte in common. -/
theorem findIdx?_covers (hheap : m.heap.Represented) (hm : m.Apart) (ho : m.heap.slot? s = some o)
    (hx : (m.heap.cell s).covers x = true) : m.heap.cells.findIdx? (·.covers x) = some s := by
  have hlt : ∀ {t o}, m.heap.slot? t = some o → t < m.heap.cells.size := fun ht =>
    hheap.size_eq ▸ Heap.lt_capacity_of_slot? ht
  have hcell : ∀ t (ht : t < m.heap.cells.size), m.heap.cells[t] = m.heap.cell t := by
    intro t ht
    simp [Heap.cell, ht]
  rw [Array.findIdx?_eq_some_iff_getElem]
  refine ⟨hlt ho, by rw [hcell]; exact hx, fun t ht => ?_⟩
  rw [hcell, covers_iff]
  rw [covers_iff] at hx
  rintro ⟨hne, hle⟩
  cases hslot : m.heap.slot? t with
  | none => exact hne (hheap.address_eq_zero hslot)
  | some o' =>
    have hapart := hm.cell_cell ho hslot ht.ne'
    rw [Separate] at hapart
    omega

/-- The three words of a cell lie one after another, wherever the cell does. -/
theorem liesAt_cell (hheap : m.heap.Represented) (hm : m.Apart) (ho : m.heap.slot? s = some o) (hi : i < 3) :
    m.LiesAt ((m.heap.cell s).address + 8 * i.toUInt64) (.cell s i) := by
  intro k hk
  have hcell := hm.cell_le ho
  have hblock := hm.block_cell ho
  have htable := hm.table_cell ho
  rw [Separate] at hblock htable
  have hsize : Cell.size = 32 := rfl
  have haddress : ((m.heap.cell s).address + 8 * i.toUInt64 + k.toUInt64).toNat =
      (m.heap.cell s).address.toNat + 8 * i + k := toNat_add_word (by omega)
  have hfind := findIdx?_covers hheap hm ho (x := (m.heap.cell s).address + 8 * i.toUInt64 + k.toUInt64)
    (covers_iff.mpr ⟨hm.address_ne_zero ho, by omega, by omega⟩)
  rw [locate, haddress, hfind]
  simp only
  rw [if_neg (by omega), if_neg (by omega), Prod.mk.injEq, Location.cell.injEq]
  omega

/-- Where words lie depends on where the state block, the slot table and the cells do, and on nothing else. -/
theorem locate_congr {heap heap' : Heap} (hplatform : heap'.platform = heap.platform)
    (hcapacity : heap'.capacity = heap.capacity) (hsize : heap'.cells.size = heap.cells.size)
    (haddress : ∀ j, (heap'.cell j).address = (heap.cell j).address) (x : UInt64) :
    locate heap' x = locate heap x := by
  have hmap : heap'.cells.map Cell.address = heap.cells.map Cell.address := by
    apply Array.ext
    · simpa using hsize
    · intro j hj hj'
      simp only [Array.size_map] at hj hj'
      simpa [Heap.cell, hj, hj'] using haddress j
  have hfind : ∀ cells : Array Cell, cells.findIdx? (·.covers x) =
      (cells.map Cell.address).findIdx? fun a =>
        a ≠ 0 && a.toNat ≤ x.toNat && x.toNat < a.toNat + Cell.size := by
    intro cells
    rw [Array.findIdx?_map]
    rfl
  simp only [locate, hplatform, hcapacity, hfind, hmap, haddress]

/-! ## Loading and storing words of the machine -/

/-- A word is loaded from where it lies. -/
theorem loadWord_of_liesAt (hl : m.LiesAt A l) : ByteMemory.loadWord m A = m.word l := by
  have hload : ByteMemory.loadBytes m A 8 = (List.range 8).map (wordByte (m.word l)) := by
    apply List.map_congr_left
    intro k hk
    simp only [ByteMemory.load, hl k (List.mem_range.mp hk)]
  rw [ByteMemory.loadWord, hload, map_wordByte, wordOfBytes_wordBytes]

/-- A location takes a word byte by byte: what was stored up to a byte is there when the next one comes, and
is then overwritten. -/
structure Admits (m : Machine) (l : Location) (w : UInt64) : Prop where
  same : m.setWord l (m.word l) = m
  reads : ∀ k < 8, (m.setWord l (splice k w (m.word l))).word l = splice k w (m.word l)
  writes : ∀ k < 8, (m.setWord l (splice k w (m.word l))).setWord l (splice (k + 1) w (m.word l)) =
    m.setWord l (splice (k + 1) w (m.word l))

@[simp] theorem capacity_setWord : (m.setWord l w).heap.capacity = m.heap.capacity := by
  cases l <;> simp [setWord]

/-- Nothing moves when a word is overwritten. -/
theorem locate_setWord (m : Machine) (l : Location) (w x : UInt64) :
    locate (m.setWord l w).heap x = locate m.heap x := by
  cases l with
  | cell s i =>
    cases h : (m.heap.cell s).rewritten? i w with
    | none => rw [setWord, Heap.setWord_of_none h]
    | some o =>
      refine locate_congr (by simp [setWord, Heap.setWord_of_some h]) capacity_setWord
        (by simp [setWord, Heap.setWord_of_some h]) (fun j => ?_) x
      rw [setWord, Heap.cell_setWord h]
      split
      · subst j
        exact Cell.address_setWord _ _ _
      · rfl
  | register | slot | unmapped => rfl

/-- No object is made when a word is overwritten. -/
theorem stays_setWord (m : Machine) (l : Location) (w : UInt64) : Heap.Stays m.heap (m.setWord l w).heap := by
  cases l with
  | cell s i => exact Heap.stays_setWord m.heap s i w
  | register | slot | unmapped => exact .refl m.heap

/-- Objects and cells stay in step when a word is overwritten, whatever word it is. -/
theorem represented_setWord (hheap : m.heap.Represented) (l : Location) (w : UInt64) :
    (m.setWord l w).heap.Represented := by
  cases l with
  | cell s i => exact hheap.setWord s i w
  | register | slot | unmapped => exact hheap

theorem represented_storeBytes (hheap : m.heap.Represented) (x : UInt64) (bytes : Bytes) :
    (ByteMemory.storeBytes m x bytes).heap.Represented := by
  induction bytes generalizing m x with
  | nil => exact hheap
  | cons b rest ih => exact ih (represented_setWord hheap _ _) _

theorem platform_store (m : Machine) (x : UInt64) (b : UInt8) :
    (ByteMemory.store m x b).heap.platform = m.heap.platform :=
  (stays_setWord m _ _).platform_eq

/-- Nothing comes to overlap when a byte is stored. -/
theorem Apart.store (hm : m.Apart) (x : UInt64) (b : UInt8) : (ByteMemory.store m x b).Apart :=
  hm.of_stays (stays_setWord m _ _)

theorem add_toUInt64_add_one (A : UInt64) (k : ℕ) : A + k.toUInt64 + 1 = A + (k + 1).toUInt64 := by
  simp only [Nat.toUInt64_eq, UInt64.ofNat_add, UInt64.add_assoc]
  rfl

/-- The bytes of a word from some place on are stored after those before it. The induction is on these
bytes. -/
theorem storeBytes_of_admits (hl : m.LiesAt A l) (hw : m.Admits l w) {bytes : Bytes}
    (hbytes : (wordBytes w).drop k = bytes) :
    ByteMemory.storeBytes (m.setWord l (splice k w (m.word l))) (A + k.toUInt64) bytes = m.setWord l w := by
  induction bytes generalizing k with
  | nil =>
    have hk : 8 ≤ k := by simpa using List.drop_eq_nil_iff.mp hbytes
    rw [ByteMemory.storeBytes, splice_of_le hk]
  | cons b rest ih =>
    have hk : k < 8 := by
      by_contra hle
      rw [List.drop_of_length_le (by simpa using hle)] at hbytes
      cases hbytes
    have hstore : ByteMemory.store (m.setWord l (splice k w (m.word l))) (A + k.toUInt64) b =
        m.setWord l (splice (k + 1) w (m.word l)) := by
      simp only [ByteMemory.store, locate_setWord, hl k hk, hw.reads k hk, setWordByte_splice hk hbytes,
        hw.writes k hk]
    have hrest : (wordBytes w).drop (k + 1) = rest := by
      rw [← List.drop_drop, hbytes, List.drop_one, List.tail_cons]
    rw [ByteMemory.storeBytes, hstore, add_toUInt64_add_one, ih hrest]

/-- A word that is stored where one lies overwrites it. -/
theorem storeWord_of_liesAt (hl : m.LiesAt A l) (hw : m.Admits l w) :
    ByteMemory.storeWord m A w = m.setWord l w := by
  have hstored := storeBytes_of_admits (k := 0) hl hw rfl
  rw [splice_zero, hw.same] at hstored
  simpa [ByteMemory.storeWord] using hstored

/-- One word of a machine was overwritten. Every other word is what it was, and nothing has moved. -/
structure Overwrites (l : Location) (w : UInt64) (m m' : Machine) : Prop where
  word_eq : ∀ l', m'.word l' = if l' = l then w else m.word l'
  locate_eq : ∀ x, locate m'.heap x = locate m.heap x
  rest_eq : m' = { m with heap := m'.heap, registers := m'.registers }

/-! ## Words of the state block -/

/-- Overwriting a word of the state block overwrites no other word. -/
theorem overwrites_register (m : Machine) (hi : i < Registers.wordCount) (w : UInt64) :
    Overwrites (.register i) w m (m.setWord (.register i) w) where
  word_eq l := by
    cases l with
    | register j => simp only [setWord, word, Registers.word_setWord _ _ hi, Location.register.injEq]
    | slot | cell | unmapped => rfl
  locate_eq := locate_setWord m _ w
  rest_eq := rfl

/-- Any word may be stored in the state block. -/
theorem admits_register (hi : i < Registers.wordCount) : m.Admits (.register i) w := by
  have hlaws : ∀ r : Registers, r.setWord i (r.word i) = r ∧ ∀ v, (r.setWord i v).word i = v ∧
      ∀ w, (r.setWord i v).setWord i w = r.setWord i w := by
    intro r
    simp only [Registers.wordCount] at hi
    interval_cases i <;> exact ⟨rfl, fun _ => ⟨rfl, fun _ => rfl⟩⟩
  constructor
  · simp only [setWord, word, (hlaws _).1]
  · intro k _
    simp only [setWord, word, ((hlaws _).2 _).1]
  · intro k _
    simp only [setWord, ((hlaws _).2 _).2]

theorem loadWord_register (hm : m.Apart) (hi : i < Registers.wordCount) :
    ByteMemory.loadWord m (m.heap.platform.block + 8 * i.toUInt64) = m.registers.word i :=
  loadWord_of_liesAt (liesAt_register hm hi)

theorem storeWord_register (hm : m.Apart) (hi : i < Registers.wordCount) :
    ByteMemory.storeWord m (m.heap.platform.block + 8 * i.toUInt64) w = m.setWord (.register i) w :=
  storeWord_of_liesAt (liesAt_register hm hi) (admits_register hi)

/-! ## Words of cells -/

/-- Overwriting a word of a cell overwrites no other word, of this cell or another. -/
theorem overwrites_cell (hs : (m.heap.cell s).rewritten? i w = some o) (hi : i < 3) :
    Overwrites (.cell s i) w m (m.setWord (.cell s i) w) where
  word_eq l := by
    cases l with
    | register | unmapped => rfl
    | slot j =>
      rw [if_neg (by simp), setWord, word, word, Heap.cell_setWord hs]
      split
      · subst j
        exact Cell.address_setWord _ _ _
      · rfl
    | cell t j =>
      rw [setWord, word, word, Heap.cell_setWord hs]
      by_cases ht : s = t
      · subst ht
        simp [Cell.word_setWord _ hi]
      · simp [ht, Ne.symm ht]
  locate_eq := locate_setWord m _ w
  rest_eq := rfl

/-- A cell takes the words that leave a number, a pair or a closure in it. -/
theorem admits_cell (hheap : m.heap.Represented) (ho : m.heap.slot? s = some o)
    (hr : Object.Rewritten i w o o') : m.Admits (.cell s i) w := by
  have htakes := (hheap.holds ho).exists_rewritten? hr
  constructor
  · simp only [setWord, word, Heap.setWord_word hheap ho hr.lt_length]
  · intro k _
    obtain ⟨a, ha⟩ := htakes k
    exact ((overwrites_cell ha hr.lt_three).word_eq _).trans (if_pos rfl)
  · intro k _
    obtain ⟨a, ha⟩ := htakes k
    obtain ⟨b, hb⟩ := htakes (k + 1)
    simp only [setWord, word, Heap.setWord_setWord ha hb]

/-- From the cell of an object its words are loaded. -/
theorem loadWord_cell (hheap : m.heap.Represented) (hm : m.Apart) (ho : m.heap.slot? s = some o)
    (hw : o.words[i]? = some w) : ByteMemory.loadWord m ((m.heap.cell s).address + 8 * i.toUInt64) = w := by
  have hi : i < 3 := (List.getElem?_eq_some_iff.mp hw).1.trans_le o.length_words_le
  rw [loadWord_of_liesAt (liesAt_cell hheap hm ho hi)]
  exact (hheap.holds ho).word_eq hw

theorem storeWord_cell (hheap : m.heap.Represented) (hm : m.Apart) (ho : m.heap.slot? s = some o)
    (hr : Object.Rewritten i w o o') :
    ByteMemory.storeWord m ((m.heap.cell s).address + 8 * i.toUInt64) w = m.setWord (.cell s i) w :=
  storeWord_of_liesAt (liesAt_cell hheap hm ho hr.lt_three) (admits_cell hheap ho hr)

/-- The object changes with its word, and no other does. -/
theorem object?_setWord_cell (hheap : m.heap.Represented) (ho : m.object? h = some o)
    (hr : Object.Rewritten i w o o') (k : Handle) :
    (m.setWord (.cell h.slot i) w).object? k = if k = h then some o' else m.object? k := by
  have hholds := hheap.holds (i := h.slot) ho
  have hslot := Heap.slot?_setWord (hholds.rewritten?_eq hr) k.slot
  rw [object?, setWord, Heap.get?, hslot]
  by_cases hk : k = h
  · subst hk
    have hget : m.heap.slot? k.slot = some o := ho
    rw [if_pos rfl, if_pos rfl, hget, Option.map_some]
  · rw [if_neg hk, if_neg fun hslot => hk (Handle.eq_of_slot_eq hslot).symm]
    rfl

end Machine

end PushLisp
