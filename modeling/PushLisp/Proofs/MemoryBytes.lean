import Mathlib.Algebra.Group.Nat.Defs
import PushLisp.Proofs.RawView
import PushLisp.Proofs.StackEffects

/-!
# Words and bytes of memory

A word may be stored at any address, also across two words of the machine, and its bytes can be read and
written one by one through a string that is a window onto memory. Both ways agree. They meet in one law,
which says what a byte that was stored changes: itself, and no other byte. A word is eight such bytes.

The law holds for the bytes that are free to be overwritten. These are the bytes of the state block,
that of the stack apart, and those of the payload of numbers, pairs and closures. What was written is
found there for as long as nothing else is written, whatever the machine does with its stack meanwhile,
unless the cell is lost to a collection.

## Main definitions

* `Spans`: the bytes of the word at an address.
* `Machine.Exposes`: the bytes that are free to be overwritten.
* `Machine.Elapses`: a machine goes on and loses none of some bytes.
* `Machine.StoresWord`, `Machine.StoresByte`, `Machine.Misses`: what a write, a poke and a poke outside
  a string do.

## Main statements

* `Machine.load_store`: a byte that is stored changes itself and no other.
* `Machine.Elapses.load_eq`: bytes that are not lost stay the same.
* `Machine.words_bytes_agree`: words and bytes of memory agree.
-/
namespace PushLisp

/-! ## Bytes of words -/

theorem getD_littleEndian {n j k : ℕ} (hk : k < j) : (littleEndian n j).getD k 0 = (n / 256 ^ k).toUInt8 := by
  induction j generalizing n k with
  | zero => omega
  | succ j ih =>
    cases k with
    | zero => simp [littleEndian]
    | succ k =>
      rw [littleEndian, List.getD_cons_succ, ih (by omega), Nat.div_div_eq_div_mul, pow_succ, mul_comm]

theorem toNat_wordByte (w : UInt64) {k : ℕ} (hk : k < 8) :
    (wordByte w k).toNat = w.toNat / 256 ^ k % 256 := by
  rw [wordByte, wordBytes, getD_littleEndian hk, Nat.toUInt8_eq, UInt8.toNat_ofNat']

/-- A word is determined by its bytes. -/
theorem eq_of_wordByte {u v : UInt64} (h : ∀ k < 8, wordByte u k = wordByte v k) : u = v := by
  have hbytes : wordBytes u = wordBytes v := by
    rw [← map_wordByte, ← map_wordByte]
    exact List.map_congr_left fun k hk => h k (List.mem_range.mp hk)
  rw [← wordOfBytes_wordBytes u, hbytes, wordOfBytes_wordBytes]

/-- A byte is one of the eight of the word at an address. -/
def Spans (a x : UInt64) : Prop := (x - a).toNat < 8

section Spans

variable {a x : UInt64} {k : ℕ}

theorem toNat_add_sub (hk : k < 2 ^ 64) : (a + k.toUInt64 - a).toNat = k := by
  simp only [UInt64.toNat_sub, UInt64.toNat_add, Nat.toUInt64_eq, UInt64.toNat_ofNat']
  have ha := a.toNat_lt
  omega

theorem spans_add (hk : k < 8) : Spans a (a + k.toUInt64) := by
  rw [Spans, toNat_add_sub (by omega)]
  exact hk

theorem toNat_sub_add_one (hx : x ≠ a) : (x - (a + 1)).toNat + 1 = (x - a).toNat := by
  have hne : x.toNat ≠ a.toNat := fun heq => hx (UInt64.toNat_inj.mp heq)
  have hlt := x.toNat_lt
  have hlt' := a.toNat_lt
  simp only [UInt64.toNat_sub, UInt64.toNat_add, UInt64.reduceToNat]
  omega

theorem toNat_self_sub (a : UInt64) : (a - (a + 1)).toNat = 2 ^ 64 - 1 := by
  have hlt := a.toNat_lt
  simp only [UInt64.toNat_sub, UInt64.toNat_add, UInt64.reduceToNat]
  omega

theorem add_toNat_sub (a x : UInt64) : a + (x - a).toNat.toUInt64 = x := by
  rw [Nat.toUInt64_eq, UInt64.ofNat_toNat, UInt64.add_comm, UInt64.sub_add_cancel]

end Spans

namespace ByteMemory

variable {μ : Type} [ByteMemory μ] {mem mem' : μ} {a : UInt64} {k : ℕ}

theorem wordByte_loadWord (mem : μ) (a : UInt64) (hk : k < 8) :
    wordByte (loadWord mem a) k = load mem (a + k.toUInt64) := by
  have hlength : (loadBytes mem a 8).length = 8 := by simp [loadBytes]
  rw [loadWord, wordByte, wordBytes_wordOfBytes hlength]
  simp [loadBytes, hk]

theorem loadWord_congr (h : ∀ x, Spans a x → load mem' x = load mem x) :
    loadWord mem' a = loadWord mem a := by
  apply eq_of_wordByte
  intro k hk
  rw [wordByte_loadWord _ _ hk, wordByte_loadWord _ _ hk, h _ (spans_add hk)]

end ByteMemory

/-! ## Bytes of a machine -/

/-- The address of the first byte of a word. -/
def Heap.addressOf (heap : Heap) : Location → ℕ
  | .register i => heap.platform.block.toNat + 8 * i
  | .slot i => heap.platform.table.toNat + 8 * i
  | .cell s i => (heap.cell s).address.toNat + 8 * i
  | .unmapped => 0

namespace Machine

variable {m m' : Machine} {x y A : UInt64} {b : UInt8} {i k : ℕ} {l : Location}
  {h : Handle} {o : Object} {bytes : Bytes}

theorem covers_of_findIdx? {heap : Heap} {s : ℕ} (hs : heap.cells.findIdx? (·.covers x) = some s) :
    (heap.cell s).covers x = true := by
  obtain ⟨hlt, hcovers, -⟩ := Array.findIdx?_eq_some_iff_getElem.mp hs
  simpa [Heap.cell, hlt] using hcovers

theorem toNat_of_locate {heap : Heap} (hx : locate heap x = (l, k)) (hl : l ≠ .unmapped) :
    x.toNat = heap.addressOf l + k := by
  simp only [locate] at hx
  split at hx
  · cases hx
    simp only [Heap.addressOf]
    omega
  split at hx
  · cases hx
    simp only [Heap.addressOf]
    omega
  split at hx
  · rename_i s hs
    cases hx
    have hle := (covers_iff.mp (covers_of_findIdx? hs)).2.1
    simp only [Heap.addressOf]
    omega
  · cases hx
    exact absurd rfl hl

/-! ## Bytes that may be overwritten -/

/-- The cells hold the objects, and nothing overlaps. -/
structure Mapped (m : Machine) : Prop where
  regular : m.heap.Regular
  represented : m.heap.Represented
  apart : m.Apart

theorem Mapped.setWord (hm : m.Mapped) (l : Location) (w : UInt64) : (m.setWord l w).Mapped := by
  refine ⟨?_, represented_setWord hm.represented l w, hm.apart.of_stays (stays_setWord m l w)⟩
  cases l with
  | cell s i =>
    exact ⟨hm.regular.unmarked.setWord s i w,
      (Heap.capacity_setWord _ _ _ _).trans_le hm.regular.capacity_le⟩
  | register | slot | unmapped => exact hm.regular

theorem Mapped.store (hm : m.Mapped) (x : UInt64) (b : UInt8) : (ByteMemory.store m x b).Mapped :=
  hm.setWord _ _

/-- The byte at an address is free to be overwritten: it is one of a word of the state block, that of
the stack apart, or of the payload of a number, a pair or a closure. -/
inductive Exposes (m : Machine) : UInt64 → Prop
  | register {i k : ℕ} (hi : i < Registers.wordCount) (hstack : i ≠ 7) (hk : k < 8) :
      Exposes m (m.heap.platform.block + 8 * i.toUInt64 + k.toUInt64)
  | payload {h : Handle} {o : Object} {i k : ℕ} (ho : m.object? h = some o) (hpos : 0 < i)
      (hi : i < o.words.length) (hk : k < 8) :
      Exposes m ((m.heap.cell h.slot).address + 8 * i.toUInt64 + k.toUInt64)

/-- Where a byte lies that may be overwritten, and that its word takes what is written there. -/
theorem Exposes.exists_locate (hm : m.Mapped) (hx : m.Exposes x) :
    ∃ l k, k < 8 ∧ l ≠ .unmapped ∧ locate m.heap x = (l, k) ∧ ∀ w, Overwrites l w m (m.setWord l w) := by
  cases hx with
  | register hi hstack hk =>
    exact ⟨.register _, _, hk, by simp, liesAt_register hm.apart hi _ hk, overwrites_register m hi⟩
  | @payload h o i k ho hpos hi hk =>
    have hi' := hi.trans_le o.length_words_le
    refine ⟨.cell h.slot i, k, hk, by simp, liesAt_cell hm.represented hm.apart ho hi' k hk, fun w => ?_⟩
    obtain ⟨o', hr, -⟩ := Object.exists_rewritten hpos hi w
    exact overwrites_cell ((hm.represented.holds (i := h.slot) ho).rewritten?_eq hr) hi'

/-- A byte that is stored changes itself and no other. -/
theorem load_store (hm : m.Mapped) (hx : m.Exposes x) (b : UInt8) (y : UInt64) :
    ByteMemory.load (ByteMemory.store m x b) y = if y = x then b else ByteMemory.load m y := by
  obtain ⟨l, k, hk, hl, hlocate, hword⟩ := hx.exists_locate hm
  rcases hy : locate m.heap y with ⟨l', k'⟩
  simp only [ByteMemory.load, ByteMemory.store, hlocate, locate_setWord, hy, (hword _).word_eq]
  by_cases hl' : l' = l
  · subst hl'
    have hyx : y = x ↔ k = k' := by
      rw [← UInt64.toNat_inj, toNat_of_locate hlocate hl, toNat_of_locate hy hl]
      omega
    rw [if_pos rfl, wordByte_setWordByte _ _ _ _ hk]
    simp only [hyx]
  · have hyx : y ≠ x := by
      rintro rfl
      rw [hlocate] at hy
      cases hy
      exact hl' rfl
    rw [if_neg hl', if_neg hyx]

theorem store_of_locate (hx : locate m.heap x = (l, k)) (b : UInt8) :
    ByteMemory.store m x b = m.setWord l (setWordByte (m.word l) k b) := by
  simp only [ByteMemory.store, hx]

/-- What may be overwritten still may after a byte was stored. -/
theorem Exposes.store (hm : m.Mapped) (hx : m.Exposes x) (b : UInt8) (hy : m.Exposes y) :
    (ByteMemory.store m x b).Exposes y := by
  have hkept : ∀ {h o}, m.object? h = some o →
      ∃ o', (ByteMemory.store m x b).object? h = some o' ∧ o'.words.length = o.words.length := by
    intro h' o' ho'
    cases hx with
    | register hi hstack hk =>
      rw [store_of_locate (liesAt_register hm.apart hi _ hk)]
      exact ⟨o', ho', rfl⟩
    | @payload h o i k ho hpos hi hk =>
      rw [store_of_locate (liesAt_cell hm.represented hm.apart ho (hi.trans_le o.length_words_le) k hk)]
      obtain ⟨a, hr, hlength⟩ :=
        Object.exists_rewritten hpos hi (setWordByte (m.word (.cell h.slot i)) k b)
      rw [object?_setWord_cell hm.represented ho hr]
      by_cases hh : h' = h
      · subst hh
        cases ho.symm.trans ho'
        exact ⟨a, if_pos rfl, hlength⟩
      · exact ⟨o', (if_neg hh).trans ho', rfl⟩
  cases hy with
  | register hi' hstack' hk' =>
    rw [← platform_store m x b]
    exact .register hi' hstack' hk'
  | payload ho' hpos' hi' hk' =>
    obtain ⟨o'', ho'', hlength⟩ := hkept ho'
    rw [← ((stays_setWord m _ _).address_eq ho'').2]
    exact .payload ho'' hpos' (hlength ▸ hi') hk'

/-- When the first of some bytes is stored, the others may still be. -/
theorem exposes_rest (hm : m.Mapped) (hlength : (b :: bytes).length ≤ 8)
    (hbytes : ∀ x, (x - A).toNat < (b :: bytes).length → m.Exposes x) :
    m.Exposes A ∧ ∀ x, (x - (A + 1)).toNat < bytes.length → (ByteMemory.store m A b).Exposes x := by
  rw [List.length_cons] at hlength hbytes
  have hA : m.Exposes A := hbytes A (by simp)
  refine ⟨hA, fun x hx => ?_⟩
  have hxA : x ≠ A := by
    rintro rfl
    rw [toNat_self_sub] at hx
    omega
  have hnext := toNat_sub_add_one hxA
  exact hA.store hm b (hbytes x (by omega))

/-- Bytes that are stored one after another change themselves and no other. The induction is on these
bytes. -/
theorem load_storeBytes (hm : m.Mapped) (hlength : bytes.length ≤ 8)
    (hbytes : ∀ x, (x - A).toNat < bytes.length → m.Exposes x) (y : UInt64) :
    ByteMemory.load (ByteMemory.storeBytes m A bytes) y =
      if (y - A).toNat < bytes.length then bytes.getD (y - A).toNat 0 else ByteMemory.load m y := by
  induction bytes generalizing m A with
  | nil => simp [ByteMemory.storeBytes]
  | cons b rest ih =>
    obtain ⟨hA, hrest⟩ := exposes_rest hm hlength hbytes
    rw [List.length_cons] at hlength
    rw [ByteMemory.storeBytes, ih (hm.store A b) (by omega) hrest, load_store hm hA]
    by_cases hy : y = A
    · subst hy
      have hlast : ¬ (y - (y + 1)).toNat < rest.length := by
        rw [toNat_self_sub]
        omega
      have hfirst : (y - y).toNat = 0 := by
        rw [UInt64.sub_self]
        rfl
      rw [if_neg hlast, if_pos rfl, hfirst, List.length_cons, if_pos (Nat.succ_pos _), List.getD_cons_zero]
    · have hnext := toNat_sub_add_one hy
      simp [← hnext, hy]

theorem Mapped.storeBytes (hm : m.Mapped) (A : UInt64) (bytes : Bytes) :
    (ByteMemory.storeBytes m A bytes).Mapped := by
  induction bytes generalizing m A with
  | nil => exact hm
  | cons b rest ih => exact ih (hm.store A b) (A + 1)

theorem forall_spans {p : UInt64 → Prop} (hp : ∀ x, Spans A x → p x) (w : UInt64) :
    ∀ x, (x - A).toNat < (wordBytes w).length → p x := by
  rw [length_wordBytes]
  exact hp

theorem load_storeWord (hm : m.Mapped) (hword : ∀ x, Spans A x → m.Exposes x) (w y : UInt64) :
    ByteMemory.load (ByteMemory.storeWord m A w) y =
      if (y - A).toNat < 8 then wordByte w (y - A).toNat else ByteMemory.load m y := by
  have hlength := length_wordBytes w
  rw [ByteMemory.storeWord, load_storeBytes hm hlength.le (forall_spans hword w), hlength]
  rfl

/-- A word that was stored is read back, wherever it lies. -/
theorem loadWord_storeWord (hm : m.Mapped) (hword : ∀ x, Spans A x → m.Exposes x) (w : UInt64) :
    ByteMemory.loadWord (ByteMemory.storeWord m A w) A = w := by
  apply eq_of_wordByte
  intro k hk
  rw [ByteMemory.wordByte_loadWord _ _ hk, load_storeWord hm hword, toNat_add_sub (by omega), if_pos hk]

/-- A byte that was stored is replaced in every word that has it. -/
theorem wordByte_loadWord_store (hm : m.Mapped) (hx : m.Exposes x) (b : UInt8) (A : UInt64) (hk : k < 8) :
    wordByte (ByteMemory.loadWord (ByteMemory.store m x b) A) k =
      if A + k.toUInt64 = x then b else wordByte (ByteMemory.loadWord m A) k := by
  rw [ByteMemory.wordByte_loadWord _ _ hk, ByteMemory.wordByte_loadWord _ _ hk, load_store hm hx]

/-! ## Memory that is left alone -/

/-- A word stays as it is while nothing is written to memory. It is not that of the stack, and if it
belongs to a slot or a cell then to one that no collection empties. -/
inductive Settled (m : Machine) : Location → Prop
  | register {i : ℕ} (hstack : i ≠ 7) : Settled m (.register i)
  | slot {h : Handle} {o : Object} (ho : m.object? h = some o) (hreach : m.heap.Reaches (.nil :: m.roots) h) :
      Settled m (.slot h.slot)
  | cell {h : Handle} {o : Object} {i : ℕ} (ho : m.object? h = some o)
      (hreach : m.heap.Reaches (.nil :: m.roots) h) : Settled m (.cell h.slot i)

/-- The byte at an address is one of a word that stays as it is, or it is one of none, before and after. -/
def Retains (m m' : Machine) (x : UInt64) : Prop :=
  m.Settled (locate m.heap x).1 ∨ (locate m.heap x).1 = .unmapped ∧ (locate m'.heap x).1 = .unmapped

/-- A machine goes on, and writes nothing to memory: an object is made, or what is not reached is
collected, or the stack becomes another one, or something changes that is not in memory. -/
inductive Continues : Machine → Machine → Prop
  | allocate {m m' : Machine} {o : Object} {h : Handle} (hrun : allocate o m = .ok h m') : Continues m m'
  | collect {m m' : Machine} {freed : ℕ} (hrun : collect m = .ok freed m') : Continues m m'
  | restack (m : Machine) (stack : Handle) : Continues m (m.restack stack)
  | other {m m' : Machine} (hheap : m'.heap = m.heap) (hregisters : m'.registers = m.registers) :
      Continues m m'

/-- A machine goes on for some time, and meanwhile none of some bytes is lost and nothing comes to overlap. -/
inductive Elapses (S : UInt64 → Prop) : Machine → Machine → Prop
  | refl (m : Machine) : Elapses S m m
  | step {m m' m'' : Machine} (hbefore : Elapses S m m') (hretains : ∀ x, S x → m'.Retains m'' x)
      (hapart : m''.Apart) (hstep : m'.Continues m'') : Elapses S m m''

/-- Objects that are reached are still there and in the same cells, and so are the words of the state
block, but for the stack. -/
structure Carries (m m' : Machine) : Prop where
  word_eq : ∀ i ≠ 7, m'.registers.word i = m.registers.word i
  spared : ∀ {h o}, m.heap.Reaches (.nil :: m.roots) h → m.object? h = some o →
    m'.object? h = some o ∧ m'.heap.cell h.slot = m.heap.cell h.slot
  regular : m'.heap.Regular
  represented : m'.heap.Represented
  capacity_eq : m'.heap.capacity = m.heap.capacity
  platform_eq : m'.heap.platform = m.heap.platform

theorem Spares.carries (hspares : Spares [] m m') (hm : m.heap.Regular) (hheap : m'.heap.Represented) :
    Carries m m' where
  word_eq i _ := by rw [hspares.rest_eq]
  spared hreach ho := hspares.spared ho hreach
  regular := hspares.regular hm
  represented := hheap
  capacity_eq := hspares.capacity_eq
  platform_eq := hspares.platform_eq

/-- Objects and cells stay in step whatever is written to memory. -/
theorem withstands_represented : Withstands (fun _ => True) fun m => m.heap.Represented where
  invariant _ :=
    { congr := fun hheap _ _ _ hm => hheap ▸ hm
      place := fun _ hfree _ hm => hm.place hfree _
      collect := fun hm => hm.collect _ }
  poke hm := hm.modify _ _
  write _ _ _ hm := represented_storeBytes hm _ _

theorem Continues.carries (hstep : m.Continues m') (hm : m.heap.Regular) (hheap : m.heap.Represented) :
    Carries m m' := by
  cases hstep with
  | @allocate _ o h hrun =>
    have hspares : Spares [] m (after (Machine.allocate o) m) := sparing_allocate o hm
    have hallocate : Regardless (Sustains (fun _ => True) fun m => m.heap.Represented) Handle []
        (Machine.allocate o) m := (withstands_represented.invariant False).elementary.allocate nofun
    have hheap' := (hallocate (fun _ _ => trivial) hheap).1
    rw [after_of_ok hrun] at hspares hheap'
    exact hspares.carries hm hheap'
  | collect hrun =>
    obtain ⟨events, hcollect⟩ := run_collect m
    rw [hrun] at hcollect
    cases hcollect
    exact (spares_collect hm.unmarked [] events).carries hm (hheap.collect _)
  | restack stack =>
    refine ⟨fun i hi => ?_, fun _ ho => ⟨ho, rfl⟩, hm, hheap, rfl, rfl⟩
    exact (Registers.word_setWord m.registers stack.raw (i := 7) (by decide) i).trans (if_neg hi)
  | other hsame hregisters =>
    refine ⟨fun i _ => by rw [hregisters], fun {h o} _ ho => ?_, hsame ▸ hm, hsame ▸ hheap, by rw [hsame],
      by rw [hsame]⟩
    rw [object?, hsame]
    exact ⟨ho, rfl⟩

theorem Carries.word_eq_of_settled (hcarries : Carries m m') (hl : m.Settled l) : m'.word l = m.word l := by
  cases hl with
  | register hstack => exact hcarries.word_eq _ hstack
  | slot ho hreach => rw [word, word, (hcarries.spared hreach ho).2]
  | cell ho hreach => rw [word, word, (hcarries.spared hreach ho).2]

/-- A word that stays as it is stays where it is. -/
theorem Carries.locate_eq (hcarries : Carries m m') (hapart : m'.Apart) (hx : m.Settled (locate m.heap x).1) :
    locate m'.heap x = locate m.heap x := by
  simp only [locate] at hx ⊢
  rw [hcarries.platform_eq, hcarries.capacity_eq]
  split
  · rfl
  rename_i hblock
  rw [if_neg hblock] at hx
  split
  · rfl
  rename_i htable
  rw [if_neg htable] at hx
  cases hfind : m.heap.cells.findIdx? (·.covers x) with
  | none =>
    rw [hfind] at hx
    cases hx
  | some s =>
    rw [hfind] at hx
    have hcovers := covers_of_findIdx? hfind
    cases hx with
    | cell ho hreach =>
      obtain ⟨ho', hcell⟩ := hcarries.spared hreach ho
      rw [findIdx?_covers hcarries.represented hapart ho' (by rw [hcell]; exact hcovers)]
      simp only [hcell]

theorem Carries.load_eq (hcarries : Carries m m') (hapart : m'.Apart) (hx : m.Retains m' x) :
    ByteMemory.load m' x = ByteMemory.load m x := by
  rcases hx with hx | ⟨hbefore, hafter⟩
  · simp only [ByteMemory.load, hcarries.locate_eq hapart hx, hcarries.word_eq_of_settled hx]
  · have hzero : ∀ k, wordByte 0 k = 0 := by
      intro k
      by_cases hk : k < 8
      · interval_cases k <;> rfl
      · rw [wordByte, List.getD_eq_getElem?_getD, List.getElem?_eq_none (by rw [length_wordBytes]; omega)]
        rfl
    simp only [ByteMemory.load, hbefore, hafter, word, hzero]

/-- Bytes stay the same for all the time that none of them is lost. The induction is on the steps. -/
theorem Elapses.load_eq {S : UInt64 → Prop} (helapses : Elapses S m m') (hm : m.Mapped) :
    ∀ x, S x → ByteMemory.load m' x = ByteMemory.load m x := by
  have hall : m'.Mapped ∧ ∀ x, S x → ByteMemory.load m' x = ByteMemory.load m x := by
    induction helapses with
    | refl => exact ⟨hm, fun _ _ => rfl⟩
    | step _ hretains hapart hstep ih =>
      obtain ⟨hmapped, hload⟩ := ih
      have hcarries := hstep.carries hmapped.regular hmapped.represented
      refine ⟨⟨hcarries.regular, hcarries.represented, hapart⟩, fun x hx => ?_⟩
      rw [hcarries.load_eq hapart (hretains x hx), hload x hx]
  exact hall.2

/-! ## Operations on memory -/

theorem natural?_of_toInt_eq {offset : Int64} (hk : offset.toInt = k) : natural? offset = some k := by
  rw [natural?_eq, hk, if_neg (by omega), Int.toNat_natCast]

theorem toNat_toUInt8 (value : Int64) : value.toUInt64.toUInt8.toNat = (value.toInt % 256).toNat := by
  have hvalue : value.toInt = value.toUInt64.toNat ∨ value.toInt = (value.toUInt64.toNat : ℤ) - 2 ^ 64 := by
    rw [← Int64.toInt_toBitVec, BitVec.toInt_eq_toNat_cond]
    split
    · exact .inl rfl
    · exact .inr rfl
  rw [UInt64.toNat_toUInt8]
  omega

section Operations

variable {n n' n'' : Machine} {env string : Handle} {offset value : Int64} {buffer : Buffer}

theorem run_stringPeek (hoffset : popNumber n = .ok offset n') (hstring : pop n' = .ok string m)
    (ho : m.object? string = some (.string buffer)) :
    perform .stringPeek env n = (do
      pushNumber (Int64.ofNat (((natural? offset).bind (buffer.get? m)).getD 0).toNat)
      return env : Run Handle) m := by
  rw [perform, Run.run_bind_of_ok rfl, effect, peekString, Run.bind_assoc, Run.run_bind_of_ok hoffset,
    Run.bind_assoc, Run.run_bind_of_ok hstring, Run.bind_assoc, Run.run_bind_of_ok rfl, Run.bind_assoc,
    Run.run_bind_of_ok rfl, ho]

theorem run_stringPoke (hvalue : popNumber n = .ok value n') (hoffset : popNumber n' = .ok offset n'')
    (hstring : pop n'' = .ok string m) (ho : m.object? string = some (.string buffer)) :
    perform .stringPoke env n =
      .ok env (((natural? offset).map (m.pokeBuffer string buffer · value.toUInt64.toUInt8)).getD m) := by
  rw [perform, Run.run_bind_of_ok rfl, effect, pokeString, Run.bind_assoc, Run.run_bind_of_ok hvalue,
    Run.bind_assoc, Run.run_bind_of_ok hoffset, Run.bind_assoc, Run.run_bind_of_ok hstring, Run.bind_assoc,
    Run.run_bind_of_ok rfl, Run.bind_assoc, Run.run_bind_of_ok rfl, ho]
  cases natural? offset with
  | none => rfl
  | some k => rfl

theorem run_memoryView {size address : Int64} {k : ℕ} (hsize : popNumber n = .ok size n')
    (haddress : popNumber n' = .ok address m) (hk : size.toInt = k) :
    perform .memoryView env n =
      (do push (← allocate (.string (.view address.toUInt64 k))); return env : Run Handle) m := by
  rw [perform, Run.run_bind_of_ok rfl, effect, viewMemory, Run.bind_assoc, Run.run_bind_of_ok hsize,
    Run.bind_assoc, Run.run_bind_of_ok haddress, natural?_of_toInt_eq hk]
  dsimp only
  rw [Run.bind_assoc]

/-- Reading the word at an address gives a number. -/
def ReadsWord (m : Machine) (address word : Int64) : Prop :=
  ∀ env n, popNumber n = .ok address m →
    perform .readWord env n = (do pushNumber word; return env : Run Handle) m

/-- Peeking at a byte through any window onto it gives a number. -/
def ShowsByte (m : Machine) (x : UInt64) (byte : ℕ) : Prop :=
  ∀ string base size, m.object? string = some (.string (.view base size)) →
    ∀ (offset : Int64) (i : ℕ), offset.toInt = i → i < size → base + i.toUInt64 = x →
    ∀ env n n', popNumber n = .ok offset n' → pop n' = .ok string m →
      perform .stringPeek env n = (do pushNumber (Int64.ofNat byte); return env : Run Handle) m

theorem readsWord_loadWord (m : Machine) (address : Int64) :
    m.ReadsWord address (ByteMemory.loadWord m address.toUInt64).toInt64 := fun _ _ => run_readWord

theorem showsByte_load (m : Machine) (x : UInt64) : m.ShowsByte x (ByteMemory.load m x).toNat := by
  intro string base size ho offset i hi hlt hx env n n' hoffset hstring
  rw [run_stringPeek hoffset hstring ho, natural?_of_toInt_eq hi, Option.bind_some, Buffer.get?,
    if_pos hlt, hx, Option.getD_some]

/-- A word was stored. It is read back, and so is each of its bytes, the least significant first, for as
long as they are not lost. No other byte has changed. -/
structure StoresWord (address word : Int64) (m m' : Machine) : Prop where
  write : ∀ env n n', popNumber n = .ok word n' → popNumber n' = .ok address m →
    perform .writeWord env n = .ok env m'
  read : ∀ later, Elapses (Spans address.toUInt64) m' later → later.ReadsWord address word
  peek : ∀ j < 8, ∀ later, Elapses (· = address.toUInt64 + j.toUInt64) m' later →
    later.ShowsByte (address.toUInt64 + j.toUInt64) (word.toUInt64.toNat / 256 ^ j % 256)
  others : ∀ x, ¬ Spans address.toUInt64 x → ByteMemory.load m' x = ByteMemory.load m x ∧
    ∀ later, Elapses (· = x) m' later → later.ShowsByte x (ByteMemory.load m x).toNat

/-- A byte was stored through a string. It is replaced in every word that has it, and no other byte has
changed. -/
structure StoresByte (string : Handle) (offset value : Int64) (x : UInt64) (m m' : Machine) : Prop where
  poke : ∀ env n n' n'', popNumber n = .ok value n' → popNumber n' = .ok offset n'' → pop n'' = .ok string m →
    perform .stringPoke env n = .ok env m'
  read : ∀ address, m.ReadsWord address (ByteMemory.loadWord m address.toUInt64).toInt64 ∧
    ∀ later, Elapses (Spans address.toUInt64) m' later →
      later.ReadsWord address (ByteMemory.loadWord m' address.toUInt64).toInt64
  bytes : ∀ a k, k < 8 → (ByteMemory.loadWord m' a).toNat / 256 ^ k % 256 =
    if a + k.toUInt64 = x then (value.toInt % 256).toNat else (ByteMemory.loadWord m a).toNat / 256 ^ k % 256
  others : ∀ y, y ≠ x → ByteMemory.load m' y = ByteMemory.load m y

/-- An offset is outside a string. Zero is read there, and nothing is written. -/
structure Misses (string : Handle) (offset : Int64) (m : Machine) : Prop where
  peek : ∀ env n n', popNumber n = .ok offset n' → pop n' = .ok string m →
    perform .stringPeek env n = (do pushNumber 0; return env : Run Handle) m
  poke : ∀ value env n n' n'', popNumber n = .ok value n' → popNumber n' = .ok offset n'' →
    pop n'' = .ok string m → perform .stringPoke env n = .ok env m

theorem Elapses.readsWord {later : Machine} {address : Int64}
    (helapses : Elapses (Spans address.toUInt64) m later)
    (hm : m.Mapped) : later.ReadsWord address (ByteMemory.loadWord m address.toUInt64).toInt64 := by
  rw [← ByteMemory.loadWord_congr (helapses.load_eq hm)]
  exact readsWord_loadWord later address

theorem Elapses.showsByte {later : Machine} (helapses : Elapses (· = x) m later) (hm : m.Mapped) :
    later.ShowsByte x (ByteMemory.load m x).toNat := by
  rw [← helapses.load_eq hm x rfl]
  exact showsByte_load later x

theorem storesWord_of_exposes (hm : m.Mapped) {address : Int64}
    (hword : ∀ x, Spans address.toUInt64 x → m.Exposes x) (word : Int64) :
    StoresWord address word m (ByteMemory.storeWord m address.toUInt64 word.toUInt64) := by
  have hmapped : (ByteMemory.storeWord m address.toUInt64 word.toUInt64).Mapped := hm.storeBytes _ _
  have hload := load_storeWord hm hword word.toUInt64
  constructor
  case write => exact fun env n n' => run_writeWord
  case read =>
    intro later helapses
    have hreads := helapses.readsWord hmapped
    rw [loadWord_storeWord hm hword, Int64.toInt64_toUInt64] at hreads
    exact hreads
  case peek =>
    intro j hj later helapses
    have hshows := helapses.showsByte hmapped
    rw [hload, toNat_add_sub (by omega), if_pos hj, toNat_wordByte _ hj] at hshows
    exact hshows
  case others =>
    intro x hx
    have hsame := (hload x).trans (if_neg hx)
    refine ⟨hsame, fun later helapses => ?_⟩
    rw [← hsame]
    exact helapses.showsByte hmapped

theorem storesByte_of_exposes (hm : m.Mapped) {base : UInt64} {size : ℕ}
    (ho : m.object? string = some (.string (.view base size))) (hk : offset.toInt = k) (hlt : k < size)
    (hx : m.Exposes (base + k.toUInt64)) (value : Int64) :
    StoresByte string offset value (base + k.toUInt64) m
      (ByteMemory.store m (base + k.toUInt64) value.toUInt64.toUInt8) := by
  constructor
  case poke =>
    intro env n n' n'' hvalue hoffset hstring
    rw [run_stringPoke hvalue hoffset hstring ho, natural?_of_toInt_eq hk]
    simp only [Option.map_some, Option.getD_some, pokeBuffer, Buffer.set, if_pos hlt]
  case read =>
    intro address
    exact ⟨readsWord_loadWord m address, fun later helapses => helapses.readsWord (hm.store _ _)⟩
  case bytes =>
    intro a j hj
    rw [← toNat_wordByte _ hj, wordByte_loadWord_store hm hx _ _ hj, ← toNat_wordByte _ hj, ← toNat_toUInt8]
    split <;> rfl
  case others =>
    intro y hy
    rw [load_store hm hx, if_neg hy]

theorem get?_of_size_le {μ : Type} [ByteMemory μ] (mem : μ) (hsize : buffer.size ≤ k) :
    buffer.get? mem k = none := by
  cases buffer with
  | owned bytes => exact Array.getElem?_eq_none hsize
  | view address length => exact if_neg hsize.not_gt

theorem pokeBuffer_of_size_le (hheap : m.heap.Represented)
    (ho : m.object? string = some (.string buffer)) (hsize : buffer.size ≤ k) (b : UInt8) :
    m.pokeBuffer string buffer k b = m := by
  cases buffer with
  | owned bytes =>
    have hset : bytes.setIfInBounds k b = bytes := Array.setIfInBounds_eq_of_size_le hsize
    simp only [pokeBuffer, Buffer.set, hset]
    rw [hheap.put_self ho]
  | view address length =>
    have hout : ¬ k < length := hsize.not_gt
    simp only [pokeBuffer, Buffer.set, if_neg hout]

theorem misses_of_outside (hheap : m.heap.Represented) (ho : m.object? string = some (.string buffer))
    (hout : offset.toInt < 0 ∨ (buffer.size : ℤ) ≤ offset.toInt) : Misses string offset m := by
  have hnatural : ∀ k, natural? offset = some k → buffer.size ≤ k := by
    intro k hk
    rw [natural?_eq] at hk
    split at hk
    · cases hk
    · cases hk
      omega
  constructor
  case peek =>
    intro env n n' hoffset hstring
    have hnone : (natural? offset).bind (buffer.get? m) = none :=
      Option.bind_eq_none_iff.mpr fun k hk => get?_of_size_le m (hnatural k hk)
    rw [run_stringPeek hoffset hstring ho, hnone]
    rfl
  case poke =>
    intro value env n n' n'' hvalue hoffset hstring
    rw [run_stringPoke hvalue hoffset hstring ho]
    cases hk : natural? offset with
    | none => rfl
    | some k => rw [Option.map_some, Option.getD_some, pokeBuffer_of_size_le hheap ho (hnatural k hk)]

end Operations

/-- Words and bytes of memory agree where memory may be overwritten, the word of the stack apart. A word
may lie anywhere there, also across two words of the machine. It is read back as it was written, and
through any window each of its bytes is seen, the least significant first; no other byte has changed. A
byte that is written through a window is replaced in every word that has it, and in no other way is any
word changed. An offset that is negative or outside a string reads zero and writes nothing.

The cells have to hold the objects, and they do so in every state that a machine with raw access comes to,
whatever it writes. -/
theorem words_bytes_agree :
    (∀ {platform} {m : Machine}, m.Tampered platform (fun _ => True) → m.heap.Represented) ∧
    ∀ {m : Machine}, m.heap.Regular → m.heap.Represented → m.Apart →
    (∀ address word : Int64, (∀ x, Spans address.toUInt64 x → m.Exposes x) →
      StoresWord address word m (ByteMemory.storeWord m address.toUInt64 word.toUInt64)) ∧
    (∀ (size address : Int64) (k : ℕ), size.toInt = k → ∀ env n n', popNumber n = .ok size n' →
      popNumber n' = .ok address m → perform .memoryView env n =
        (do push (← allocate (.string (.view address.toUInt64 k))); return env : Run Handle) m) ∧
    (∀ string base size, m.object? string = some (.string (.view base size)) →
      ∀ (offset value : Int64) (k : ℕ), offset.toInt = k → k < size →
      m.Exposes (base + k.toUInt64) →
      StoresByte string offset value (base + k.toUInt64) m
        (ByteMemory.store m (base + k.toUInt64) value.toUInt64.toUInt8)) ∧
    ∀ string buffer, m.object? string = some (.string buffer) →
      ∀ offset : Int64, offset.toInt < 0 ∨ (buffer.size : ℤ) ≤ offset.toInt → Misses string offset m := by
  refine ⟨fun {platform m} hm => ?_, fun {m} hm hheap hapart => ?_⟩
  · exact withstands_represented.of_tampered
      (fun slots source sink tracing =>
        (charted_prepare platform (fun _ => True) slots source sink tracing).represented) hm
  have hmapped : m.Mapped := ⟨hm, hheap, hapart⟩
  refine ⟨fun address word hword => storesWord_of_exposes hmapped hword word, ?_, ?_, ?_⟩
  · intro size address k hk env n n' hsize haddress
    exact run_memoryView hsize haddress hk
  · intro string base size ho offset value k hk hlt hx
    exact storesByte_of_exposes hmapped ho hk hlt hx value
  · intro string buffer ho offset hout
    exact misses_of_outside hheap ho hout

/-- The address of the upper half of the car and the lower half of the cdr of the pair in the fifth slot. -/
def straddle : Int64 := (({} : Platform).cell 5 + 12).toInt64

/-- A machine that holds a pair, and has numbers and a window onto a part of the pair. -/
def windowed : Machine :=
  let m := blank 256 [] {} false {}
  let objects : List Object := [.nil, .number 0x0807060504030201, .number straddle, .pair (.ofSlot 2) .nil,
    .pair (.ofSlot 1) (.ofSlot 3), .pair (.ofSlot 1) (.ofSlot 2), .string (.view straddle.toUInt64 8)]
  { m with
    heap := { m.heap with
      slots := (objects.map some).toArray
      marks := Marks.empty 7
      live := 7
      stats := { allocated := 6 }
      cells := (objects.mapIdx fun s o => (Cell.clean (({} : Platform).cell s)).hold o).toArray }
    registers := { m.registers with env := .ofSlot 5 } }

/-- The machine after a word was stored across the two halves. -/
def crossed : Machine := ByteMemory.storeWord windowed straddle.toUInt64 0x0807060504030201

/-- Objects that were made one after another, and none of them collected, lie where they should. -/
theorem represented_of_objects {heap : Heap} {objects : List Object}
    (hslots : heap.slots = (objects.map some).toArray)
    (hcells : heap.cells = (objects.mapIdx fun s o => (Cell.clean (heap.platform.cell s)).hold o).toArray)
    (hsize : objects.length ≤ heap.stats.allocated + 1) : heap.Represented ∧ heap.Housed := by
  have hslot : ∀ {s o}, heap.slot? s = some o ↔ objects[s]? = some o := by
    intro s o
    rw [Heap.slot?_eq_some_iff, hslots]
    simp
  have hcell : ∀ {s o}, objects[s]? = some o →
      heap.cell s = (Cell.clean (heap.platform.cell s)).hold o := by
    intro s o ho
    simp [Heap.cell, hcells, ho]
  refine ⟨⟨by simp [hslots, hcells, Heap.capacity], fun {s} hs => ?_, fun {s o} hs => ?_⟩,
    id, fun {s o} hs => ?_, fun _ _ heq => heq⟩
  · have hnone : objects[s]? = none := by
      by_contra hsome
      obtain ⟨o, ho⟩ := Option.ne_none_iff_exists'.mp hsome
      rw [hslot.mpr ho] at hs
      cases hs
    simp [Heap.cell, hcells, hnone, Cell.vacant, Cell.clean]
  · rw [hcell (hslot.mp hs)]
    exact Cell.holds_hold _ _
  · have hlt := (List.getElem?_eq_some_iff.mp (hslot.mp hs)).1
    rw [hcell (hslot.mp hs), Cell.address_hold]
    exact ⟨by simp only [id]; omega, rfl⟩

theorem mapped_windowed : windowed.Mapped := by
  obtain ⟨hrepresented, hhoused⟩ : windowed.heap.Represented ∧ windowed.heap.Housed :=
    represented_of_objects rfl rfl (by decide)
  exact ⟨⟨rfl, by decide⟩, hrepresented, apart_of_housed rfl hhoused (by decide) (by decide)⟩

theorem mapped_crossed : crossed.Mapped := mapped_windowed.storeBytes _ _

theorem object?_windowed : windowed.object? .nil = some .nil ∧
    windowed.object? (.ofSlot 1) = some (.number 0x0807060504030201) ∧
    windowed.object? (.ofSlot 2) = some (.number straddle) ∧
    windowed.object? (.ofSlot 3) = some (.pair (.ofSlot 2) .nil) ∧
    windowed.object? (.ofSlot 4) = some (.pair (.ofSlot 1) (.ofSlot 3)) ∧
    windowed.object? (.ofSlot 5) = some (.pair (.ofSlot 1) (.ofSlot 2)) ∧
    windowed.object? (.ofSlot 6) = some (.string (.view straddle.toUInt64 8)) ∧
    (windowed.heap.cell (Handle.ofSlot 5).slot).address = ({} : Platform).cell 5 ∧
    windowed.registers.stack = .nil := by
  decide +kernel

theorem object?_crossed : crossed.object? .nil = some .nil ∧
    crossed.object? (.ofSlot 2) = some (.number straddle) ∧
    crossed.object? (.ofSlot 3) = some (.pair (.ofSlot 2) .nil) ∧
    crossed.object? (.ofSlot 5) = some (.pair ⟨0x0403020100000001⟩ ⟨0x08070605⟩) ∧
    (crossed.heap.cell (Handle.ofSlot 5).slot).address = ({} : Platform).cell 5 ∧
    crossed.registers.stack = .nil ∧ crossed.registers.env = .ofSlot 5 := by
  decide +kernel

/-- The bytes there are those of two words of the pair. -/
theorem straddle_places {x : UInt64} (hx : Spans straddle.toUInt64 x) :
    ∃ i k, 0 < i ∧ i < 3 ∧ k < 8 ∧ x = ({} : Platform).cell 5 + 8 * i.toUInt64 + k.toUInt64 := by
  have hplaces : ∀ j < 8, ∃ i < 3, 0 < i ∧ ∃ k < 8, straddle.toUInt64 + j.toUInt64 =
      ({} : Platform).cell 5 + 8 * i.toUInt64 + k.toUInt64 := by
    decide +kernel
  obtain ⟨i, hi, hpos, k, hk, hplace⟩ := hplaces _ hx
  rw [add_toNat_sub] at hplace
  exact ⟨i, k, hpos, hi, hk, hplace⟩

theorem restack_self (m : Machine) : m.restack m.registers.stack = m := rfl

theorem run_popNumber_restack {stack top rest : Handle} {v : Int64} (hnil : m.object? .nil = some .nil)
    (ho : m.object? stack = some (.pair top rest)) (hv : m.object? top = some (.number v)) :
    popNumber (m.restack stack) = .ok v (m.restack rest) := by
  have hpop : pop (m.restack stack) = .ok top (m.restack rest) := run_pop (m := m.restack stack) hnil ho
  have hnumber : (m.restack rest).numberOrZero top = v := by
    rw [numberOrZero_restack, numberOrZero, number?, hv]
    rfl
  rw [popNumber, Run.run_bind_of_ok hpop, Run.run_bind_of_ok rfl, Run.run_bind_of_ok rfl, Run.run_pure,
    hnumber]

/-- The word lies across two words of a pair. It is read back, also after a collection, since the pair
is held. -/
theorem words_bytes_agree_windowed : windowed.heap.Regular ∧ windowed.heap.Represented ∧ windowed.Apart ∧
    (∀ x, Spans straddle.toUInt64 x → windowed.Exposes x) ∧
    perform .writeWord .nil (windowed.restack (.ofSlot 4)) = .ok .nil crossed ∧
    crossed.object? (.ofSlot 5) = some (.pair ⟨0x0403020100000001⟩ ⟨0x08070605⟩) ∧
    perform .readWord .nil (crossed.restack (.ofSlot 3)) =
      (do pushNumber 0x0807060504030201; return .nil : Run Handle) crossed ∧
    (∃ freed later, collect crossed = .ok freed later ∧ later.ReadsWord straddle 0x0807060504030201) ∧
    StoresByte (.ofSlot 6) 3 (-1) (straddle.toUInt64 + 3) windowed
      (ByteMemory.store windowed (straddle.toUInt64 + 3) 255) ∧
    Misses (.ofSlot 6) 8 windowed ∧ Misses (.ofSlot 6) (-1) windowed := by
  have hmapped := mapped_windowed
  have hmapped' := mapped_crossed
  obtain ⟨hnil, hone, hnumber, haddress, hoperands, hpair, hwindow, hcell, hstack⟩ := object?_windowed
  obtain ⟨hnil', hnumber', haddress', hpair', hcell', hstack', henv'⟩ := object?_crossed
  have hword : ∀ x, Spans straddle.toUInt64 x → windowed.Exposes x := by
    intro x hx
    obtain ⟨i, k, hpos, hi, hk, rfl⟩ := straddle_places hx
    rw [← hcell]
    exact .payload hpair hpos hi hk
  have hretains : ∀ x, Spans straddle.toUInt64 x → crossed.Settled (locate crossed.heap x).1 := by
    intro x hx
    obtain ⟨i, k, hpos, hi, hk, rfl⟩ := straddle_places hx
    rw [← hcell', liesAt_cell hmapped'.represented hmapped'.apart hpair' hi k hk]
    exact .cell hpair' (.root (by simp [roots, Registers.roots, henv']))
  obtain ⟨hwords, -, hbytes, hout⟩ :=
    words_bytes_agree.2 hmapped.regular hmapped.represented hmapped.apart
  have hstores : StoresWord straddle 0x0807060504030201 windowed crossed := hwords _ _ hword
  have hpop : popNumber (crossed.restack (.ofSlot 3)) = .ok straddle crossed := by
    rw [run_popNumber_restack hnil' haddress' hnumber', ← hstack', restack_self]
  obtain ⟨events, hcollect⟩ := run_collect crossed
  refine ⟨hmapped.regular, hmapped.represented, hmapped.apart, hword, ?_, hpair', ?_, ?_, ?_, ?_, ?_⟩
  · refine hstores.write _ _ _ (run_popNumber_restack hnil hoperands hone) ?_
    rw [run_popNumber_restack hnil haddress hnumber, ← hstack, restack_self]
  · exact hstores.read _ (.refl _) _ _ hpop
  · refine ⟨_, _, hcollect, hstores.read _
      (.step (.refl _) (fun x hx => .inl (hretains x hx)) ?_ (.collect hcollect))⟩
    exact hmapped'.apart.of_stays (Heap.stays_collect _ _)
  · exact hbytes (.ofSlot 6) straddle.toUInt64 8 hwindow 3 (-1) 3 (by decide) (by decide)
      (hword _ (spans_add (by decide)))
  · exact hout _ _ hwindow 8 (by decide)
  · exact hout _ _ hwindow (-1) (by decide)

end Machine

end PushLisp
