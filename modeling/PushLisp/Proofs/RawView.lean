import PushLisp.Proofs.Balance
import PushLisp.Proofs.Elementary
import PushLisp.Proofs.EmptyScope
import PushLisp.Proofs.RawMemory
import PushLisp.Proofs.Walks

/-!
# Objects seen as memory

A program with raw access finds the objects in memory. The state block tells where the slot table is, the
table tells where the cell of each object is, and the cell shows the kind and the payload. What is written
there is at once what the machine goes by. This is so wherever the platform places cells, and whatever is
made, collected and overwritten meanwhile.

Raw access can break this in one way only, as long as it keeps to the state block and to the words of numbers,
pairs and closures. The machine itself never looks at the word that tells where the slot table is. A program
that overwrites this word misleads nobody but itself, and from then on finds no cells where it looks for them.

## Main definitions

* `Machine.rawWrite`: what a builtin is about to write to memory.
* `Machine.AllowsBytes`: bytes that may be written.
* `Machine.Tampered`: the states that programs with raw access lead to which write only what they may.
* `Machine.Withstands`: a property that is not lost by such writes.
* `Machine.Charted`: the state block tells where the slot table is, and the cells hold the objects.

## Main statements

* `Machine.Withstands.of_tampered`: what every permitted step keeps is true of all states.
* `Machine.charted_of_tampered`: objects and cells stay in step, and the slot table where it is.
* `Machine.views_agree`: objects and memory tell the same.
* `Machine.overwritten_misleads`: a program that overwrites the address of the slot table.
-/
namespace PushLisp

namespace Machine

/-- The address and the bytes that a builtin is about to write to memory, if it writes any, once it has taken
its operands. A string is written to memory if it is a window onto it. -/
def rawWrite : Builtin → Run (Option (UInt64 × Bytes))
  | .writeWord => do
    let word ← popNumber
    let address ← popNumber
    return some (address.toUInt64, wordBytes word.toUInt64)
  | .stringPoke => do
    let value ← popNumber
    let offset ← popNumber
    let string ← pop
    match (← get).object? string, natural? offset with
    | some (.string (.view address length)), some n =>
      return if n < length then some (address + n.toUInt64, [value.toUInt64.toUInt8]) else none
    | _, _ => return none
  | _ => return none

/-- Whether a byte may be written at an address: in some words of the state block, and in the words of
numbers, pairs and closures if it leaves such an object. -/
def AllowsByte (words : ℕ → Prop) (m : Machine) (address : UInt64) (b : UInt8) : Prop :=
  match locate m.heap address with
  | (.register i, _) => words i
  | (.cell s i, k) =>
    ∃ o o', m.heap.slot? s = some o ∧ o.Rewritten i (setWordByte ((m.heap.cell s).word i) k b) o'
  | _ => False

/-- Whether bytes may be written from an address on, one after another. -/
def AllowsBytes (words : ℕ → Prop) (m : Machine) (address : UInt64) : Bytes → Prop
  | [] => True
  | b :: rest =>
    m.AllowsByte words address b ∧ (ByteMemory.store m address b).AllowsBytes words (address + 1) rest

end Machine

/-- A builtin that begins writes nothing that it may not. -/
def Moment.Permitted (words : ℕ → Prop) (t : Moment) : Prop :=
  ∀ b env, t.step = .performs b env → ∀ address bytes n,
    Machine.rawWrite b t.machine = .ok (some (address, bytes)) n → n.AllowsBytes words address bytes

namespace Machine

/-- The states that services of a machine with raw access on some platform lead to, when they have ended
and while they are under way, if every moment of theirs is permitted. -/
inductive Tampered (platform : Platform) (P : Moment → Prop) : Machine → Prop
  | start (slots : UInt64) (source : Bytes) (sink : Sink) (tracing : Bool) :
      Tampered platform P (after (prepare true) (blank slots.toNat source sink tracing platform))
  | ended {m : Machine} (service : Service) : Tampered platform P m →
      (∀ t, service.act.passes m t → P t) → Tampered platform P (after service.act m)
  | during {m : Machine} (service : Service) {t : Moment} : Tampered platform P m →
      (∀ t, service.act.passes m t → P t) → service.act.passes m t → Tampered platform P t.machine

variable {words : ℕ → Prop} {m : Machine} {address : UInt64} {bytes : Bytes} {b : UInt8}
  {base : List Handle} {platform : Platform} {P : Moment → Prop} {I : Machine → Prop}

/-! ## What writing to memory keeps -/

/-- A property of machines that stays true when objects are made, overwritten and collected, and when bytes
are written to memory as is permitted. -/
structure Withstands (P : Moment → Prop) (I : Machine → Prop) : Prop where
  invariant (poking : Prop) : Invariant poking P I
  poke : ∀ {m string bytes n b}, I m → I (m.pokeBuffer string (.owned bytes) n b)
  write : ∀ {t b env address bytes n}, P t → t.step = .performs b env →
    rawWrite b t.machine = .ok (some (address, bytes)) n → I n → I (ByteMemory.storeBytes n address bytes)

theorem rawWrite_writeWord {word address : Int64} {m₁ m₂ : Machine} (hword : popNumber m = .ok word m₁)
    (haddress : popNumber m₁ = .ok address m₂) :
    rawWrite .writeWord m = .ok (some (address.toUInt64, wordBytes word.toUInt64)) m₂ := by
  rw [rawWrite, Run.run_bind_of_ok hword, Run.run_bind_of_ok haddress, Run.run_pure]

theorem rawWrite_stringPoke {value offset : Int64} {string : Handle} {m₁ m₂ m₃ : Machine}
    {length n : ℕ} (hvalue : popNumber m = .ok value m₁) (hoffset : popNumber m₁ = .ok offset m₂)
    (hstring : pop m₂ = .ok string m₃)
    (hview : m₃.object? string = some (.string (.view address length)))
    (hn : natural? offset = some n) (hlt : n < length) :
    rawWrite .stringPoke m = .ok (some (address + n.toUInt64, [value.toUInt64.toUInt8])) m₃ := by
  rw [rawWrite, Run.run_bind_of_ok hvalue, Run.run_bind_of_ok hoffset, Run.run_bind_of_ok hstring,
    Run.run_bind_of_ok rfl, hview, hn]
  simp [hlt]

section Withstands

variable (H : Withstands P I)
include H

/-- A property withstands a builtin if it does its effect, given that it writes only what it may. -/
theorem sustains_perform_of_effect {b : Builtin} {env : Handle}
    (heffect : P ⟨.performs b env, m⟩ → Sustains P I (effect b env) m) : Sustains P I (perform b env) m := by
  have R := (H.invariant False).solitary.sequential
  intro hpermitted
  have hobserve : Sustains P I (observe (.performs b env)) m := (R.observe rfl : Regardless _ Unit [] _ m)
  refine hobserve.bind (fun hrun => ?_) hpermitted
  cases hrun
  exact heffect (hpermitted _ (.inl rfl))

theorem sustains_writeWord (env : Handle) :
    Sustains P I (perform .writeWord env) m := by
  have R := (H.invariant False).solitary.sequential
  have hnumber : ∀ {m}, Sustains P I popNumber m := fun {m} =>
    (R.popNumber : Regardless _ Int64 [] popNumber m)
  refine sustains_perform_of_effect H fun hpermitted => ?_
  have hstore : Sustains P I storeWord m := by
    refine hnumber.bind fun {word _} hword => hnumber.bind fun {address _} haddress => ?_
    exact sustains_modify (H.write hpermitted rfl (rawWrite_writeWord hword haddress))
  exact hstore.bind fun {_ m'} _ => (R.pure env : Regardless _ Handle [] _ m')

theorem sustains_stringPoke (env : Handle) :
    Sustains P I (perform .stringPoke env) m := by
  have S := (H.invariant False).solitary
  have R := S.sequential
  have hnumber : ∀ {m}, Sustains P I popNumber m := fun {m} =>
    (R.popNumber : Regardless _ Int64 [] popNumber m)
  refine sustains_perform_of_effect H fun hpermitted => ?_
  have hpoke : Sustains P I pokeString m := by
    refine hnumber.bind fun {value _} hvalue => hnumber.bind fun {offset m₂} hoffset => ?_
    refine Sustains.bind (R.pop : Regardless _ Handle [] pop m₂) fun {string m₃} hstring => ?_
    refine Sustains.bind (R.observe rfl : Regardless _ Unit [] (observe _) m₃) fun hrun => ?_
    cases hrun
    refine (S.get ?_ : Regardless _ Unit [] _ m₃)
    split
    · rename_i buffer hbuffer
      split
      · rename_i n hn
        refine sustains_of_after (fun hm => ?_) fun _ ht => congrArg Moment.machine ht
        cases buffer with
        | owned bytes => exact H.poke hm
        | view address length =>
          by_cases hlt : n < length
          · simp only [Machine.pokeBuffer, Buffer.set, if_pos hlt]
            exact H.write hpermitted rfl (rawWrite_stringPoke hvalue hoffset hstring hbuffer hn hlt) hm
          · simp only [Machine.pokeBuffer, Buffer.set, if_neg hlt]
            exact hm
      · exact R.pure _
    · exact R.stop _
  exact hpoke.bind fun {_ m'} _ => (R.pure env : Regardless _ Handle [] _ m')

/-- Of the builtins with raw access only one writes to memory. -/
theorem sustains_raw {b : Builtin} (hraw : b.isRaw = true) (env : Handle) :
    Regardless (Sustains P I) Handle base (perform b env) m := by
  have E := (H.invariant False).elementary
  have R := E.storing
  have hlast : ∀ {act : Run Unit} {m}, Regardless (Sustains P I) Unit base act m →
      Regardless (Sustains P I) Handle base (do act; return env) m := fun hact =>
    R.bind hact fun _ => R.pure env
  cases b with
  | stateAddress =>
    refine R.bind (R.observe rfl) fun _ => ?_
    exact (H.invariant False).solitary.get (hlast (R.pushNumber _))
  | readWord =>
    refine R.bind (R.observe rfl) fun _ => hlast (R.bind R.popNumber fun _ => ?_)
    exact (H.invariant False).solitary.get (R.pushNumber _)
  | writeWord => exact sustains_writeWord H env
  | objectOfHandle => exact R.bind (R.observe rfl) fun _ => R.bind R.popNumber fun _ => hlast (R.push _)
  | handleOfObject => exact R.bind (R.observe rfl) fun _ => R.bind R.pop fun _ => hlast (R.pushNumber _)
  | memoryView =>
    refine R.bind (R.observe rfl) fun _ => hlast (R.bind R.popNumber fun {size _} _ => ?_)
    refine R.bind R.popNumber fun _ => ?_
    cases natural? size with
    | none => exact R.fail _
    | some n => exact R.bind (R.allocate nofun) fun _ => R.push _
  | _ => cases hraw

/-- All of evaluation is withstood if its parts are. -/
theorem compositional_sustains : Compositional True (Regardless (Sustains P I)) :=
  (H.invariant True).compositional (fun _ => sustains_stringPoke H) fun _ _ hraw => sustains_raw H hraw

/-- So is every service. -/
theorem sustains_act (service : Service) :
    Sustains P I service.act m := by
  have C := compositional_sustains H
  have E := (H.invariant False).elementary
  have hunit : ∀ {α : Type} {act : Run α}, Regardless (Sustains P I) α [] act m →
      Regardless (Sustains P I) Unit [] (do let _ ← act) m := fun hact =>
    C.bind hact fun _ => C.pure ()
  cases service with
  | allocate o => exact hunit (E.allocate nofun)
  | makeList values => exact hunit (C.makeList values)
  | define env key value => exact hunit (C.define env key value)
  | definePrimitive env p => exact hunit (E.definePrimitive env nofun)
  | intern spelling => exact hunit (C.intern spelling)
  | read => exact hunit C.readTerm
  | evaluate bound term env => exact hunit (C.evaluate trivial bound term env)
  | compute bound seq env => exact (C.compute trivial bound seq env : Regardless _ Unit [] _ m)
  | force bound => exact (C.force trivial bound : Regardless _ Unit [] _ m)
  | run bound => exact (C.runNext trivial bound : Regardless _ Unit [] _ m)
  | perform b env =>
    cases hraw : b.isRaw with
    | true => exact hunit (sustains_raw H hraw env)
    | false => exact hunit (C.perform hraw (fun _ => trivial) env)

/-- What withstands every service is true of all the states that services lead to, if it is when the machine
is set up. -/
theorem Withstands.of_tampered
    (hstart : ∀ (slots : UInt64) (source : Bytes) (sink : Sink) (tracing : Bool),
      I (after (prepare true) (blank slots.toNat source sink tracing platform)))
    (hm : m.Tampered platform P) : I m := by
  induction hm with
  | start slots source sink tracing => exact hstart slots source sink tracing
  | ended service _ hpermitted ih => exact (sustains_act H service hpermitted ih).1
  | during service _ hpermitted ht ih => exact (sustains_act H service hpermitted ih).2 _ ht

end Withstands

/-! ## Objects and memory stay in step -/

/-- The cells hold the objects and lie where the platform placed them. The state block tells where the
slot table is, unless this word may be overwritten. -/
structure Charted (platform : Platform) (words : ℕ → Prop) (m : Machine) : Prop where
  platform_eq : m.heap.platform = platform
  represented : m.heap.Represented
  housed : m.heap.Housed
  slots_eq : ¬ words 10 → m.registers.slots = m.heap.platform.table

theorem Charted.store (hb : m.AllowsByte words address b) (hm : m.Charted platform words) :
    (ByteMemory.store m address b).Charted platform words := by
  simp only [AllowsByte] at hb
  simp only [ByteMemory.store]
  rcases hl : locate m.heap address with ⟨l, k⟩
  rw [hl] at hb
  cases l with
  | register i =>
    refine ⟨hm.platform_eq, hm.represented, hm.housed, fun hwords => ?_⟩
    have hi : i ≠ 10 := by
      rintro rfl
      exact hwords hb
    simp only [setWord]
    rw [← hm.slots_eq hwords]
    unfold Registers.setWord
    split <;> first | rfl | exact absurd rfl hi
  | cell s i =>
    refine ⟨?_, hm.represented.setWord s i _, hm.housed.of_stays (Heap.stays_setWord _ s i _), ?_⟩
    · simp only [setWord, Heap.platform_setWord]
      exact hm.platform_eq
    · simp only [setWord, Heap.platform_setWord]
      exact hm.slots_eq
  | slot | unmapped => exact hb.elim

theorem Charted.storeBytes (hbytes : m.AllowsBytes words address bytes)
    (hm : m.Charted platform words) : (ByteMemory.storeBytes m address bytes).Charted platform words := by
  induction bytes generalizing m address with
  | nil => exact hm
  | cons b rest ih => exact ih hbytes.2 (hm.store hbytes.1)

theorem invariant_charted (platform : Platform) (words : ℕ → Prop) (poking : Prop) (P : Moment → Prop) :
    Invariant poking P (Charted platform words) where
  congr hheap _ hslots _ hm := by
    refine ⟨hheap ▸ hm.platform_eq, hheap ▸ hm.represented, hheap ▸ hm.housed, ?_⟩
    rw [hslots, hheap]
    exact hm.slots_eq
  place _ hfree _ hm :=
    ⟨hm.platform_eq, hm.represented.place hfree _, hm.housed.place hm.represented.size_eq hfree _,
      hm.slots_eq⟩
  collect hm := ⟨hm.platform_eq, hm.represented.collect _, hm.housed.of_stays (Heap.stays_collect _ _),
    hm.slots_eq⟩

/-- Objects and memory stay in step, as long as nothing is written that may not. -/
theorem withstands_charted (platform : Platform) (words : ℕ → Prop) :
    Withstands (Moment.Permitted words) (Charted platform words) where
  invariant poking := invariant_charted platform words poking _
  poke hm := ⟨hm.platform_eq, hm.represented.modify _ _, hm.housed.of_stays (Heap.stays_modify _ _ _),
    hm.slots_eq⟩
  write hpermitted hstep hwrite hm := hm.storeBytes (hpermitted _ _ hstep _ _ _ hwrite)

/-- Objects and memory are in step when a machine is set up. -/
theorem charted_prepare (platform : Platform) (words : ℕ → Prop) (slots : UInt64) (source : Bytes)
    (sink : Sink) (tracing : Bool) :
    (after (prepare true) (blank slots.toNat source sink tracing platform)).Charted platform words := by
  have hprepare : Regardless (Sustains (fun _ => True) (Charted platform words)) Unit [] (prepare true)
      (blank slots.toNat source sink tracing platform) :=
    (invariant_charted platform words False _).elementary.prepare
      (fun hslots _ => sustains_modify fun hm =>
        ⟨hm.platform_eq, hm.represented, hm.housed, fun hwords => hslots.trans (hm.slots_eq hwords)⟩) nofun
  exact (hprepare (fun _ _ => trivial) ⟨rfl, Heap.represented_new _ _, Heap.housed_new _ _, fun _ => rfl⟩).1

theorem charted_of_tampered (hm : m.Tampered platform (Moment.Permitted words)) :
    m.Charted platform words :=
  (withstands_charted platform words).of_tampered (charted_prepare platform words) hm

/-! ## What a program finds in memory -/

section Views

variable {h : Handle} {o : Object} {i : ℕ}

/-- The address of the cell of an object, as a program finds it: the word for its slot in the table whose
address is a word of the state block. -/
def seenAddress (m : Machine) (h : Handle) : UInt64 :=
  ByteMemory.loadWord m (ByteMemory.loadWord m (m.heap.platform.block + 80) + 8 * h.raw)

/-- The words from an address on. -/
def wordsAt (m : Machine) (address : UInt64) (n : ℕ) : List UInt64 :=
  (List.range n).map fun i => ByteMemory.loadWord m (address + 8 * i.toUInt64)

theorem loadWord_table (hslots : m.registers.slots = m.heap.platform.table) (hapart : m.Apart)
    (hi : i < m.heap.capacity) :
    ByteMemory.loadWord m (ByteMemory.loadWord m (m.heap.platform.block + 80) + 8 * i.toUInt64) =
      (m.heap.cell i).address := by
  have htable : ByteMemory.loadWord m (m.heap.platform.block + 80) = m.heap.platform.table :=
    (loadWord_register (i := 10) hapart (by decide)).trans hslots
  rw [htable]
  exact loadWord_of_liesAt (liesAt_slot hapart hi)

theorem seenAddress_eq (hslots : m.registers.slots = m.heap.platform.table) (hapart : m.Apart)
    (ho : m.object? h = some o) :
    m.seenAddress h = (m.heap.cell h.slot).address := by
  have hraw : h.raw = h.slot.toUInt64 := by simp [Handle.slot]
  rw [seenAddress, hraw, loadWord_table hslots hapart (Heap.slot_lt_capacity ho)]

theorem wordsAt_seenAddress (hheap : m.heap.Represented) (hslots : m.registers.slots = m.heap.platform.table)
    (hapart : m.Apart) (ho : m.object? h = some o) :
    m.wordsAt (m.seenAddress h) o.words.length = o.words := by
  rw [seenAddress_eq hslots hapart ho]
  apply List.ext_getElem
  · simp [wordsAt]
  · intro i _ hi
    simp only [wordsAt, List.getElem_map, List.getElem_range]
    exact loadWord_cell hheap hapart ho (List.getElem?_eq_getElem hi)

theorem tableWord_eq_zero_iff (hheap : m.heap.Represented)
    (hslots : m.registers.slots = m.heap.platform.table) (hapart : m.Apart) (hi : i < m.heap.capacity) :
    ByteMemory.loadWord m (ByteMemory.loadWord m (m.heap.platform.block + 80) + 8 * i.toUInt64) = 0 ↔
      m.heap.slot? i = none := by
  rw [loadWord_table hslots hapart hi]
  constructor
  · intro hzero
    by_contra hsome
    obtain ⟨o, ho⟩ := Option.ne_none_iff_exists'.mp hsome
    exact hapart.address_ne_zero ho hzero
  · exact hheap.address_eq_zero

theorem object?_of_number? {n : Int64} (hn : m.number? h = some n) : m.object? h = some (.number n) := by
  unfold number? at hn
  split at hn
  · rename_i ho
    cases hn
    exact ho
  · cases hn

theorem address_ne_zero_of_number? {n : Int64} (hapart : m.Apart) (hn : m.number? h = some n) :
    (m.heap.cell h.slot).address ≠ 0 := hapart.address_ne_zero (object?_of_number? hn)

/-- Of the words of the state block the first ten are the roots, in order. -/
theorem roots_setWord {r : Registers} {w : UInt64} (hi : i < 10) :
    (r.setWord i w).roots = r.roots.set i ⟨w⟩ ∧ (r.setWord i w).slots = r.slots ∧
      (r.setWord i w).capacity = r.capacity := by
  interval_cases i <;> exact ⟨rfl, rfl, rfl⟩

theorem run_readWord {env : Handle} {n : Machine} {address : Int64} (hpop : popNumber n = .ok address m) :
    perform .readWord env n =
      (do pushNumber (ByteMemory.loadWord m address.toUInt64).toInt64; return env : Run Handle) m := by
  rw [perform, Run.run_bind_of_ok rfl, effect, loadWord, Run.bind_assoc, Run.run_bind_of_ok hpop,
    Run.bind_assoc, Run.run_bind_of_ok rfl]

theorem run_writeWord {env : Handle} {n n' : Machine} {word address : Int64}
    (hword : popNumber n = .ok word n')
    (haddress : popNumber n' = .ok address m) :
    perform .writeWord env n = .ok env (ByteMemory.storeWord m address.toUInt64 word.toUInt64) := by
  rw [perform, Run.run_bind_of_ok rfl, effect, storeWord, Run.bind_assoc, Run.run_bind_of_ok hword,
    Run.bind_assoc, Run.run_bind_of_ok haddress, Run.run_bind_of_ok rfl, Run.run_pure]

/-- Programs that write nothing but the words of numbers, pairs and closures and the words of the state
block, the address of the slot table apart, see the objects as they are, wherever the platform places
things as long as they do not overlap. The slot table has the address of the cell of each of these
objects, and the cell has its kind and then the integer or the two handles that the machine finds there.
A word written to a cell changes this object in this word, and no other object and no other word. A word
written to one of the first ten of the state block changes this root, and no other word. A word of the
slot table is zero if the slot is empty, and only then. -/
theorem views_agree (hm : m.Tampered platform (Moment.Permitted (· ≠ 10))) (hapart : m.Apart) :
    (∀ h o, m.object? h = some o → o.words ≠ [] → m.seenAddress h = (m.heap.cell h.slot).address) ∧
    (∀ h n, m.number? h = some n → m.wordsAt (m.seenAddress h) 2 = [2, n.toUInt64]) ∧
    (∀ h first second, car h m = .ok first → cdr h m = .ok second →
      m.wordsAt (m.seenAddress h) 3 = [3, first.raw, second.raw]) ∧
    (∀ h body env, m.object? h = some (.closure body env) →
      m.wordsAt (m.seenAddress h) 3 = [4, body.raw, env.raw]) ∧
    (∀ h o, m.object? h = some o → o.references ≠ [] →
      (m.wordsAt (m.seenAddress h) 3).tail = o.references.map Handle.raw) ∧
    (∀ h o i w o', m.object? h = some o → o.Rewritten i w o' → ∃ heap,
      ByteMemory.storeWord m (m.seenAddress h + 8 * i.toUInt64) w = { m with heap := heap } ∧
      Overwrites (.cell h.slot i) w m { m with heap := heap } ∧
      ∀ k, heap.get? k = if k = h then some o' else m.object? k) ∧
    (∀ i < m.heap.capacity,
      ByteMemory.loadWord m (ByteMemory.loadWord m (m.heap.platform.block + 80) + 8 * i.toUInt64) = 0 ↔
        m.heap.slot? i = none) ∧
    (∀ i < 10, ∀ w, ∃ r : Registers,
      ByteMemory.storeWord m (m.heap.platform.block + 8 * i.toUInt64) w = { m with registers := r } ∧
      Overwrites (.register i) w m { m with registers := r } ∧
      r.roots = m.registers.roots.set i ⟨w⟩ ∧ r.slots = m.registers.slots ∧
      r.capacity = m.registers.capacity) ∧
    (∀ env n address, popNumber n = .ok address m → perform .readWord env n =
      (do pushNumber (ByteMemory.loadWord m address.toUInt64).toInt64; return env : Run Handle) m) ∧
    ∀ env n n' word address, popNumber n = .ok word n' → popNumber n' = .ok address m →
      perform .writeWord env n = .ok env (ByteMemory.storeWord m address.toUInt64 word.toUInt64) := by
  have hcharted := charted_of_tampered hm
  have hheap := hcharted.represented
  have hslots := hcharted.slots_eq fun hne => hne rfl
  have hwords : ∀ {h o}, m.object? h = some o → m.wordsAt (m.seenAddress h) o.words.length = o.words :=
    wordsAt_seenAddress hheap hslots hapart
  refine ⟨fun h o ho _ => seenAddress_eq hslots hapart ho, fun h n hn => ?_,
    fun h first second hcar hcdr => ?_, fun h body env ho => hwords ho, fun h o ho hne => ?_,
    fun h o i w o' ho hr => ?_,
    fun i hi => tableWord_eq_zero_iff hheap hslots hapart hi, fun i hi w => ?_, fun _ _ _ => run_readWord,
    fun _ _ _ _ _ => run_writeWord⟩
  · exact hwords (object?_of_number? hn)
  · obtain ⟨d, ho⟩ := exists_pair_of_car hcar
    have hd : d = second := by
      simp only [cdr, ho] at hcdr
      exact Except.ok.inj hcdr
    exact hd ▸ hwords ho
  · have hpayload := congrArg List.tail (hwords ho)
    cases o with
    | pair | closure => exact hpayload
    | _ => exact absurd rfl hne
  · rw [seenAddress_eq hslots hapart ho]
    have hrewritten := (hheap.holds (i := h.slot) ho).rewritten?_eq hr
    exact ⟨_, storeWord_cell hheap hapart ho hr, overwrites_cell hrewritten hr.lt_three,
      object?_setWord_cell hheap ho hr⟩
  · have hblock : i < Registers.wordCount := by
      simp only [Registers.wordCount]
      omega
    exact ⟨_, storeWord_register hapart hblock, overwrites_register m hblock w, roots_setWord hi⟩

/-! ## A program that overwrites the state block -/

/-- Bytes may be written within a word of the state block that may be overwritten. -/
theorem allowsBytes_register (hm : m.Apart) (hi : i < Registers.wordCount) (hwords : words i) {k : ℕ}
    (hk : k + bytes.length ≤ 8) :
    m.AllowsBytes words (m.heap.platform.block + 8 * i.toUInt64 + k.toUInt64) bytes := by
  induction bytes generalizing m k with
  | nil => trivial
  | cons b rest ih =>
    rw [List.length_cons] at hk
    have hlocate := liesAt_register hm hi k (by omega)
    constructor
    · simp only [AllowsByte, hlocate]
      exact hwords
    · have hrest := ih (hm.store (m.heap.platform.block + 8 * i.toUInt64 + k.toUInt64) b) (k := k + 1)
          (by omega)
      rwa [platform_store, ← add_toUInt64_add_one] at hrest

theorem Uncalled.permitted {α : Type} {act : Run α} {Q : α → Prop} (hact : Uncalled act m Q) (t : Moment)
    (ht : act.passes m t) : t.Permitted words := by
  intro b env hstep
  have hcall := hact.1 t ht
  rw [hstep] at hcall
  exact absurd trivial hcall

/-- Writing a word writes nothing that it may not, if its operands are what they should be. -/
theorem permitted_writeWord {env : Handle}
    (hallowed : ∀ address bytes n, rawWrite .writeWord m = .ok (some (address, bytes)) n →
      n.AllowsBytes words address bytes) (t : Moment)
    (ht : (Service.perform .writeWord env).act.passes m t) : t.Permitted words := by
  have hstore : ∀ {m}, Uncalled (effect .writeWord env) m := by
    intro m
    refine Uncalled.bind (Q := fun _ => True) ?_ fun _ _ _ => uncalled_pure trivial
    exact uncalled_popNumber.bind fun _ _ _ => uncalled_popNumber.bind fun _ _ _ => uncalled_modifyGet _
  rcases ht with (rfl | ⟨_, _, _, ht⟩) | ⟨_, _, _, ht⟩
  · intro b env hstep
    cases hstep
    exact hallowed
  · exact hstore.permitted t ht
  · exact ht.elim

/-- The address of a word of the state block on the default platform. -/
def blockAddress (i : ℕ) : UInt64 := ({} : Platform).block + 8 * i.toUInt64

/-- Operands are taken off the stack, and no object changes. -/
theorem heap_rawWrite {n : Machine} {r : Option (UInt64 × Bytes)} (hrun : rawWrite .writeWord m = .ok r n) :
    n.heap = m.heap := by
  have R := scoped_sustains (P := fun _ => True) (I := fun n => n.heap = m.heap) fun hheap _ hm =>
      hheap.trans hm
  have hpop : ∀ {n}, Regardless (Sustains (fun _ => True) (fun n => n.heap = m.heap)) Handle [] pop n := by
    intro n
    refine R.bind (R.getRegisters ?_) fun {top _} _ => ?_
    · dsimp only
      split
      · exact R.pure none
      · refine R.bind (R.ask fun _ _ => rfl) fun _ => R.bind (R.ask fun _ _ => rfl) fun _ => ?_
        have hset : ∀ {n} (stack : Handle), Sustains (fun _ => True) (fun n => n.heap = m.heap)
            (modifyRegisters fun r => { r with stack := stack }) n :=
          fun _ => sustains_modify id
        exact R.bind (hset _) fun _ => R.pure _
    · cases top with
      | some top => exact R.pure top
      | none => exact R.fail _
  have hnumber : ∀ {n}, Regardless (Sustains (fun _ => True) (fun n => n.heap = m.heap)) Int64
      [] popNumber n :=
    R.bind hpop fun _ => R.bind (R.observe rfl) fun _ => R.get (fun _ _ => rfl) (R.pure _)
  have hwrite : Regardless (Sustains (fun _ => True) (fun n => n.heap = m.heap)) _ []
      (rawWrite .writeWord) m :=
    R.bind hnumber fun _ => R.bind hnumber fun _ => R.pure _
  have hafter := (hwrite (fun _ _ => trivial) rfl).1
  rwa [after_of_ok hrun] at hafter

/-- A machine with raw access on which the address of a word of the state block was pushed twice. -/
def addressed (i : ℕ) : Machine :=
  after (Service.evaluate 1 (.ofSlot 140) .nil).act (after (Service.evaluate 1 (.ofSlot 140) .nil).act
    (after (Service.allocate (.number (blockAddress i).toInt64)).act
      (after (prepare true) (blank (256 : UInt64).toNat [] {} false {}))))

/-- A machine on which a word of the state block was overwritten with its own address. -/
def overwritten (i : ℕ) : Machine := after (Service.perform .writeWord .nil).act (addressed i)

theorem Tampered.allocate (hm : m.Tampered platform (Moment.Permitted words)) (o : Object) :
    (after (Service.allocate o).act m).Tampered platform (Moment.Permitted words) := by
  have huncalled : Uncalled (Service.allocate o).act m :=
    (uncalled_allocate o).bind fun _ _ _ => uncalled_pure trivial
  exact .ended _ hm huncalled.permitted

theorem Tampered.evaluate (hm : m.Tampered platform (Moment.Permitted words)) (bound : ℕ) (term : Handle) :
    (after (Service.evaluate bound term .nil).act m).Tampered platform (Moment.Permitted words) := by
  have huncalled : Uncalled (Service.evaluate bound term .nil).act m :=
    (uncalled_evaluateWith_nil _ term).bind fun _ _ _ => uncalled_pure trivial
  exact .ended _ hm huncalled.permitted

theorem tampered_addressed : (addressed i).Tampered {} (Moment.Permitted words) :=
  (((Tampered.start 256 [] {} false).allocate _).evaluate 1 _).evaluate 1 _

/-- What is written is where it should be, and the number is still there. Only one of the two words tells
where the slot table is. -/
theorem overwritten_eq : ∀ i ∈ [9, 10],
    (match rawWrite .writeWord (addressed i) with
    | .ok (some (address, bytes)) _ => address == blockAddress i && bytes.length == 8
    | _ => false) = true ∧
    (addressed i).heap.capacity = 256 ∧ (addressed i).heap.stats.allocated = 142 ∧
    (overwritten i).heap.capacity = 256 ∧ (overwritten i).heap.stats.allocated = 142 ∧
    (overwritten i).number? (.ofSlot 140) = some (blockAddress i).toInt64 ∧
    (i = 10 → (overwritten i).seenAddress (.ofSlot 140) = 0) := by
  decide +kernel

theorem apart_addressed (hi : i ∈ [9, 10]) : (addressed i).Apart := by
  obtain ⟨-, hcapacity, hallocated, -⟩ := overwritten_eq i hi
  have hm : (addressed i).Tampered {} (Moment.Permitted fun _ => True) := tampered_addressed
  have hcharted := charted_of_tampered hm
  exact apart_of_housed hcharted.platform_eq hcharted.housed (by omega) (by omega)

theorem tampered_overwritten (hi : i ∈ [9, 10]) (hwords : words i) :
    (overwritten i).Tampered {} (Moment.Permitted words) := by
  refine .ended _ tampered_addressed (permitted_writeWord fun address bytes n hrun => ?_)
  have hwrite := (overwritten_eq i hi).1
  simp only [hrun, Bool.and_eq_true, beq_iff_eq] at hwrite
  obtain ⟨rfl, hlength⟩ := hwrite
  have hblock : i < Registers.wordCount := by
    simp only [List.mem_cons, List.not_mem_nil, or_false] at hi
    rcases hi with rfl | rfl <;> decide
  have hstays : Heap.Stays (addressed i).heap n.heap := by
    rw [heap_rawWrite hrun]
    exact .refl _
  have hapart := (apart_addressed hi).of_stays hstays
  have hallows : n.AllowsBytes words (n.heap.platform.block + 8 * i.toUInt64 + Nat.toUInt64 0) bytes :=
    allowsBytes_register hapart hblock hwords (by omega)
  have haddressed : (addressed i).Tampered {} (Moment.Permitted words) := tampered_addressed
  have hplatform : n.heap.platform = {} :=
    hstays.platform_eq.trans (charted_of_tampered haddressed).platform_eq
  rw [hplatform] at hallows
  simpa [blockAddress] using hallows

theorem apart_overwritten (hi : i ∈ [9, 10]) : (overwritten i).Apart := by
  obtain ⟨-, -, -, hcapacity, hallocated, -⟩ := overwritten_eq i hi
  have hm : (overwritten i).Tampered {} (Moment.Permitted fun _ => True) := tampered_overwritten hi trivial
  have hcharted := charted_of_tampered hm
  exact apart_of_housed hcharted.platform_eq hcharted.housed (by omega) (by omega)

/-- Where a root is overwritten, memory still shows the number that was pushed. -/
theorem views_agree_overwritten :
    (overwritten 9).Tampered {} (Moment.Permitted (· ≠ 10)) ∧ (overwritten 9).Apart ∧
    (overwritten 9).number? (.ofSlot 140) = some 65608 ∧
    (overwritten 9).wordsAt ((overwritten 9).seenAddress (.ofSlot 140)) 2 = [2, 65608] := by
  have hm : (overwritten 9).Tampered {} (Moment.Permitted (· ≠ 10)) :=
    tampered_overwritten (by decide) (by decide)
  have hapart : (overwritten 9).Apart := apart_overwritten (by decide)
  obtain ⟨-, -, -, -, -, hnumber, -⟩ := overwritten_eq 9 (by decide)
  exact ⟨hm, hapart, hnumber, (views_agree hm hapart).2.1 _ _ hnumber⟩

/-- Where the address of the slot table is overwritten, which is a word of the state block too, a program no
longer finds the number that was pushed. -/
theorem overwritten_misleads :
    (overwritten 10).Tampered {} (Moment.Permitted fun _ => True) ∧ (overwritten 10).Apart ∧
    (overwritten 10).number? (.ofSlot 140) = some 65616 ∧
    (overwritten 10).seenAddress (.ofSlot 140) ≠
      ((overwritten 10).heap.cell (Handle.ofSlot 140).slot).address := by
  obtain ⟨-, -, -, -, -, hnumber, hseen⟩ := overwritten_eq 10 (by decide)
  have hapart : (overwritten 10).Apart := apart_overwritten (by decide)
  refine ⟨tampered_overwritten (by decide) trivial, hapart, hnumber, ?_⟩
  rw [hseen rfl]
  exact (address_ne_zero_of_number? hapart hnumber).symm

end Views

end Machine

end PushLisp
