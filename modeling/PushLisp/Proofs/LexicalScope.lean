import PushLisp.Proofs.Calls

/-!
# Lexical scope

A closure sees the bindings it was made under, whatever happens later. Defining makes a new environment in
front of the old one and overwrites nothing, and an environment that some frame or closure holds is not
collected. So whatever is rooted, by an operation under way or by the environment that programs start in,
stays as it is while further operations are carried out, and looking a name up in a rooted environment
goes on to give the same answer. The bytes of a string are the one thing that may change.

## Main definitions

* `Operation`: what may be carried out on a machine.
* `Machine.Reachable`: the states that operations without raw access lead to.
* `Machine.Rooted`: what the roots held and the initial environment lead to.

## Main statements

* `Machine.reliable_of_reachable`: what holds in all these states.
* `Machine.lookup_congr`: a lookup depends on the environment alone.
* `Machine.rooted_persists`: what is rooted stays.
-/
namespace PushLisp

/-- What may be carried out on a machine. Those that evaluate do so within a step bound. -/
inductive Operation where
  | read
  | run (bound : ℕ)
  | evaluate (bound : ℕ) (term env : Handle)
  | compute (bound : ℕ) (seq env : Handle)
  | force (bound : ℕ)
  | collect
  | makeList (values : List Handle)
  | define (env key value : Handle)
  | intern (spelling : Bytes)
  | primitive (p : { p : Primitive // p ∈ Primitive.installed false }) (env : Handle)

namespace Operation

/-- The operation on machines, whatever it answers. -/
def act : Operation → Run Unit
  | read => do let _ ← Machine.readTerm
  | run bound => Machine.runNext bound
  | evaluate bound term env => do let _ ← Machine.evaluate bound term env
  | compute bound seq env => Machine.compute bound seq env
  | force bound => Machine.force bound
  | collect => do let _ ← Machine.collect
  | makeList values => do let _ ← Machine.makeList values
  | define env key value => do let _ ← Machine.define env key value
  | intern spelling => do let _ ← Machine.intern spelling
  | primitive p env => do let _ ← Machine.perform p.1.action env

/-- Whether the bytes of a string may be overwritten: by the primitive for it, and by what may come to
call that. -/
def Pokes : Operation → Prop
  | run _ | evaluate .. | compute .. | force _ => True
  | primitive p _ => p.1.action = .stringPoke
  | _ => False

/-- An operation is fit to be carried out if the handles given to it are live. The environment of a term or
a primitive is moreover held, as the frame that it belongs to does. -/
def Fits (m : Machine) : Operation → Prop
  | evaluate _ term env => m.Live term ∧ env ∈ m.shadow
  | compute _ seq env => m.Live seq ∧ m.Live env
  | makeList values => ∀ h ∈ values, m.Live h
  | define env key value => m.Live env ∧ m.Live key ∧ m.Live value
  | primitive _ env => env ∈ m.shadow
  | _ => True

end Operation

namespace Machine

variable {poking : Prop} {base : List Handle} {m m' : Machine} {h k : Handle}

/-- Carries out operations one after another, whether those before ended well or not. -/
def carryOut : List Operation → Run Unit
  | [] => return ()
  | op :: ops => do
    let _ ← attempt op.act
    carryOut ops

/-! ## What operations keep -/

/-- No operation on offer has raw access. -/
theorem isRaw_of_mem_installed {p : Primitive} (hp : p ∈ Primitive.installed false) :
    p.action.isRaw = false := by
  revert p
  decide

section Compositional

variable {J : (α : Type) → List Handle → Run α → Machine → Prop} (R : Compositional poking J)
include R

/-- A property that passes from the parts of evaluation to the whole holds of operations. -/
theorem Compositional.act (op : Operation) (hpokes : op.Pokes → poking) : J Unit base op.act m := by
  cases op with
  | read => exact R.bind R.readTerm fun _ => R.pure ()
  | run bound => exact R.runNext (hpokes trivial) bound
  | evaluate bound term env => exact R.bind (R.evaluate (hpokes trivial) bound term env) fun _ => R.pure ()
  | compute bound seq env => exact R.compute (hpokes trivial) bound seq env
  | force bound => exact R.force (hpokes trivial) bound
  | collect => exact R.bind R.collect fun _ => R.pure ()
  | makeList values => exact R.bind (R.makeList values) fun _ => R.pure ()
  | define env key value => exact R.bind (R.define env key value) fun _ => R.pure ()
  | intern spelling => exact R.bind (R.intern spelling) fun _ => R.pure ()
  | primitive p env =>
    exact R.bind (R.perform (isRaw_of_mem_installed p.2) hpokes env) fun _ => R.pure ()

/-- It holds of operations one after another. -/
theorem Compositional.carryOut (ops : List Operation) (hpokes : ∀ op ∈ ops, op.Pokes → poking) :
    J Unit base (carryOut ops) m := by
  induction ops generalizing m with
  | nil => exact R.pure ()
  | cons op ops ih =>
    refine R.bind (R.attempt (R.act op (hpokes op List.mem_cons_self))) fun _ => ?_
    exact ih fun op' hop' => hpokes op' (List.mem_cons_of_mem op hop')

end Compositional

theorem lasting_act (op : Operation) (hpokes : op.Pokes → poking) : Lasting poking base op.act m :=
  (compositional_lasting poking).act op hpokes

/-- Operations leave alone what they should, one after another. -/
theorem lasting_carryOut (ops : List Operation) (hpokes : ∀ op ∈ ops, op.Pokes → poking) :
    Lasting poking base (carryOut ops) m :=
  (compositional_lasting poking).carryOut ops hpokes

section Agreement

open Simulation

/-- Operations on handles that correspond to themselves agree with themselves. -/
theorem agree_act_of_lawful {S : Simulation} (L : S.Lawful) {w : S.World} (op : Operation)
    (hfits : op.Fits m) (hrel : S.Rel (doubled m.shadow) w m m) (hlive : ∀ {k}, m.Live k → S.handle w k k)
    (hexc : ∀ T₁ T₂, ¬ S.excuses T₁ T₂) :
    S.AgreeOver (doubled m.shadow) S.anything op.act m op.act m := by
  have hheld : ∀ {k}, k ∈ m.shadow → (k, k) ∈ doubled m.shadow := fun hk => List.mem_map_of_mem hk
  have hdone : ∀ {Γ w n₁ n₂}, S.Rel Γ w n₁ n₂ →
      S.AgreeOver Γ S.anything (pure ()) n₁ (pure ()) n₂ := fun hrel =>
    agree_pure hrel (List.suffix_refl _) trivial
  cases op with
  | read => exact (agree_readTerm L hrel).bind fun hrel _ => hdone hrel
  | run bound => exact agree_runNext L bound (fun _ h => absurd h (hexc _ _)) hrel
  | evaluate bound term env =>
    have hevaluate := agree_evaluateWith L
      (fun hrel hbody hcaptured => agree_compute L bound hrel hbody hcaptured) hrel
      (hlive hfits.1) (hheld hfits.2)
    exact hevaluate.bind fun hrel _ => hdone hrel
  | compute bound seq env => exact (agree_compute L bound hrel (hlive hfits.1) (hlive hfits.2)).over
  | force bound => exact (agree_force L bound hrel).over
  | collect => exact (L.collect hrel).bind fun hrel _ => hdone hrel
  | makeList values =>
    have hvalues : ∀ p ∈ doubled values, S.handle w p.1 p.2 :=
      forall_mem_doubled.mpr fun k hk => hlive (hfits k hk)
    have hlist := agree_makeList L (doubled values) hvalues hrel
    rw [map_fst_doubled, map_snd_doubled] at hlist
    exact hlist.bind fun hrel _ => hdone hrel
  | define env key value =>
    obtain ⟨henv, hkey, hvalue⟩ := hfits
    exact (agree_define L hrel (hlive henv) (hlive hkey) (hlive hvalue)).bind fun hrel _ => hdone hrel
  | intern spelling => exact (L.intern spelling hrel).bind fun hrel _ => hdone hrel
  | primitive p env =>
    exact (agree_perform L (isRaw_of_mem_installed p.2) hrel (hheld hfits)).bind fun hrel _ => hdone hrel

/-- Operations fit to be carried out agree with themselves. -/
theorem agree_act (op : Operation) (hfits : op.Fits m) (hm : m.Intact) :
    (diagonal true).AgreeOver (doubled m.shadow) (diagonal true).anything op.act m op.act m :=
  agree_act_of_lawful (lawful_diagonal true) op hfits (rel_self hm) (fun hk => ⟨rfl, hk⟩)
    fun _ _ hexc => absurd hexc.1 (by simp)

end Agreement

/-! ## Reachable states -/

/-- The states that operations without raw access lead to, when they have ended and while they are under
way. In between live handles may be held, and let go again. -/
inductive Reachable : Machine → Prop
  | start (slots : UInt64) (source : Bytes) (sink : Sink) (tracing : Bool) (platform : Platform) :
      Reachable (after (prepare false) (blank slots.toNat source sink tracing platform))
  | ended {m : Machine} (op : Operation) : Reachable m → op.Fits m → Reachable (after op.act m)
  | during {m : Machine} (op : Operation) {t : Moment} : Reachable m → op.Fits m →
      op.act.passes m t → Reachable t.machine
  | hold {m : Machine} (hs : List Handle) : Reachable m → (∀ h ∈ hs, m.Live h) →
      Reachable { m with shadow := hs ++ m.shadow }
  | release {m : Machine} (n : ℕ) : Reachable m → Reachable { m with shadow := m.shadow.drop n }

/-- Nothing dangles, and the registry is in order. -/
structure Reliable (m : Machine) : Prop where
  intact : m.Intact
  enrolled : ∃ entries, m.heap.Enrolled m.registers.registry entries

theorem Reliable.ready (hm : m.Reliable) : Ready True m.shadow m := hm.intact.ready hm.enrolled

/-- An operation leads through reliable machines to a reliable machine. -/
theorem Reliable.act (hm : m.Reliable) {op : Operation} (hfits : op.Fits m) :
    (after op.act m).Reliable ∧ ∀ t, op.act.passes m t → t.machine.Reliable := by
  have hsafe : Safe op.act m := safe_of_agree (agree_act op hfits hm.intact) nofun
  have hlasting : Lasting True m.shadow op.act m := lasting_act op fun _ => trivial
  obtain ⟨hready, -, hmoments⟩ := hlasting hm.ready
  refine ⟨⟨hsafe.after, hready.enrolled⟩, ?_⟩
  intro t ht
  exact ⟨(hsafe.passes t ht).machine, (hmoments t ht).enrolled⟩

/-- Any live handles may be held. -/
theorem Reliable.setShadow (hm : m.Reliable) {hs : List Handle} (hlive : ∀ h ∈ hs, m.Live h) :
    Reliable { m with shadow := hs } :=
  ⟨⟨hm.intact.sound.of_eq rfl rfl, hlive⟩, hm.enrolled⟩

theorem reliable_of_reachable (hm : m.Reachable) : m.Reliable := by
  induction hm with
  | start slots source sink tracing platform =>
    obtain ⟨m, hrun, hm, -⟩ := exists_orderly slots source sink tracing platform
    rw [after_of_ok hrun]
    exact ⟨hm.intact, hm.canonical.enrolled⟩
  | ended op _ hfits ih => exact (ih.act hfits).1
  | during op _ hfits ht ih => exact (ih.act hfits).2 _ ht
  | hold hs _ hlive ih =>
    apply ih.setShadow
    intro k hk
    rcases List.mem_append.mp hk with hk | hk
    · exact hlive k hk
    · exact ih.intact.shadow k hk
  | release n _ ih => exact ih.setShadow fun k hk => ih.intact.shadow k (List.mem_of_mem_drop hk)

/-! ## Rooted structure -/

/-- What the roots held and the environment that programs start in lead to. -/
def Rooted (m : Machine) (h : Handle) : Prop := m.heap.Reaches (m.registers.env :: m.shadow) h

theorem Rooted.anchored (hh : m.Rooted h) : Anchored m.shadow m h := by
  apply hh.mono
  intro k hk
  simp only [List.mem_cons] at hk
  rcases hk with rfl | hk
  · simp [Registers.constants]
  · simp [hk]

theorem Rooted.live (hh : m.Rooted h) (hm : m.Intact) : m.Live h := by
  induction hh with
  | root hmem =>
    rcases List.mem_cons.mp hmem with rfl | hmem
    · exact hm.sound.live_of_mem_roots (by simp [Registers.roots])
    · exact hm.shadow _ hmem
  | reference _ ho hk => exact hm.sound.live_of_mem_references ho hk

theorem Rooted.trans (hh : m.Rooted h) (hk : m.heap.Reaches [h] k) : m.Rooted k :=
  Heap.Reaches.trans hk (List.forall_mem_singleton.mpr hh)

/-- An object is there on both machines, and the same up to the bytes of strings. -/
def Kept (poking : Prop) (m m' : Machine) (h : Handle) : Prop :=
  ∃ o o', m.object? h = some o ∧ m'.object? h = some o' ∧ o.Resembles poking o'

theorem Kept.mismatch_eq (hh : Kept poking m m' h) (op expected : String) :
    m'.mismatch op expected h = m.mismatch op expected h := by
  obtain ⟨o, o', ho, ho', hres⟩ := hh
  have hkind : o'.kind = o.kind := by cases hres <;> rfl
  rw [mismatch, mismatch, kind?, kind?, ho, ho', Option.map_some, Option.map_some, hkind]

theorem Kept.car_eq (hh : Kept poking m m' h) : car h m' = car h m := by
  have hmismatch := hh.mismatch_eq "car" "pair"
  obtain ⟨o, o', ho, ho', hres⟩ := hh
  rw [car, car, hmismatch, ho, ho']
  cases hres <;> rfl

theorem Kept.cdr_eq (hh : Kept poking m m' h) : cdr h m' = cdr h m := by
  have hmismatch := hh.mismatch_eq "cdr" "pair"
  obtain ⟨o, o', ho, ho', hres⟩ := hh
  rw [cdr, cdr, hmismatch, ho, ho']
  cases hres <;> rfl

theorem reaches_of_car (hcar : car h m = .ok k) : m.heap.Reaches [h] k := by
  rw [car] at hcar
  split at hcar
  · rename_i ho
    cases hcar
    exact .reference (.root List.mem_cons_self) ho (by simp [Object.references])
  · cases hcar

theorem reaches_of_cdr (hcdr : cdr h m = .ok k) : m.heap.Reaches [h] k := by
  rw [cdr] at hcdr
  split at hcdr
  · rename_i ho
    cases hcdr
    exact .reference (.root List.mem_cons_self) ho (by simp [Object.references])
  · cases hcdr

/-- The walk along an environment depends on what the environment leads to. -/
theorem lookupFrom_congr {name : Bytes} {n : ℕ} {env : Handle}
    (hkept : ∀ {h}, m.heap.Reaches [env] h → Kept poking m m' h) :
    lookupFrom m' k name n env = lookupFrom m k name n env := by
  induction n generalizing env with
  | zero => rfl
  | succ n ih =>
    have henv : Kept poking m m' env := hkept (.root List.mem_cons_self)
    rw [lookupFrom, lookupFrom, henv.car_eq, henv.cdr_eq]
    by_cases hempty : env.isNil = true
    · rw [if_pos hempty, if_pos hempty]
    rw [if_neg hempty, if_neg hempty]
    cases hcar : car env m with
    | error reason => rfl
    | ok binding =>
      have hbinding : Kept poking m m' binding := hkept (reaches_of_car hcar)
      simp only [bind, Except.bind, hbinding.car_eq, hbinding.cdr_eq]
      cases car binding m with
      | error reason => rfl
      | ok key =>
        dsimp only
        by_cases hkey : key = k
        · rw [if_pos hkey, if_pos hkey]
        rw [if_neg hkey, if_neg hkey]
        cases hcdr : cdr env m with
        | error reason => rfl
        | ok rest =>
          exact ih fun hh => hkept (hh.trans (List.forall_mem_singleton.mpr (reaches_of_cdr hcdr)))

/-- A lookup depends on the environment and the key. -/
theorem lookup_congr {env : Handle} {name : Bytes} (hcapacity : m'.heap.capacity = m.heap.capacity)
    (hkept : ∀ {h}, m.heap.Reaches [env] h → Kept poking m m' h) (hk : m.atom? k = some name)
    (hk' : m'.atom? k = some name) : lookup env k m' = lookup env k m := by
  rw [lookup, lookup, hk, hk', walkBound, walkBound, hcapacity]
  exact lookupFrom_congr hkept

/-- In every reachable state, and whatever operations are carried out on whatever handles and however they
end: an object that is rooted is there and stays the same, but for the bytes of a string if one of the
operations may overwrite these. Registered atoms stay too. Looking up an atom in a rooted environment gives
the same answer as before, as long as the atom is there; in particular for rooted and registered atoms. -/
theorem rooted_persists (hm : m.Reachable) (ops : List Operation) :
    (∀ {h}, m.Rooted h → Kept (∃ op ∈ ops, op.Pokes) m (after (carryOut ops) m) h) ∧
      (∀ {k name}, m.Registered k name → (after (carryOut ops) m).Registered k name) ∧
      (∀ {e k name}, m.Rooted e → m.atom? k = some name → (after (carryOut ops) m).atom? k = some name →
        lookup e k (after (carryOut ops) m) = lookup e k m) ∧
      ∀ {e k name}, m.Rooted e → m.atom? k = some name → m.Rooted k ∨ m.Registered k name →
        lookup e k (after (carryOut ops) m) = lookup e k m := by
  have hreliable := reliable_of_reachable hm
  have hready : Ready (∃ op ∈ ops, op.Pokes) m.shadow m :=
    { hreliable.ready with plain := fun _ => hreliable.ready.plain trivial }
  have hlasting : Lasting (∃ op ∈ ops, op.Pokes) m.shadow (carryOut ops) m :=
    lasting_carryOut ops fun op hop hpokes => ⟨op, hop, hpokes⟩
  obtain ⟨-, hlasts, -⟩ := hlasting hready
  have hkept : ∀ {h}, m.Rooted h → Kept (∃ op ∈ ops, op.Pokes) m (after (carryOut ops) m) h := by
    intro h hh
    obtain ⟨o, ho⟩ := Option.isSome_iff_exists.mp (hh.live hreliable.intact)
    obtain ⟨o', ho', hres⟩ := hlasts.object?_eq hh.anchored ho
    exact ⟨o, o', ho, ho', hres⟩
  have hlookup : ∀ {e k name}, m.Rooted e → m.atom? k = some name →
      (after (carryOut ops) m).atom? k = some name →
      lookup e k (after (carryOut ops) m) = lookup e k m := fun he =>
    lookup_congr hlasts.capacity_eq fun hh => hkept (he.trans hh)
  refine ⟨hkept, fun hk => hk.lasts hlasts, hlookup, ?_⟩
  intro e k name he hk hstays
  apply hlookup he hk
  rcases hstays with hrooted | hregistered
  · obtain ⟨o, o', ho, ho', hres⟩ := hkept hrooted
    cases ho.symm.trans (atom?_eq_some_iff.mp hk)
    rw [hres.eq_of_ne_string (by simp [Object.kind])] at ho'
    exact atom?_eq_some_iff.mpr ho'
  · exact atom?_eq_some_iff.mpr (hregistered.lasts hlasts).object?_eq

/-- What a program leaves on the stack stays if it is held while the rest of the text is run and a
collection is made. -/
theorem rooted_persists_stack :
    ∃ m, m = after (Operation.run 40).act (after (prepare false)
        (blank (1024 : UInt64).toNat (Bytes.ofString "(3 $x (^x) 4) (5 $x (^x))") {} false {})) ∧
      Reachable { m with shadow := m.registers.stack :: m.shadow } ∧
      Kept (∃ op ∈ [Operation.run 40, .collect], op.Pokes)
        { m with shadow := m.registers.stack :: m.shadow }
        (after (carryOut [.run 40, .collect]) { m with shadow := m.registers.stack :: m.shadow })
        m.registers.stack := by
  have hkept : ∀ m : Machine, m.Reachable →
      Reachable { m with shadow := m.registers.stack :: m.shadow } ∧
      Kept (∃ op ∈ [Operation.run 40, .collect], op.Pokes)
        { m with shadow := m.registers.stack :: m.shadow }
        (after (carryOut [.run 40, .collect]) { m with shadow := m.registers.stack :: m.shadow })
        m.registers.stack := by
    intro m hm
    have hstack : m.Live m.registers.stack :=
      (reliable_of_reachable hm).intact.sound.live_of_mem_roots (by simp [Registers.roots])
    have hheld : Reachable { m with shadow := m.registers.stack :: m.shadow } :=
      .hold [m.registers.stack] hm (List.forall_mem_singleton.mpr hstack)
    exact ⟨hheld, (rooted_persists hheld [.run 40, .collect]).1 (.root (by simp))⟩
  exact ⟨_, rfl, hkept _ (.ended (.run 40) (.start 1024 _ _ false {}) trivial)⟩

end Machine

end PushLisp
