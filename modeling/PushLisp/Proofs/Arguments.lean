import Mathlib.Data.List.Perm.Basic
import Mathlib.Data.List.TakeDrop
import Mathlib.Data.List.TakeWhile
import PushLisp.Command.Options
import PushLisp.Proofs.Encoding

/-!
# The arguments of a command line

Options are looked for one after another in what the last one left, so an argument could be swallowed as
a value, or serve twice. It does not: a command line that is accepted is put together from an option
with its value, a flag and a file, each at most once, and every such command line is accepted, in
whatever order the parts stand.

## Main definitions

* `Options.parts`, `Options.Arranges`: command lines put together from parts.
* `Options.requested?`: the number of slots that a value asks for.

## Main statements

* `Options.takeValue_cases`: how an option is taken out of the arguments.
* `Options.parse_eq_ok_iff`: which command lines are accepted, step by step.
* `Options.parse_of_arranges`: every arrangement of parts is accepted.
* `Options.parse_accounts`: every argument is accounted for.
-/
namespace PushLisp.Options

variable {args args' before after : List Bytes} {option flag v f : String} {count file : Option String}
  {quiet : Bool} {slots : ℕ} {o : Options} {ps : List (List Bytes)}

/-! ## Parts -/

/-- The option for the number of slots. -/
def slotsOption : Bytes := Bytes.ofString "--heap-slots"

/-- The flag that withholds raw access to memory. -/
def quietFlag : Bytes := Bytes.ofString "--no-lowlevel"

/-- The arguments that stand alone: the flag and the file, each only if given. -/
def singles (quiet : Bool) (file : Option String) : List Bytes :=
  (if quiet then [quietFlag] else []) ++ file.toList.map Bytes.ofString

/-- The parts of a command line. An option and its value are one part. -/
def parts (count : Option String) (quiet : Bool) (file : Option String) : List (List Bytes) :=
  (count.toList.map fun v => [slotsOption, Bytes.ofString v]) ++ (singles quiet file).map ([·])

/-- Arguments consist of the given parts, in some order. -/
def Arranges (args : List Bytes) (parts : List (List Bytes)) : Prop :=
  ∃ ps : List (List Bytes), ps.Perm parts ∧ args = ps.flatten

/-- The number of slots that an optional value asks for. -/
def requested? : Option String → Option ℕ
  | none => some (64 * 1024)
  | some v => Size.read? v.toList

theorem ofString_inj {s t : String} : Bytes.ofString s = Bytes.ofString t ↔ s = t := by
  constructor
  · intro h
    exact Option.some.inj ((Utf8.decode?_eq_some_iff.mpr rfl).symm.trans (Utf8.decode?_eq_some_iff.mpr h))
  · rintro rfl
    rfl

/-! ## Taking options out -/

theorem span_of_not_mem {key : Bytes} (h : key ∉ args) : args.span (· != key) = (args, []) := by
  have hall : ∀ arg ∈ args, (arg != key) = true :=
    fun arg harg => bne_iff_ne.mpr (ne_of_mem_of_not_mem harg h)
  rw [List.span_eq_takeWhile_dropWhile, List.takeWhile_eq_self_iff.mpr hall,
    List.dropWhile_eq_nil_iff.mpr hall]

theorem span_append {key : Bytes} (h : key ∉ before) (rest : List Bytes) :
    (before ++ key :: rest).span (· != key) = (before, key :: rest) := by
  have hall : ∀ arg ∈ before, (arg != key) = true :=
    fun arg harg => bne_iff_ne.mpr (ne_of_mem_of_not_mem harg h)
  rw [List.span_eq_takeWhile_dropWhile, List.takeWhile_append_of_pos hall, List.dropWhile_append_of_pos hall]
  simp

theorem takeValue_of_not_mem (h : Bytes.ofString option ∉ args) :
    takeValue option args = .ok (none, args) := by
  simp only [takeValue, span_of_not_mem h]

theorem takeValue_append (h : Bytes.ofString option ∉ before) :
    takeValue option (before ++ Bytes.ofString option :: Bytes.ofString v :: after) =
      .ok (some v, before ++ after) := by
  simp only [takeValue, span_append h, Utf8.decode?_eq_some_iff.mpr rfl]

/-- An option is not there, or it is taken out at its first occurrence together with its value. -/
theorem takeValue_cases (h : takeValue option args = .ok (count, args')) :
    (count = none ∧ args' = args ∧ Bytes.ofString option ∉ args) ∨
      ∃ before v after, Bytes.ofString option ∉ before ∧ count = some v ∧ args' = before ++ after ∧
        args = before ++ Bytes.ofString option :: Bytes.ofString v :: after := by
  by_cases hmem : Bytes.ofString option ∈ args
  · obtain ⟨before, rest, rfl, hbefore⟩ := List.eq_append_cons_of_mem hmem
    simp only [takeValue, span_append hbefore] at h
    cases rest with
    | nil => cases h
    | cons value after =>
      dsimp only at h
      cases hv : Utf8.decode? value with
      | none =>
        rw [hv] at h
        cases h
      | some v =>
        rw [hv] at h
        obtain ⟨rfl, rfl⟩ := Prod.mk.inj (Except.ok.inj h)
        exact .inr ⟨before, v, after, hbefore, rfl, rfl, by rw [Utf8.decode?_eq_some_iff.mp hv]⟩
  · rw [takeValue_of_not_mem hmem] at h
    obtain ⟨rfl, rfl⟩ := Prod.mk.inj (Except.ok.inj h)
    exact .inl ⟨rfl, rfl, hmem⟩

theorem takeFile_of_toList (file : Option String) :
    takeFile (file.toList.map Bytes.ofString) = .ok (file, []) := by
  cases file with
  | none => rfl
  | some f => simp only [Option.toList_some, List.map_cons, List.map_nil, takeFile,
      Utf8.decode?_eq_some_iff.mpr rfl]

/-- The file is the one argument that is left. -/
theorem eq_of_takeFile (h : takeFile args = .ok (file, [])) : args = file.toList.map Bytes.ofString := by
  cases args with
  | nil =>
    obtain ⟨rfl, -⟩ := Prod.mk.inj (Except.ok.inj h)
    rfl
  | cons arg rest =>
    rw [takeFile] at h
    cases hf : Utf8.decode? arg with
    | none =>
      rw [hf] at h
      cases h
    | some f =>
      rw [hf] at h
      obtain ⟨rfl, rfl⟩ := Prod.mk.inj (Except.ok.inj h)
      rw [Utf8.decode?_eq_some_iff.mp hf]
      rfl

theorem slotCount_eq_ok_iff : slotCount count = .ok slots ↔ requested? count = some slots := by
  cases count with
  | none => simp [slotCount, requested?]
  | some v =>
    rw [slotCount, requested?]
    cases Size.read? v.toList <;> simp

/-! ## What is left -/

/-- If just a file is left without the flag, the arguments are the flag and the file. -/
theorem perm_singles (h : takeFile (args.erase quietFlag) = .ok (file, [])) :
    args.Perm (singles (args.contains quietFlag) file) := by
  rw [singles, ← eq_of_takeFile h]
  by_cases hmem : quietFlag ∈ args
  · rw [if_pos (List.contains_iff_mem.mpr hmem)]
    exact List.perm_cons_erase hmem
  · rw [if_neg (mt List.contains_iff_mem.mp hmem), List.erase_of_not_mem hmem]
    exact List.Perm.refl args

theorem ofString_mem_singles {s : String} : Bytes.ofString s ∈ singles quiet file ↔
    quiet = true ∧ s = "--no-lowlevel" ∨ ∃ f ∈ file, s = f := by
  cases quiet <;> cases file <;> simp [singles, quietFlag, ofString_inj, eq_comm (a := s)]

theorem quietFlag_mem_singles (hfile : ∀ f ∈ file, f ≠ "--no-lowlevel") :
    quietFlag ∈ singles quiet file ↔ quiet = true := by
  rw [quietFlag, ofString_mem_singles]
  constructor
  · rintro (⟨hquiet, -⟩ | ⟨f, hf, rfl⟩)
    · exact hquiet
    · exact absurd rfl (hfile _ hf)
  · exact fun hquiet => .inl ⟨hquiet, rfl⟩

theorem erase_singles (hfile : ∀ f ∈ file, f ≠ "--no-lowlevel") :
    (singles quiet file).erase quietFlag = file.toList.map Bytes.ofString := by
  cases quiet with
  | true => exact List.erase_cons_head ..
  | false =>
    refine List.erase_of_not_mem ?_
    rw [quietFlag_mem_singles hfile]
    exact Bool.false_ne_true

theorem eq_of_perm_toList {xs : List Bytes} (h : xs.Perm (file.toList.map Bytes.ofString)) :
    xs = file.toList.map Bytes.ofString := by
  cases file with
  | none => exact List.perm_nil.mp h
  | some f => exact List.perm_singleton.mp h

/-- The flag and the file can stand in either order. -/
theorem takeFlag_of_perm (hfile : ∀ f ∈ file, f ≠ "--no-lowlevel") (h : args.Perm (singles quiet file)) :
    takeFlag "--no-lowlevel" args = (quiet, file.toList.map Bytes.ofString) := by
  refine Prod.ext ?_ ?_
  · apply Bool.eq_iff_iff.mpr
    exact List.contains_iff_mem.trans (h.mem_iff.trans (quietFlag_mem_singles hfile))
  · apply eq_of_perm_toList
    rw [← erase_singles hfile]
    exact h.erase quietFlag

/-! ## The whole command line -/

/-- A command line asks for help. -/
def AsksHelp (args : List Bytes) : Prop := Bytes.ofString "-h" ∈ args ∨ Bytes.ofString "--help" ∈ args

theorem asksHelp_iff : AsksHelp args ↔
    (args.contains (Bytes.ofString "-h") || args.contains (Bytes.ofString "--help")) = true := by
  simp [AsksHelp]

theorem parse_of_asksHelp (h : AsksHelp args) : parse args = .ok { help := true } := by
  rw [parse, if_pos (asksHelp_iff.mp h)]
  rfl

theorem bind_eq_ok_iff {ε α β : Type} {x : Except ε α} {g : α → Except ε β} {b : β} :
    x >>= g = .ok b ↔ ∃ a, x = .ok a ∧ g a = .ok b := by
  cases x with
  | error e => simp [bind, Except.bind]
  | ok a => simp [bind, Except.bind]

theorem parse_eq_ok_iff (h : ¬ AsksHelp args) : parse args = .ok o ↔
    ∃ count args' slots file, takeValue "--heap-slots" args = .ok (count, args') ∧
      requested? count = some slots ∧
      takeFile (args'.erase quietFlag) = .ok (file, []) ∧
      o = { config := { slots := slots, lowlevel := !args'.contains quietFlag }, file := file } := by
  rw [parse, if_neg (mt asksHelp_iff.mpr h)]
  simp only [bind_eq_ok_iff, Prod.exists, slotCount_eq_ok_iff, takeFlag]
  constructor
  · rintro ⟨count, args', htake, slots, hslots, file, rest, hfile, hend⟩
    cases rest with
    | nil => exact ⟨count, args', slots, file, htake, hslots, hfile, (Except.ok.inj hend).symm⟩
    | cons arg rest => cases hend
  · rintro ⟨count, args', slots, file, htake, hslots, hfile, rfl⟩
    exact ⟨count, args', htake, slots, hslots, file, [], hfile, rfl⟩

/-- The names that have a meaning of their own. -/
def reserved : List String := ["--heap-slots", "--no-lowlevel", "-h", "--help"]

theorem read?_of_mem_reserved {s : String} (h : s ∈ reserved) : Size.read? s.toList = none := by
  have hall : ∀ s ∈ reserved, Size.read? s.toList = none := by decide +kernel
  exact hall s h

theorem flatten_singletons (xs : List Bytes) : (xs.map ([·])).flatten = xs := List.flatMap_singleton' xs

/-- What an arrangement holds: the option with its value, the flag and the file, as far as they are given. -/
theorem Arranges.mem_iff {s : String} (h : Arranges args (parts count quiet file)) : Bytes.ofString s ∈ args ↔
    (∃ v ∈ count, s = "--heap-slots" ∨ s = v) ∨ quiet = true ∧ s = "--no-lowlevel" ∨ ∃ f ∈ file, s = f := by
  obtain ⟨ps, hperm, rfl⟩ := h
  rw [hperm.flatten.mem_iff, parts, List.flatten_append, flatten_singletons, List.mem_append,
    ofString_mem_singles]
  cases count <;> simp [slotsOption, ofString_inj]

/-- What is taken out of arguments is put back in as one part. -/
theorem arranges_of_takeValue (htake : takeValue "--heap-slots" args = .ok (count, args'))
    (h : args'.Perm (singles quiet file)) : Arranges args (parts count quiet file) := by
  obtain ⟨rfl, rfl, -⟩ | ⟨before, v, after, -, rfl, rfl, rfl⟩ := takeValue_cases htake
  · exact ⟨args'.map ([·]), h.map _, (flatten_singletons args').symm⟩
  · refine ⟨before.map ([·]) ++ [slotsOption, Bytes.ofString v] :: after.map ([·]), ?_, ?_⟩
    · refine List.perm_middle.trans (List.Perm.cons _ ?_)
      rw [← List.map_append]
      exact h.map _
    · rw [List.flatten_append, List.flatten_cons, flatten_singletons, flatten_singletons]
      rfl

/-- A part of two arguments stands together, wherever it is, so it is found and taken out. -/
theorem takeValue_of_arranges (hfile : ∀ f ∈ file, f ≠ "--heap-slots")
    (h : Arranges args (parts count quiet file)) :
    ∃ args', takeValue "--heap-slots" args = .ok (count, args') ∧ args'.Perm (singles quiet file) := by
  have hother : ∀ {xs : List Bytes}, xs.Perm (singles quiet file) → slotsOption ∉ xs := by
    intro xs hxs
    rw [hxs.mem_iff, slotsOption, ofString_mem_singles]
    rintro (⟨-, heq⟩ | ⟨f, hf, rfl⟩)
    · exact absurd heq (by decide)
    · exact hfile _ hf rfl
  obtain ⟨ps, hperm, rfl⟩ := h
  cases count with
  | none =>
    have hall : ps.flatten.Perm (singles quiet file) := by
      rw [← flatten_singletons (singles quiet file)]
      exact hperm.flatten
    exact ⟨ps.flatten, takeValue_of_not_mem (hother hall), hall⟩
  | some v =>
    have hmem : [slotsOption, Bytes.ofString v] ∈ ps := hperm.mem_iff.mpr List.mem_cons_self
    obtain ⟨before, after, rfl⟩ := List.append_of_mem hmem
    have hrest : (before.flatten ++ after.flatten).Perm (singles quiet file) := by
      rw [← flatten_singletons (singles quiet file), ← List.flatten_append]
      exact (List.Perm.cons_inv (List.perm_middle.symm.trans hperm)).flatten
    have hbefore : slotsOption ∉ before.flatten := fun hmem => hother hrest (List.mem_append_left _ hmem)
    refine ⟨before.flatten ++ after.flatten, ?_, hrest⟩
    rw [List.flatten_append, List.flatten_cons]
    exact takeValue_append hbefore

theorem not_mem_reserved (h : requested? (some v) = some slots) : v ∉ reserved := by
  intro hv
  rw [requested?, read?_of_mem_reserved hv] at h
  cases h

/-- Taking the option and its value out leaves all other arguments. -/
theorem mem_of_takeValue {s : String} (htake : takeValue "--heap-slots" args = .ok (count, args'))
    (hs : s ≠ "--heap-slots") (hv : ∀ v ∈ count, s ≠ v) :
    Bytes.ofString s ∈ args ↔ Bytes.ofString s ∈ args' := by
  obtain ⟨-, rfl, -⟩ | ⟨before, v, after, -, rfl, rfl, rfl⟩ := takeValue_cases htake
  · rfl
  · simp [ofString_inj, hs, hv v rfl]

theorem not_asksHelp_of_arranges (hcount : requested? count = some slots) (hfile : ∀ f ∈ file, f ∉ reserved)
    (h : Arranges args (parts count quiet file)) : ¬ AsksHelp args := by
  have hnot : ∀ s ∈ ["-h", "--help"], Bytes.ofString s ∉ args := by
    intro s hs
    have hreserved : s ∈ reserved := List.mem_cons_of_mem _ (List.mem_cons_of_mem _ hs)
    rw [h.mem_iff]
    rintro (⟨v, hv, rfl | rfl⟩ | ⟨-, rfl⟩ | ⟨f, hf, rfl⟩)
    · exact absurd hs (by decide)
    · exact not_mem_reserved (Option.mem_def.mp hv ▸ hcount) hreserved
    · exact absurd hs (by decide)
    · exact hfile _ hf hreserved
  rintro (hmem | hmem)
  · exact hnot "-h" (by decide) hmem
  · exact hnot "--help" (by decide) hmem

theorem isSome_of_takeValue (htake : takeValue "--heap-slots" args = .ok (count, args')) :
    count.isSome = true ↔ slotsOption ∈ args := by
  obtain ⟨rfl, -, hnot⟩ | ⟨before, v, after, -, rfl, -, rfl⟩ := takeValue_cases htake
  · simp [slotsOption, hnot]
  · simp [slotsOption]

/-- The flag is not lost as the value of the option, since it is no size. -/
theorem quietFlag_mem_of_takeValue (htake : takeValue "--heap-slots" args = .ok (count, args'))
    (hcount : requested? count = some slots) : quietFlag ∈ args ↔ quietFlag ∈ args' := by
  have hv : ∀ v ∈ count, "--no-lowlevel" ≠ v := by
    rintro v hv rfl
    exact not_mem_reserved (Option.mem_def.mp hv ▸ hcount) (by decide)
  exact mem_of_takeValue htake (by decide) hv

theorem not_asksHelp_of_parse (hparse : parse args = .ok o) (hhelp : o.help = false) : ¬ AsksHelp args := by
  intro hask
  rw [parse_of_asksHelp hask] at hparse
  obtain rfl := Except.ok.inj hparse
  cases hhelp

/-- Every arrangement of parts is accepted and means what its parts say. -/
theorem parse_of_arranges (hcount : requested? count = some slots) (hfile : ∀ f ∈ file, f ∉ reserved)
    (h : Arranges args (parts count quiet file)) :
    parse args = .ok { config := { slots := slots, lowlevel := !quiet }, file := file } := by
  have hother : ∀ s ∈ reserved, ∀ f ∈ file, f ≠ s := by
    rintro s hs f hf rfl
    exact hfile f hf hs
  obtain ⟨args', htake, hperm⟩ := takeValue_of_arranges (hother _ (by decide)) h
  have hflag : (args'.contains quietFlag, args'.erase quietFlag) = (quiet, file.toList.map Bytes.ofString) :=
    takeFlag_of_perm (hother _ (by decide)) hperm
  obtain ⟨hcontains, herase⟩ := Prod.mk.inj hflag
  rw [parse_eq_ok_iff (not_asksHelp_of_arranges hcount hfile h)]
  refine ⟨count, args', slots, file, htake, hcount, ?_, ?_⟩
  · rw [herase, takeFile_of_toList]
  · rw [hcontains]

/-- Every argument is accounted for. Help is given just if it is asked for anywhere. A command line that
is accepted otherwise is an arrangement of the option with its value, which is a size and gives the
number of slots, of the flag, which withholds raw access, and of the file; the option and the flag are
among the parts just if they occur at all. Conversely, every arrangement of such parts is accepted and
means what its parts say, unless the file has a reserved name. -/
theorem parse_accounts (args : List Bytes) :
    ((∃ o, parse args = .ok o ∧ o.help = true) ↔ AsksHelp args) ∧
    (∀ o, parse args = .ok o → o.help = false → ∃ count,
      Arranges args (parts count (!o.config.lowlevel) o.file) ∧
      requested? count = some o.config.slots ∧
      (count.isSome = true ↔ slotsOption ∈ args) ∧
      (o.config.lowlevel = false ↔ quietFlag ∈ args)) ∧
    (∀ count slots quiet file, requested? count = some slots → (∀ f ∈ file, f ∉ reserved) →
      Arranges args (parts count quiet file) →
      parse args =
        .ok { config := { slots := slots, lowlevel := !quiet }, file := file, help := false }) := by
  refine ⟨⟨?_, ?_⟩, ?_, ?_⟩
  · rintro ⟨o, hparse, hhelp⟩
    by_contra hask
    obtain ⟨_, _, _, _, -, -, -, rfl⟩ := (parse_eq_ok_iff hask).mp hparse
    cases hhelp
  · exact fun hask => ⟨_, parse_of_asksHelp hask, rfl⟩
  · intro o hparse hhelp
    obtain ⟨count, args', slots, file, htake, hcount, hfile, rfl⟩ :=
      (parse_eq_ok_iff (not_asksHelp_of_parse hparse hhelp)).mp hparse
    refine ⟨count, ?_, hcount, isSome_of_takeValue htake, ?_⟩
    · rw [Bool.not_not]
      exact arranges_of_takeValue htake (perm_singles hfile)
    · rw [quietFlag_mem_of_takeValue htake hcount]
      simp
  · exact fun _ _ _ _ => parse_of_arranges

/-- A command line with the file first and the flag last. -/
def shuffled : List Bytes := ["prog.fp", "--heap-slots", "4k", "--no-lowlevel"].map Bytes.ofString

theorem parse_accounts_shuffled : requested? (some "4k") = some 4096 ∧ "prog.fp" ∉ reserved ∧
    parse shuffled = .ok { config := { slots := 4096, lowlevel := false }, file := some "prog.fp" } ∧
    quietFlag ∈ shuffled := by
  obtain ⟨-, haccounted, haccepted⟩ := parse_accounts shuffled
  have hcount : requested? (some "4k") = some 4096 := by decide
  have hfile : "prog.fp" ∉ reserved := by decide
  have harranges : Arranges shuffled (parts (some "4k") true (some "prog.fp")) := by
    refine ⟨[[Bytes.ofString "prog.fp"], [slotsOption, Bytes.ofString "4k"], [quietFlag]], ?_, rfl⟩
    exact (List.perm_append_singleton [Bytes.ofString "prog.fp"] _).symm
  have hparse := haccepted (some "4k") 4096 true (some "prog.fp") hcount (by simpa using hfile) harranges
  obtain ⟨_, -, -, -, hquiet⟩ := haccounted _ hparse rfl
  exact ⟨hcount, hfile, hparse, hquiet.mp rfl⟩

end PushLisp.Options
