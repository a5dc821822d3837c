import Mathlib.Data.List.Forall2
import PushLisp.Proofs.Grammar
import PushLisp.Proofs.Persistence

/-!
# String literals

The ways to write a byte inside a string are listed from the byte itself, with the hexadecimal digits
computed from their values. A byte string is written by writing its bytes one after another. Scanning undoes
this exactly: it succeeds on the written forms that a closing quote follows, and only on them. The two ways
in which it fails are told apart by what follows the stretch that is written properly.

## Main definitions

* `Grammar.spellings`: the ways to write one byte.
* `Grammar.Writes`: the ways to write a byte string.

## Main statements

* `Grammar.mem_spellings_iff`: the listed spellings are those of the grammar.
* `Grammar.body_ok_iff`, `Grammar.body_badEscape_iff`, `Grammar.body_endOfInput_iff`: how a string ends.
* `Grammar.scanString_exact`: what scanning does on every text.
-/
namespace PushLisp.Grammar

variable {c high low h l : UInt8} {s t u rest b : Bytes} {src src' : Source} {r : Except Fault Bytes}

/-! ## Hexadecimal digits -/

/-- The hexadecimal digits of a value: those from zero on, or the letters from `a` and from `A` on. -/
def hexDigits (v : UInt8) : List UInt8 :=
  if v < 10 then [Ascii.zero + v] else if v < 16 then [97 + (v - 10), 65 + (v - 10)] else []

/-- A byte is a hexadecimal digit. -/
def IsHexDigit (c : UInt8) : Prop := ∃ v, c ∈ hexDigits v

theorem hexValue?_eq_some_iff : Ascii.hexValue? c = some h ↔ c ∈ hexDigits h := by
  rw [Ascii.hexValue?, hexDigits, Ascii.zero]
  grind

theorem hexValue?_eq_none_iff : Ascii.hexValue? c = none ↔ ¬ IsHexDigit c := by
  simp only [Option.eq_none_iff_forall_ne_some, ne_eq, hexValue?_eq_some_iff, IsHexDigit, not_exists]

theorem lt_of_mem_hexDigits (hc : c ∈ hexDigits h) : h < 16 := by
  rw [hexDigits] at hc
  grind

/-- Two digits make up the byte whose halves they are. -/
theorem shiftLeft_or_eq_iff (hh : h < 16) (hl : l < 16) : h <<< 4 ||| l = c ↔ h = c / 16 ∧ l = c % 16 := by
  have hh' : h.toNat < 16 := UInt8.lt_iff_toNat_lt.mp hh
  have hl' : l.toNat < 16 := UInt8.lt_iff_toNat_lt.mp hl
  have hvalue : (h <<< 4 ||| l).toNat = h.toNat * 16 + l.toNat := by
    have hshift : (h <<< 4).toNat = h.toNat <<< 4 := by
      rw [UInt8.toNat_shiftLeft, Nat.mod_eq_of_lt]
      · rfl
      · change h.toNat <<< 4 < 256
        rw [Nat.shiftLeft_eq]
        omega
    rw [UInt8.toNat_or, hshift, ← Nat.shiftLeft_add_eq_or_of_lt hl', Nat.shiftLeft_eq]
  rw [← UInt8.toNat_inj, ← UInt8.toNat_inj, ← UInt8.toNat_inj, hvalue, UInt8.toNat_div, UInt8.toNat_mod]
  change _ ↔ h.toNat = c.toNat / 16 ∧ l.toNat = c.toNat % 16
  omega

/-! ## Spellings -/

/-- The ways to write a byte inside a string: as itself, behind a backslash, as the newline escape, or by
its two hexadecimal digits. -/
def spellings (c : UInt8) : List Bytes :=
  (if c = Ascii.doubleQuote ∨ c = Ascii.backslash then [] else [[c]]) ++
    (if c = Ascii.letterN ∨ c = Ascii.letterX then [] else [[Ascii.backslash, c]]) ++
    (if c = Ascii.newline then [[Ascii.backslash, Ascii.letterN]] else []) ++
    (hexDigits (c / 16)).flatMap fun high =>
      (hexDigits (c % 16)).map fun low => [Ascii.backslash, Ascii.letterX, high, low]

/-- A text writes a byte string: it is made of spellings of the bytes, one after another. -/
def Writes (t b : Bytes) : Prop :=
  ∃ parts : List Bytes, List.Forall₂ (fun part c => part ∈ spellings c) parts b ∧ t = parts.flatten

theorem mem_spellings_iff : t ∈ spellings c ↔ Spells t c := by
  constructor
  · intro ht
    simp only [spellings, List.mem_append, List.mem_flatMap, List.mem_map] at ht
    rcases ht with ((hplain | hescaped) | hnewline) | ⟨high, hhigh, low, hlow, rfl⟩
    · split at hplain
      · cases hplain
      · rename_i hc
        rw [not_or] at hc
        exact List.mem_singleton.mp hplain ▸ .plain hc.1 hc.2
    · split at hescaped
      · cases hescaped
      · rename_i hc
        rw [not_or] at hc
        exact List.mem_singleton.mp hescaped ▸ .escaped hc.1 hc.2
    · split at hnewline
      · rename_i hc
        exact hc ▸ List.mem_singleton.mp hnewline ▸ .newline
      · cases hnewline
    · have hbyte : (c / 16) <<< 4 ||| c % 16 = c :=
        (shiftLeft_or_eq_iff (lt_of_mem_hexDigits hhigh) (lt_of_mem_hexDigits hlow)).mpr ⟨rfl, rfl⟩
      have hspells := Spells.hex (hexValue?_eq_some_iff.mpr hhigh) (hexValue?_eq_some_iff.mpr hlow)
      rwa [hbyte] at hspells
  · intro ht
    cases ht with
    | plain hquote hbackslash => simp [spellings, hquote, hbackslash]
    | newline => simp [spellings]
    | @hex high low h l hhigh hlow =>
      rw [hexValue?_eq_some_iff] at hhigh hlow
      obtain ⟨hh, hl⟩ := (shiftLeft_or_eq_iff (lt_of_mem_hexDigits hhigh) (lt_of_mem_hexDigits hlow)).mp rfl
      rw [hh] at hhigh
      rw [hl] at hlow
      exact List.mem_append_right _ (List.mem_flatMap.mpr ⟨high, hhigh, List.mem_map.mpr ⟨low, hlow, rfl⟩⟩)
    | escaped hn hx => simp [spellings, hn, hx]

example : spellings Ascii.newline =
    [[10], [92, 10], [92, 110], [92, 120, 48, 97], [92, 120, 48, 65]] := by decide

theorem writes_nil_iff : Writes t [] ↔ t = [] := by
  simp [Writes]

theorem writes_cons_iff : Writes t (c :: b) ↔ ∃ part s, Spells part c ∧ Writes s b ∧ t = part ++ s := by
  constructor
  · rintro ⟨parts, hparts, rfl⟩
    cases hparts with
    | @cons part _ parts _ hpart hrest =>
      exact ⟨part, parts.flatten, mem_spellings_iff.mp hpart, ⟨parts, hrest, rfl⟩, List.flatten_cons⟩
  · rintro ⟨part, s, hpart, ⟨parts, hparts, rfl⟩, rfl⟩
    exact ⟨part :: parts, .cons (mem_spellings_iff.mpr hpart) hparts, List.flatten_cons.symm⟩

/-! ## How a string ends -/

/-- A written stretch in front of a body puts its bytes in front of what the body decodes to. -/
theorem Writes.body_append (ht : Writes t b) (hs : Body s r rest) :
    Body (t ++ s) (r.map (b ++ ·)) rest := by
  induction b generalizing t with
  | nil =>
    obtain rfl := writes_nil_iff.mp ht
    cases r <;> exact hs
  | cons c b ih =>
    obtain ⟨part, u, hpart, hu, rfl⟩ := writes_cons_iff.mp ht
    rw [List.append_assoc]
    cases r with
    | error f => exact .broken hpart (ih hu)
    | ok bytes => exact .byte hpart (ih hu)

/-- Every outcome is that of a quote, a broken escape or the end of the text behind a written stretch. -/
theorem Body.exists_writes (hbody : Body s r rest) : ∃ t b u, Writes t b ∧ s = t ++ u ∧
    (r = .ok b ∧ u = Ascii.doubleQuote :: rest ∨
      (∃ high low, r = .error (.badEscape high low) ∧ ¬ (IsHexDigit high ∧ IsHexDigit low) ∧
        u = Ascii.backslash :: Ascii.letterX :: high :: low :: rest) ∨
      r = .error .endOfInput ∧ Cut u ∧ rest = []) := by
  induction hbody with
  | close rest => exact ⟨[], [], _, writes_nil_iff.mpr rfl, rfl, .inl ⟨rfl, rfl⟩⟩
  | cut hcut => exact ⟨[], [], _, writes_nil_iff.mpr rfl, rfl, .inr (.inr ⟨rfl, hcut, rfl⟩)⟩
  | badHex hbad =>
    rw [hexValue?_eq_none_iff, hexValue?_eq_none_iff, ← not_and_or] at hbad
    exact ⟨[], [], _, writes_nil_iff.mpr rfl, rfl, .inr (.inl ⟨_, _, rfl, hbad, rfl⟩)⟩
  | @byte spelling s rest bytes c hspells hbody ih =>
    obtain ⟨t, b, u, ht, rfl, ⟨hb, hu⟩ | ⟨_, _, hr, _⟩ | ⟨hr, _⟩⟩ := ih
    · obtain rfl := Except.ok.inj hb
      exact ⟨spelling ++ t, c :: bytes, u, writes_cons_iff.mpr ⟨spelling, t, hspells, ht, rfl⟩,
        (List.append_assoc ..).symm, .inl ⟨rfl, hu⟩⟩
    · cases hr
    · cases hr
  | @broken spelling s rest c f hspells hbody ih =>
    obtain ⟨t, b, u, ht, rfl, ⟨hr, _⟩ | hend⟩ := ih
    · cases hr
    · exact ⟨spelling ++ t, c :: b, u, writes_cons_iff.mpr ⟨spelling, t, hspells, ht, rfl⟩,
        (List.append_assoc ..).symm, .inr hend⟩

theorem body_ok_iff : Body s (.ok b) rest ↔ ∃ t, Writes t b ∧ s = t ++ Ascii.doubleQuote :: rest := by
  constructor
  · intro hbody
    obtain ⟨t, b', u, ht, rfl, ⟨hb, rfl⟩ | ⟨_, _, hr, _⟩ | ⟨hr, _⟩⟩ := hbody.exists_writes
    · obtain rfl := Except.ok.inj hb
      exact ⟨t, ht, rfl⟩
    · cases hr
    · cases hr
  · rintro ⟨t, ht, rfl⟩
    simpa [Except.map] using ht.body_append (.close rest)

theorem body_badEscape_iff : Body s (.error (.badEscape high low)) rest ↔ ∃ t b, Writes t b ∧
    ¬ (IsHexDigit high ∧ IsHexDigit low) ∧
      s = t ++ Ascii.backslash :: Ascii.letterX :: high :: low :: rest := by
  constructor
  · intro hbody
    obtain ⟨t, b, u, ht, rfl, ⟨hr, _⟩ | ⟨_, _, hr, hbad, rfl⟩ | ⟨hr, _⟩⟩ := hbody.exists_writes
    · cases hr
    · cases hr
      exact ⟨t, b, ht, hbad, rfl⟩
    · cases hr
  · rintro ⟨t, b, ht, hbad, rfl⟩
    rw [not_and_or, ← hexValue?_eq_none_iff, ← hexValue?_eq_none_iff] at hbad
    exact ht.body_append (.badHex hbad)

theorem body_endOfInput_iff : Body s (.error .endOfInput) rest ↔
    (∃ t b u, Writes t b ∧ Cut u ∧ s = t ++ u) ∧ rest = [] := by
  constructor
  · intro hbody
    obtain ⟨t, b, u, ht, rfl, ⟨hr, _⟩ | ⟨_, _, hr, _⟩ | ⟨_, hcut, hrest⟩⟩ := hbody.exists_writes
    · cases hr
    · cases hr
    · exact ⟨⟨t, b, u, ht, hcut, rfl⟩, hrest⟩
  · rintro ⟨⟨t, b, u, ht, hcut, rfl⟩, rfl⟩
    exact ht.body_append (.cut hcut)

/-! ## Scanning -/

/-- Scanning has the outcome of the grammar, and counts the bytes it passes. -/
theorem scanString_eq_iff : src.scanString = (r, src') ↔
    Body src.rest r src'.rest ∧ src'.extent = src.extent := by
  have hextent : src.scanString.2.extent = src.extent :=
    Source.extent_scanStringFrom src.position [] src.rest
  constructor
  · intro hscan
    obtain ⟨r', rest, hbody⟩ := exists_body src.rest
    obtain ⟨hr, hrest⟩ := scanString_of_body hbody
    rw [hscan] at hr hrest hextent
    obtain rfl : r = r' := hr
    obtain rfl : src'.rest = rest := hrest
    exact ⟨hbody, hextent⟩
  · rintro ⟨hbody, hextent'⟩
    obtain ⟨hr, hrest⟩ := scanString_of_body hbody
    have hsource : src.scanString.2 = src' := by
      rw [← hextent', Source.extent, Source.extent, hrest] at hextent
      exact Source.mk.injEq .. ▸ ⟨Nat.add_right_cancel hextent, hrest⟩
    exact Prod.ext hr hsource

/-- String literals decode exactly. Scanning succeeds with a byte string just if the text begins with a
written form of it and a closing quote, and then stands behind that quote. It fails at an escape just if two
bytes that are not both hexadecimal digits follow the letter of the escape, behind a written stretch, and
then stands behind them. It fails at the end of the text just if neither is met, all the text being a written
stretch and perhaps the start of an escape. Nothing else happens. -/
theorem scanString_exact (src src' : Source) :
    (∀ b, src.scanString = (.ok b, src') ↔ ∃ t, Writes t b ∧
      src.rest = t ++ Ascii.doubleQuote :: src'.rest ∧ src'.position = src.position + (t.length + 1)) ∧
    (∀ high low, src.scanString = (.error (.badEscape high low), src') ↔ ∃ t b, Writes t b ∧
      ¬ (IsHexDigit high ∧ IsHexDigit low) ∧
      src.rest = t ++ Ascii.backslash :: Ascii.letterX :: high :: low :: src'.rest ∧
      src'.position = src.position + (t.length + 4)) ∧
    (src.scanString = (.error .endOfInput, src') ↔ (∃ t b u, Writes t b ∧ Cut u ∧ src.rest = t ++ u) ∧
      src'.rest = [] ∧ src'.position = src.position + src.rest.length) ∧
    ((∃ b, src.scanString.1 = .ok b) ∨ (∃ high low, src.scanString.1 = .error (.badEscape high low)) ∨
      src.scanString.1 = .error .endOfInput) := by
  simp only [scanString_eq_iff, body_ok_iff, body_badEscape_iff, body_endOfInput_iff, Source.extent]
  refine ⟨fun b => ⟨?_, ?_⟩, fun high low => ⟨?_, ?_⟩, ⟨?_, ?_⟩, ?_⟩
  · rintro ⟨⟨t, ht, hrest⟩, hposition⟩
    rw [hrest, List.length_append, List.length_cons] at hposition
    exact ⟨t, ht, hrest, by omega⟩
  · rintro ⟨t, ht, hrest, hposition⟩
    refine ⟨⟨t, ht, hrest⟩, ?_⟩
    rw [hrest, hposition, List.length_append, List.length_cons]
    omega
  · rintro ⟨⟨t, b, ht, hbad, hrest⟩, hposition⟩
    simp only [hrest, List.length_append, List.length_cons] at hposition
    exact ⟨t, b, ht, hbad, hrest, by omega⟩
  · rintro ⟨t, b, ht, hbad, hrest, hposition⟩
    refine ⟨⟨t, b, ht, hbad, hrest⟩, ?_⟩
    simp only [hrest, hposition, List.length_append, List.length_cons]
    omega
  · rintro ⟨⟨hcut, hrest⟩, hposition⟩
    rw [hrest, List.length_nil, Nat.add_zero] at hposition
    exact ⟨hcut, hrest, hposition⟩
  · rintro ⟨hcut, hrest, hposition⟩
    refine ⟨⟨hcut, hrest⟩, ?_⟩
    rw [hrest, hposition, List.length_nil, Nat.add_zero]
  · obtain ⟨r, rest, hbody⟩ := exists_body src.rest
    rw [(scanString_of_body hbody).1]
    obtain ⟨t, b, u, -, -, ⟨hr, -⟩ | ⟨high, low, hr, -⟩ | ⟨hr, -⟩⟩ := hbody.exists_writes
    · exact .inl ⟨b, hr⟩
    · exact .inr (.inl ⟨high, low, hr⟩)
    · exact .inr (.inr hr)

end PushLisp.Grammar
