import Mathlib.Algebra.Group.Nat.Defs
import Mathlib.Data.List.DropRight
import Mathlib.Data.List.Induction
import Mathlib.Data.List.TakeWhile
import Mathlib.Data.Nat.Digits.Defs
import PushLisp.Command.Size

/-!
# Sizes

A size goes through a number of double precision, yet whole numbers come out as they were written: up to
two to the fifty-third, every whole number is one of the format. What a text denotes is told from its
parts. Blanks around it are skipped, a letter at its end is a unit, and what is left must be a finite
decimal, which is described by a grammar of its own.

## Main definitions

* `Literal.denoted`: the number that digits denote.
* `Literal.Decimal`: the texts that are finite decimals.
* `Size.Parts`: the blanks, the body and the unit of a text.

## Main statements

* `Binary64.exists_nearest?_of_le`: rounding keeps whole numbers up to two to the fifty-third.
* `Literal.decimal_of_read?`: what is read as a finite decimal is one.
* `Size.exists_parts`, `Size.Parts.read?`: every text has parts and is read by them.
* `Size.read?_exact`: sizes are read exactly.
-/
namespace PushLisp

/-! ## Rounding whole numbers -/

namespace Binary64

variable {n den : ℕ} {e : ℤ} {x : Binary64}

theorem div_le_roundHalfEven (n den : ℕ) : n / den ≤ roundHalfEven n den := by
  rw [roundHalfEven]
  split_ifs <;> omega

/-- What is whole already is not changed. -/
theorem roundHalfEven_of_dvd (hden : 0 < den) (h : den ∣ n) : roundHalfEven n den = n / den := by
  rw [roundHalfEven, Nat.mod_eq_zero_of_dvd h]
  exact if_pos (by omega)

theorem floor_zero (e : ℤ) : floor ⟨0, e⟩ = 0 := by
  cases e <;> simp [floor]

/-- A whole number is kept if its last place is worth at most one, or divides it. -/
theorem floor_significandAt (h : ∀ k : ℕ, e = k → 2 ^ k ∣ n) : floor ⟨significandAt e n 1, e⟩ = n := by
  cases e with
  | ofNat k =>
    have hk : 2 ^ k ∣ n := h k rfl
    change roundHalfEven n (1 <<< k) <<< k = n
    rw [Nat.one_shiftLeft, Nat.shiftLeft_eq, roundHalfEven_of_dvd (Nat.two_pow_pos k) hk,
      Nat.div_mul_cancel hk]
  | negSucc k =>
    change roundHalfEven (n <<< (k + 1)) 1 >>> (k + 1) = n
    rw [roundHalfEven_of_dvd one_pos (one_dvd _), Nat.div_one, Nat.shiftLeft_shiftRight]

/-- A number does not vanish in rounding if its last place is worth no more than itself. -/
theorem significandAt_pos (hn : n ≠ 0) (h : ∀ k : ℕ, e = k → 2 ^ k ≤ n) : 0 < significandAt e n 1 := by
  cases e with
  | ofNat k =>
    change 0 < roundHalfEven n (1 <<< k)
    rw [Nat.one_shiftLeft]
    exact (Nat.div_pos (h k rfl) (Nat.two_pow_pos k)).trans_le (div_le_roundHalfEven n (2 ^ k))
  | negSucc k =>
    change 0 < roundHalfEven (n <<< (k + 1)) 1
    rw [roundHalfEven_of_dvd one_pos (one_dvd _), Nat.div_one, Nat.shiftLeft_eq]
    exact Nat.mul_pos (Nat.pos_of_ne_zero hn) (Nat.two_pow_pos _)

theorem floorLog2_one (hn : n ≠ 0) : floorLog2 n 1 = n.log2 := by
  have hle : powLe (n.log2 : ℤ) n 1 = true := by
    change decide (1 <<< n.log2 ≤ n) = true
    rw [Nat.one_shiftLeft]
    exact decide_eq_true (Nat.log2_self_le hn)
  have hone : Nat.log2 1 = 0 := by decide
  rw [floorLog2, hone, Nat.cast_zero, sub_zero, if_pos hle]

/-- The last place of a whole number is the fifty-second behind its first. -/
theorem nearest?_one (hn : n ≠ 0) : nearest? n 1 =
    if maxExponent < n.log2 - 52 ∨ ((n.log2 - 52 : ℤ) = maxExponent ∧
      significandAt (n.log2 - 52) n 1 = 2 ^ 53)
    then none else some ⟨significandAt (n.log2 - 52) n 1, n.log2 - 52⟩ := by
  have he : max minExponent (floorLog2 n 1 - (precision - 1 : ℕ)) = n.log2 - 52 := by
    rw [floorLog2_one hn, minExponent, precision]
    omega
  rw [nearest?, if_neg hn, he, precision, Nat.one_shiftLeft]

/-- Up to two to the fifty-third, whole numbers are numbers of the format. -/
theorem exists_nearest?_of_le (hle : n ≤ 2 ^ 53) : ∃ x, nearest? n 1 = some x ∧ x.floor = n := by
  by_cases hn : n = 0
  · subst hn
    exact ⟨_, rfl, floor_zero minExponent⟩
  have hlog : n.log2 < 54 := (Nat.log2_lt hn).mpr (by omega)
  refine ⟨_, (nearest?_one hn).trans (if_neg ?_), floor_significandAt fun k hk => ?_⟩
  · rw [maxExponent]
    omega
  · obtain rfl | rfl : k = 0 ∨ k = 1 := by omega
    · exact one_dvd n
    · -- Only the bound itself has its last place at two.
      have hfull : 2 ^ n.log2 ≤ n := Nat.log2_self_le hn
      rw [show n.log2 = 53 by omega] at hfull
      rw [le_antisymm hle hfull]
      decide

theorem isZero_of_nearest? (hn : n ≠ 0) (h : nearest? n 1 = some x) : x.isZero = false := by
  rw [nearest?_one hn] at h
  split at h
  · cases h
  · obtain rfl := Option.some.inj h
    have hpos : 0 < significandAt (n.log2 - 52) n 1 := by
      refine significandAt_pos hn fun k hk => ?_
      calc
        2 ^ k ≤ 2 ^ n.log2 := Nat.pow_le_pow_right two_pos (by omega)
        _ ≤ n := Nat.log2_self_le hn
    exact decide_eq_false hpos.ne'

/-- A decimal without a fraction and an exponent is a whole number. -/
theorem ofDecimal?_zero (n digits : ℕ) : ofDecimal? n digits 0 = nearest? n 1 := by
  by_cases hn : n = 0
  · simp [ofDecimal?.eq_def, nearest?, hn]
  · have hnear : ¬ (310 : ℤ) < 0 := by decide
    have hfar : ¬ (digits + 0 : ℤ) < -330 := by omega
    rw [ofDecimal?.eq_def, if_neg hn, if_neg hnear, if_neg hfar]
    change nearest? (n * 1) 1 = nearest? n 1
    rw [mul_one]

end Binary64

/-! ## Decimals -/

namespace Literal

/-- All characters are decimal digits. -/
def Digits (ds : List Char) : Prop := ∀ c ∈ ds, c.isDigit = true

instance (ds : List Char) : Decidable (Digits ds) := List.decidableBAll (fun c : Char => c.isDigit = true) ds

/-- The number that a run of digits denotes. -/
def denoted (ds : List Char) : ℕ := Nat.ofDigits 10 (ds.reverse.map fun c => c.toNat - '0'.toNat)

/-- The ways to write a sign. -/
def signs : List (List Char) := [[], ['+'], ['-']]

/-- Digits, perhaps with a point before, among or after them. -/
inductive Mantissa : List Char → Prop
  | whole {ds : List Char} (hne : ds ≠ []) (hds : Digits ds) : Mantissa ds
  | pointed {whole fraction : List Char} (hne : whole ++ fraction ≠ []) (hwhole : Digits whole)
      (hfraction : Digits fraction) : Mantissa (whole ++ '.' :: fraction)

/-- Nothing, or the letter of an exponent with digits behind it. -/
inductive Exponent : List Char → Prop
  | absent : Exponent []
  | present {c : Char} {sign ds : List Char} (hc : c = 'e' ∨ c = 'E') (hsign : sign ∈ signs) (hne : ds ≠ [])
      (hds : Digits ds) : Exponent (c :: (sign ++ ds))

/-- A text is a finite decimal number. -/
def Decimal (cs : List Char) : Prop :=
  ∃ sign mantissa exponent, sign ∈ signs ∧ Mantissa mantissa ∧ Exponent exponent ∧
    cs = sign ++ (mantissa ++ exponent)

theorem Mantissa.ne_nil {cs : List Char} (h : Mantissa cs) : cs ≠ [] := by
  cases h with
  | whole hne => exact hne
  | pointed => simp

variable {c : Char} {cs ds sign rest : List Char} {negative : Bool} {m digits : ℕ} {e : ℤ} {literal : Literal}

theorem digitsValue_append (ds : List Char) (c : Char) :
    digitsValue (ds ++ [c]) = digitsValue ds * 10 + (c.toNat - '0'.toNat) := by
  rw [digitsValue, List.foldl_append]
  rfl

theorem digitsValue_eq_denoted (ds : List Char) : digitsValue ds = denoted ds := by
  induction ds using List.reverseRecOn with
  | nil => rfl
  | append_singleton ds c ih =>
    rw [digitsValue_append, ih, denoted, denoted, List.reverse_append, List.reverse_singleton,
      List.singleton_append, List.map_cons, Nat.ofDigits_cons]
    omega

theorem takeDigits_append (cs : List Char) : (takeDigits cs).1 ++ (takeDigits cs).2 = cs :=
  List.takeWhile_append_dropWhile

theorem digits_takeDigits (cs : List Char) : Digits (takeDigits cs).1 :=
  fun _ hc => List.mem_takeWhile_imp hc

/-! ### What is read is a decimal -/

theorem exists_sign (cs : List Char) : ∃ sign ∈ signs, cs = sign ++ (takeSign cs).2 := by
  fun_cases takeSign cs with
  | case1 rest => exact ⟨['-'], by decide, rfl⟩
  | case2 rest => exact ⟨['+'], by decide, rfl⟩
  | case3 => exact ⟨[], by decide, rfl⟩

theorem exponent_of_readExponent? (h : readExponent? cs = some e) : Exponent cs := by
  cases cs with
  | nil => exact .absent
  | cons c rest =>
    rw [readExponent?] at h
    split at h
    · rename_i hc
      obtain ⟨sign, hsign, hrest⟩ := exists_sign rest
      have hsplit := takeDigits_append (takeSign rest).2
      have hdigits := digits_takeDigits (takeSign rest).2
      dsimp only at h
      split at h
      · cases h
      · rename_i ds hne heq
        rw [heq] at hsplit hdigits
        rw [hrest, ← hsplit, List.append_nil]
        exact .present hc hsign hne hdigits
      · cases h
    · cases h

/-- The digits before and after the point make up a mantissa, unless there are none. -/
theorem exists_mantissa
    (hne : ((takeDigits cs).1.isEmpty && (takeFraction (takeDigits cs).2).1.isEmpty) ≠ true) :
    ∃ mantissa, Mantissa mantissa ∧ cs = mantissa ++ (takeFraction (takeDigits cs).2).2 := by
  have hsplit := takeDigits_append cs
  have hdigits := digits_takeDigits cs
  generalize takeDigits cs = split at *
  obtain ⟨whole, rest⟩ := split
  fun_cases takeFraction rest with
  | case1 rest =>
    refine ⟨whole ++ '.' :: (takeDigits rest).1, .pointed ?_ hdigits (digits_takeDigits rest), ?_⟩
    · simpa [takeFraction, or_iff_not_imp_left] using hne
    · rw [← hsplit, List.append_assoc, List.cons_append, takeDigits_append]
  | case2 rest hpoint =>
    refine ⟨whole, .whole ?_ hdigits, hsplit.symm⟩
    rintro rfl
    simp [takeFraction] at hne

theorem decimal_of_readDecimal? (h : readDecimal? negative cs = some literal) :
    ∃ mantissa exponent, Mantissa mantissa ∧ Exponent exponent ∧ cs = mantissa ++ exponent := by
  rw [readDecimal?] at h
  dsimp only at h
  split at h
  · cases h
  · rename_i hne
    obtain ⟨mantissa, hmantissa, hcs⟩ := exists_mantissa hne
    split at h
    · cases h
    · rename_i e he
      exact ⟨mantissa, _, hmantissa, exponent_of_readExponent? he, hcs⟩

theorem decimal_of_read? (h : read? cs = some (.decimal negative m digits e)) : Decimal cs := by
  rw [read?] at h
  dsimp only at h
  split at h
  · cases h
  · obtain ⟨sign, hsign, hcs⟩ := exists_sign cs
    obtain ⟨mantissa, exponent, hmantissa, hexponent, hrest⟩ := decimal_of_readDecimal? h
    exact ⟨sign, mantissa, exponent, hsign, hmantissa, hexponent, hrest ▸ hcs⟩

/-! ### Whole numbers are read -/

theorem takeDigits_of_digits (hds : Digits ds) : takeDigits ds = (ds, []) := by
  rw [takeDigits, List.takeWhile_eq_self_iff.mpr hds, List.dropWhile_eq_nil_iff.mpr hds]

theorem readDecimal?_of_digits (hne : ds ≠ []) (hds : Digits ds) :
    readDecimal? negative ds = some (.decimal negative (denoted ds) ds.length 0) := by
  simp [readDecimal?, takeDigits_of_digits hds, takeFraction, readExponent?, hne, digitsValue_eq_denoted]

theorem ne_of_isDigit {d : Char} (hc : c.isDigit = true) (hd : d.isDigit = false) : c ≠ d := by
  rintro rfl
  exact absurd hc (Bool.eq_false_iff.mp hd)

theorem toLower_of_isDigit (hc : c.isDigit = true) : c.toLower = c := by
  have hupper : ¬ (c.val ≥ 'A'.val ∧ c.val ≤ 'Z'.val) := by
    rw [Char.isDigit] at hc
    grind
  exact dif_neg hupper

/-- The words for what is not finite begin with letters. -/
theorem isSpecial_of_isDigit (hc : c.isDigit = true) (rest : List Char) : isSpecial (c :: rest) = false := by
  have hi : c ≠ 'i' := ne_of_isDigit hc (by decide)
  have hn : c ≠ 'n' := ne_of_isDigit hc (by decide)
  rw [isSpecial, List.map_cons, toLower_of_isDigit hc]
  simp [hi, hn]

theorem takeSign_of_digits (hne : ds ≠ []) (hds : Digits ds) : takeSign ds = (false, ds) := by
  obtain ⟨c, rest, rfl⟩ := List.exists_cons_of_ne_nil hne
  have hc : c.isDigit = true := hds c List.mem_cons_self
  have hminus : c ≠ '-' := ne_of_isDigit hc (by decide)
  have hplus : c ≠ '+' := ne_of_isDigit hc (by decide)
  simp [takeSign, hminus, hplus]

theorem read?_of_takeSign (hsign : takeSign cs = (negative, ds)) (hne : ds ≠ []) (hds : Digits ds) :
    read? cs = some (.decimal negative (denoted ds) ds.length 0) := by
  obtain ⟨c, rest, rfl⟩ := List.exists_cons_of_ne_nil hne
  have hspecial := isSpecial_of_isDigit (hds c List.mem_cons_self) rest
  simp [read?, hsign, hspecial, readDecimal?_of_digits hne hds]

end Literal

/-! ## Sizes -/

namespace Size

open Literal (Digits denoted Decimal)

variable {c : Char} {cs text before body unit after ds sign : List Char} {f n : ℕ}

/-- All characters are white space. -/
def Blank (cs : List Char) : Prop := ∀ c ∈ cs, Text.isBlank c = true

instance (cs : List Char) : Decidable (Blank cs) :=
    List.decidableBAll (fun c : Char => Text.isBlank c = true) cs

/-- The ways to write a unit, and what each stands for. -/
def units : List (List Char × ℕ) :=
  [([], 1), (['k'], 2 ^ 10), (['K'], 2 ^ 10), (['m'], 2 ^ 20), (['M'], 2 ^ 20), (['g'], 2 ^ 30),
    (['G'], 2 ^ 30)]

/-- There is no white space at either end. -/
def Trimmed (cs : List Char) : Prop :=
  (∀ c ∈ cs.head?, Text.isBlank c = false) ∧ ∀ c ∈ cs.getLast?, Text.isBlank c = false

/-- The parts of a text: blanks, a body with its unit, and blanks. -/
structure Parts (text before body unit after : List Char) (f : ℕ) : Prop where
  text_eq : text = before ++ (body ++ unit) ++ after
  before_blank : Blank before
  after_blank : Blank after
  mem_units : (unit, f) ∈ units
  /-- The blanks are all there are. -/
  trimmed : Trimmed (body ++ unit)
  /-- There is no unit only if the text does not end in one. -/
  longest : unit = [] → ∀ c ∈ body.getLast?, ∀ g, ([c], g) ∉ units

/-! ### The parts of a text -/

theorem dropWhile_blank_append (hbefore : Blank before) (hhead : ∀ c ∈ cs.head?, Text.isBlank c = false) :
    (before ++ cs).dropWhile Text.isBlank = cs := by
  rw [List.dropWhile_append_of_pos hbefore]
  cases cs with
  | nil => rfl
  | cons c rest => exact List.dropWhile_cons_of_neg (by simp [hhead c rfl])

theorem head?_dropWhile_blank (cs : List Char) :
    ∀ c ∈ (cs.dropWhile Text.isBlank).head?, Text.isBlank c = false := by
  intro c hc
  have hnot := List.head?_dropWhile_not Text.isBlank cs
  rw [Option.mem_def.mp hc] at hnot
  exact hnot

theorem blank_takeWhile (cs : List Char) : Blank (cs.takeWhile Text.isBlank) :=
  fun _ hc => List.mem_takeWhile_imp hc

theorem trim_append (hbefore : Blank before) (hafter : Blank after) (hbody : Trimmed body) :
    Text.trim (before ++ body ++ after) = body := by
  have hend : Text.trimEnd (body ++ after) = body := by
    rw [Text.trimEnd, List.reverse_append, dropWhile_blank_append, List.reverse_reverse]
    · exact fun c hc => hafter c (List.mem_reverse.mp hc)
    · rw [List.head?_reverse]
      exact hbody.2
  cases body with
  | nil =>
    rw [Text.trim, List.append_nil, List.dropWhile_append_of_pos hbefore,
      List.dropWhile_eq_nil_iff.mpr hafter]
    rfl
  | cons c rest =>
    have hstart : (before ++ (c :: rest ++ after)).dropWhile Text.isBlank = c :: rest ++ after :=
      dropWhile_blank_append hbefore hbody.1
    rw [Text.trim, List.append_assoc, hstart, hend]

theorem exists_trim (text : List Char) : Trimmed (Text.trim text) ∧
    ∃ before after, Blank before ∧ Blank after ∧ text = before ++ Text.trim text ++ after := by
  have hend : Text.trim text ++ (text.dropWhile Text.isBlank).rtakeWhile Text.isBlank =
      text.dropWhile Text.isBlank :=
    List.rdropWhile_append_rtakeWhile ..
  refine ⟨⟨fun c hc => ?_, ?_⟩, text.takeWhile Text.isBlank,
    (text.dropWhile Text.isBlank).rtakeWhile Text.isBlank, blank_takeWhile _, ?_, ?_⟩
  · apply head?_dropWhile_blank text
    rw [← hend, List.head?_append, Option.mem_def.mp hc]
    rfl
  · rw [Text.trim, Text.trimEnd, List.getLast?_reverse]
    exact head?_dropWhile_blank _
  · exact fun c hc => List.mem_takeWhile_imp (List.mem_reverse.mp hc)
  · rw [List.append_assoc, hend, List.takeWhile_append_dropWhile]

theorem unit?_eq_some_iff : unit? c = some f ↔ ([c], f) ∈ units := by
  simp only [unit?, units, List.mem_cons, Prod.mk.injEq, List.cons.injEq, and_true]
  grind

theorem splitUnit_append (hunit : (unit, f) ∈ units)
    (hlongest : unit = [] → ∀ c ∈ body.getLast?, ∀ g, ([c], g) ∉ units) :
    splitUnit (body ++ unit) = (body, f) := by
  have : unit = [] ∧ f = 1 ∨ ∃ c, unit = [c] := by
    simp only [units, List.mem_cons, Prod.mk.injEq] at hunit
    grind
  obtain ⟨rfl, rfl⟩ | ⟨c, rfl⟩ := this
  · rw [List.append_nil, splitUnit]
    split
    · rfl
    · rename_i c hc
      have hnone : unit? c = none := by
        rw [Option.eq_none_iff_forall_ne_some]
        intro g hg
        exact hlongest rfl c hc g (unit?_eq_some_iff.mp hg)
      rw [hnone]
  · rw [splitUnit, List.getLast?_concat]
    dsimp only
    rw [unit?_eq_some_iff.mpr hunit, List.dropLast_concat]

theorem exists_unit (cs : List Char) : ∃ unit, (unit, (splitUnit cs).2) ∈ units ∧
    cs = (splitUnit cs).1 ++ unit ∧ (unit = [] → ∀ c ∈ (splitUnit cs).1.getLast?, ∀ g, ([c], g) ∉ units) := by
  rcases List.eq_nil_or_concat cs with rfl | ⟨body, c, rfl⟩
  · exact ⟨[], by decide, rfl, by simp [splitUnit]⟩
  · cases hunit : unit? c with
    | none =>
      have : splitUnit (body.concat c) = (body.concat c, 1) := by
        simp [splitUnit, hunit]
      rw [this]
      refine ⟨[], by simp [units], by simp, fun _ d hd g hg => ?_⟩
      rw [List.concat_eq_append, List.getLast?_concat] at hd
      obtain rfl := Option.some.inj hd
      rw [← unit?_eq_some_iff, hunit] at hg
      cases hg
    | some f =>
      have : splitUnit (body.concat c) = (body, f) := by
        simp [splitUnit, hunit]
      rw [this]
      exact ⟨[c], unit?_eq_some_iff.mp hunit, by simp, by simp⟩

/-- Every text has parts. -/
theorem exists_parts (text : List Char) :
    ∃ before body unit after f, Parts text before body unit after f := by
  obtain ⟨htrimmed, before, after, hbefore, hafter, htext⟩ := exists_trim text
  obtain ⟨unit, hunit, heq, hlongest⟩ := exists_unit (Text.trim text)
  rw [heq] at htext htrimmed
  exact ⟨before, _, unit, after, _, htext, hbefore, hafter, hunit, htrimmed, hlongest⟩

/-- A text is read by its parts. -/
theorem Parts.read? (h : Parts text before body unit after f) :
    Size.read? text = ((Literal.read? body).bind ofLiteral?).map fun n => n * f % (limit + 1) := by
  have hsplit : splitUnit (Text.trim text) = (body, f) := by
    rw [h.text_eq, trim_append h.before_blank h.after_blank h.trimmed, splitUnit_append h.mem_units h.longest]
  rw [Size.read?, hsplit]
  dsimp only
  cases Literal.read? body <;> rfl

/-! ### Whole numbers -/

theorem ofLiteral?_of_le (hle : n ≤ 2 ^ 53) (digits : ℕ) :
    ofLiteral? (.decimal false n digits 0) = some n := by
  obtain ⟨x, hx, hfloor⟩ := Binary64.exists_nearest?_of_le hle
  have hlimit : n ≤ limit := hle.trans (by decide)
  simp [ofLiteral?, Binary64.ofDecimal?_zero, hx, hfloor, hlimit]

theorem ofLiteral?_negative (hn : n ≠ 0) (digits : ℕ) : ofLiteral? (.decimal true n digits 0) = none := by
  rw [ofLiteral?, Binary64.ofDecimal?_zero]
  cases hx : Binary64.nearest? n 1 with
  | none => rfl
  | some x => simp [Binary64.isZero_of_nearest? hn hx]

theorem isBlank_of_isDigit (hc : c.isDigit = true) : Text.isBlank c = false := by
  have hlow : 48 ≤ c.toNat ∧ c.toNat ≤ 57 := by
    rw [Char.isDigit, Bool.and_eq_true, decide_eq_true_eq, decide_eq_true_eq] at hc
    exact ⟨UInt32.le_iff_toNat_le.mp hc.1, UInt32.le_iff_toNat_le.mp hc.2⟩
  simp only [Text.isBlank]
  grind

theorem trimmed_of_forall (h : ∀ c ∈ body, Text.isBlank c = false) : Trimmed body :=
  ⟨fun c hc => h c (List.mem_of_mem_head? hc), fun c hc => h c (List.mem_of_mem_getLast? hc)⟩

theorem isBlank_of_mem_units (hunit : (unit, f) ∈ units) : ∀ c ∈ unit, Text.isBlank c = false := by
  have hall : ∀ p ∈ units, ∀ c ∈ p.1, Text.isBlank c = false := by simp [units, Text.isBlank]
  exact hall (unit, f) hunit

theorem isBlank_of_mem_signs (hsign : sign ∈ Literal.signs) : ∀ c ∈ sign, Text.isBlank c = false := by
  have hall : ∀ sign ∈ Literal.signs, ∀ c ∈ sign,
      Text.isBlank c = false := by simp [Literal.signs, Text.isBlank]
  exact hall sign hsign

theorem not_mem_units_of_isDigit (hc : c.isDigit = true) (f : ℕ) : ([c], f) ∉ units := by
  intro hmem
  have hall : ∀ p ∈ units, ∀ c ∈ p.1, c.isDigit = false := by simp [units]
  exact Literal.ne_of_isDigit hc (hall _ hmem c List.mem_cons_self) rfl

/-- Digits with a sign before and a unit behind them are the body and the unit of a text. -/
theorem parts_of_digits (hbefore : Blank before) (hafter : Blank after) (hsign : sign ∈ Literal.signs)
    (hne : ds ≠ []) (hds : Digits ds) (hunit : (unit, f) ∈ units) :
    Parts (before ++ sign ++ ds ++ unit ++ after) before (sign ++ ds) unit after f where
  text_eq := by simp
  before_blank := hbefore
  after_blank := hafter
  mem_units := hunit
  trimmed := by
    apply trimmed_of_forall
    intro c hc
    rw [List.mem_append, List.mem_append] at hc
    obtain (hc | hc) | hc := hc
    · exact isBlank_of_mem_signs hsign c hc
    · exact isBlank_of_isDigit (hds c hc)
    · exact isBlank_of_mem_units hunit c hc
  longest := by
    intro _ c hc
    rw [List.getLast?_append_of_ne_nil sign hne] at hc
    exact not_mem_units_of_isDigit (hds c (List.mem_of_mem_getLast? hc))

/-- Sizes are read exactly. A whole number of at most two to the fifty-third, with any number of leading
zeros, perhaps a plus, a unit and blanks around it, is read as itself times the factor of the unit. With
a minus it is refused unless it is zero. Every text has a body and a unit, and is refused if the body is
no finite decimal. -/
theorem read?_exact :
    (∀ before sign ds unit after f, Blank before → Blank after → sign ∈ [[], ['+']] → ds ≠ [] → Digits ds →
      (unit, f) ∈ units → denoted ds ≤ 2 ^ 53 → denoted ds * f < 2 ^ 64 →
      read? (before ++ sign ++ ds ++ unit ++ after) = some (denoted ds * f)) ∧
    (∀ before ds unit after f, Blank before → Blank after → ds ≠ [] → Digits ds → (unit, f) ∈ units →
      0 < denoted ds → read? (before ++ ['-'] ++ ds ++ unit ++ after) = none) ∧
    (∀ text, ∃ before body unit after f, Parts text before body unit after f) ∧
    (∀ text before body unit after f, Parts text before body unit after f → ¬ Decimal body →
      read? text = none) := by
  refine ⟨?_, ?_, exists_parts, ?_⟩
  · intro before sign ds unit after f hbefore hafter hsign hne hds hunit hle hlt
    have hsigns : sign ∈ Literal.signs := List.mem_append_left [['-']] hsign
    have htake : Literal.takeSign (sign ++ ds) = (false, ds) := by
      rw [List.mem_cons, List.mem_singleton] at hsign
      obtain rfl | rfl := hsign
      · exact Literal.takeSign_of_digits hne hds
      · rfl
    have hparts := parts_of_digits hbefore hafter hsigns hne hds hunit
    rw [hparts.read?, Literal.read?_of_takeSign htake hne hds, Option.bind_some, ofLiteral?_of_le hle]
    exact congrArg some (Nat.mod_eq_of_lt hlt)
  · intro before ds unit after f hbefore hafter hne hds hunit hpos
    have hsigns : ['-'] ∈ Literal.signs := by decide
    have htake : Literal.takeSign (['-'] ++ ds) = (true, ds) := rfl
    have hparts := parts_of_digits hbefore hafter hsigns hne hds hunit
    rw [hparts.read?, Literal.read?_of_takeSign htake hne hds, Option.bind_some, ofLiteral?_negative hpos.ne']
    rfl
  · intro text before body unit after f hparts hbody
    rw [hparts.read?]
    cases hread : Literal.read? body with
    | none => rfl
    | some literal =>
      cases literal with
      | decimal negative m digits e => exact absurd (Literal.decimal_of_read? hread) hbody
      | special => rfl

theorem read?_exact_padded : read? ['\t', '+', '0', '0', '6', '4', 'k', ' '] = some 65536 ∧
    read? [' ', '-', '3', 'G'] = none ∧ ¬ Decimal [] ∧ read? ['k', ' '] = none := by
  obtain ⟨hexact, hminus, -, hother⟩ := read?_exact
  have hempty : ¬ Decimal [] := by
    rintro ⟨sign, mantissa, exponent, -, hmantissa, -, hnil⟩
    obtain ⟨-, rfl, -⟩ : sign = [] ∧ mantissa = [] ∧ exponent = [] := by simpa using hnil.symm
    exact hmantissa.ne_nil rfl
  have hvalue : denoted ['0', '0', '6', '4'] * 2 ^ 10 = 65536 := by decide
  have hparts : Parts ['k', ' '] [] [] ['k'] [' '] (2 ^ 10) :=
    ⟨rfl, by decide, by decide, by decide, trimmed_of_forall (by simp [Text.isBlank]), by simp⟩
  exact ⟨hvalue ▸ hexact ['\t'] ['+'] ['0', '0', '6', '4'] ['k'] [' '] (2 ^ 10) (by decide) (by decide)
    (by decide)
      (by decide) (by decide) (by decide) (by decide) (by decide),
    hminus [' '] ['3'] ['G'] [] (2 ^ 30) (by decide) (by decide) (by decide) (by decide) (by decide)
      (by decide), hempty, hother _ _ _ _ _ _ hparts hempty⟩

end Size

end PushLisp
