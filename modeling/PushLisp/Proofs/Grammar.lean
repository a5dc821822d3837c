import Mathlib.Data.Nat.Digits.Defs
import PushLisp.Proofs.Terms
import PushLisp.Text.Numeral

/-!
# The grammar of terms

What a text means, said without a machine. Terms are separated by blanks and comments. A phrase is a term
or a directive, and contributes its terms, one or three, to the list or text it stands in. Reading at a
point of a text either gives the terms of the phrase there or fails with a fault, and leaves the rest of
the text in both cases. Scanning finds exactly the gaps, words and strings of the grammar, and at every
point of every text the grammar has an outcome.

## Main definitions

* `Grammar.Gap`, `Grammar.Word`, `Grammar.Body`: blanks and comments, words, the insides of strings.
* `Grammar.Scalar`: the number or atom that a word stands for.
* `Grammar.Phrase`, `Grammar.Items`: a phrase, and the inside of a list.
* `Grammar.Text`: the terms of a whole text, and how it ends.

## Main statements

* `Grammar.skipBlank_of_gap`, `Grammar.scanWord_of_word`, `Grammar.scanString_of_body`: scanning.
* `Grammar.scalar_iff`: numbers and atoms.
* `Grammar.exists_text`: every text has an outcome.
* `Grammar.Phrase.outlay_le`: what the terms of a phrase need is bounded by its length.
-/
namespace PushLisp

namespace Grammar

/-! ## Bytes -/

/-- The bytes that separate terms. -/
def blanks : List UInt8 := [Ascii.space, Ascii.tab, Ascii.newline]

/-- The bytes that end a word. -/
def punctuation : List UInt8 :=
  blanks ++ [Ascii.singleQuote, Ascii.caret, Ascii.dollar, Ascii.openParen, Ascii.closeParen,
    Ascii.semicolon, Ascii.doubleQuote]

theorem isWhite_iff {c : UInt8} : isWhite c = true ↔ c ∈ blanks := by
  simp [isWhite, blanks, or_assoc]

theorem isPunctuation_iff {c : UInt8} : isPunctuation c = true ↔ c ∈ punctuation := by
  simp [isPunctuation, isDirective, punctuation, isWhite_iff, or_assoc]

theorem not_isPunctuation_iff {c : UInt8} : (!isPunctuation c) = true ↔ c ∉ punctuation := by
  rw [← isPunctuation_iff, Bool.not_eq_true', Bool.not_eq_true]

/-! ## Gaps -/

/-- A text begins with blanks and comments, and then goes on. A comment runs from a semicolon to the end
of its line, or of the text. -/
inductive Gap : Bytes → Bytes → Prop
  | none (s : Bytes) : Gap s s
  | blank {c : UInt8} {s rest : Bytes} : c ∈ blanks → Gap s rest → Gap (c :: s) rest
  | comment {body s rest : Bytes} : Ascii.newline ∉ body → Gap s rest →
      Gap (Ascii.semicolon :: (body ++ Ascii.newline :: s)) rest
  | lastComment {body : Bytes} : Ascii.newline ∉ body → Gap (Ascii.semicolon :: body) []

/-- A text begins neither with a blank nor with a comment. -/
def Solid (s : Bytes) : Prop := ∀ c ∈ s.head?, c ∉ blanks ∧ c ≠ Ascii.semicolon

theorem solid_nil : Solid [] := by simp [Solid]

theorem solid_cons {c : UInt8} {s : Bytes} (hblank : c ∉ blanks) (hcomment : c ≠ Ascii.semicolon) :
    Solid (c :: s) := by
  simpa [Solid] using ⟨hblank, hcomment⟩

theorem Gap.length_le {s rest : Bytes} (h : Gap s rest) : rest.length ≤ s.length := by
  induction h with
  | none => exact le_rfl
  | blank _ _ ih => rw [List.length_cons]; omega
  | comment _ _ ih => simp only [List.length_cons, List.length_append]; omega
  | lastComment => simp

/-- Inside a comment, skipping passes everything up to the end of the line. -/
theorem skipBlankFrom_comment {body : Bytes} (hbody : Ascii.newline ∉ body) (position : ℕ) (s : Bytes) :
    (Source.skipBlankFrom true position (body ++ Ascii.newline :: s)) =
      Source.skipBlankFrom false (position + body.length + 1) s := by
  induction body generalizing position with
  | nil => simp [Source.skipBlankFrom]
  | cons c body ih =>
    rw [List.mem_cons, not_or] at hbody
    have hc : c ≠ Ascii.newline := fun h => hbody.1 h.symm
    simp only [List.cons_append, Source.skipBlankFrom, if_true, hc, ne_eq, not_false_eq_true, decide_true]
    rw [ih hbody.2, List.length_cons]
    congr 1
    omega

theorem skipBlankFrom_lastComment {body : Bytes} (hbody : Ascii.newline ∉ body) (position : ℕ) :
    (Source.skipBlankFrom true position body).rest = [] := by
  induction body generalizing position with
  | nil => rfl
  | cons c body ih =>
    rw [List.mem_cons, not_or] at hbody
    have hc : c ≠ Ascii.newline := fun h => hbody.1 h.symm
    simp only [Source.skipBlankFrom, if_true, hc, ne_eq, not_false_eq_true, decide_true]
    exact ih hbody.2 _

theorem skipBlankFrom_of_gap {s rest : Bytes} (hgap : Gap s rest) (hsolid : Solid rest) (position : ℕ) :
    (Source.skipBlankFrom false position s).rest = rest := by
  induction hgap generalizing position with
  | none s =>
    cases s with
    | nil => rfl
    | cons c s =>
      obtain ⟨hblank, hcomment⟩ := hsolid c rfl
      rw [← isWhite_iff] at hblank
      simp [Source.skipBlankFrom, hblank, hcomment]
  | @blank c s rest hc _ ih =>
    have hwhite : isWhite c = true := isWhite_iff.mpr hc
    simpa [Source.skipBlankFrom, hwhite] using ih hsolid (position + 1)
  | @comment body s rest hbody _ ih =>
    have hwhite : isWhite Ascii.semicolon = false := by decide
    simp only [Source.skipBlankFrom, hwhite, if_true]
    rw [if_neg Bool.false_ne_true, if_neg Bool.false_ne_true, skipBlankFrom_comment hbody]
    exact ih hsolid _
  | @lastComment body hbody =>
    have hwhite : isWhite Ascii.semicolon = false := by decide
    simp only [Source.skipBlankFrom, hwhite, if_true]
    rw [if_neg Bool.false_ne_true, if_neg Bool.false_ne_true]
    exact skipBlankFrom_lastComment hbody _

/-- Skipping blanks passes a gap that nothing blank follows. -/
theorem skipBlank_of_gap {src : Source} {rest : Bytes} (hgap : Gap src.rest rest) (hsolid : Solid rest) :
    src.skipBlank.rest = rest :=
  skipBlankFrom_of_gap hgap hsolid src.position

/-- Every text begins with a gap that nothing blank follows. -/
theorem exists_gap (s : Bytes) : ∃ rest, Gap s rest ∧ Solid rest := by
  -- a comment is passed as a whole, so the induction is on the length
  induction hn : s.length using Nat.strongRecOn generalizing s with
  | ind n ih =>
    cases s with
    | nil => exact ⟨[], .none [], solid_nil⟩
    | cons c s =>
      rw [List.length_cons] at hn
      by_cases hblank : c ∈ blanks
      · obtain ⟨rest, hgap, hsolid⟩ := ih s.length (by omega) s rfl
        exact ⟨rest, .blank hblank hgap, hsolid⟩
      · by_cases hcomment : c = Ascii.semicolon
        · subst hcomment
          by_cases hline : Ascii.newline ∈ s
          · obtain ⟨body, tail, rfl, hbody⟩ := List.eq_append_cons_of_mem hline
            rw [List.length_append, List.length_cons] at hn
            obtain ⟨rest, hgap, hsolid⟩ := ih tail.length (by omega) tail rfl
            exact ⟨rest, .comment hbody hgap, hsolid⟩
          · exact ⟨[], .lastComment hline, solid_nil⟩
        · exact ⟨c :: s, .none _, solid_cons hblank hcomment⟩

/-! ## Words -/

/-- A text begins with a word, taken to be as long as can be. -/
structure Word (s word rest : Bytes) : Prop where
  append_eq : word ++ rest = s
  ne_nil : word ≠ []
  plain : ∀ c ∈ word, c ∉ punctuation
  maximal : ∀ c ∈ rest.head?, c ∈ punctuation

theorem takeWhile_of_maximal {word rest : Bytes} (hplain : ∀ c ∈ word, c ∉ punctuation)
    (hmax : ∀ c ∈ rest.head?, c ∈ punctuation) :
    (word ++ rest).takeWhile (!isPunctuation ·) = word ∧
      (word ++ rest).dropWhile (!isPunctuation ·) = rest := by
  have hword : ∀ c ∈ word, (!isPunctuation c) = true := fun c hc =>
    not_isPunctuation_iff.mpr (hplain c hc)
  have hrest : rest.takeWhile (!isPunctuation ·) = [] ∧ rest.dropWhile (!isPunctuation ·) = rest := by
    cases rest with
    | nil => exact ⟨rfl, rfl⟩
    | cons c rest => simp [isPunctuation_iff.mpr (hmax c rfl)]
  rw [List.takeWhile_append_of_pos hword, List.dropWhile_append_of_pos hword, hrest.1, hrest.2]
  exact ⟨List.append_nil word, rfl⟩

/-- Scanning takes the word that the text begins with. -/
theorem scanWord_of_word {src : Source} {word rest : Bytes} (h : Word src.rest word rest) :
    src.scanWord = (word, ⟨src.position + word.length, rest⟩) := by
  obtain ⟨htake, hdrop⟩ := takeWhile_of_maximal h.plain h.maximal
  rw [h.append_eq] at htake hdrop
  simp only [Source.scanWord, htake, hdrop]

/-- Where no word begins, scanning takes nothing. -/
theorem scanWord_of_punctuation {src : Source} (h : ∀ c ∈ src.rest.head?, c ∈ punctuation) :
    src.scanWord = ([], src) := by
  obtain ⟨htake, hdrop⟩ := takeWhile_of_maximal (List.forall_mem_nil _) h
  rw [List.nil_append] at htake hdrop
  simp only [Source.scanWord, htake, hdrop, List.length_nil, Nat.add_zero]

/-- A text that does not begin with punctuation begins with a word. -/
theorem exists_word {c : UInt8} {s : Bytes} (hc : c ∉ punctuation) :
    ∃ word rest, Word (c :: s) word rest := by
  refine ⟨(c :: s).takeWhile (!isPunctuation ·), (c :: s).dropWhile (!isPunctuation ·),
    List.takeWhile_append_dropWhile, ?_, ?_, ?_⟩
  · rw [List.takeWhile_cons, if_pos (not_isPunctuation_iff.mpr hc)]
    exact List.cons_ne_nil _ _
  · intro b hb
    exact not_isPunctuation_iff.mp (List.all_eq_true.mp List.all_takeWhile b hb)
  · intro b hb
    have hhead := List.head?_dropWhile_not (!isPunctuation ·) (c :: s)
    rw [Option.mem_def.mp hb] at hhead
    simpa [isPunctuation_iff] using hhead

/-! ## Numbers and atoms -/

/-- A run of digits and its value in base ten. -/
structure Digits (word : Bytes) (n : ℕ) : Prop where
  ne_nil : word ≠ []
  digit : ∀ c ∈ word, Ascii.isDigit c
  value : n = Nat.ofDigits 10 (word.reverse.map fun c => (c - Ascii.zero).toNat)

/-- An optional sign and a run of digits, and its value. -/
inductive Literal : Bytes → ℤ → Prop
  | plain {word : Bytes} {n : ℕ} : Digits word n → Literal word n
  | plus {word : Bytes} {n : ℕ} : Digits word n → Literal (Ascii.plus :: word) n
  | minus {word : Bytes} {n : ℕ} : Digits word n → Literal (Ascii.minus :: word) (-n)

/-- The integers of 64 bits. -/
def InRange (i : ℤ) : Prop := -2 ^ 63 ≤ i ∧ i < 2 ^ 63

/-- What a word stands for: a number if it is an integer literal in range, else the atom spelled like
it. -/
inductive Scalar (word : Bytes) : Term → Prop
  | number {i : ℤ} : Literal word i → InRange i → Scalar word (.number (Int64.ofInt i))
  | atom : (∀ i, Literal word i → ¬ InRange i) → Scalar word (.atom word)

theorem digitsFrom_eq_some_iff {word : Bytes} {acc n : ℕ} :
    Numeral.digitsFrom acc word = some n ↔ (∀ c ∈ word, Ascii.isDigit c) ∧
      n = Nat.ofDigits 10 (word.reverse.map fun c => (c - Ascii.zero).toNat) + 10 ^ word.length * acc := by
  induction word generalizing acc with
  | nil =>
    rw [Numeral.digitsFrom, Option.some_inj, eq_comm]
    simp
  | cons c word ih =>
    rw [Numeral.digitsFrom]
    by_cases hc : Ascii.isDigit c = true
    · rw [if_pos hc, ih]
      have hvalue : Nat.ofDigits 10 ((c :: word).reverse.map fun c => (c - Ascii.zero).toNat) =
          Nat.ofDigits 10 (word.reverse.map fun c => (c - Ascii.zero).toNat) +
            10 ^ word.length * (c - Ascii.zero).toNat := by
        simp [Nat.ofDigits_append]
      rw [hvalue, List.length_cons, pow_succ]
      simp only [List.forall_mem_cons, hc, true_and]
      have hsum : 10 ^ word.length * (acc * 10 + (c - Ascii.zero).toNat) =
          10 ^ word.length * (c - Ascii.zero).toNat + 10 ^ word.length * 10 * acc := by ring
      rw [hsum, Nat.add_assoc]
    · rw [if_neg hc]
      simp [hc]

theorem readNat?_eq_some_iff {word : Bytes} {n : ℕ} :
    Numeral.readNat? word = some n ↔ Digits word n := by
  cases word with
  | nil =>
    constructor
    · rintro ⟨⟩
    · intro h
      exact absurd rfl h.ne_nil
  | cons c word =>
    rw [Numeral.readNat?, digitsFrom_eq_some_iff, Nat.mul_zero, Nat.add_zero]
    constructor
    · rintro ⟨hdigit, hvalue⟩
      exact ⟨List.cons_ne_nil c word, hdigit, hvalue⟩
    · intro h
      exact ⟨h.digit, h.value⟩

/-- A run of digits has no sign. -/
theorem Digits.head_ne {c : UInt8} {word : Bytes} {n : ℕ} (h : Digits (c :: word) n) :
    c ≠ Ascii.plus ∧ c ≠ Ascii.minus := by
  have hc := h.digit c List.mem_cons_self
  constructor <;> rintro rfl <;> exact absurd hc (by decide)

/-- Reading an integer accepts the literals, and gives their value. -/
theorem readInt?_eq_some_iff {word : Bytes} {i : ℤ} : Numeral.readInt? word = some i ↔ Literal word i := by
  constructor
  · intro h
    cases word with
    | nil => cases h
    | cons c word =>
      rw [Numeral.readInt?] at h
      split at h
      · rename_i hc
        obtain ⟨n, hn, rfl⟩ := Option.map_eq_some_iff.mp h
        exact hc ▸ .plus (readNat?_eq_some_iff.mp hn)
      · split at h
        · rename_i hc
          obtain ⟨n, hn, rfl⟩ := Option.map_eq_some_iff.mp h
          exact hc ▸ .minus (readNat?_eq_some_iff.mp hn)
        · obtain ⟨n, hn, rfl⟩ := Option.map_eq_some_iff.mp h
          exact .plain (readNat?_eq_some_iff.mp hn)
  · intro h
    cases h with
    | @plain _ n hdigits =>
      cases word with
      | nil => exact absurd rfl hdigits.ne_nil
      | cons c word =>
        obtain ⟨hplus, hminus⟩ := hdigits.head_ne
        rw [Numeral.readInt?, if_neg hplus, if_neg hminus, readNat?_eq_some_iff.mpr hdigits]
        rfl
    | @plus word n hdigits =>
      rw [Numeral.readInt?, if_pos rfl, readNat?_eq_some_iff.mpr hdigits]
      rfl
    | @minus word n hdigits =>
      rw [Numeral.readInt?, if_neg (by decide), if_pos rfl, readNat?_eq_some_iff.mpr hdigits]
      rfl

theorem inRange_iff {i : ℤ} : InRange i ↔ Int64.minValue.toInt ≤ i ∧ i ≤ Int64.maxValue.toInt := by
  rw [InRange, Int64.toInt_minValue, Int64.toInt_maxValue]
  omega

theorem readInt64?_eq_some_iff {word : Bytes} {n : Int64} :
    Numeral.readInt64? word = some n ↔ ∃ i, Literal word i ∧ InRange i ∧ n = Int64.ofInt i := by
  rw [Numeral.readInt64?]
  constructor
  · intro h
    cases hread : Numeral.readInt? word with
    | none =>
      rw [hread] at h
      cases h
    | some i =>
      simp only [hread, Option.ite_none_right_eq_some, Option.some.injEq] at h
      exact ⟨i, readInt?_eq_some_iff.mp hread, inRange_iff.mpr h.1, h.2.symm⟩
  · rintro ⟨i, hliteral, hrange, rfl⟩
    rw [readInt?_eq_some_iff.mpr hliteral]
    exact if_pos (inRange_iff.mp hrange)

theorem readInt64?_eq_none_iff {word : Bytes} :
    Numeral.readInt64? word = none ↔ ∀ i, Literal word i → ¬ InRange i := by
  constructor
  · intro hnone i hliteral hrange
    rw [readInt64?_eq_some_iff.mpr ⟨i, hliteral, hrange, rfl⟩] at hnone
    cases hnone
  · intro h
    by_contra hsome
    obtain ⟨n, hn⟩ := Option.ne_none_iff_exists'.mp hsome
    obtain ⟨i, hliteral, hrange, -⟩ := readInt64?_eq_some_iff.mp hn
    exact h i hliteral hrange

/-- The term of a word is what reading it as an integer says. -/
theorem scalar_iff {word : Bytes} {t : Term} : Scalar word t ↔
    t = match Numeral.readInt64? word with
      | some n => .number n
      | none => .atom word := by
  constructor
  · intro h
    cases h with
    | number hliteral hrange => rw [readInt64?_eq_some_iff.mpr ⟨_, hliteral, hrange, rfl⟩]
    | atom hnone => rw [readInt64?_eq_none_iff.mpr hnone]
  · rintro rfl
    cases hread : Numeral.readInt64? word with
    | none => exact .atom (readInt64?_eq_none_iff.mp hread)
    | some n =>
      obtain ⟨i, hliteral, hrange, rfl⟩ := readInt64?_eq_some_iff.mp hread
      exact .number hliteral hrange

/-! ## Strings -/

/-- How one byte of a string is written: as itself, or escaped by a backslash. -/
inductive Spells : Bytes → UInt8 → Prop
  | plain {c : UInt8} : c ≠ Ascii.doubleQuote → c ≠ Ascii.backslash → Spells [c] c
  | newline : Spells [Ascii.backslash, Ascii.letterN] Ascii.newline
  | hex {high low h l : UInt8} : Ascii.hexValue? high = some h → Ascii.hexValue? low = some l →
      Spells [Ascii.backslash, Ascii.letterX, high, low] (h <<< 4 ||| l)
  | escaped {c : UInt8} : c ≠ Ascii.letterN → c ≠ Ascii.letterX → Spells [Ascii.backslash, c] c

/-- A text that ends inside an escape, or before one. -/
inductive Cut : Bytes → Prop
  | nil : Cut []
  | backslash : Cut [Ascii.backslash]
  | hex : Cut [Ascii.backslash, Ascii.letterX]
  | hexDigit (c : UInt8) : Cut [Ascii.backslash, Ascii.letterX, c]

/-- The inside of a string, after its opening quote: its bytes, or why there are none, and what is left of
the text. -/
inductive Body : Bytes → Except Fault Bytes → Bytes → Prop
  | close (rest : Bytes) : Body (Ascii.doubleQuote :: rest) (.ok []) rest
  | byte {spelling s rest bytes : Bytes} {b : UInt8} : Spells spelling b → Body s (.ok bytes) rest →
      Body (spelling ++ s) (.ok (b :: bytes)) rest
  | cut {s : Bytes} : Cut s → Body s (.error .endOfInput) []
  | badHex {high low : UInt8} {rest : Bytes} :
      Ascii.hexValue? high = none ∨ Ascii.hexValue? low = none →
      Body (Ascii.backslash :: Ascii.letterX :: high :: low :: rest) (.error (.badEscape high low)) rest
  | broken {spelling s rest : Bytes} {b : UInt8} {f : Fault} : Spells spelling b →
      Body s (.error f) rest → Body (spelling ++ s) (.error f) rest

/-- Scanning a string passes the spelling of a byte, and notes the byte. -/
theorem scanStringFrom_spells {spelling : Bytes} {b : UInt8} (h : Spells spelling b) (position : ℕ)
    (decoded s : Bytes) : Source.scanStringFrom position decoded (spelling ++ s) =
      Source.scanStringFrom (position + spelling.length) (b :: decoded) s := by
  have hquote : Ascii.backslash ≠ Ascii.doubleQuote := by decide
  have hletter : Ascii.letterX ≠ Ascii.letterN := by decide
  cases h with
  | plain hne hne' =>
    rw [List.singleton_append, Source.scanStringFrom.eq_def]
    simp only [hne, hne', if_false, List.length_singleton]
  | newline =>
    rw [List.cons_append, List.singleton_append, Source.scanStringFrom.eq_def]
    simp [hquote]
  | hex hhigh hlow =>
    simp only [List.cons_append, List.nil_append]
    rw [Source.scanStringFrom.eq_def]
    simp [hquote, hletter, Ascii.hexPair?, hhigh, hlow]
  | escaped hne hne' =>
    rw [List.cons_append, List.singleton_append, Source.scanStringFrom.eq_def]
    simp [hquote, hne, hne']

theorem scanStringFrom_of_body {s rest : Bytes} {r : Except Fault Bytes} (h : Body s r rest) (position : ℕ)
    (decoded : Bytes) : (Source.scanStringFrom position decoded s).1 = r.map (decoded.reverse ++ ·) ∧
      (Source.scanStringFrom position decoded s).2.rest = rest := by
  have hquote : Ascii.backslash ≠ Ascii.doubleQuote := by decide
  have hletter : Ascii.letterX ≠ Ascii.letterN := by decide
  induction h generalizing position decoded with
  | close rest =>
    rw [Source.scanStringFrom.eq_def]
    simp [Except.map]
  | byte hspells _ ih =>
    rw [scanStringFrom_spells hspells]
    simpa [Except.map] using ih _ (_ :: decoded)
  | cut hcut => cases hcut <;> simp [Source.scanStringFrom, hquote, hletter, Except.map]
  | @badHex high low rest hbad =>
    have hnone : Ascii.hexPair? high low = none := by
      rcases hbad with hbad | hbad <;> simp [Ascii.hexPair?, hbad]
    rw [Source.scanStringFrom.eq_def]
    simp [hquote, hletter, hnone, Except.map]
  | broken hspells _ ih =>
    rw [scanStringFrom_spells hspells]
    exact ih _ _

/-- Scanning a string gives its bytes or its fault, and stops where the grammar says. -/
theorem scanString_of_body {src : Source} {rest : Bytes} {r : Except Fault Bytes}
    (h : Body src.rest r rest) : src.scanString.1 = r ∧ src.scanString.2.rest = rest := by
  obtain ⟨hresult, hrest⟩ := scanStringFrom_of_body h src.position []
  refine ⟨hresult.trans ?_, hrest⟩
  cases r <;> rfl

/-- The inside of a string comes out one way or another. -/
theorem exists_body (s : Bytes) : ∃ r rest, Body s r rest := by
  induction hn : s.length using Nat.strongRecOn generalizing s with
  | ind n ih =>
    -- one more byte in front changes the outcome in one of two ways
    have hspells : ∀ {spelling tail : Bytes} {b : UInt8}, Spells spelling b → tail.length < n →
        ∃ r rest, Body (spelling ++ tail) r rest := by
      intro spelling tail b hb hlt
      obtain ⟨r, rest, hbody⟩ := ih tail.length hlt tail rfl
      cases r with
      | ok bytes => exact ⟨_, rest, .byte hb hbody⟩
      | error f => exact ⟨_, rest, .broken hb hbody⟩
    match s with
    | [] => exact ⟨_, _, .cut .nil⟩
    | c :: s =>
      by_cases hclose : c = Ascii.doubleQuote
      · subst hclose
        exact ⟨_, s, .close s⟩
      · by_cases hescape : c = Ascii.backslash
        · subst hescape
          match s with
          | [] => exact ⟨_, _, .cut .backslash⟩
          | e :: s =>
            by_cases hn' : e = Ascii.letterN
            · subst hn'
              exact hspells .newline (by simp only [List.length_cons] at hn; omega)
            · by_cases hx : e = Ascii.letterX
              · subst hx
                match s with
                | [] => exact ⟨_, _, .cut .hex⟩
                | [d] => exact ⟨_, _, .cut (.hexDigit d)⟩
                | high :: low :: s =>
                  cases hhigh : Ascii.hexValue? high with
                  | none => exact ⟨_, s, .badHex (.inl hhigh)⟩
                  | some h =>
                    cases hlow : Ascii.hexValue? low with
                    | none => exact ⟨_, s, .badHex (.inr hlow)⟩
                    | some l =>
                      exact hspells (.hex hhigh hlow) (by simp only [List.length_cons] at hn; omega)
              · exact hspells (.escaped hn' hx) (by simp only [List.length_cons] at hn; omega)
        · exact hspells (.plain hclose hescape) (by simp only [List.length_cons] at hn; omega)

/-! ## Phrases -/

/-- The signs of the directives, and the atoms that they end with. -/
def directives : List (UInt8 × String) := [(Ascii.caret, "push"), (Ascii.dollar, "pop")]

/-- The atom spelled like a text. -/
def name (text : String) : Term := .atom (Bytes.ofString text)

mutual

/-- Reading at a point of a text where there is no gap: the terms of the phrase there, or the fault, and
what is left of the text. A closing parenthesis begins no phrase. -/
inductive Phrase : Bytes → Except Fault (List Term) → Bytes → Prop
  | atEnd : Phrase [] (.error .endOfInput) []
  | quote (rest : Bytes) : Phrase (Ascii.singleQuote :: rest) (.ok [name "quote"]) rest
  | directive {sign : UInt8} {op : String} {s word rest : Bytes} {t : Term} : (sign, op) ∈ directives →
      Word s word rest → Scalar word t → Phrase (sign :: s) (.ok [name "quote", t, name op]) rest
  | nameless {sign : UInt8} {op : String} {s : Bytes} : (sign, op) ∈ directives →
      (∀ c ∈ s.head?, c ∈ punctuation) → Phrase (sign :: s) (.error (.emptyDirective sign)) s
  | list {s rest : Bytes} {ts : List Term} : Items s (.ok ts) rest →
      Phrase (Ascii.openParen :: s) (.ok [.list ts]) rest
  | brokenList {s rest : Bytes} {f : Fault} : Items s (.error f) rest →
      Phrase (Ascii.openParen :: s) (.error f) rest
  | string {s rest bytes : Bytes} : Body s (.ok bytes) rest →
      Phrase (Ascii.doubleQuote :: s) (.ok [.string bytes]) rest
  | brokenString {s rest : Bytes} {f : Fault} : Body s (.error f) rest →
      Phrase (Ascii.doubleQuote :: s) (.error f) rest
  | scalar {s word rest : Bytes} {t : Term} : Word s word rest → Scalar word t → Phrase s (.ok [t]) rest

/-- Reading the inside of a list, after its opening parenthesis: the terms of its phrases one after
another up to the closing parenthesis, or the fault of the first phrase that has one. -/
inductive Items : Bytes → Except Fault (List Term) → Bytes → Prop
  | close {s rest : Bytes} : Gap s (Ascii.closeParen :: rest) → Items s (.ok []) rest
  | more {s s₁ s₂ rest : Bytes} {ts us : List Term} : Gap s s₁ → Phrase s₁ (.ok ts) s₂ →
      Items s₂ (.ok us) rest → Items s (.ok (ts ++ us)) rest
  | broken {s s₁ rest : Bytes} {f : Fault} : Gap s s₁ → Phrase s₁ (.error f) rest →
      Items s (.error f) rest
  | brokenLater {s s₁ s₂ rest : Bytes} {ts : List Term} {f : Fault} : Gap s s₁ → Phrase s₁ (.ok ts) s₂ →
      Items s₂ (.error f) rest → Items s (.error f) rest

end

/-- Reading a text of `size` bytes from a point on, again and again: the terms of its phrases one after
another, the fault that ends them, and what is left of the text then. A closing parenthesis outside of
lists is a fault, which tells its position. -/
inductive Text (size : ℕ) : Bytes → List Term → Fault → Bytes → Prop
  | close {s rest : Bytes} : Gap s (Ascii.closeParen :: rest) →
      Text size s [] (.unbalancedClose (size - (rest.length + 1))) rest
  | broken {s s₁ rest : Bytes} {f : Fault} : Gap s s₁ → Phrase s₁ (.error f) rest → Text size s [] f rest
  | more {s s₁ s₂ rest : Bytes} {ts us : List Term} {f : Fault} : Gap s s₁ → Phrase s₁ (.ok ts) s₂ →
      Text size s₂ us f rest → Text size s (ts ++ us) f rest

theorem mem_directives {sign : UInt8} {op : String} :
    (sign, op) ∈ directives ↔ sign = Ascii.caret ∧ op = "push" ∨ sign = Ascii.dollar ∧ op = "pop" := by
  simp [directives]

theorem solid_closeParen (s : Bytes) : Solid (Ascii.closeParen :: s) := solid_cons (by decide) (by decide)

/-- A word begins with a byte that is no punctuation. -/
theorem Word.exists_cons {s word rest : Bytes} (h : Word s word rest) :
    ∃ c tail, s = c :: tail ∧ c ∉ punctuation := by
  obtain ⟨rfl, hne, hplain, -⟩ := h
  cases word with
  | nil => exact absurd rfl hne
  | cons c word => exact ⟨c, word ++ rest, rfl, hplain c List.mem_cons_self⟩

/-- A phrase begins neither with a blank nor with a comment, nor with a closing parenthesis. -/
theorem Phrase.start {s rest : Bytes} {r : Except Fault (List Term)} (h : Phrase s r rest) :
    Solid s ∧ s.head? ≠ some Ascii.closeParen := by
  have hcons : ∀ {c : UInt8}, c ∉ blanks ++ [Ascii.semicolon, Ascii.closeParen] → ∀ s : Bytes,
      Solid (c :: s) ∧ (c :: s).head? ≠ some Ascii.closeParen := by
    intro c hc s
    simp only [List.mem_append, List.mem_cons, List.not_mem_nil, or_false, not_or] at hc
    exact ⟨solid_cons hc.1 hc.2.1, by simpa using hc.2.2⟩
  have hsign : ∀ {sign op}, (sign, op) ∈ directives →
      sign ∉ blanks ++ [Ascii.semicolon, Ascii.closeParen] := by
    intro sign op hmem
    rcases mem_directives.mp hmem with ⟨rfl, -⟩ | ⟨rfl, -⟩ <;> decide
  cases h with
  | atEnd => exact ⟨solid_nil, by simp⟩
  | directive hmem => exact hcons (hsign hmem) _
  | nameless hmem => exact hcons (hsign hmem) _
  | scalar hword =>
    obtain ⟨c, tail, rfl, hc⟩ := hword.exists_cons
    refine hcons (fun hmem => hc ?_) tail
    rw [punctuation, List.mem_append]
    rw [List.mem_append] at hmem
    refine hmem.imp_right fun hmem => ?_
    simp only [List.mem_cons, List.not_mem_nil, or_false] at hmem ⊢
    tauto
  | _ => exact hcons (by decide) _

/-! ## What terms need -/

theorem Word.length_lt {s word rest : Bytes} (h : Word s word rest) : rest.length < s.length := by
  rw [← h.append_eq, List.length_append]
  have := List.length_pos_iff.mpr h.ne_nil
  omega

theorem Scalar.cost_le {word : Bytes} {t : Term} (h : Scalar word t) : t.cost ≤ 2 := by
  cases h <;> simp [Term.cost]

theorem Body.length_le {s rest : Bytes} {r : Except Fault Bytes} (h : Body s r rest) :
    rest.length ≤ s.length := by
  induction h with
  | byte _ _ ih => rw [List.length_append]; omega
  | broken _ _ ih => rw [List.length_append]; omega
  | _ => simp only [List.length_cons, List.length_nil]; omega

/-- The number of objects that terms may need, if each is put into a list. -/
def outlay : Except Fault (List Term) → ℕ
  | .ok ts => (Term.list ts).cost
  | .error _ => 0

mutual

/-- The terms of a phrase need no more objects than five for each byte of the phrase. -/
theorem Phrase.outlay_le : ∀ {s rest : Bytes} {r : Except Fault (List Term)}, Phrase s r rest →
    outlay r + 5 * rest.length ≤ 5 * s.length
  | _, _, _, .atEnd => by simp [outlay]
  | _, _, _, .quote rest => by
    simp only [outlay, Term.list_cons, Term.list_nil, Term.cost, name, List.length_cons]
    omega
  | _, _, _, .directive _ hword hscalar => by
    have hcost := hscalar.cost_le
    have hlen := hword.length_lt
    simp only [outlay, Term.list_cons, Term.list_nil, Term.cost, name, List.length_cons]
    omega
  | _, _, _, .nameless _ _ => by
    simp only [outlay, List.length_cons]
    omega
  | _, _, _, .list hitems => by
    have hcost := Items.outlay_le hitems
    simp only [outlay, Term.list_cons, Term.list_nil, Term.cost, List.length_cons] at hcost ⊢
    omega
  | _, _, _, .brokenList hitems => by
    have hcost := Items.outlay_le hitems
    rw [List.length_cons]
    omega
  | _, _, _, .string hbody => by
    have hlen := hbody.length_le
    simp only [outlay, Term.list_cons, Term.list_nil, Term.cost, List.length_cons]
    omega
  | _, _, _, .brokenString hbody => by
    have hlen := hbody.length_le
    simp only [outlay, List.length_cons]
    omega
  | _, _, _, .scalar hword hscalar => by
    have hcost := hscalar.cost_le
    have hlen := hword.length_lt
    simp only [outlay, Term.list_cons, Term.list_nil, Term.cost]
    omega

theorem Items.outlay_le : ∀ {s rest : Bytes} {r : Except Fault (List Term)}, Items s r rest →
    outlay r + 5 * rest.length ≤ 5 * s.length
  | _, _, _, .close hgap => by
    have hlen := hgap.length_le
    rw [List.length_cons] at hlen
    simp only [outlay, Term.list_nil, Term.cost]
    omega
  | _, _, _, .more hgap hphrase hitems => by
    have hlen := hgap.length_le
    have hcost := Phrase.outlay_le hphrase
    have hrest := Items.outlay_le hitems
    simp only [outlay, Term.cost_list_append] at hcost hrest ⊢
    omega
  | _, _, _, .broken hgap hphrase => by
    have hlen := hgap.length_le
    have hcost := Phrase.outlay_le hphrase
    omega
  | _, _, _, .brokenLater hgap hphrase hitems => by
    have hlen := hgap.length_le
    have hcost := Phrase.outlay_le hphrase
    have hrest := Items.outlay_le hitems
    omega

end

/-- A phrase has at least one byte and one term, and at most three terms. -/
theorem Phrase.length {s rest : Bytes} {ts : List Term} (h : Phrase s (.ok ts) rest) :
    rest.length < s.length ∧ 0 < ts.length ∧ ts.length ≤ 3 := by
  have hcost := h.outlay_le
  have hterms : 0 < ts.length ∧ ts.length ≤ 3 := by cases h <;> simp
  cases ts with
  | nil => simp at hterms
  | cons t ts =>
    simp only [outlay, Term.list_cons, Term.cost] at hcost
    exact ⟨by omega, hterms⟩

/-! ## Every text has an outcome -/

/-- The inside of a list has an outcome if every phrase has that starts in it. -/
theorem exists_items {n : ℕ} (hphrase : ∀ s : Bytes, s.length ≤ n → Solid s →
      (∃ r rest, Phrase s r rest) ∨ ∃ rest, s = Ascii.closeParen :: rest) :
    ∀ s : Bytes, s.length ≤ n → ∃ r rest, Items s r rest := by
  intro s
  induction hk : s.length using Nat.strongRecOn generalizing s with
  | ind k ih =>
    intro hle
    obtain ⟨s₁, hgap, hsolid⟩ := exists_gap s
    have hlen := hgap.length_le
    rcases hphrase s₁ (by omega) hsolid with ⟨r, s₂, hs₁⟩ | ⟨rest, rfl⟩
    · cases r with
      | error f => exact ⟨_, s₂, .broken hgap hs₁⟩
      | ok ts =>
        obtain ⟨r, rest, hitems⟩ := ih s₂.length (by have := hs₁.length; omega) s₂ rfl
          (by have := hs₁.length; omega)
        cases r with
        | ok us => exact ⟨_, rest, .more hgap hs₁ hitems⟩
        | error f => exact ⟨_, rest, .brokenLater hgap hs₁ hitems⟩
    · exact ⟨_, rest, .close hgap⟩

/-- At a point without a gap there is a phrase, or a closing parenthesis. -/
theorem exists_phrase {n : ℕ} (s : Bytes) (hn : s.length ≤ n) (hsolid : Solid s) :
    (∃ r rest, Phrase s r rest) ∨ ∃ rest, s = Ascii.closeParen :: rest := by
  induction n generalizing s with
  | zero =>
    rw [List.length_eq_zero_iff.mp (Nat.le_zero.mp hn)]
    exact .inl ⟨_, _, .atEnd⟩
  | succ n ih =>
    cases s with
    | nil => exact .inl ⟨_, _, .atEnd⟩
    | cons c s =>
      have hdirective : ∀ {op}, (c, op) ∈ directives → ∃ r rest, Phrase (c :: s) r rest := by
        intro op hmem
        by_cases hhead : ∀ b ∈ s.head?, b ∈ punctuation
        · exact ⟨_, _, .nameless hmem hhead⟩
        · cases s with
          | nil => simp at hhead
          | cons b s =>
            obtain ⟨word, rest, hword⟩ := exists_word (c := b) (s := s) (by simpa using hhead)
            exact ⟨_, _, .directive hmem hword (scalar_iff.mpr rfl)⟩
      by_cases hc : c ∈ punctuation
      · obtain ⟨hblank, hcomment⟩ := hsolid c rfl
        rw [punctuation, List.mem_append] at hc
        simp only [List.mem_cons, List.not_mem_nil, or_false] at hc
        rcases hc with hc | rfl | rfl | rfl | rfl | rfl | hc | rfl
        · exact absurd hc hblank
        · exact .inl ⟨_, _, .quote s⟩
        · exact .inl (hdirective (mem_directives.mpr (.inl ⟨rfl, rfl⟩)))
        · exact .inl (hdirective (mem_directives.mpr (.inr ⟨rfl, rfl⟩)))
        · obtain ⟨r, rest, hitems⟩ := exists_items ih s (Nat.le_of_succ_le_succ hn)
          cases r with
          | ok ts => exact .inl ⟨_, _, .list hitems⟩
          | error f => exact .inl ⟨_, _, .brokenList hitems⟩
        · exact .inr ⟨s, rfl⟩
        · exact absurd hc hcomment
        · obtain ⟨r, rest, hbody⟩ := exists_body s
          cases r with
          | ok bytes => exact .inl ⟨_, _, .string hbody⟩
          | error f => exact .inl ⟨_, _, .brokenString hbody⟩
      · obtain ⟨word, rest, hword⟩ := exists_word (s := s) hc
        exact .inl ⟨_, _, .scalar hword (scalar_iff.mpr rfl)⟩

/-- Every text has an outcome. -/
theorem exists_text (size : ℕ) (s : Bytes) : ∃ ts f rest, Text size s ts f rest := by
  induction hk : s.length using Nat.strongRecOn generalizing s with
  | ind k ih =>
    obtain ⟨s₁, hgap, hsolid⟩ := exists_gap s
    have hlen := hgap.length_le
    rcases exists_phrase s₁ le_rfl hsolid with ⟨r, s₂, hphrase⟩ | ⟨rest, rfl⟩
    · cases r with
      | error f => exact ⟨_, _, _, .broken hgap hphrase⟩
      | ok ts =>
        obtain ⟨us, f, rest, htext⟩ := ih s₂.length (by have := hphrase.length; omega) s₂ rfl
        exact ⟨_, _, _, .more hgap hphrase htext⟩
    · exact ⟨_, _, _, .close hgap⟩

end Grammar

end PushLisp
