import PushLisp.Fault

/-!
# Source text

A source is what is left of a text, together with the number of bytes consumed. Scanning takes a
blank stretch, a word or the body of a string off its front, and never looks further than one byte
beyond what it takes.

## Main definitions

* `Source`, `Source.new`: the text.
* `isWhite`, `isDirective`, `isPunctuation`: the classes of bytes.
* `Source.skipBlank`: passes blanks and comments.
* `Source.scanWord`: takes a run of bytes that are no punctuation.
* `Source.scanString`: takes the body of a string and decodes its escapes.
-/
namespace PushLisp

/-- White space between terms. -/
def isWhite (c : UInt8) : Bool :=
  c = Ascii.space || c = Ascii.tab || c = Ascii.newline

/-- The signs that start a quote or a directive. -/
def isDirective (c : UInt8) : Bool :=
  c = Ascii.singleQuote || c = Ascii.caret || c = Ascii.dollar

/-- The bytes that end a word. -/
def isPunctuation (c : UInt8) : Bool :=
  isWhite c || isDirective c || c = Ascii.openParen || c = Ascii.closeParen ||
    c = Ascii.semicolon || c = Ascii.doubleQuote

/-- What is left of a text. -/
structure Source where
  /-- The number of bytes consumed. -/
  position : Nat
  /-- The bytes not yet consumed. -/
  rest : Bytes
  deriving Repr, DecidableEq

namespace Source

/-- A text from its start. -/
def new (text : Bytes) : Source := ⟨0, text⟩

/-- The next byte. -/
def peek (s : Source) : Option UInt8 := s.rest.head?

/-- Whether the text is used up. -/
def atEnd (s : Source) : Bool := s.rest.isEmpty

/-- Consumes a byte. -/
def advance (s : Source) : Source :=
  match s.rest with
  | [] => s
  | _ :: rest => ⟨s.position + 1, rest⟩

/-! ## Blanks and comments -/

/-- Passes white space and comments, from inside a comment or outside. -/
def skipBlankFrom (comment : Bool) (position : Nat) : Bytes → Source
  | [] => ⟨position, []⟩
  | c :: rest =>
    if comment then skipBlankFrom (c ≠ Ascii.newline) (position + 1) rest
    else if isWhite c then skipBlankFrom false (position + 1) rest
    else if c = Ascii.semicolon then skipBlankFrom true (position + 1) rest
    else ⟨position, c :: rest⟩

/-- Passes white space and comments. A comment runs from a semicolon to the end of its line. -/
def skipBlank (s : Source) : Source := skipBlankFrom false s.position s.rest

theorem skipBlankFrom_suffix (comment : Bool) (position : Nat) (bs : Bytes) :
    (skipBlankFrom comment position bs).rest <:+ bs := by
  induction bs generalizing comment position with
  | nil => simp [skipBlankFrom]
  | cons c rest ih =>
    unfold skipBlankFrom
    split
    · exact (ih _ _).trans (List.suffix_cons c rest)
    · split
      · exact (ih _ _).trans (List.suffix_cons c rest)
      · split
        · exact (ih _ _).trans (List.suffix_cons c rest)
        · exact List.suffix_refl _

theorem skipBlankFrom_position (comment : Bool) (position : Nat) (bs : Bytes) :
    (skipBlankFrom comment position bs).position + (skipBlankFrom comment position bs).rest.length =
      position + bs.length := by
  induction bs generalizing comment position with
  | nil => simp [skipBlankFrom]
  | cons c rest ih =>
    unfold skipBlankFrom
    split
    · rw [ih, List.length_cons]; omega
    · split
      · rw [ih, List.length_cons]; omega
      · split
        · rw [ih, List.length_cons]; omega
        · rfl

/-! ## Words -/

/-- Takes the longest run of bytes that are no punctuation. -/
def scanWord (s : Source) : Bytes × Source :=
  let word := s.rest.takeWhile (!isPunctuation ·)
  (word, ⟨s.position + word.length, s.rest.dropWhile (!isPunctuation ·)⟩)

/-- A word and what is left after it make up the text. -/
theorem scanWord_append (s : Source) : (scanWord s).1 ++ (scanWord s).2.rest = s.rest := by
  simp [scanWord, List.takeWhile_append_dropWhile]

/-! ## Strings -/

/-- Takes the rest of a string body, after the bytes decoded so far. -/
def scanStringFrom (position : Nat) (decoded : Bytes) : Bytes → Except Fault Bytes × Source
  | [] => (.error .endOfInput, ⟨position, []⟩)
  | c :: rest =>
    if c = Ascii.doubleQuote then (.ok decoded.reverse, ⟨position + 1, rest⟩)
    else if c = Ascii.backslash then
      match rest with
      | [] => (.error .endOfInput, ⟨position + 1, []⟩)
      | e :: rest =>
        if e = Ascii.letterN then scanStringFrom (position + 2) (Ascii.newline :: decoded) rest
        else if e = Ascii.letterX then
          match rest with
          | [] => (.error .endOfInput, ⟨position + 2, []⟩)
          | [_] => (.error .endOfInput, ⟨position + 3, []⟩)
          | high :: low :: rest =>
            match Ascii.hexPair? high low with
            | some b => scanStringFrom (position + 4) (b :: decoded) rest
            | none => (.error (.badEscape high low), ⟨position + 4, rest⟩)
        else scanStringFrom (position + 2) (e :: decoded) rest
    else scanStringFrom (position + 1) (c :: decoded) rest

/-- Takes the body of a string whose opening quote is consumed, up to and including the closing
one. A backslash makes the next byte stand for itself, except that `n` stands for a newline and
`x` for the byte of the two hexadecimal digits that follow. -/
def scanString (s : Source) : Except Fault Bytes × Source := scanStringFrom s.position [] s.rest

end Source

end PushLisp
