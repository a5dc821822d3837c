import PushLisp.Bytes

/-!
# UTF-8 with broken input

A byte string splits into characters and maximal broken parts: a lead byte with as many of the
continuation bytes it calls for as are present, or a single byte that starts nothing. Surrogates,
overlong forms and code points above U+10FFFF are broken.

## Main definitions

* `Utf8.pieces`: the split of a byte string.
* `Utf8.decode?`: the text, if nothing is broken.
* `Utf8.lossy`: the text with one replacement character for each broken part.
-/
namespace PushLisp.Utf8

/-- A decoded character, or a maximal part that is no character. -/
inductive Piece where
  | scalar (c : Char)
  | broken (bytes : Bytes)
  deriving Repr, DecidableEq

/-- What a lead byte calls for: the number of continuation bytes, and the least and greatest value
of the first of them. -/
structure Lead where
  count : Nat
  low : UInt8
  high : UInt8

/-- The lead bytes of sequences of two to four bytes. The bounds on the first continuation byte shut
out overlong forms, surrogates and code points above U+10FFFF. -/
def lead? (b : UInt8) : Option Lead :=
  if 0xC2 ≤ b && b ≤ 0xDF then some ⟨1, 0x80, 0xBF⟩
  else if b = 0xE0 then some ⟨2, 0xA0, 0xBF⟩
  else if b = 0xED then some ⟨2, 0x80, 0x9F⟩
  else if 0xE1 ≤ b && b ≤ 0xEF then some ⟨2, 0x80, 0xBF⟩
  else if b = 0xF0 then some ⟨3, 0x90, 0xBF⟩
  else if 0xF1 ≤ b && b ≤ 0xF3 then some ⟨3, 0x80, 0xBF⟩
  else if b = 0xF4 then some ⟨3, 0x80, 0x8F⟩
  else none

/-- Takes at most `n` continuation bytes off the front, the first within `low` and `high`. -/
def continuation (n : Nat) (low high : UInt8) : Bytes → Bytes × Bytes
  | [] => ([], [])
  | c :: rest =>
    match n with
    | 0 => ([], c :: rest)
    | n + 1 =>
      if low ≤ c && c ≤ high then
        let (taken, left) := continuation n 0x80 0xBF rest
        (c :: taken, left)
      else ([], c :: rest)

theorem length_continuation_le (n : Nat) (low high : UInt8) (bs : Bytes) :
    (continuation n low high bs).2.length ≤ bs.length := by
  induction bs generalizing n low high with
  | nil => simp [continuation]
  | cons c rest ih =>
    cases n with
    | zero => simp [continuation]
    | succ n =>
      simp only [continuation]
      split
      · exact Nat.le_succ_of_le (ih n 0x80 0xBF)
      · simp

/-- The code point of a lead byte, whose marker bits are masked off, and its continuation bytes. -/
def codePoint (b : UInt8) (count : Nat) (rest : Bytes) : Nat :=
  rest.foldl (fun acc c => acc * 64 + (c &&& 0x3F).toNat) (b.toNat % 1 <<< (6 - count))

/-- The first piece of a byte string that starts with `b`, and what follows it. -/
def first (b : UInt8) (rest : Bytes) : Piece × Bytes :=
  if b < 0x80 then (.scalar (Char.ofNat b.toNat), rest)
  else
    match lead? b with
    | none => (.broken [b], rest)
    | some ⟨count, low, high⟩ =>
      let (taken, left) := continuation count low high rest
      if taken.length = count then (.scalar (Char.ofNat (codePoint b count taken)), left)
      else (.broken (b :: taken), left)

theorem length_first_le (b : UInt8) (rest : Bytes) : (first b rest).2.length ≤ rest.length := by
  unfold first
  split
  · exact Nat.le_refl _
  · split
    · exact Nat.le_refl _
    · dsimp only
      split <;> exact length_continuation_le ..

/-- The pieces of a byte string, in order, after those already found. -/
def piecesAfter (found : List Piece) : Bytes → List Piece
  | [] => found.reverse
  | b :: rest =>
    let next := first b rest
    piecesAfter (next.1 :: found) next.2
  termination_by bs => bs.length
  decreasing_by exact Nat.lt_succ_of_le (length_first_le b rest)

/-- The pieces of a byte string, in order. -/
def pieces (bs : Bytes) : List Piece := piecesAfter [] bs

/-- The character of a piece; U+FFFD stands for a broken one. -/
def Piece.toChar : Piece → Char
  | .scalar c => c
  | .broken _ => Char.ofNat 0xFFFD

/-- The character of a piece that is not broken. -/
def Piece.toChar? : Piece → Option Char
  | .scalar c => some c
  | .broken _ => none

/-- The characters of a byte string, if it is valid UTF-8. -/
def chars? (bs : Bytes) : Option (List Char) := (pieces bs).mapM Piece.toChar?

/-- The text of a byte string, if it is valid UTF-8. -/
def decode? (bs : Bytes) : Option String := (chars? bs).map String.ofList

/-- The text of a byte string, one replacement character for each broken part. -/
def lossy (bs : Bytes) : String := String.ofList ((pieces bs).map Piece.toChar)

end PushLisp.Utf8
