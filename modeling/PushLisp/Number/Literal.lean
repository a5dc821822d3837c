import PushLisp.Number.Binary64

/-!
# Number literals

A number literal is an optional sign and then digits with an optional point among them and an
optional exponent, or one of the words for what is no finite number. There is at least one digit,
and letters count in either case.

## Main definitions

* `Literal`: what a literal says.
* `Literal.read?`: reading one.
-/
namespace PushLisp

/-- What a number literal says. -/
inductive Literal where
  /-- The decimal `mantissa * 10 ^ exponent`, its sign apart. -/
  | decimal (negative : Bool) (mantissa digits : Nat) (exponent : Int)
  /-- An infinity or no number at all. -/
  | special
  deriving Repr, DecidableEq

namespace Literal

/-- The value of a run of digits. -/
def digitsValue (ds : List Char) : Nat := ds.foldl (fun n c => n * 10 + (c.toNat - '0'.toNat)) 0

/-- Takes an optional sign; true is minus. -/
def takeSign : List Char → Bool × List Char
  | '-' :: rest => (true, rest)
  | '+' :: rest => (false, rest)
  | cs => (false, cs)

/-- Takes a run of digits. -/
def takeDigits (cs : List Char) : List Char × List Char :=
  (cs.takeWhile Char.isDigit, cs.dropWhile Char.isDigit)

/-- Takes the digits after an optional point. -/
def takeFraction : List Char → List Char × List Char
  | '.' :: rest => takeDigits rest
  | cs => ([], cs)

/-- The exponent that a literal ends with; none is zero. -/
def readExponent? : List Char → Option Int
  | [] => some 0
  | c :: rest =>
    if c = 'e' ∨ c = 'E' then
      let (negative, rest) := takeSign rest
      match takeDigits rest with
      | ([], _) => none
      | (ds, []) => some (if negative then -(digitsValue ds : Int) else digitsValue ds)
      | (_, _ :: _) => none
    else none

/-- Whether a word stands for what is no finite number. -/
def isSpecial (cs : List Char) : Bool :=
  let word := cs.map Char.toLower
  word = "inf".toList || word = "infinity".toList || word = "nan".toList

/-- Reads an unsigned decimal. -/
def readDecimal? (negative : Bool) (cs : List Char) : Option Literal :=
  let (whole, rest) := takeDigits cs
  let (fraction, rest) := takeFraction rest
  if whole.isEmpty && fraction.isEmpty then none
  else
    match readExponent? rest with
    | none => none
    | some e =>
      let ds := whole ++ fraction
      some (.decimal negative (digitsValue ds) ds.length (e - fraction.length))

/-- Reads a number literal, which must be the whole text. -/
def read? (cs : List Char) : Option Literal :=
  let (negative, rest) := takeSign cs
  if isSpecial rest then some .special else readDecimal? negative rest

end Literal

end PushLisp
