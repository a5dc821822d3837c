import PushLisp.Number.Literal
import PushLisp.Text.Blank

/-!
# Sizes

A size is a number literal with an optional unit, `k`, `m` or `g` in either case, for the powers
of 1024. The number is rounded to double precision and its fraction dropped before the unit
applies. Counts have sixty-four bits: a number beyond them becomes the greatest count, and what a
unit carries beyond them is lost.

## Main definitions

* `Size.read?`: the count that a text denotes.
-/
namespace PushLisp.Size

/-- The greatest count. -/
def limit : Nat := 0xFFFFFFFFFFFFFFFF

/-- The factor of a unit letter. -/
def unit? (c : Char) : Option Nat :=
  if c = 'g' ∨ c = 'G' then some (1024 * 1024 * 1024)
  else if c = 'm' ∨ c = 'M' then some (1024 * 1024)
  else if c = 'k' ∨ c = 'K' then some 1024
  else none

/-- Splits a unit off the end of a text. -/
def splitUnit (cs : List Char) : List Char × Nat :=
  match cs.getLast? with
  | none => (cs, 1)
  | some c =>
    match unit? c with
    | some factor => (cs.dropLast, factor)
    | none => (cs, 1)

/-- The whole part of a literal as a count. Negative numbers and what is not finite are none, but a
number that rounds to minus zero is zero. -/
def ofLiteral? : Literal → Option Nat
  | .special => none
  | .decimal negative mantissa digits exponent =>
    match Binary64.ofDecimal? mantissa digits exponent with
    | none => none
    | some x => if negative && !x.isZero then none else some (min x.floor limit)

/-- The count that a text denotes. -/
def read? (text : List Char) : Option Nat :=
  let (number, factor) := splitUnit (Text.trim text)
  match Literal.read? number with
  | none => none
  | some literal => (ofLiteral? literal).map fun n => n * factor % (limit + 1)

end PushLisp.Size
