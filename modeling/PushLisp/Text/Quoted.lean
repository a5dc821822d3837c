import PushLisp.Text.Unprintable
import PushLisp.Text.Utf8

/-!
# Quoted text

A byte string between double quotes, so that it can be told apart from the text around it. Quotes,
backslashes, the usual control characters and characters without a printed form are escaped, and
bytes that are no text are shown by their value.

## Main definitions

* `Text.quote`: a byte string in quotes.
* `Text.quoteList`: a list of them in brackets.
-/
namespace PushLisp.Text

/-- Two hexadecimal digits in upper case. -/
def upperHex (b : UInt8) : String :=
  String.ofList [(Nat.digitChar (b.toNat / 16)).toUpper, (Nat.digitChar (b.toNat % 16)).toUpper]

/-- The digits of a number in base sixteen. -/
def hexText (n : Nat) : String := String.ofList (Nat.toDigits 16 n)

/-- A character inside quotes. -/
def quoteChar (c : Char) : String :=
  if c = '\x00' then "\\0"
  else if c = '\t' then "\\t"
  else if c = '\r' then "\\r"
  else if c = '\n' then "\\n"
  else if c = '"' then "\\\""
  else if c = '\\' then "\\\\"
  else if isUnprintable c then "\\u\x7b" ++ hexText c.toNat ++ "\x7d"
  else String.singleton c

/-- A piece of a byte string inside quotes. -/
def quotePiece : Utf8.Piece → String
  | .scalar c => quoteChar c
  | .broken bytes => String.join (bytes.map fun b => "\\x" ++ upperHex b)

/-- A byte string in quotes. -/
def quote (bytes : Bytes) : String :=
  "\"" ++ String.join ((Utf8.pieces bytes).map quotePiece) ++ "\""

/-- A list of byte strings in quotes, between brackets. -/
def quoteList (items : List Bytes) : String :=
  "[" ++ String.intercalate ", " (items.map quote) ++ "]"

end PushLisp.Text
