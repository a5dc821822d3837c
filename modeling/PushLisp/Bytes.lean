/-!
# Byte strings

Source texts, atom spellings and printed values are finite sequences of bytes that need not be
valid UTF-8. They are kept as lists, so that scanning is recursion on the data.

## Main definitions

* `Bytes`: a byte string.
* `Bytes.ofString`: the UTF-8 bytes of a text.
* `Ascii`: the bytes that the notation of terms gives a meaning to.
-/
namespace PushLisp

/-- A byte string. -/
abbrev Bytes := List UInt8

/-- The UTF-8 bytes of a text. -/
def Bytes.ofString (s : String) : Bytes := s.toUTF8.data.toList

namespace Ascii

/-- Horizontal tab. -/
def tab : UInt8 := 9

/-- Line feed, which ends a line. -/
def newline : UInt8 := 10

/-- The blank. -/
def space : UInt8 := 32

/-- The double quote that opens and closes a string. -/
def doubleQuote : UInt8 := 34

/-- The sign of the pop directive. -/
def dollar : UInt8 := 36

/-- The single quote, which reads as the quoting atom. -/
def singleQuote : UInt8 := 39

/-- Opens a list. -/
def openParen : UInt8 := 40

/-- Closes a list. -/
def closeParen : UInt8 := 41

/-- The plus sign of an integer literal. -/
def plus : UInt8 := 43

/-- The minus sign of an integer literal. -/
def minus : UInt8 := 45

/-- The digit zero; the other digits follow it. -/
def zero : UInt8 := 48

/-- Opens a comment, which runs to the end of its line. -/
def semicolon : UInt8 := 59

/-- Starts an escape inside a string. -/
def backslash : UInt8 := 92

/-- The sign of the push directive. -/
def caret : UInt8 := 94

/-- The letter of the newline escape. -/
def letterN : UInt8 := 110

/-- The letter of the hexadecimal escape. -/
def letterX : UInt8 := 120

/-- Whether a byte is a decimal digit. -/
def isDigit (c : UInt8) : Bool := 48 ≤ c && c ≤ 57

/-- The value of a hexadecimal digit of either case. -/
def hexValue? (c : UInt8) : Option UInt8 :=
  if 48 ≤ c && c ≤ 57 then some (c - 48)
  else if 97 ≤ c && c ≤ 102 then some (c - 87)
  else if 65 ≤ c && c ≤ 70 then some (c - 55)
  else none

/-- The byte that two hexadecimal digits denote. -/
def hexPair? (high low : UInt8) : Option UInt8 :=
  (hexValue? high).bind fun h => (hexValue? low).map fun l => h <<< 4 ||| l

end Ascii

end PushLisp
