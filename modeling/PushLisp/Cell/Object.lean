import PushLisp.Cell.Buffer
import PushLisp.Cell.Builtin

/-!
# Objects and handles

Every value of the language is an object in a numbered slot, and a handle is the number of a slot.
Two values are the same exactly when their handles are equal. A handle that names no occupied slot
is absent; only raw memory access makes one.

## Main definitions

* `Handle`, `Handle.nil`: the names of objects.
* `Kind`: the kinds of object, with the codes and names a program sees.
* `Object`: the objects.
* `Object.references`: the handles an object holds.
-/
namespace PushLisp

/-- The name of an object: the number of its slot. -/
structure Handle where
  raw : UInt64
  deriving Repr, DecidableEq, Inhabited

namespace Handle

/-- The handle of the empty list, which sits in slot zero. -/
def nil : Handle := ⟨0⟩

/-- The handle of a slot. -/
def ofSlot (i : Nat) : Handle := ⟨i.toUInt64⟩

/-- The slot a handle names. -/
def slot (h : Handle) : Nat := h.raw.toNat

/-- Whether a handle is that of the empty list. -/
def isNil (h : Handle) : Bool := h = nil

@[simp] theorem isNil_iff (h : Handle) : h.isNil = true ↔ h = nil := by simp [isNil]

end Handle

/-- The kinds of object. -/
inductive Kind where
  | nil
  | atom
  | number
  | pair
  | closure
  | primitive
  | string
  deriving Repr, DecidableEq, Inhabited

namespace Kind

/-- The code of a kind, which is the first word of a cell. -/
def code : Kind → Nat
  | .nil => 0
  | .atom => 1
  | .number => 2
  | .pair => 3
  | .closure => 4
  | .primitive => 5
  | .string => 6

/-- The name of a kind in messages. -/
def name : Kind → String
  | .nil => "nil"
  | .atom => "atom"
  | .number => "number"
  | .pair => "pair"
  | .closure => "closure"
  | .primitive => "primitive"
  | .string => "string"

/-- The name of what a handle was found to be; an absent object has none of the kinds. -/
def foundName : Option Kind → String
  | none => "NULL"
  | some k => k.name

end Kind

/-- The content of an occupied slot. -/
inductive Object where
  /-- The empty list. -/
  | nil
  /-- A symbol with its spelling. -/
  | atom (spelling : Bytes)
  /-- A 64-bit integer. -/
  | number (value : Int64)
  /-- A pair of values. -/
  | pair (car cdr : Handle)
  /-- A term sequence with the environment it was captured in. -/
  | closure (body env : Handle)
  /-- A builtin. -/
  | primitive (p : Primitive)
  /-- A string of bytes. -/
  | string (buffer : Buffer)
  deriving Repr, DecidableEq, Inhabited

namespace Object

/-- The kind of an object. -/
def kind : Object → Kind
  | .nil => .nil
  | .atom _ => .atom
  | .number _ => .number
  | .pair _ _ => .pair
  | .closure _ _ => .closure
  | .primitive _ => .primitive
  | .string _ => .string

/-- The handles an object holds, which keep what they name alive. -/
def references : Object → List Handle
  | .pair car cdr => [car, cdr]
  | .closure body env => [body, env]
  | _ => []

end Object

end PushLisp
