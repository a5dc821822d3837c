import PushLisp.Machine.Allocation

/-!
# Lists and the value stack

A list is a chain of pairs. The value stack is such a list, its top first, and ends at the handle
of the empty list.

## Main definitions

* `Machine.makeList`: a list of given values.
* `Machine.items`: the values of a list.
* `Machine.push`, `Machine.tryPop`, `Machine.pop`: the value stack.
-/
namespace PushLisp.Machine

/-! ## Lists -/

/-- Puts values in front of a list, the last of them first. -/
def consAll (list : Handle) : List Handle → Run Handle
  | [] => return list
  | v :: rest => do consAll (← makePair v list) rest

/-- A list of given values. -/
def makeList (values : List Handle) : Run Handle :=
  withRoots values (consAll .nil values.reverse)

/-- The values of a list up to its first tail that is no pair, after those already met. The bound
counts the pairs to be met. -/
def itemsFrom (m : Machine) : Nat → Handle → List Handle → Except Stop (List Handle)
  | 0, _, _ => .error .unfinished
  | n + 1, list, met =>
    match m.object? list with
    | some (.pair car cdr) => itemsFrom m n cdr (car :: met)
    | _ => .ok met.reverse

/-- More steps than a walk along pairs can take without meeting one twice. -/
def walkBound (m : Machine) : Nat := m.heap.capacity + 2

/-- The values of a list up to its first tail that is no pair; a list that runs into itself has
none. -/
def items (list : Handle) (m : Machine) : Except Stop (List Handle) :=
  itemsFrom m m.walkBound list []

/-! ## The value stack -/

/-- The values on the stack, top first. -/
def stackItems (m : Machine) : Except Stop (List Handle) := items m.registers.stack m

/-- The number of values on the stack. -/
def stackDepth (m : Machine) : Except Stop Nat :=
  match m.stackItems with
  | .ok values => .ok values.length
  | .error stop => .error stop

/-- Puts a value on the stack. -/
def push (value : Handle) : Run Unit := do
  let stack ← makePair value (← getRegisters).stack
  modifyRegisters fun r => { r with stack := stack }

/-- Takes the top off the stack, if there is one. -/
def tryPop : Run (Option Handle) := do
  let stack := (← getRegisters).stack
  if stack.isNil then return none
  let top ← ask (car stack)
  let rest ← ask (cdr stack)
  modifyRegisters fun r => { r with stack := rest }
  return some top

/-- Takes the top off the stack. -/
def pop : Run Handle := do
  match ← tryPop with
  | some top => return top
  | none => fail .stackUnderflow

/-- Takes an integer off the stack; any other value counts as zero. -/
def popNumber : Run Int64 := do
  let top ← pop
  observe (.uses [top])
  return (← get).numberOrZero top

/-- Puts an integer on the stack. -/
def pushNumber (n : Int64) : Run Unit := do push (← makeNumber n)

end PushLisp.Machine
