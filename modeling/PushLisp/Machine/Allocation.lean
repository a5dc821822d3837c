import PushLisp.Machine.Run

/-!
# Allocation and inspection

An allocation that finds the table full collects once and tries again. What the new object refers
to is held meanwhile, so that values just taken from the stack may be passed straight in.

## Main definitions

* `Machine.collect`: reclaims what the registers and held roots do not reach.
* `Machine.allocate`: places an object.
* `Machine.object?`, `Machine.number?`, `Machine.atom?`, `Machine.same`: what a handle names.
* `Machine.car`, `Machine.cdr`: the components of a pair.
-/
namespace PushLisp.Machine

/-! ## Inspection -/

/-- The object that a handle names. -/
@[inline] def object? (m : Machine) (h : Handle) : Option Object := m.heap.get? h

/-- The kind of the object that a handle names. -/
def kind? (m : Machine) (h : Handle) : Option Kind := (m.object? h).map Object.kind

/-- The name of the kind of object that a handle names. -/
def kindName (m : Machine) (h : Handle) : String := Kind.foundName (m.kind? h)

/-- Whether a handle names an atom. -/
def isAtom (m : Machine) (h : Handle) : Bool := m.kind? h = some .atom

/-- The integer that a handle names. -/
def number? (m : Machine) (h : Handle) : Option Int64 :=
  match m.object? h with
  | some (.number n) => some n
  | _ => none

/-- The integer that a handle names; arithmetic takes anything else for zero. -/
def numberOrZero (m : Machine) (h : Handle) : Int64 := (m.number? h).getD 0

/-- The spelling of the atom that a handle names. -/
def atom? (m : Machine) (h : Handle) : Option Bytes :=
  match m.object? h with
  | some (.atom spelling) => some spelling
  | _ => none

/-- Whether two handles name the same object or equal numbers. -/
def same (m : Machine) (a b : Handle) : Bool :=
  a = b ||
    match m.number? a, m.number? b with
    | some x, some y => x = y
    | _, _ => false

/-- The fault of an operation that met the wrong kind of object. -/
def mismatch (m : Machine) (op expected : String) (found : Handle) : Stop :=
  .fault (.typeMismatch op expected (m.kind? found))

/-- The first component of a pair. -/
@[inline] def car (h : Handle) (m : Machine) : Except Stop Handle :=
  match m.object? h with
  | some (.pair car _) => .ok car
  | _ => .error (m.mismatch "car" "pair" h)

/-- The second component of a pair. -/
@[inline] def cdr (h : Handle) (m : Machine) : Except Stop Handle :=
  match m.object? h with
  | some (.pair _ cdr) => .ok cdr
  | _ => .error (m.mismatch "cdr" "pair" h)

/-! ## Collection and allocation -/

/-- Everything that keeps objects alive. -/
def roots (m : Machine) : List Handle := m.registers.roots ++ m.shadow

/-- Reclaims what no root reaches, and tells how many slots that was. -/
def collect : Run Nat := do
  observe .collects
  let freed ← modifyGet fun m =>
    let (freed, heap) := m.heap.collect m.roots
    (freed, { m with heap := heap })
  let heap := (← get).heap
  note (.collected heap.stats.collections freed heap.live heap.capacity)
  return freed

/-- Places an object in the next empty slot, if there is one. -/
def tryAllocate (o : Object) : Run (Option Handle) where
  run m :=
    match m.heap.findFree? with
    | none => .ok none m
    | some i => .ok (some (Handle.ofSlot i)) { m with heap := m.heap.place i o }
  passes m t :=
    ∃ i, m.heap.findFree? = some i ∧
      (t = ⟨.uses o.references, m⟩ ∨ t = ⟨.changes m, { m with heap := m.heap.place i o }⟩)

/-- Places an object, and collects once if the table is full. -/
def allocate (o : Object) : Run Handle := do
  match ← tryAllocate o with
  | some h => return h
  | none =>
    let _ ← withRoots o.references collect
    match ← tryAllocate o with
    | some h => return h
    | none => fail (.exhausted (← get).heap.capacity)

/-- A new number. -/
def makeNumber (n : Int64) : Run Handle := allocate (.number n)

/-- A new pair. -/
def makePair (car cdr : Handle) : Run Handle := allocate (.pair car cdr)

/-- A new closure. -/
def makeClosure (body env : Handle) : Run Handle := allocate (.closure body env)

/-- A new string that owns its bytes. -/
def makeString (bytes : Bytes) : Run Handle := allocate (.string (.owned bytes.toArray))

end PushLisp.Machine
