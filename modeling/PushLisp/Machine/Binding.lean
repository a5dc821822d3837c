import PushLisp.Machine.Sequence

/-!
# Atoms and environments

Each spelling has one atom, found in a registry of all atoms, so that names are compared by
handle. An environment is a list of pairs of a key and a value, newest first. Defining makes a
longer list and changes no existing one, so that a closure keeps the bindings it was made under.

## Main definitions

* `Machine.intern`: the atom of a spelling.
* `Machine.lookup`: the value of a key.
* `Machine.define`, `Machine.definePrimitive`: a longer environment.
* `Machine.global`: the value of a name in the environment that programs start in.
-/
namespace PushLisp.Machine

/-! ## The registry of atoms -/

/-- The first atom with a given spelling in a list. -/
def findAtomFrom (m : Machine) (spelling : Bytes) : Nat → Handle → Except Stop (Option Handle)
  | 0, _ => .error .unfinished
  | n + 1, list =>
    match m.object? list with
    | some (.pair atom rest) =>
      if m.atom? atom = some spelling then .ok (some atom) else findAtomFrom m spelling n rest
    | _ => .ok none

/-- The registered atom with a given spelling. -/
def findAtom (spelling : Bytes) (m : Machine) : Except Stop (Option Handle) :=
  findAtomFrom m spelling m.walkBound m.registers.registry

/-- The one atom with a given spelling, made and registered on first use. -/
def intern (spelling : Bytes) : Run Handle := do
  match ← ask (findAtom spelling) with
  | some atom => return atom
  | none =>
    let atom ← allocate (.atom spelling)
    let registry ← makePair atom (← getRegisters).registry
    modifyRegisters fun r => { r with registry := registry }
    return atom

/-! ## Environments -/

/-- The value of a key in an environment; `name` is the spelling of the key. -/
def lookupFrom (m : Machine) (key : Handle) (name : Bytes) : Nat → Handle → Except Stop Handle
  | 0, _ => .error .unfinished
  | n + 1, env =>
    if env.isNil then .error (.fault (.unbound name))
    else do
      let binding ← car env m
      if (← car binding m) = key then cdr binding m
      else lookupFrom m key name n (← cdr env m)

/-- The value of a key, which must be an atom, in an environment. -/
def lookup (env key : Handle) (m : Machine) : Except Stop Handle :=
  match m.atom? key with
  | none => .error (m.mismatch "env_find" "atom key" key)
  | some name => lookupFrom m key name m.walkBound env

/-- An environment with one more binding. -/
def define (env key value : Handle) : Run Handle := do
  let binding ← withRoots [env] (makePair key value)
  makePair binding env

/-- An environment with a primitive bound to the atom of its name. -/
def definePrimitive (env : Handle) (p : Primitive) : Run Handle := do
  let key ← intern (Bytes.ofString p.name)
  let primitive ← withRoots [env] (allocate (.primitive p))
  define env key primitive

/-- The value of a name in an environment, compared by spelling. Anything misshapen is passed
over. -/
def globalFrom (m : Machine) (name : Bytes) : Nat → Handle → Except Stop (Option Handle)
  | 0, _ => .error .unfinished
  | n + 1, env =>
    match m.object? env with
    | some (.pair binding rest) =>
      match m.object? binding with
      | some (.pair key value) =>
        if m.atom? key = some name then .ok (some value) else globalFrom m name n rest
      | _ => globalFrom m name n rest
    | _ => .ok none

/-- The value of a name in the environment that programs start in. -/
def global (name : Bytes) (m : Machine) : Except Stop (Option Handle) :=
  globalFrom m name m.walkBound m.registers.env

end PushLisp.Machine
