/-!
# The platform

Where things lie in memory, and how much memory there is, is not for the language to decide. A platform
makes these decisions, and everything else holds for every platform.

## Main definitions

* `Platform`: the decisions.
-/
namespace PushLisp

/-- What the platform decides. The defaults are decisions that serve to run programs: nothing overlaps
on a table of less than `2 ^ 43` slots. -/
structure Platform where
  /-- The address of the state block. -/
  block : UInt64 := 0x10000
  /-- The address of the slot table. -/
  table : UInt64 := 0x100000000
  /-- The addresses of the cells, in the order in which they are asked for. -/
  cell : Nat → UInt64 := fun k => (0x800000000000 + 32 * k).toUInt64
  /-- Whether memory for this many bytes can be had. -/
  grants : Nat → Bool := fun n => n < 0x800000000000

end PushLisp
