import PushLisp.Fault

/-!
# Output

A sink keeps what is written to it. A limited sink takes bytes up to its limit, the fitting part
of a write included, and fails once a byte finds no room.

## Main definitions

* `Sink`: the output of a run.
* `Sink.write`, `Sink.flush`: the operations.
* `Sink.room?`: what still fits.
* `Sink.writeAll`: several writes, up to one that fails.

## Main statements

* `Sink.writeAll_eq_write`: writing piece by piece is writing everything at once.
-/
namespace PushLisp

/-- The output of a run. -/
structure Sink where
  /-- The bytes taken so far. -/
  written : Array UInt8 := #[]
  /-- The number of bytes it takes altogether, if that is limited. -/
  limit : Option Nat := none
  /-- Whether flushing fails. -/
  flushFails : Bool := false
  deriving Repr

namespace Sink

/-- Takes the bytes that fit, and fails if some do not. -/
def write (s : Sink) (bytes : Array UInt8) : Option SinkFault × Sink :=
  match s.limit with
  | none => (none, { s with written := s.written ++ bytes })
  | some limit =>
    let room := limit - s.written.size
    let rest := { s with written := s.written ++ bytes.extract 0 room }
    (if bytes.size ≤ room then none else some .full, rest)

/-- The number of bytes that it still takes, if there is a limit. -/
def room? (s : Sink) : Option Nat := s.limit.map (· - s.written.size)

/-- Writes pieces one after another, up to the first write that fails. -/
def writeAll (s : Sink) : List Bytes → Option SinkFault × Sink
  | [] => (none, s)
  | piece :: rest =>
    match s.write piece.toArray with
    | (none, s) => writeAll s rest
    | (some cause, s) => (some cause, s)

/-- Passes on what was written. -/
def flush (s : Sink) : Option SinkFault := if s.flushFails then some .flush else none

/-- An unlimited sink takes everything. -/
theorem write_of_limit_eq_none {s : Sink} (h : s.limit = none) (bytes : Array UInt8) :
    s.write bytes = (none, { s with written := s.written ++ bytes }) := by
  simp [write, h]

@[simp] theorem write_empty (s : Sink) : s.write #[] = (none, s) := by
  unfold write
  split <;> simp

/-- Writing some bytes and then more, if that went well, is writing all of them at once. -/
theorem write_append (s : Sink) (first second : Array UInt8) :
    s.write (first ++ second) =
      match s.write first with
      | (none, s) => s.write second
      | (some cause, s) => (some cause, s) := by
  cases hlimit : s.limit with
  | none => simp [write, hlimit]
  | some limit =>
    by_cases hfits : first.size ≤ limit - s.written.size
    · have hroom : limit - (s.written.size + first.size) = limit - s.written.size - first.size := by omega
      have hall : first.size + second.size ≤ limit - s.written.size ↔
          second.size ≤ limit - s.written.size - first.size := by omega
      simp [write, hlimit, hfits, hroom, hall, Array.extract_append, Array.extract_eq_self_of_le hfits]
    · have hall : ¬ first.size + second.size ≤ limit - s.written.size := by omega
      have hrest : limit - s.written.size - first.size = 0 := by omega
      simp [write, hlimit, hfits, hall, hrest, Array.extract_append]

/-- However bytes are cut into pieces, writing these one after another is writing all bytes at once: a sink
that fails keeps the bytes up to its limit, wherever in a piece that is. -/
theorem writeAll_eq_write (s : Sink) (pieces : List Bytes) :
    s.writeAll pieces = s.write pieces.flatten.toArray := by
  induction pieces generalizing s with
  | nil => simp [writeAll]
  | cons piece rest ih =>
    rw [writeAll, List.flatten_cons, ← List.append_toArray, write_append]
    rcases s.write piece.toArray with ⟨_ | cause, s'⟩
    · exact ih s'
    · rfl

end Sink

end PushLisp
