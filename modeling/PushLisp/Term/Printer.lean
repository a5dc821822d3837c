import PushLisp.Machine.Sequence
import PushLisp.Machine.Words
import PushLisp.Text.Numeral

/-!
# Printing

The canonical text of a value. Lists are written between parentheses, a last tail other than the
empty list after a dot; a closure shows its body and the handle of its environment.

A value is written piece by piece, each piece with a write of its own, and the first write that fails
is the last. The objects do not change meanwhile, so that the pieces are known beforehand. A value that
is met inside itself has no last piece; it is written for as long as there is room.

## Main definitions

* `Machine.printFrom`: the pieces of a value, in order.
* `Machine.pieces`, `Machine.textOf`: all pieces, and the text they make up.
* `Machine.render`: the text as characters.
* `Machine.printValue`: writes a value and a newline to the output.
-/
namespace PushLisp.Machine

mutual

/-- The pieces of a value, after those before it. The bound counts the steps on the way down; where they
run out, the pieces up to there are given as an error. -/
def printFrom (m : Machine) : Nat → Handle → Array Bytes → Except (Array Bytes) (Array Bytes)
  | 0, _, out => .error out
  | n + 1, h, out =>
    match m.object? h with
    | none => .ok (out.push (Bytes.ofString "NULL"))
    | some .nil => .ok (out.push (Bytes.ofString "()"))
    | some (.atom spelling) => .ok (out.push spelling)
    | some (.number value) => .ok (out.push (Numeral.ofInt value.toInt))
    | some (.pair car cdr) =>
      match printFrom m n car (out.push (Bytes.ofString "(")) with
      | .error cut => .error cut
      | .ok out => printTailFrom m n cdr out
    | some (.closure body env) =>
      match printFrom m n body (out.push (Bytes.ofString "CLOSURE<")) with
      | .error cut => .error cut
      | .ok out =>
        .ok (out.push (Bytes.ofString ", 0x" ++ Numeral.hex env.raw.toNat ++ Bytes.ofString ">"))
    | some (.primitive p) =>
      .ok (out.push (Bytes.ofString "PRIM<" ++ Bytes.ofString p.name ++ Bytes.ofString ">"))
    | some (.string buffer) => .ok (out.push (buffer.bytes m))

/-- The pieces of the tail of a list, its closing parenthesis included, after those before it. -/
def printTailFrom (m : Machine) : Nat → Handle → Array Bytes → Except (Array Bytes) (Array Bytes)
  | 0, _, out => .error out
  | n + 1, tail, out =>
    match m.object? tail with
    | some .nil => .ok (out.push (Bytes.ofString ")"))
    | some (.pair car cdr) =>
      match printFrom m n car (out.push (Bytes.ofString " ")) with
      | .error cut => .error cut
      | .ok out => printTailFrom m n cdr out
    | _ =>
      match printFrom m n tail (out.push (Bytes.ofString " . ")) with
      | .error cut => .error cut
      | .ok out => .ok (out.push (Bytes.ofString ")"))

end

/-- More steps than printing can take without meeting an object inside itself: a last tail other than
the empty list takes two, and everything else one. -/
def printBound (m : Machine) : Nat := 2 * m.heap.capacity + 4

/-- The pieces of a value, if they are reached within a bound. -/
def piecesWithin (m : Machine) (n : Nat) (h : Handle) : Except Stop (Array Bytes) :=
  match printFrom m n h #[] with
  | .ok pieces => .ok pieces
  | .error _ => .error .unfinished

/-- The pieces of a value. There is no last one if an object is met inside itself. -/
def pieces (h : Handle) (m : Machine) : Except Stop (Array Bytes) := m.piecesWithin m.printBound h

/-- The pieces of a value up to a bound. -/
def firstPieces (m : Machine) (n : Nat) (h : Handle) : Array Bytes :=
  match printFrom m n h #[] with
  | .ok pieces => pieces
  | .error cut => cut

/-- The text of a value. -/
def textOf (h : Handle) (m : Machine) : Except Stop (Array UInt8) :=
  match pieces h m with
  | .ok pieces => .ok pieces.toList.flatten.toArray
  | .error stop => .error stop

/-- The text of a value as characters, broken bytes replaced. -/
def render (h : Handle) (m : Machine) : Except Stop String :=
  match textOf h m with
  | .ok text => .ok (Utf8.lossy text.toList)
  | .error stop => .error stop

/-- Writes pieces to the output, one after another. -/
def write (pieces : List Bytes) : Run Unit := do
  let result ← modifyGet fun m =>
    let (result, sink) := m.sink.writeAll pieces
    (result, { m with sink := sink })
  match result with
  | none => return ()
  | some cause => fail (.output cause)

/-- What is written when a value is printed: its pieces and a newline. If there is no last piece, it is
more than there is room for, every step on the way down being at least one byte. -/
def printout (h : Handle) (m : Machine) : Except Stop (List Bytes) :=
  match pieces h m with
  | .ok pieces => .ok (pieces.toList ++ [[Ascii.newline]])
  | .error stop =>
    match m.sink.room? with
    | some room => .ok (m.firstPieces (room + 1) h).toList
    | none => .error stop

/-- Writes a value and a newline to the output. -/
def printValue (h : Handle) : Run Unit := do
  observe (.prints h)
  write (← ask (printout h))

end PushLisp.Machine
