import PushLisp.Machine.Binding
import PushLisp.Text.Numeral

/-!
# Reading

Terms are built from the source one at a time. A directive, a sign with a name, stands for three
terms: the quoting atom, the name, and the atom that pushes or pops. It puts the three into a
queue, and reads hand out what is queued before they turn to the source again.

## Main definitions

* `Machine.readTermFrom`, `Machine.readItemsFrom`: reading within a step bound.
* `Machine.readTerm`: reading.
-/
namespace PushLisp.Machine

/-! ## The source -/

/-- Passes blanks and comments. -/
def skipBlank : Run Unit := modify fun m => { m with source := m.source.skipBlank }

/-- The next byte of the source. -/
def peek : Run (Option UInt8) := return (← get).source.peek

/-- Consumes a byte of the source. -/
def advance : Run Unit := modify fun m => { m with source := m.source.advance }

/-- Takes a word off the source. -/
def takeWord : Run Bytes :=
  modifyGet fun m =>
    let (word, source) := m.source.scanWord
    (word, { m with source := source })

/-- Takes the body of a string off the source. -/
def takeString : Run Bytes := do
  let result ← modifyGet fun m =>
    let (result, source) := m.source.scanString
    (result, { m with source := source })
  match result with
  | .ok bytes => return bytes
  | .error f => fail f

/-! ## Terms -/

/-- The term of a word: a number if it is an integer literal, else the atom of that spelling. -/
def scalar (word : Bytes) : Run Handle :=
  match Numeral.readInt64? word with
  | some n => makeNumber n
  | none => intern word

/-- Hands out the first of the queued terms. -/
def dequeue (queue : Handle) : Run Handle := do
  let rest ← ask (cdr queue)
  modifyRegisters fun r => { r with readQueue := rest }
  ask (car queue)

/-- Queues the three terms of a directive whose sign is consumed; `op` is the register of the last. -/
def queueDirective (sign : UInt8) (op : Registers → Handle) : Run Unit := do
  let word ← takeWord
  if word.isEmpty then fail (.emptyDirective sign)
  let name ← scalar word
  let r ← getRegisters
  let queue ← makeList [r.atomQuote, name, op r]
  modifyRegisters fun r => { r with readQueue := queue }

mutual

/-- Reads a term within a step bound. -/
def readTermFrom : Nat → Run Handle
  | 0 => stop .unfinished
  | n + 1 => do
    let r ← getRegisters
    if r.readQueue ≠ r.nil then dequeue r.readQueue
    else
      skipBlank
      match ← peek with
      | none => fail .endOfInput
      | some c =>
        if c = Ascii.singleQuote then
          advance
          return r.atomQuote
        else if c = Ascii.caret then
          advance
          queueDirective c (·.atomPush)
          readTermFrom n
        else if c = Ascii.dollar then
          advance
          queueDirective c (·.atomPop)
          readTermFrom n
        else if c = Ascii.openParen then
          advance
          keepingRoots do
            let items ← readItemsFrom n []
            makeList items
        else if c = Ascii.doubleQuote then
          advance
          makeString (← takeString)
        else if c = Ascii.closeParen then
          let position := (← get).source.position
          advance
          fail (.unbalancedClose position)
        else
          scalar (← takeWord)

/-- Reads the terms of a list up to its closing parenthesis, after those already read. Each is
held as a root from then on. -/
def readItemsFrom : Nat → List Handle → Run (List Handle)
  | 0, _ => stop .unfinished
  | n + 1, items => do
    let r ← getRegisters
    if r.readQueue = r.nil then
      skipBlank
      if (← peek) = some Ascii.closeParen then
        advance
        return items.reverse
    let item ← readTermFrom n
    root [item]
    readItemsFrom n (item :: items)

end

/-- Steps enough to read a term: a few for each byte of the source. A read that begins with a term
queued takes one step, and no other term is queued for long. -/
def readBound (m : Machine) : Nat := 4 * m.source.rest.length + 4

/-- Reads the next term. -/
def readTerm : Run Handle := do readTermFrom (← get).readBound

end PushLisp.Machine
