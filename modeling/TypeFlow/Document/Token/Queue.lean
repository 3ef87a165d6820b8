import TypeFlow.Document.Cursor

/-!
# Tokens and their queue

Indentation shows as explicit start and end tokens, and so does the start of a mapping key. Tokens wait in a
queue until they are taken. The start of a mapping key is known only when its `:` is
met: a place where a key may start is remembered, and the key token (with the start of the block
mapping, if it opens one) is inserted there afterwards. So a token that may be the start of a key has
to wait.

Every flow collection has a place of its own to remember a key start.
-/

namespace TypeFlow.Document

/-- What a token is. -/
inductive Lexeme where
  | streamStart | streamEnd
  /-- The version line of a document. -/
  | version (major minor : Nat)
  /-- A shorthand for tags. -/
  | tagShorthand (handle : String)
  | documentStart | documentEnd
  | blockSequenceStart | blockMappingStart | blockEnd
  | flowSequenceStart | flowSequenceEnd | flowMappingStart | flowMappingEnd
  | blockEntry | flowEntry | key | value
  | scalar (style : Style) (text : String)
  deriving DecidableEq, Repr, Inhabited

/-- A token with the places where it starts and ends. -/
structure Token where
  lexeme : Lexeme
  start : Mark
  stop : Mark
  deriving Inhabited

/-- A place where a mapping key may start. -/
structure KeyStart where
  /-- The number of tokens before the key. -/
  number : Nat
  mark : Mark
  /-- The number of flow collections around it. -/
  level : Nat := 0
  /-- Nothing but a key can stand there. -/
  required : Bool := false
  /-- Whether a key may still start there. -/
  possible : Bool := false

/-- The state of the scan. -/
structure Queue where
  cursor : Cursor
  /-- The tokens that have not been taken. -/
  tokens : List Token := []
  /-- The number of tokens that were taken. -/
  taken : Nat := 0
  /-- The column of the innermost block collection plus one; zero outside of any. -/
  indent : Nat := 0
  /-- The enclosing indents. -/
  indents : List Nat := []
  /-- The key start of the current level. -/
  keyStart : KeyStart := { number := 0, mark := {} }
  /-- The key starts of the enclosing levels, innermost first. -/
  outer : List KeyStart := []
  /-- The tokens that have to wait, by their number, each with the level of the key start it waits
  for. -/
  waiting : List (Nat × Nat) := []
  /-- Whether a key may start at the cursor. -/
  keyAllowed : Bool := true

/-- A step of the scan: it changes the state, or fails where the text is no document. -/
abbrev Scan := StateT Queue Option

namespace Queue

/-- The number of enclosing flow collections. -/
def level (q : Queue) : Nat :=
  q.keyStart.level

/-- Whether the scan is inside a flow collection. -/
def inFlow (q : Queue) : Bool :=
  !q.outer.isEmpty

/-- The number of the token that comes next. -/
def nextNumber (q : Queue) : Nat :=
  q.taken + q.tokens.length

/-- The key start of a level. -/
def keyStartAt? (q : Queue) (level : Nat) : Option KeyStart :=
  (q.keyStart :: q.outer).find? (·.level == level)

/-- Changes the key start of a level. -/
def modifyKeyStartAt (q : Queue) (level : Nat) (f : KeyStart → KeyStart) : Queue :=
  if level == q.level then { q with keyStart := f q.keyStart }
  else { q with outer := q.outer.map fun k => if k.level == level then f k else k }

/-- Whether a key that starts at `k` would be too long: it ends on its line and within 1024
characters. -/
def outreached (q : Queue) (k : KeyStart) : Bool :=
  k.mark.line < q.cursor.mark.line || k.mark.index + 1024 < q.cursor.mark.index

end Queue

namespace Scan

/-- The greatest number of flow or block collections that may enclose each other. -/
def maxDepth : Nat := 10000

/-- Reads characters. -/
def read {α : Type} (r : Reading α) : Scan α := fun q =>
  (r q.cursor).map fun (a, cursor) => (a, { q with cursor })

/-- The place of the cursor. -/
def here : Scan Mark :=
  return (← get).cursor.mark

/-- Appends a token. -/
def emit (lexeme : Lexeme) (start stop : Mark) : Scan Unit :=
  modify fun q => { q with tokens := q.tokens ++ [⟨lexeme, start, stop⟩] }

/-- Inserts a token of no width behind the first `number` tokens. -/
def insertAt (number : Nat) (lexeme : Lexeme) (mark : Mark) : Scan Unit :=
  modify fun q =>
    let place := if number < q.taken then q.tokens.length else number - q.taken
    { q with tokens := q.tokens.insertIdx place ⟨lexeme, mark, mark⟩ }

/-- Emits a token of `n` characters and moves past it. -/
def emitChars (lexeme : Lexeme) (n : Nat) : Scan Unit := do
  let start ← here
  read (Reading.skipN n)
  emit lexeme start (← here)

/-! ### Indentation -/

/-- Closes the block collections that are indented deeper than `indent`; their ends stand at
`mark`. -/
def unroll (indent : Nat) (mark : Mark) : Scan Unit :=
  modify fun q =>
    if q.inFlow then q
    else
      let all := q.indent :: q.indents
      let left := all.dropWhile (indent < ·)
      { q with
        tokens := q.tokens ++ (all.takeWhile (indent < ·)).map fun _ => ⟨.blockEnd, mark, mark⟩
        indent := left.headD 0
        indents := left.tail }

/-- Opens a block collection at `column` unless one is open there, inserting its token at
`number`. -/
def roll (column : Nat) (lexeme : Lexeme) (number : Nat) (mark : Mark) : Scan Unit := do
  let q ← get
  if !q.inFlow && q.indent ≤ column then
    set { q with indent := column + 1, indents := q.indent :: q.indents }
    if maxDepth ≤ q.indents.length then failure else insertAt number lexeme mark

/-! ### Key starts -/

/-- Finds out whether the key start of a level still holds; fails if a key had to be there and cannot
be any more. -/
def holds (level : Nat) : Scan Bool := do
  let q ← get
  match q.keyStartAt? level with
  | none => return false
  | some k =>
    if !k.possible then return false
    else if q.outreached k then
      if k.required then failure
      else
        set (q.modifyKeyStartAt level fun k => { k with possible := false })
        return false
    else return true

/-- Lets the token with a number wait no more. -/
def release (number : Nat) : Scan Unit :=
  modify fun q => { q with waiting := q.waiting.eraseP (·.1 == number) }

/-- Forgets the key start of the current level; fails if a key had to be there. -/
def dropKeyStart : Scan Unit := do
  let k := (← get).keyStart
  if k.possible then
    if k.required then failure
    else
      modify fun q => { q with keyStart := { k with possible := false } }
      release k.number

/-- Remembers that a key may start here. -/
def saveKeyStart : Scan Unit := do
  if (← get).keyAllowed then
    dropKeyStart
    modify fun q =>
      let mark := q.cursor.mark
      { q with
        keyStart :=
          { number := q.nextNumber
            mark
            level := q.level
            required := !q.inFlow && q.indent == mark.column + 1
            possible := true }
        waiting := (q.nextNumber, q.level) :: q.waiting }

/-- Enters a flow collection. -/
def enter : Scan Unit := do
  modify fun q =>
    { q with
      outer := q.keyStart :: q.outer
      keyStart := { number := q.nextNumber, mark := q.cursor.mark, level := q.level + 1 } }
  if maxDepth < (← get).level then failure

/-- Leaves a flow collection, if there is one. -/
def leave : Scan Unit := do
  let q ← get
  match q.outer with
  | k :: outer =>
    release q.keyStart.number
    modify fun q => { q with keyStart := k, outer }
  | [] => return ()

end Scan

end TypeFlow.Document
