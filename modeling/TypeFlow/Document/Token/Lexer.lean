import TypeFlow.Document.Token.Queue
import TypeFlow.Document.Token.Scalar

/-!
# The next token

`Scan.peek` is the first token that has not been taken and `Scan.drop` takes it. The scan runs at
least two tokens ahead of what is taken, and further while the first token may turn out to start a
key. Any fault it meets on the way makes the whole text invalid; what lies beyond is never looked at.
-/

namespace TypeFlow.Document

namespace Reading

/-! ### Comments -/

/-- How far a comment looks for the next one. -/
def commentReach : Nat := 512

/-- The distance to a comment that follows after `n` blanks and, if `breaks`, line breaks. -/
def commentAhead? (breaks : Bool) : Nat → Nat → Reading (Option Nat)
  | 0, _ => return none
  | fuel + 1, n => do
    need (n + 1)
    match (← get).ahead? n with
    | some x =>
      if isBlank x || (breaks && (x == '\n' || x == '\r')) then commentAhead? breaks fuel (n + 1)
      else return if x == '#' then some n else none
    | none => return none

/-- Moves `n` characters on, over line breaks too, and then to the end of the line. -/
def skipTo (index : Nat) : Nat → Reading Unit
  | 0 => skipLine
  | fuel + 1 => do
    if index ≤ (← get).mark.index then skipLine
    else
      need 1
      if (← get).atBreak then
        need 2
        discard takeBreak
      else skip
      skipTo index fuel

/-- Moves past a comment and past the comments that follow it closely, up to the end of the last
one's line. -/
def skipComments : Nat → Reading Unit
  | 0 => return ()
  | fuel + 1 => do
    skipLine
    match ← commentAhead? true (commentReach - 1) 1 with
    | some n =>
      skipTo ((← get).mark.index + n) n
      skipComments fuel
    | none => return ()

/-- Moves past a comment that follows a token on its line. -/
def skipLineComment : Reading Unit := do
  if (← get).breaks == 0 then
    match ← commentAhead? false commentReach 0 with
    | some n => skipTo ((← get).mark.index + n) n
    | none => return ()

/-! ### Directives -/

/-- A character of a name in a directive. -/
def isWordChar (c : Char) : Bool :=
  c.isAlphanum || c == '_' || c == '-'

/-- A number of a version: one or two digits. -/
def versionNumber : Reading Nat := do
  let ds ← takeAll Char.isDigit
  if ds.isEmpty || 2 < ds.length then failure
  else return ds.foldl (fun n d => n * 10 + (d.toNat - '0'.toNat)) 0

/-- A character of the stem that a tag shorthand stands for. -/
def isStemChar (c : Char) : Bool :=
  isWordChar c || ";/?:@&=+$.,!~*'()[]".toList.contains c

/-- Reads the handle of a tag shorthand: `!`, or a word between two of them. -/
def tagHandle : Reading String := do
  need 1
  if (← get).peek? != some '!' then failure
  else
    skip
    let word ← takeAll isWordChar
    if (← get).peek? == some '!' then
      skip
      return String.ofList ('!' :: word ++ ['!'])
    else if word.isEmpty then return "!"
    else failure

/-- Reads a directive at its `%`, up to the end of its line. -/
def directive : Reading Lexeme := do
  skip
  let name ← takeAll isWordChar
  if name.isEmpty || !(← get).gapOrEnd 0 then failure
  else
    skipBlanks
    let lexeme ←
      if name == "YAML".toList then do
        let major ← versionNumber
        if (← get).peek? != some '.' then failure
        else
          skip
          pure (Lexeme.version major (← versionNumber))
      else if name == "TAG".toList then do
        let handle ← tagHandle
        if !(← get).atBlank then failure
        else
          skipBlanks
          let stem ← takeAll isStemChar
          if stem.isEmpty || !(← get).gapOrEnd 0 then failure
          else pure (Lexeme.tagShorthand handle)
      else failure
    skipBlanks
    if (← get).peek? == some '#' then skipLine
    if !(← get).atLineEnd then failure
    else if (← get).atBreak then
      need 2
      discard takeBreak
    return lexeme

end Reading

namespace Scan

/-- Says whether a key may start at the cursor. -/
def allowKey (allowed : Bool) : Scan Unit :=
  modify fun q => { q with keyAllowed := allowed }

/-- Moves past blanks, comments and line breaks, in at most `fuel` lines. A byte order mark may start
a line. -/
def skipToToken : Nat → Scan Unit
  | 0 => failure
  | fuel + 1 => do
    read (Reading.need 1)
    let c := (← get).cursor
    if c.mark.column == 0 && c.marked then read Reading.skip
    let q ← get
    read (discard (Reading.takeAll fun x => x == ' ' || (x == '\t' && (q.inFlow || !q.keyAllowed))))
    if (← get).cursor.peek? == some '#' then read (Reading.skipComments (q.cursor.left + 1))
    if (← get).cursor.atBreak then
      read (Reading.need 2)
      discard (read Reading.takeBreak)
      if !q.inFlow then allowKey true
      skipToToken fuel

/-! ### Tokens -/

/-- The end of the text: closes every block collection. It stands at the start of a line. -/
def finish : Scan Unit := do
  modify fun q =>
    let m := q.cursor.mark
    if m.column == 0 then q
    else { q with cursor := { q.cursor with mark := { m with line := m.line + 1, column := 0 } } }
  unroll 0 (← here)
  dropKeyStart
  allowKey false
  emit .streamEnd (← here) (← here)

/-- A document marker. -/
def documentMarker (lexeme : Lexeme) : Scan Unit := do
  unroll 0 (← here)
  dropKeyStart
  allowKey false
  emitChars lexeme 3

/-- A directive. -/
def directive : Scan Unit := do
  let start ← here
  unroll 0 start
  dropKeyStart
  allowKey false
  let lexeme ← read Reading.directive
  emit lexeme start (← here)

/-- The start of a flow collection. -/
def flowStart (lexeme : Lexeme) : Scan Unit := do
  saveKeyStart
  enter
  allowKey true
  emitChars lexeme 1

/-- The end of a flow collection. -/
def flowEnd (lexeme : Lexeme) : Scan Unit := do
  dropKeyStart
  leave
  allowKey false
  emitChars lexeme 1

/-- A comma. -/
def flowEntry : Scan Unit := do
  dropKeyStart
  allowKey true
  emitChars .flowEntry 1

/-- An indicator that stands in front of an item or a key and may open a block collection. -/
def leading (collection lexeme : Lexeme) (keyInFlow : Bool) : Scan Unit := do
  let q ← get
  if !q.inFlow && !q.keyAllowed then failure
  else
    roll q.cursor.mark.column collection q.nextNumber q.cursor.mark
    dropKeyStart
    allowKey (keyInFlow || !q.inFlow)
    emitChars lexeme 1

/-- A colon: turns the pending key start into a key. -/
def value : Scan Unit := do
  let q ← get
  if ← holds q.level then
    let k := q.keyStart
    insertAt k.number .key k.mark
    roll k.mark.column .blockMappingStart k.number k.mark
    modify fun q => { q with keyStart := { k with possible := false } }
    release k.number
    allowKey false
    emitChars .value 1
  else if !q.inFlow && !q.keyAllowed then failure
  else
    roll q.cursor.mark.column .blockMappingStart q.nextNumber q.cursor.mark
    allowKey !q.inFlow
    emitChars .value 1

/-- A block scalar. -/
def blockScalar (literal : Bool) : Scan Unit := do
  dropKeyStart
  allowKey true
  let start ← here
  let text ← read (Reading.block literal (← get).indent)
  emit (.scalar .quoted text) start (← here)

/-- A quoted scalar. -/
def quotedScalar (single : Bool) : Scan Unit := do
  saveKeyStart
  allowKey false
  let start ← here
  let acc ← read do
    Reading.skip
    Reading.quoted single ((← get).left + 1) []
  emit (.scalar .quoted (String.ofList acc.reverse)) start (← here)

/-- A plain scalar. -/
def plainScalar : Scan Unit := do
  saveKeyStart
  allowKey false
  let q ← get
  let start := q.cursor.mark
  let (acc, stop, broken) ←
    read (Reading.plain q.inFlow q.indent (q.cursor.left + 1) [] {} start)
  emit (.scalar .plain (String.ofList acc.reverse)) start stop
  if broken then allowKey true

/-- Characters that begin something other than a plain scalar. -/
def isIndicator (c : Char) : Bool :=
  "-?:,[]\x7b\x7d#&*!|>'\"%@`".toList.contains c

/-- A token that starts with the character `x` and is no marker or directive. -/
def content (x : Char) : Scan Unit := do
  let q ← get
  let apart := q.cursor.gapOrEnd 1
  if x == '[' then flowStart .flowSequenceStart
  else if x == ']' then flowEnd .flowSequenceEnd
  else if x == '{' then flowStart .flowMappingStart
  else if x == '}' then flowEnd .flowMappingEnd
  else if x == ',' then flowEntry
  else if x == '-' && apart then leading .blockSequenceStart .blockEntry true
  else if x == '?' && (q.inFlow || apart) then leading .blockMappingStart .key false
  else if x == ':' && (q.inFlow || apart) then value
  else if x == '|' && !q.inFlow then blockScalar true
  else if x == '>' && !q.inFlow then blockScalar false
  else if x == '\'' then quotedScalar true
  else if x == '"' then quotedScalar false
  else if !(isGap x || isIndicator x) || x == '-' || (!q.inFlow && (x == '?' || x == ':')) then
    plainScalar
  else failure
  if !(x == '-' && apart) then read Reading.skipLineComment

/-- Fetches the next token. -/
def fetch : Scan Unit := do
  read (Reading.need 1)
  let before ← here
  skipToToken ((← get).cursor.left + 2)
  unroll ((← here).column + 1) before
  read (Reading.need 4)
  let c := (← get).cursor
  match c.peek? with
  | none => finish
  | some x =>
    if c.mark.column == 0 && x == '%' then directive
    else if c.atMarkerOf '-' then documentMarker .documentStart
    else if c.atMarkerOf '.' then documentMarker .documentEnd
    else content x

/-- Whether the first token can be taken. -/
def ready : Scan Bool := do
  let q ← get
  if q.tokens.length < 3 then return false
  else
    match q.waiting.lookup q.taken with
    | none => return true
    | some level => return !(← holds level)

/-- Fetches tokens until the first can be taken. -/
def fetchUntilReady : Nat → Scan Unit
  | 0 => failure
  | fuel + 1 => do
    if ← ready then return ()
    else
      fetch
      fetchUntilReady fuel

/-- The first token that has not been taken. -/
def peek : Scan Token := do
  fetchUntilReady ((← get).cursor.left + 4)
  match (← get).tokens with
  | t :: _ => return t
  | [] => failure

/-- Takes the first token. -/
def drop : Scan Unit :=
  modify fun q => { q with tokens := q.tokens.tail, taken := q.taken + 1 }

end Scan

/-- The scan of a text before its first token. -/
def Queue.ofText (text : String) : Queue :=
  { cursor := .start text.toList, tokens := [⟨.streamStart, {}, {}⟩] }

end TypeFlow.Document
