import TypeFlow.Document.Cursor

/-!
# Scalars as they are written

A scalar is written plainly, in single or double quotes, or as a block of lines. The readings here
start at a scalar's first character (or behind its opening mark) and give its text; what lies between
two words of a scalar that runs over several lines is folded.
-/

namespace TypeFlow.Document.Reading

/-! ### Folding -/

/-- What lies between two words of a scalar. -/
structure Gap where
  /-- The blanks, in reverse, while no line has ended. -/
  blanks : List Char := []
  /-- Whether a line has ended. -/
  broken : Bool := false
  /-- The first line break; an escaped one is empty. -/
  first : List Char := []
  /-- The further line breaks, in reverse. -/
  more : List Char := []

/-- What a gap reads as: blanks on one line are kept, a single break becomes a space, and of several
breaks the first is dropped. -/
def Gap.text (g : Gap) : List Char :=
  if g.broken then
    if g.first == ['\n'] then if g.more.isEmpty then [' '] else g.more.reverse
    else g.first ++ g.more.reverse
  else g.blanks.reverse

/-- Collects the blanks and breaks at the cursor; fails where a tab stands in the indentation
`indent`. -/
def takeGap (indent : Nat) : Nat → Gap → Reading Gap
  | 0, g => return g
  | fuel + 1, g => do
    need 1
    let c ← get
    match c.peek? with
    | none => return g
    | some x =>
      if isBlank x then
        if g.broken then
          if x == '\t' && c.mark.column < indent then failure
          else
            skip
            takeGap indent fuel g
        else
          skip
          takeGap indent fuel { g with blanks := x :: g.blanks }
      else if isBreak x then
        need 2
        let b ← takeBreak
        if g.broken then takeGap indent fuel { g with more := b.reverse ++ g.more }
        else takeGap indent fuel { broken := true, first := b }
      else return g

/-! ### Plain scalars -/

/-- Whether a plain scalar ends before the character at the cursor. -/
def plainStops (flow : Bool) (c : Cursor) (x : Char) : Bool :=
  (x == ':' && c.gapOrEnd 1) ||
    (flow && (x == ',' || x == '?' || x == '[' || x == ']' || x == '{' || x == '}'))

/-- Takes the characters of a plain scalar up to a gap or an indicator, in reverse. -/
def plainWord (flow : Bool) : Nat → List Char → Reading (List Char)
  | 0, acc => return acc
  | fuel + 1, acc => do
    let c ← get
    match c.peek? with
    | none => return acc
    | some x =>
      if isGap x || plainStops flow c x then return acc
      else
        skip
        need 2
        plainWord flow fuel (x :: acc)

/-- Reads on in a plain scalar of text `acc` (in reverse) that is followed by `gap` and whose last
word ends at `stop`: its text in reverse, its end, and whether a line break follows it. -/
def plain (flow : Bool) (indent : Nat) :
    Nat → List Char → Gap → Mark → Reading (List Char × Mark × Bool)
  | 0, acc, gap, stop => return (acc, stop, gap.broken)
  | fuel + 1, acc, gap, stop => do
    need 4
    let c ← get
    if c.atMarker || c.peek? == some '#' then return (acc, stop, gap.broken)
    else
      let word ← plainWord flow c.left []
      let c ← get
      if word.isEmpty then return (acc, stop, gap.broken)
      else
        let acc := word ++ gap.text.reverse ++ acc
        if !(c.peek?.any isGap) then return (acc, c.mark, false)
        else
          let gap ← takeGap indent (c.left + 1) {}
          if !flow && (← get).mark.column < indent then return (acc, c.mark, gap.broken)
          else plain flow indent fuel acc gap c.mark

/-! ### Quoted scalars -/

/-- The value of a hexadecimal digit. -/
def hexValue? (c : Char) : Option Nat :=
  if '0' ≤ c && c ≤ '9' then some (c.toNat - '0'.toNat)
  else if 'a' ≤ c && c ≤ 'f' then some (c.toNat - 'a'.toNat + 10)
  else if 'A' ≤ c && c ≤ 'F' then some (c.toNat - 'A'.toNat + 10)
  else none

/-- The code point written in `n` hexadecimal digits at the cursor. -/
def hexPoint : Nat → Nat → Reading Nat
  | 0, acc => return acc
  | n + 1, acc => do
    match (← get).peek?.bind hexValue? with
    | some d =>
      skip
      hexPoint n (acc * 16 + d)
    | none => failure

/-- The character that a one-letter escape stands for. -/
def escape? (x : Char) : Option Char :=
  match x with
  | '0' => some (Char.ofNat 0x00)
  | 'a' => some (Char.ofNat 0x07)
  | 'b' => some (Char.ofNat 0x08)
  | 't' => some '\t'
  | '\t' => some '\t'
  | 'n' => some '\n'
  | 'v' => some (Char.ofNat 0x0B)
  | 'f' => some (Char.ofNat 0x0C)
  | 'r' => some '\r'
  | 'e' => some (Char.ofNat 0x1B)
  | ' ' => some ' '
  | '"' => some '"'
  | '\'' => some '\''
  | '/' => some '/'
  | '\\' => some '\\'
  | 'N' => some (Char.ofNat 0x85)
  | '_' => some (Char.ofNat 0xA0)
  | 'L' => some (Char.ofNat 0x2028)
  | 'P' => some (Char.ofNat 0x2029)
  | _ => none

/-- The number of hexadecimal digits that a numeric escape takes. -/
def escapeWidth? (x : Char) : Option Nat :=
  match x with
  | 'x' => some 2
  | 'u' => some 4
  | 'U' => some 8
  | _ => none

/-- Reads an escape at its backslash: the character it stands for, or none for an escaped line
break. -/
def escaped : Reading (Option Char) := do
  match (← get).ahead? 1 with
  | none => failure
  | some y =>
    if isBreak y then
      need 3
      skip
      discard takeBreak
      return none
    else
      match escape? y, escapeWidth? y with
      | some x, _ =>
        skipN 2
        return some x
      | none, some width =>
        skipN 2
        need width
        let n ← hexPoint width 0
        if (0xD800 ≤ n && n ≤ 0xDFFF) || 0x10FFFF < n then failure else return some (Char.ofNat n)
      | none, none => failure

/-- Takes the characters of a quoted scalar up to a gap or the closing quote, in reverse; the flag
says whether an escaped line break ended them. -/
def quotedWord (single : Bool) : Nat → List Char → Reading (List Char × Bool)
  | 0, acc => return (acc, false)
  | fuel + 1, acc => do
    let c ← get
    match c.peek? with
    | none => return (acc, false)
    | some x =>
      if isGap x then return (acc, false)
      else if single && x == '\'' then
        if c.ahead? 1 == some '\'' then
          skipN 2
          need 2
          quotedWord single fuel ('\'' :: acc)
        else return (acc, false)
      else if !single && x == '"' then return (acc, false)
      else if !single && x == '\\' then
        match ← escaped with
        | none => return (acc, true)
        | some y =>
          need 2
          quotedWord single fuel (y :: acc)
      else
        skip
        need 2
        quotedWord single fuel (x :: acc)

/-- Reads a quoted scalar after its opening quote; its text is given in reverse. -/
def quoted (single : Bool) : Nat → List Char → Reading (List Char)
  | 0, _ => failure
  | fuel + 1, acc => do
    need 4
    let c ← get
    if c.atMarker || c.atEnd then failure
    else
      let (acc, escapedBreak) ← quotedWord single c.left acc
      need 1
      let c ← get
      if c.peek? == some (if single then '\'' else '"') then
        skip
        return acc
      else
        let gap ← takeGap 0 (c.left + 1) { broken := escapedBreak }
        quoted single fuel (gap.text.reverse ++ acc)

/-! ### Block scalars -/

/-- What happens to the line breaks at the end of a block scalar. -/
inductive Chomping where
  | strip | clip | keep
  deriving DecidableEq

/-- The way to end a block scalar that a character asks for. -/
def Chomping.ofChar? : Char → Option Chomping
  | '+' => some .keep
  | '-' => some .strip
  | _ => none

/-- Takes the mark that says how a block scalar ends. -/
def takeChomping : Reading (Option Chomping) := do
  need 1
  match (← get).peek?.bind Chomping.ofChar? with
  | some chomping =>
    skip
    return some chomping
  | none => return none

/-- Takes the digit that gives the indentation of a block scalar; zero is refused. -/
def takeIndentation : Reading (Option Nat) := do
  need 1
  match (← get).peek? with
  | some d =>
    if d == '0' then failure
    else if '1' ≤ d && d ≤ '9' then
      skip
      return some (d.toNat - '0'.toNat)
    else return none
  | none => return none

/-- Reads the header of a block scalar after its indicator: how it ends, and its indentation if
given. The two marks come in either order. -/
def blockHeader : Reading (Chomping × Option Nat) := do
  match ← takeChomping with
  | some chomping => return (chomping, ← takeIndentation)
  | none =>
    let indentation ← takeIndentation
    if indentation.isNone then return (.clip, none)
    else return ((← takeChomping).getD .clip, indentation)

/-- Moves past spaces left of `indent` (any number while it is zero, that is unknown). -/
def skipIndent (indent : Nat) : Nat → Reading Unit
  | 0 => return ()
  | fuel + 1 => do
    need 1
    let c ← get
    if (indent == 0 || c.mark.column < indent) && c.peek? == some ' ' then
      skip
      skipIndent indent fuel

/-- Collects the empty lines of a block scalar and the deepest column reached; fails where a tab
stands in the indentation. -/
def blockBreaks (indent : Nat) : Nat → List Char → Nat → Reading (List Char × Nat)
  | 0, breaks, deepest => return (breaks.reverse, deepest)
  | fuel + 1, breaks, deepest => do
    skipIndent indent ((← get).left + 1)
    let c ← get
    let deepest := max deepest c.mark.column
    if (indent == 0 || c.mark.column < indent) && c.peek? == some '\t' then failure
    else if c.atBreak then
      need 2
      let b ← takeBreak
      blockBreaks indent fuel (b.reverse ++ breaks) deepest
    else return (breaks.reverse, deepest)

/-- Reads the lines of a block scalar: the text in reverse, the last line break and the empty lines
after it. -/
def blockLines (literal : Bool) (indent : Nat) :
    Nat → List Char → List Char → List Char → Bool → Reading (List Char × List Char × List Char)
  | 0, acc, lastBreak, empties, _ => return (acc, lastBreak, empties)
  | fuel + 1, acc, lastBreak, empties, leadingBlank => do
    let c ← get
    if c.mark.column != indent || c.atEnd then return (acc, lastBreak, empties)
    else
      let blank := c.atBlank
      let joined :=
        if !literal && lastBreak == ['\n'] && !leadingBlank && !blank then
          if empties.isEmpty then [' '] else empties
        else lastBreak ++ empties
      let line ← takeAll (!isBreak ·)
      let acc := line.reverse ++ joined.reverse ++ acc
      need 2
      let lastBreak ← takeBreak
      let (empties, _) ← blockBreaks indent ((← get).left + 1) [] 0
      blockLines literal indent fuel acc lastBreak empties blank

/-- Reads a block scalar at its indicator; `indent` is the indent of the enclosing collection plus
one, zero outside of any. -/
def block (literal : Bool) (indent : Nat) : Reading String := do
  skip
  let (chomping, given) ← blockHeader
  skipBlanks
  if (← get).peek? == some '#' then skipLine
  if !(← get).atLineEnd then failure
  else
    if (← get).atBreak then
      need 2
      discard takeBreak
    let known := given.elim 0 (indent - 1 + ·)
    let (empties, deepest) ← blockBreaks known ((← get).left + 1) [] 0
    let column := if known == 0 then max (max deepest indent) 1 else known
    let (acc, lastBreak, empties) ←
      blockLines literal column ((← get).left + 1) [] [] empties false
    let ending :=
      match chomping with
      | .strip => []
      | .clip => lastBreak
      | .keep => lastBreak ++ empties
    return String.ofList (acc.reverse ++ ending)

end TypeFlow.Document.Reading
