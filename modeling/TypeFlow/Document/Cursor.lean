import TypeFlow.Document.Basic

/-!
# Reading characters

A cursor is the rest of a text together with the place it starts at. Line breaks are CR LF, CR, LF,
NEL, LS and PS; the first four read as LF.

A text is looked over in portions, and only as far as its reading needs: `need` makes sure that a
number of characters has been looked over, and fails if a portion holds a character that no document
may hold. What lies behind the last portion that was needed is never looked at.
-/

namespace TypeFlow.Document

/-- A place while reading: characters before it, lines before it, and characters before it on its
line. -/
structure Mark where
  index : Nat := 0
  line : Nat := 0
  column : Nat := 0
  deriving DecidableEq, Repr, Inhabited

/-- The position of a mark, counted from one. -/
def Mark.position (m : Mark) : Position :=
  ⟨m.line + 1, m.column + 1⟩

/-- A line break character. -/
def isBreak (c : Char) : Bool :=
  c == '\n' || c == '\r' || c.toNat == 0x85 || c.toNat == 0x2028 || c.toNat == 0x2029

/-- A space or a tab. -/
def isBlank (c : Char) : Bool :=
  c == ' ' || c == '\t'

/-- A blank or a line break. -/
def isGap (c : Char) : Bool :=
  isBlank c || isBreak c

/-- A character that a document may hold. -/
def isAllowed (c : Char) : Bool :=
  let n := c.toNat
  n == 0x09 || n == 0x0A || n == 0x0D || (0x20 ≤ n && n ≤ 0x7E) || n == 0x85 ||
    (0xA0 ≤ n && n ≤ 0xD7FF) || (0xE000 ≤ n && n ≤ 0xFFFD) || 0x10000 ≤ n

/-- The byte order mark. -/
def byteOrderMark : Char := '\uFEFF'

/-- The rest of a text and where it starts. -/
structure Cursor where
  rest : List Char
  /-- The number of characters that are left. -/
  left : Nat
  mark : Mark := {}
  /-- The characters that have not been looked over. -/
  unseen : List Char
  /-- The number of characters ahead that have been looked over; at the end of the text, every look
  counts as one more. -/
  seen : Nat := 0
  /-- The number of bytes that the next portion may have. -/
  room : Nat
  /-- Whether a byte order mark stood at the cursor when a portion was last looked over. -/
  marked : Bool := false
  /-- The number of line breaks since the last character that is no blank. -/
  breaks : Nat := 0
  deriving Inhabited

namespace Cursor

/-- The number of bytes in a portion. -/
def portion : Nat := 512

/-- The start of a text. A byte order mark there is no part of the text but takes its room in the
first portion. -/
def start (text : List Char) : Cursor :=
  match text with
  | c :: cs =>
    if c == byteOrderMark then
      { rest := cs, left := cs.length, unseen := cs, room := portion - c.utf8Size }
    else { rest := text, left := text.length, unseen := text, room := portion }
  | [] => { rest := [], left := 0, unseen := [], room := portion }

/-- The next character. -/
def peek? (c : Cursor) : Option Char :=
  c.rest.head?

/-- The character `n` places ahead. -/
def ahead? (c : Cursor) (n : Nat) : Option Char :=
  (c.rest.drop n).head?

/-- Whether the text has ended. -/
def atEnd (c : Cursor) : Bool :=
  c.rest.isEmpty

/-- Whether the character `n` places ahead is a blank, a break or the end. -/
def gapOrEnd (c : Cursor) (n : Nat) : Bool :=
  (c.ahead? n).all isGap

/-- Whether the next character is a break. -/
def atBreak (c : Cursor) : Bool :=
  c.peek?.any isBreak

/-- Whether the next character is a break or the text has ended. -/
def atLineEnd (c : Cursor) : Bool :=
  c.peek?.all isBreak

/-- Whether the next character is a blank. -/
def atBlank (c : Cursor) : Bool :=
  c.peek?.any isBlank

/-- Whether a document marker (three times the same character) stands here at the start of a
line. -/
def atMarkerOf (c : Cursor) (x : Char) : Bool :=
  c.mark.column == 0 && [x, x, x].isPrefixOf c.rest && c.gapOrEnd 3

/-- Whether a document marker stands here. -/
def atMarker (c : Cursor) : Bool :=
  c.atMarkerOf '-' || c.atMarkerOf '.'

/-- Splits off as many characters as fit into `room` bytes. -/
def splitBytes (room : Nat) : List Char → List Char × List Char
  | [] => ([], [])
  | c :: cs =>
    if c.utf8Size ≤ room then
      let (taken, rest) := splitBytes (room - c.utf8Size) cs
      (c :: taken, rest)
    else ([], c :: cs)

/-- Looks over portions until `n` characters ahead have been seen, at most `fuel` of them. -/
def look? (n : Nat) : Nat → Cursor → Option Cursor
  | 0, c => some c
  | fuel + 1, c =>
    if n ≤ c.seen then some c
    else if c.unseen.isEmpty then some { c with seen := c.seen + 1 }
    else
      let (taken, unseen) := splitBytes c.room c.unseen
      if taken.all isAllowed then
        look? n fuel { c with unseen, seen := c.seen + taken.length, room := portion }
      else none

end Cursor

/-- A reading of characters: it moves the cursor, or fails where the text is no document. -/
abbrev Reading := StateT Cursor Option

namespace Reading

/-- Makes sure that `n` characters ahead have been looked over. -/
def need (n : Nat) : Reading Unit := fun c =>
  if n ≤ c.seen then some ((), c)
  else
    (Cursor.look? n (n + 1) { c with marked := c.peek? == some byteOrderMark }).map fun c => ((), c)

/-- Moves past one character of the same line. -/
def skip : Reading Unit :=
  modify fun c =>
    { c with
      rest := c.rest.tail
      left := c.left - 1
      seen := c.seen - 1
      breaks := if c.atBlank then c.breaks else 0
      mark := { c.mark with index := c.mark.index + 1, column := c.mark.column + 1 } }

/-- Moves past `n` characters of the same line. -/
def skipN : Nat → Reading Unit
  | 0 => pure ()
  | n + 1 => do skip; skipN n

/-- Moves past a line break, if there is one, and tells what it reads as. -/
def takeBreak : Reading (List Char) := do
  let c ← get
  let move (n : Nat) (rest : List Char) : Cursor :=
    { c with
      rest
      left := c.left - n
      seen := c.seen - n
      breaks := c.breaks + 1
      mark := { index := c.mark.index + n, line := c.mark.line + 1, column := 0 } }
  match c.rest with
  | '\r' :: '\n' :: rest =>
    set (move 2 rest)
    return ['\n']
  | x :: rest =>
    if isBreak x then
      set (move 1 rest)
      return if x.toNat == 0x2028 || x.toNat == 0x2029 then [x] else ['\n']
    else return []
  | [] => return []

/-- Moves past the characters that satisfy `p`, at most `fuel` of them, and gives them in reverse in
front of `acc`. -/
def takeWhile (p : Char → Bool) : Nat → List Char → Reading (List Char)
  | 0, acc => return acc
  | fuel + 1, acc => do
    need 1
    match (← get).peek? with
    | some x => if p x then do skip; takeWhile p fuel (x :: acc) else return acc
    | none => return acc

/-- Moves past the characters that satisfy `p` and gives them. -/
def takeAll (p : Char → Bool) : Reading (List Char) := do
  return (← takeWhile p ((← get).left + 1) []).reverse

/-- Moves to the next line break or the end. -/
def skipLine : Reading Unit :=
  discard (takeAll (!isBreak ·))

/-- Moves past blanks. -/
def skipBlanks : Reading Unit :=
  discard (takeAll isBlank)

end Reading

end TypeFlow.Document
