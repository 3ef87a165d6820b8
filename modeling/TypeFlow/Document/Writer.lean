import TypeFlow.Document.Cursor
import TypeFlow.Document.Scalar

/-!
# Writing documents

The written form of a document: block style, a collection below a key starting at the next multiple of
four columns and one below a dash on its line, empty collections as a pair of brackets.

A text is written plainly where that reads back as the same text. Otherwise it is quoted: doubly
when its plain form would mean something else or it holds characters that need an escape, singly when
only its punctuation stands in the way. A text with line breaks is written as a literal block where
it can be.

A `Page` is what has been written so far. Line breaks other than LF are written as they are and start a
line, too; that line is then indented, but no further break is written for it.
-/

namespace TypeFlow.Document

namespace Writer

/-- Columns per level. -/
def step : Nat := 4

/-- A character that is written as it is: printable ASCII, LF, and the basic plane above U+00A0
without surrogates, the byte order mark and the two last code points. -/
def isPlainChar (c : Char) : Bool :=
  let n := c.toNat
  n == 0x0A || (0x20 ≤ n && n ≤ 0x7E) ||
    (0xA0 ≤ n && n ≤ 0xFFFD && n != 0xFEFF)

/-- What matters about a text for the choice of its written form. -/
structure Analysis where
  /-- It can be written plainly in a block collection. -/
  plain : Bool
  /-- It can be written in single quotes. -/
  single : Bool
  /-- It can be written as a literal block. -/
  literal : Bool

/-- Whether a character followed by `next` cannot stand in a plain text; `start` says whether it
comes first. -/
def hinders (start : Bool) (prev : Option Char) (c : Char) (next : Option Char) : Bool :=
  let apart := match next with
    | none => true
    | some x => isBlank x || isBreak x
  if start then
    "#,[]\x7b\x7d&*!|>'\"%@`".toList.contains c || ((c == '?' || c == ':' || c == '-') && apart)
  else
    (c == ':' && apart) || (c == '#' && prev.any fun p => isBlank p || isBreak p)

/-- Whether some character of the text cannot stand in a plain text. -/
def hindered : Option Char → List Char → Bool
  | _, [] => false
  | prev, c :: rest => hinders prev.isNone prev c rest.head? || hindered (some c) rest

/-- Whether a break directly follows a space, or a space directly follows a break. -/
def mixes (first second : Char → Bool) : List Char → Bool
  | a :: b :: rest => (first a && second b) || mixes first second (b :: rest)
  | _ => false

/-- Analyses a non-empty text. -/
def analyse (cs : List Char) : Analysis :=
  let isSpace (c : Char) := c == ' '
  let special := cs.any fun c => !isPlainChar c && c != '\t'
  let tabs := cs.any (· == '\t')
  let breaks := cs.any isBreak
  let edgeSpace := (cs.head?.any isSpace) || (cs.getLast?.any isSpace)
  let edgeBreak := (cs.head?.any isBreak) || (cs.getLast?.any isBreak)
  let spaceBreak := mixes isSpace isBreak cs
  let breakSpace := mixes isBreak isSpace cs
  let marker := [['-', '-', '-'], ['.', '.', '.']].any (·.isPrefixOf cs)
  { plain := !(marker || hindered none cs || breaks || edgeSpace || edgeBreak || breakSpace ||
      spaceBreak || tabs || special)
    single := !(breakSpace || spaceBreak || tabs || special)
    literal := !(cs.getLast?.any isSpace || spaceBreak || special) }

/-! ### Pages -/

/-- What has been written so far. -/
structure Page where
  /-- The characters, the last first. -/
  written : List Char := []
  /-- The column of the next character. -/
  column : Nat := 0
  /-- Nothing but spaces and dashes stands on the line. -/
  fresh : Bool := true

namespace Page

/-- Writes a character. -/
def put (p : Page) (c : Char) : Page :=
  { p with written := c :: p.written, column := p.column + 1 }

/-- Writes characters, after which the line is not fresh. -/
def write (p : Page) (cs : List Char) : Page :=
  { cs.foldl put p with fresh := false }

/-- Writes a line break. -/
def lineBreak (p : Page) (c : Char) : Page :=
  { written := c :: p.written }

/-- Goes to a column, on a new line unless the line is fresh and ends before it. -/
def indent (p : Page) (n : Nat) : Page :=
  let p := if !p.fresh || n < p.column then p.lineBreak '\n' else p
  (List.replicate (n - p.column) ' ').foldl put p

end Page

/-- Writes a text in single quotes, a quote inside written twice. The text after a break starts at
column `column`. -/
def singleQuoted (column : Nat) (cs : List Char) (p : Page) : Page :=
  let step (p : Page × Bool) (c : Char) : Page × Bool :=
    if isBreak c then (p.1.lineBreak c, true)
    else
      let page := if p.2 then p.1.indent column else p.1
      (page.write (if c == '\'' then [c, c] else [c]), false)
  (cs.foldl step (p.write ['\''], false)).1.write ['\'']

/-- Upper-case hexadecimal digits. -/
def hexUpper (width n : Nat) : List Char :=
  (Text.hex width n).map Char.toUpper

/-- The escape for a character. -/
def escape (c : Char) : List Char :=
  let n := c.toNat
  match n with
  | 0x00 => ['\\', '0']
  | 0x07 => ['\\', 'a']
  | 0x08 => ['\\', 'b']
  | 0x09 => ['\\', 't']
  | 0x0A => ['\\', 'n']
  | 0x0B => ['\\', 'v']
  | 0x0C => ['\\', 'f']
  | 0x0D => ['\\', 'r']
  | 0x1B => ['\\', 'e']
  | 0x22 => ['\\', '"']
  | 0x5C => ['\\', '\\']
  | 0x85 => ['\\', 'N']
  | 0xA0 => ['\\', '_']
  | 0x2028 => ['\\', 'L']
  | 0x2029 => ['\\', 'P']
  | _ =>
    if n ≤ 0xFF then '\\' :: 'x' :: hexUpper 2 n
    else if n ≤ 0xFFFF then '\\' :: 'u' :: hexUpper 4 n
    else '\\' :: 'U' :: hexUpper 8 n

/-- Whether a character stands for itself between double quotes. -/
def standsInQuotes (c : Char) : Bool :=
  isPlainChar c && !isBreak c && c != '"' && c != '\\'

/-- A text in double quotes. In a text that starts with a byte order mark every character is escaped. -/
def doubleQuoted (cs : List Char) : List Char :=
  let marked := cs.head? == some byteOrderMark
  '"' :: cs.flatMap (fun c => if !marked && standsInQuotes c then [c] else escape c) ++ ['"']

/-- The header of a literal block: the indentation if the text starts with a space or a break, and
what happens to the breaks at its end. -/
def literalHeader (cs : List Char) : List Char :=
  let hint := if cs.head?.any fun c => c == ' ' || isBreak c then Nat.toDigits 10 step else []
  let chomp :=
    match cs.reverse with
    | [] => ['-']
    | [c] => if isBreak c then ['+'] else ['-']
    | c :: d :: _ => if !isBreak c then ['-'] else if isBreak d then ['+'] else []
  '|' :: hint ++ chomp

/-- Writes a literal block whose lines start at column `column`. Empty lines stay empty, and a break at
the very start of the text is the one that ends the header. -/
def literalBlock (column : Nat) (cs : List Char) (p : Page) : Page :=
  let step (p : Page × Bool) (c : Char) : Page × Bool :=
    if isBreak c then (p.1.lineBreak c, true)
    else ((if p.2 then p.1.indent column else p.1).write [c], false)
  (cs.foldl step (p.write (literalHeader cs), true)).1

/-- Writes a text; further lines start at column `column`. -/
def text (column : Nat) (s : String) (p : Page) : Page :=
  let cs := s.toList
  let a := analyse cs
  if cs.contains '\n' then
    if a.literal then literalBlock column cs p else p.write (doubleQuoted cs)
  else
    match Scalar.plainMeaning s with
    | .text =>
      if a.plain then p.write cs
      else if a.single then singleQuoted column cs p
      else p.write (doubleQuoted cs)
    | _ => p.write (doubleQuoted cs)

/-- Writes a scalar; further lines start at column `column`. -/
def scalar (column : Nat) (style : Style) (s : String) (p : Page) : Page :=
  match style with
  | .plain => p.write s.toList
  | .quoted => text column s p

/-- The column of a collection below a key at column `indent`: the next multiple of `step`. -/
def deeper (indent : Nat) : Nat :=
  step * ((indent + step) / step)

mutual

/-- Writes a node behind what introduces it: a scalar or an empty collection after a space, any other
collection from column `indent` on. -/
def value {π : Type} (indent : Nat) (n : Node π) (p : Page) : Page :=
  match n with
  | .scalar _ style s => scalar indent style s (p.put ' ')
  | .sequence _ l => if l.isEmpty then p.write " []".toList else items indent l p
  | .mapping _ l => if l.isEmpty then p.write " \x7b\x7d".toList else entries indent l p

/-- Writes the items of a sequence at column `indent`, each after its dash. -/
def items {π : Type} (indent : Nat) (l : List (Node π)) (p : Page) : Page :=
  match l with
  | [] => p
  | item :: rest => items indent rest (value (indent + 2) item ((p.indent indent).put '-'))

/-- Writes the entries of a mapping at column `indent`. -/
def entries {π : Type} (indent : Nat) (l : List (Node π × Node π)) (p : Page) : Page :=
  match l with
  | [] => p
  | entry :: rest => entries indent rest (entryText indent entry p)

/-- Writes a value after its key, which is a scalar. -/
def entryText {π : Type} (indent : Nat) (entry : Node π × Node π) (p : Page) : Page :=
  match entry with
  | (key, v) =>
    let page :=
      match key with
      | .scalar _ style s => scalar indent style s (p.indent indent)
      | _ => value indent key (p.indent indent)
    value (deeper indent) v (page.write [':'])

end

end Writer

/-- The written form of a document, ended by a line break. -/
def write {π : Type} (n : Node π) : String :=
  let page : Writer.Page :=
    match n with
    | .scalar _ style s => Writer.scalar Writer.step style s {}
    | .sequence _ [] => Writer.Page.write {} "[]".toList
    | .mapping _ [] => Writer.Page.write {} "\x7b\x7d".toList
    | n => Writer.value 0 n {}
  String.ofList (page.indent 0).written.reverse

end TypeFlow.Document
