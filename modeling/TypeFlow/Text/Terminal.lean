import TypeFlow.Text.Utf8

/-!
# Text for a terminal

A text for a terminal holds control sequences that select colors, set the window title and so on.
`Terminal.strip` takes them out the way a terminal would: byte by byte, with a state that says what kind
of sequence it is in. What a sequence swallows is lost, also where a text was not meant to start one.

A sequence starts with an escape and a letter, or with a single byte that stands for both. Its kind is one
of: control sequence (CSI), device control string (DCS), operating system command (OSC), or one of the
strings SOS, PM and APC.
-/

namespace TypeFlow.Text.Terminal

/-- What the bytes read so far belong to. -/
inductive State where
  | ground
  /-- Inside a character, of which this many bytes are to come. -/
  | char (left : Nat)
  | escape
  | escapeIntermediate
  | csiEntry | csiParam | csiIntermediate
  | dcsEntry | dcsParam | dcsIntermediate | dcsString
  | oscString
  /-- A string that only its end concerns: SOS, PM or APC. -/
  | otherString
  deriving DecidableEq, Repr

/-- What becomes of a byte: whether it is kept, and the state after it. -/
abbrev Step := Bool × State

/-- A control character that a terminal carries out at once, without leaving the sequence it is in. -/
def isImmediate (n : Nat) : Bool :=
  n ≤ 0x17 || n == 0x19 || (0x1C ≤ n && n ≤ 0x1F)

/-- A byte between two, inclusive. -/
def within (low high n : Nat) : Bool :=
  low ≤ n && n ≤ high

/-- The byte that cancels or substitutes a sequence. -/
def isCancel (n : Nat) : Bool :=
  n == 0x18 || n == 0x1A

/-- What any state does with a byte that it has no rule for. -/
def anywhere (n : Nat) : Step :=
  if n == 0x1B then (false, .escape)
  else if n == 0x90 then (false, .dcsEntry)
  else if n == 0x9B then (false, .csiEntry)
  else if n == 0x9D then (false, .oscString)
  else if n == 0x98 || n == 0x9E || n == 0x9F then (false, .otherString)
  else if isCancel n || within 0x80 0x9C n then (true, .ground)
  else if within 0xC2 0xDF n then (true, .char 1)
  else if within 0xE0 0xEF n then (true, .char 2)
  else if within 0xF0 0xF4 n then (true, .char 3)
  else (false, .ground)

/-- The sequence that a byte after an escape opens. -/
def opened (n : Nat) : State :=
  if n == 0x5B then .csiEntry
  else if n == 0x5D then .oscString
  else if n == 0x50 then .dcsEntry
  else if n == 0x58 || n == 0x5E || n == 0x5F then .otherString
  else .ground

/-- The states of a control sequence: `param` and `intermediate` say where its next bytes lead. -/
def sequence (stay param intermediate : State) (n : Nat) : Step :=
  if isImmediate n then (true, stay)
  else if n == 0x7F then (false, stay)
  else if within 0x20 0x2F n then (false, intermediate)
  else if within 0x30 0x3F n then (false, param)
  else if within 0x40 0x7E n then (false, .ground)
  else anywhere n

/-- What a state does with a byte. -/
def step (state : State) (n : Nat) : Step :=
  match state with
  | .char left => (true, if left ≤ 1 then .ground else .char (left - 1))
  | .ground => if isImmediate n || within 0x20 0x7F n then (true, .ground) else anywhere n
  | .escape =>
    if isImmediate n then (true, .escape)
    else if n == 0x7F then (false, .escape)
    else if within 0x20 0x2F n then (false, .escapeIntermediate)
    else if within 0x30 0x7E n then (false, opened n)
    else anywhere n
  | .escapeIntermediate => sequence state .ground .escapeIntermediate n
  | .csiEntry => sequence state .csiParam .csiIntermediate n
  | .csiParam => sequence state .csiParam .csiIntermediate n
  | .csiIntermediate => sequence state .ground .csiIntermediate n
  | .otherString =>
    if isImmediate n || within 0x20 0x7F n then (false, state)
    else if isCancel n || n == 0x9C then (false, .ground)
    else anywhere n
  | .oscString =>
    if n == 0x1B then (false, .escape)
    else if n == 0x07 || n == 0x9C || isCancel n then (false, .ground)
    else (false, state)
  | .dcsString =>
    if n == 0x1B then (false, .escape)
    else if n == 0x9C || isCancel n then (false, .ground)
    else (false, state)
  | .dcsEntry =>
    if within 0x08 0x0D n || n == 0x1B || within 0x40 0x7E n then (false, .dcsString)
    else if isImmediate n || n == 0x7F then (false, state)
    else if within 0x20 0x2F n then (false, .dcsIntermediate)
    else if within 0x30 0x3F n then (false, .dcsParam)
    else anywhere n
  | .dcsParam =>
    if isImmediate n || n == 0x7F || within 0x30 0x3F n then (false, state)
    else if within 0x20 0x2F n then (false, .dcsIntermediate)
    else if within 0x40 0x7E n then (false, .dcsString)
    else anywhere n
  | .dcsIntermediate =>
    if isImmediate n || n == 0x7F || within 0x20 0x2F n then (false, state)
    else if within 0x30 0x7E n then (false, .dcsString)
    else anywhere n

/-- The bytes that are kept from a state on. -/
def stripBytes : State → List UInt8 → List UInt8
  | _, [] => []
  | state, b :: rest =>
    let (kept, next) := step state b.toNat
    if kept then b :: stripBytes next rest else stripBytes next rest

/-- A text without its control sequences. -/
def strip (s : String) : String :=
  ofBytes (stripBytes .ground (bytes s))

/-! ### Columns -/

/-- A character that takes two columns. -/
def isWide (c : Char) : Bool :=
  let n := c.toNat
  within 0x1100 0x115F n || within 0x231A 0x231B n || within 0x2E80 0x303E n ||
    within 0x3041 0x33FF n || within 0x3400 0x4DBF n || within 0x4E00 0x9FFF n ||
    within 0xA000 0xA4CF n || within 0xA960 0xA97F n || within 0xAC00 0xD7A3 n ||
    within 0xF900 0xFAFF n || within 0xFE30 0xFE6F n || within 0xFF00 0xFF60 n ||
    within 0xFFE0 0xFFE6 n || within 0x1F300 0x1F64F n || within 0x1F680 0x1F6FF n ||
    within 0x1F900 0x1F9FF n || within 0x20000 0x3FFFD n

/-- The number of columns that a text takes, control sequences and control characters apart. -/
def width (s : String) : Nat :=
  (strip s).toList.foldl (fun n c =>
    n + if c.toNat < 0x20 || within 0x7F 0x9F c.toNat then 0 else if isWide c then 2 else 1) 0

/-- A text as a block of bold lines: tabs become spaces, and every line is filled up to the width of the
widest. -/
def boldBlock (s : String) : String :=
  let lines := ((s.replace "\t" "    ").replace "\r\n" "\n").splitOn "\n"
  let widest := (lines.map width).foldl max 0
  String.intercalate "\n" <| lines.map fun line =>
    "\x1b[1m" ++ line ++ "\x1b[m" ++ String.ofList (List.replicate (widest - width line) ' ')

end TypeFlow.Text.Terminal
