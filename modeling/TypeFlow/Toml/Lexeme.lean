import TypeFlow.Document.Scalar

/-!
# The words of a settings file

Blanks, comments, keys, strings, numbers and dates. Every reader takes the rest of the text and gives
back what it read and the rest after it.
-/

namespace TypeFlow.Toml

open Document.Scalar (isDigit digits? natOf? daysIn float? signed64? signedBound unsign)

/-! ### Blanks and comments -/

/-- A space or a tab. -/
def isBlank (c : Char) : Bool :=
  c == ' ' || c == '\t'

/-- Drops blanks. -/
def skipBlanks (cs : List Char) : List Char :=
  cs.dropWhile isBlank

/-- Drops blanks, line ends and comments; `comment` says whether the text starts inside one. -/
def skipLines (comment : Bool) : List Char → List Char
  | [] => []
  | c :: cs =>
    if comment then skipLines (c != '\n') cs
    else if c == '#' then skipLines true cs
    else if isBlank c || c == '\n' then skipLines false cs
    else c :: cs

/-- Drops what may stand after a complete statement on its line. -/
def lineEnd? (cs : List Char) : Option (List Char) :=
  match skipBlanks cs with
  | [] => some []
  | '\n' :: cs => some cs
  | '#' :: cs => some (cs.dropWhile (· != '\n'))
  | _ => none

/-- A character that may not stand in a settings file. -/
def isForbidden (c : Char) : Bool :=
  (c.toNat < 0x20 && c != '\t' && c != '\n') || c.toNat == 0x7F

/-- The text with every CR LF read as LF, unless it holds another control character. -/
def normalize? : List Char → Option (List Char)
  | [] => some []
  | '\r' :: '\n' :: cs => (normalize? cs).map ('\n' :: ·)
  | c :: cs => if isForbidden c then none else (normalize? cs).map (c :: ·)

/-! ### Strings -/

/-- The character that a one-letter escape stands for. -/
def shortEscape? (c : Char) : Option Char :=
  match c with
  | 'b' => some '\x08'
  | 't' => some '\t'
  | 'n' => some '\n'
  | 'f' => some '\x0c'
  | 'r' => some '\r'
  | 'e' => some '\x1b'
  | '"' => some '"'
  | '\\' => some '\\'
  | _ => none

/-- The character with a code written in hexadecimal digits. -/
def coded? (digits : List Char) : Option Char := do
  let n ← digits? 16 digits
  if n.isValidChar then some (Char.ofNat n) else none

/-- Puts a character in front of a string that was read. -/
def consChar (c : Char) (r : List Char × List Char) : List Char × List Char :=
  (c :: r.1, r.2)

/-- Reads the rest of a string that ends with `"`. -/
def basicString? : List Char → Option (List Char × List Char)
  | [] => none
  | '"' :: cs => some ([], cs)
  | '\\' :: 'x' :: a :: b :: cs => do
    return consChar (← coded? [a, b]) (← basicString? cs)
  | '\\' :: 'u' :: a :: b :: c :: d :: cs => do
    return consChar (← coded? [a, b, c, d]) (← basicString? cs)
  | '\\' :: 'U' :: a :: b :: c :: d :: e :: f :: g :: h :: cs => do
    return consChar (← coded? [a, b, c, d, e, f, g, h]) (← basicString? cs)
  | '\\' :: c :: cs => do
    return consChar (← shortEscape? c) (← basicString? cs)
  | c :: cs =>
    if c == '\n' || c == '\\' then none else (basicString? cs).map (consChar c)

/-- Reads the rest of a string that ends with a single quote and has no escapes. -/
def literalString? (cs : List Char) : Option (List Char × List Char) :=
  let body := cs.takeWhile fun c => c != '\'' && c != '\n'
  match cs.drop body.length with
  | '\'' :: rest => some (body, rest)
  | _ => none

/-- The line end at the very start of a string of several lines does not count. -/
def dropFirstLineEnd : List Char → List Char
  | '\n' :: cs => cs
  | cs => cs

/-- Reads the quotes that may end a string of several lines, of which the last three close it: the quotes
before those, or none if fewer than three stand here. -/
def closing? (quote : Char) (cs : List Char) : Option (Option (List Char × List Char)) :=
  let n := (cs.takeWhile (· == quote)).length
  if n < 3 then some none
  else if n ≤ 5 then some (some (List.replicate (n - 3) quote, cs.drop n))
  else none

/-- Reads the rest of a string that ends with three single quotes. -/
def literalLines? : Nat → List Char → Option (List Char × List Char)
  | 0, _ => none
  | fuel + 1, cs => do
    match ← closing? '\'' cs with
    | some r => return r
    | none =>
      match cs with
      | [] => none
      | c :: cs => return consChar c (← literalLines? fuel cs)

/-- Reads the rest of a string that ends with three double quotes. A backslash at the end of a line takes
the white space after it away. -/
def basicLines? : Nat → List Char → Option (List Char × List Char)
  | 0, _ => none
  | fuel + 1, cs => do
    match ← closing? '"' cs with
    | some r => return r
    | none =>
      match cs with
      | '\\' :: 'x' :: a :: b :: cs => return consChar (← coded? [a, b]) (← basicLines? fuel cs)
      | '\\' :: 'u' :: a :: b :: c :: d :: cs =>
        return consChar (← coded? [a, b, c, d]) (← basicLines? fuel cs)
      | '\\' :: 'U' :: a :: b :: c :: d :: e :: f :: g :: h :: cs =>
        return consChar (← coded? [a, b, c, d, e, f, g, h]) (← basicLines? fuel cs)
      | '\\' :: c :: cs =>
        match shortEscape? c with
        | some x => return consChar x (← basicLines? fuel cs)
        | none =>
          let gap := (c :: cs).takeWhile fun x => isBlank x || x == '\n'
          if gap.contains '\n' then basicLines? fuel ((c :: cs).drop gap.length) else none
      | c :: cs => return consChar c (← basicLines? fuel cs)
      | [] => none

/-! ### Keys -/

/-- A character of a key without quotes. -/
def isKeyChar (c : Char) : Bool :=
  c.isAlphanum || c == '_' || c == '-'

/-- Reads one segment of a key. -/
def segment? (cs : List Char) : Option (String × List Char) :=
  match cs with
  | '"' :: cs => (basicString? cs).map fun (s, cs) => (String.ofList s, cs)
  | '\'' :: cs => (literalString? cs).map fun (s, cs) => (String.ofList s, cs)
  | cs =>
    match cs.takeWhile isKeyChar with
    | [] => none
    | k :: ks => some (String.ofList (k :: ks), cs.dropWhile isKeyChar)

/-- Reads the segments of a key, which dots divide. The first argument bounds their number. -/
def key? : Nat → List Char → Option (List String × List Char)
  | 0, _ => none
  | fuel + 1, cs => do
    let (s, cs) ← segment? (skipBlanks cs)
    match skipBlanks cs with
    | '.' :: cs => do
      let (more, cs) ← key? fuel cs
      return (s :: more, cs)
    | cs => return ([s], cs)

/-! ### Numbers and words -/

/-- The digits of a number in which single underscores divide digits. -/
def ungroup? (cs : List Char) : Option (List Char) :=
  let groups := (String.ofList cs).splitOn "_"
  if groups.any String.isEmpty then none else some (cs.filter (· != '_'))

/-- A decimal magnitude without leading zeros. -/
def decimal? (cs : List Char) : Option Nat := do
  let ds ← ungroup? cs
  if ds.length > 1 && ds.head? == some '0' then none else digits? 10 ds

/-- An integer of 64 bits. -/
def integer? (cs : List Char) : Option Int :=
  let based (base : Nat) (ds : List Char) : Option Int := do
    let n ← digits? base (← ungroup? ds)
    if n < signedBound then some (n : Int) else none
  match cs with
  | '0' :: 'x' :: ds => based 16 ds
  | '0' :: 'o' :: ds => based 8 ds
  | '0' :: 'b' :: ds => based 2 ds
  | cs => signed64? decimal? cs

/-- Whether a text is digits with single underscores between them. -/
def isGrouped (cs : List Char) : Bool :=
  (ungroup? cs).any fun ds => ds.all isDigit

/-- Whether a word is a float: a fraction, an exponent or both after a decimal number, infinity, or not a
number. -/
def isFloat (cs : List Char) : Bool :=
  let cs := (unsign cs).2
  let isExponent (e : Char) := e == 'e' || e == 'E'
  let mantissa := cs.takeWhile (!isExponent ·)
  let whole := mantissa.takeWhile (· != '.')
  let fraction := mantissa.drop whole.length
  let exponent := cs.drop mantissa.length
  cs == ['i', 'n', 'f'] || cs == ['n', 'a', 'n'] ||
    ((decimal? whole).isSome && !(fraction ++ exponent).isEmpty &&
      (fraction.isEmpty || isGrouped (fraction.drop 1)) &&
      (exponent.isEmpty || isGrouped (unsign (exponent.drop 1)).2))

/-- Whether a float is not beyond all floats of 64 bits. -/
def isFiniteFloat (cs : List Char) : Bool :=
  isFloat cs && (cs.any Char.isAlpha && !cs.any isDigit || (float? (cs.filter (· != '_'))).isSome)

/-! ### Dates -/

/-- The number written in the first two characters. -/
def twoDigits? : List Char → Option (Nat × List Char)
  | a :: b :: cs => do return (← digits? 10 [a, b], cs)
  | _ => none

/-- Drops the character `c`. -/
def drop? (c : Char) : List Char → Option (List Char)
  | x :: cs => if x == c then some cs else none
  | [] => none

/-- Reads a date: year, month and day. -/
def date? (cs : List Char) : Option (List Char) := do
  let year := cs.takeWhile isDigit
  let y ← natOf? 10 year
  let (m, cs) ← twoDigits? (← drop? '-' (cs.drop year.length))
  let (d, cs) ← twoDigits? (← drop? '-' cs)
  if year.length == 4 && 1 ≤ m && m ≤ 12 && 1 ≤ d && d ≤ daysIn y m then some cs else none

/-- Reads the seconds of a time of day, with a fraction if there is one. -/
def seconds? (cs : List Char) : Option (List Char) := do
  let (s, cs) ← twoDigits? cs
  if 60 ≤ s then none
  else
    match cs with
    | '.' :: d :: rest => some (if isDigit d then rest.dropWhile isDigit else cs)
    | cs => some cs

/-- Reads a time of day: hours, minutes and, if they are there, seconds. -/
def clock? (cs : List Char) : Option (List Char) := do
  let (h, cs) ← twoDigits? cs
  let (m, cs) ← twoDigits? (← drop? ':' cs)
  if 24 ≤ h || 60 ≤ m then none
  else
    match cs with
    | ':' :: cs => seconds? cs
    | cs => some cs

/-- Whether a text is a time zone or empty. -/
def isZone (cs : List Char) : Bool :=
  match cs with
  | [] => true
  | ['Z'] => true
  | sign :: cs =>
    (sign == '+' || sign == '-') &&
      ((do
        let (h, cs) ← twoDigits? cs
        let (m, cs) ← twoDigits? (← drop? ':' cs)
        return h ≤ 24 && m ≤ 60 && cs.isEmpty : Option Bool).getD false)

/-- Whether a text is a date, a time of day, or both with a `T` or a space between them. -/
def isMoment (cs : List Char) : Bool :=
  let cs := cs.map fun c => if c == 'z' then 'Z' else if c == 't' || c == ' ' then 'T' else c
  match date? cs with
  | some [] => true
  | some ('T' :: cs) => (clock? cs).any isZone
  | some _ => false
  | none => (clock? cs).any List.isEmpty

/-- A character that may stand in a date. -/
def isMomentChar (c : Char) : Bool :=
  isDigit c || "-:Tt .Zz+".toList.contains c

/-- Whether a date or a time of day starts here, and no number. -/
def startsMoment (cs : List Char) : Bool :=
  let ds := cs.takeWhile isDigit
  !ds.isEmpty && (cs.drop ds.length).head?.any fun c => c == '-' || c == ':'

/-! ### Words -/

/-- Whether a character ends a word. -/
def endsWord (c : Char) : Bool :=
  isBlank c || c == '\n' || c == ',' || c == ']' || c == '}' || c == '#'

end TypeFlow.Toml
