import TypeFlow.TypeExpr.Basic
import TypeFlow.Text.Quoted

/-!
# Reading written types

The grammar, with blanks (U+0020 only) allowed before every token and at the end:

* union = term (`|` term)*, which is the term itself when there is only one;
* term = `self`, or a name other than `self`, more segments after `::`, type arguments in
  parentheses separated by commas, and any number of `*`, each of which wraps the type so far in
  `Pointer(...)`;
* name = one or more bytes that are letters, digits or `_` when read as Latin-1 code points.

`TypeTerm.parse` reads bytes; `TypeExpr.parse` reads a text. A failure says what was expected and
`TypeTextError.message` words it.
-/

namespace TypeFlow

/-- Why a text is not a written type. -/
inductive TypeTextError where
  /-- A name has to stand at this offset. -/
  | expectedName (offset : Nat)
  /-- A list of type arguments has to go on or end. -/
  | expectedClose
  /-- A complete type is followed by something else. -/
  | unexpected (rest : List UInt8)
  deriving DecidableEq, Repr

/-- The wording of a failure to read `source`. -/
def TypeTextError.message (source : List UInt8) : TypeTextError → String
  | .expectedName offset =>
    "expected a type name at offset " ++ toString offset ++ " in " ++ Text.quoteBytes source
  | .expectedClose => "expected ',' or ')' in type " ++ Text.quoteBytes source
  | .unexpected rest =>
    "unexpected " ++ Text.quoteBytes rest ++ " in type " ++ Text.quoteBytes source

namespace TypeTerm

/-- A byte that may stand in a name. -/
def nameByte (b : UInt8) : Bool :=
  Text.latinLetter b || Text.latinDigit b || b == 0x5F

/-- Drops leading blanks. -/
def skipBlanks (s : List UInt8) : List UInt8 :=
  s.dropWhile (· == 0x20)

/-- Drops a token after leading blanks. -/
def eat? (token : List UInt8) (s : List UInt8) : Option (List UInt8) :=
  let s := skipBlanks s
  if token.isPrefixOf s then some (s.drop token.length) else none

/-- The bytes of `self`. -/
def selfBytes : List UInt8 := [0x73, 0x65, 0x6C, 0x66]

/-- The bytes of `Pointer`. -/
def pointerBytes : List UInt8 := [0x50, 0x6F, 0x69, 0x6E, 0x74, 0x65, 0x72]

/-- Reads a name; `total` is the length of the whole text. -/
def name (total : Nat) (s : List UInt8) : Except TypeTextError (List UInt8 × List UInt8) :=
  let s := skipBlanks s
  match s.takeWhile nameByte with
  | [] => .error (.expectedName (total - s.length))
  | b :: bs => .ok (b :: bs, s.dropWhile nameByte)

/-- Reads the segments that follow `::`. -/
def segments (total : Nat) :
    Nat → List UInt8 → Except TypeTextError (List (List UInt8) × List UInt8)
  | 0, s => .ok ([], s)
  | fuel + 1, s =>
    match eat? [0x3A, 0x3A] s with
    | none => .ok ([], s)
    | some s => do
      let (segment, s) ← name total s
      let (more, s) ← segments total fuel s
      return (segment :: more, s)

/-- Wraps a type in a pointer for every `*` that follows it. -/
def stars : Nat → TypeTerm (List UInt8) → List UInt8 → TypeTerm (List UInt8) × List UInt8
  | 0, t, s => (t, s)
  | fuel + 1, t, s =>
    match eat? [0x2A] s with
    | none => (t, s)
    | some s => stars fuel (.named [pointerBytes] [t]) s

mutual

/-- Reads a union. -/
def union? (total : Nat) :
    Nat → List UInt8 → Except TypeTextError (TypeTerm (List UInt8) × List UInt8)
  | 0, _ => .error .expectedClose
  | fuel + 1, s => do
    let (first, s) ← term? total fuel s
    let (more, s) ← alternatives? total fuel s
    match more with
    | [] => return (first, s)
    | _ => return (.union (first :: more), s)

/-- Reads the alternatives that follow `|`. -/
def alternatives? (total : Nat) :
    Nat → List UInt8 → Except TypeTextError (List (TypeTerm (List UInt8)) × List UInt8)
  | 0, s => .ok ([], s)
  | fuel + 1, s =>
    match eat? [0x7C] s with
    | none => .ok ([], s)
    | some s => do
      let (t, s) ← term? total fuel s
      let (more, s) ← alternatives? total fuel s
      return (t :: more, s)

/-- Reads one term. -/
def term? (total : Nat) :
    Nat → List UInt8 → Except TypeTextError (TypeTerm (List UInt8) × List UInt8)
  | 0, _ => .error .expectedClose
  | fuel + 1, s => do
    let (head, s) ← name total s
    if head = selfBytes then
      return (.self, s)
    else
      let (more, s) ← segments total s.length s
      match eat? [0x28] s with
      | none => return stars s.length (.named (head :: more) []) s
      | some s =>
        let (args, s) ← arguments? total fuel s
        return stars s.length (.named (head :: more) args) s

/-- Reads type arguments up to the closing parenthesis. -/
def arguments? (total : Nat) :
    Nat → List UInt8 → Except TypeTextError (List (TypeTerm (List UInt8)) × List UInt8)
  | 0, _ => .error .expectedClose
  | fuel + 1, s => do
    let (arg, s) ← union? total fuel s
    match eat? [0x29] s with
    | some s => return ([arg], s)
    | none =>
      match eat? [0x2C] s with
      | none => .error .expectedClose
      | some s =>
        let (more, s) ← arguments? total fuel s
        return (arg :: more, s)

end

/-- Reads a written type from its bytes. Every step takes at least one byte and nests at most three
readers, which bounds the depth of the reading. -/
def parse (s : List UInt8) : Except TypeTextError (TypeTerm (List UInt8)) := do
  let (t, rest) ← union? s.length (3 * s.length + 3) s
  match skipBlanks rest with
  | [] => return t
  | rest => .error (.unexpected rest)

end TypeTerm

/-- Reads a written type; a failure is worded. -/
def TypeExpr.parse (s : String) : Except String TypeExpr :=
  let bs := Text.bytes s
  match TypeTerm.parse bs with
  | .ok t => .ok (t.map Text.ofBytes)
  | .error e => .error (e.message bs)

end TypeFlow
