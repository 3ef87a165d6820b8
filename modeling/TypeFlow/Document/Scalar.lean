import TypeFlow.Document.Basic
import TypeFlow.Text.Quoted

/-!
# What a scalar means

A plain scalar may stand for null, a truth value, a number or a date; any other scalar is a text.
`resolve` decides which. `readBool`, `readInt` and `readTexts` read a node as a value of a given
kind, and `Unfit` says why that is not possible.
-/

namespace TypeFlow.Document

/-- The meaning of a scalar. -/
inductive Meaning where
  | null
  | bool (b : Bool)
  | int (n : Int)
  | float (x : Float)
  | timestamp
  /-- The merge key `<<`: a text with a tag of its own. -/
  | merge
  | text

/-- The tag of a meaning. -/
def Meaning.tag : Meaning → String
  | .null => "!!null"
  | .bool _ => "!!bool"
  | .int _ => "!!int"
  | .float _ => "!!float"
  | .timestamp => "!!timestamp"
  | .merge => "!!merge"
  | .text => "!!str"

namespace Scalar

/-- A decimal digit. -/
def isDigit (c : Char) : Bool :=
  '0' ≤ c && c ≤ '9'

/-- The value of a digit in bases up to sixteen. -/
def digitValue? (c : Char) : Option Nat :=
  if isDigit c then some (c.toNat - '0'.toNat)
  else if 'a' ≤ c && c ≤ 'f' then some (c.toNat - 'a'.toNat + 10)
  else if 'A' ≤ c && c ≤ 'F' then some (c.toNat - 'A'.toNat + 10)
  else none

/-- The number written by digits of a base; an empty list is zero. -/
def natOf? (base : Nat) (cs : List Char) : Option Nat :=
  cs.foldlM (fun acc c => do
    let d ← digitValue? c
    if d < base then some (acc * base + d) else none) 0

/-- Splits off a sign. -/
def unsign : List Char → Bool × List Char
  | '-' :: cs => (true, cs)
  | '+' :: cs => (false, cs)
  | cs => (false, cs)

/-- The magnitude of an integer with an optional base mark: `0b`, `0o`, `0x`, or a leading zero for
octal. -/
def magnitude? : List Char → Option Nat
  | [] => none
  | '0' :: m :: d :: ds =>
    if m == 'b' || m == 'B' then natOf? 2 (d :: ds)
    else if m == 'o' || m == 'O' then natOf? 8 (d :: ds)
    else if m == 'x' || m == 'X' then natOf? 16 (d :: ds)
    else natOf? 8 (m :: d :: ds)
  | '0' :: ds => natOf? 8 ds
  | ds => natOf? 10 ds

/-- The least natural number that is not a signed integer of 64 bits. -/
def signedBound : Nat :=
  0x8000000000000000

/-- A signed integer of 64 bits in a given base. -/
def signed64? (value? : List Char → Option Nat) (cs : List Char) : Option Int := do
  let (negative, ds) := unsign cs
  let n ← value? ds
  if negative then
    if n ≤ signedBound then some (-(n : Int)) else none
  else if n < signedBound then some (n : Int)
  else none

/-- An integer of at most 64 bits. -/
def int? (cs : List Char) : Option Int :=
  match signed64? magnitude? cs with
  | some n => some n
  | none =>
    match cs with
    | '-' :: _ => none
    | '+' :: _ => none
    | _ => do
      let n ← magnitude? cs
      if n < 2 * signedBound then some (n : Int) else none

/-- A non-empty list of digits in a given base. -/
def digits? (base : Nat) (cs : List Char) : Option Nat :=
  if cs.isEmpty then none else natOf? base cs

/-- An integer whose sign follows its base mark. -/
def lateSign? : List Char → Option Int
  | '0' :: 'b' :: ds => signed64? (digits? 2) ds
  | '-' :: '0' :: 'b' :: ds => signed64? (digits? 2) ('-' :: ds)
  | '0' :: 'o' :: ds => signed64? (digits? 8) ds
  | '-' :: '0' :: 'o' :: ds => signed64? (digits? 8) ('-' :: ds)
  | _ => none

/-- An exponent, zero where there is none. -/
def exponent? : List Char → Option Int
  | [] => some 0
  | e :: cs =>
    if e == 'e' || e == 'E' then
      let (down, ds) := unsign cs
      (digits? 10 ds).map fun n => if down then -(n : Int) else (n : Int)
    else none

/-- A decimal number in positional or exponent form. -/
def float? (cs : List Char) : Option Float := do
  let (negative, cs) := unsign cs
  let whole := cs.takeWhile isDigit
  let cs := cs.dropWhile isDigit
  let (fraction, dotted, cs) :=
    match cs with
    | '.' :: cs => (cs.takeWhile isDigit, true, cs.dropWhile isDigit)
    | cs => ([], false, cs)
  if whole.isEmpty && !(dotted && !fraction.isEmpty) then none
  else
    let exponent ← exponent? cs
    let m ← natOf? 10 (whole ++ fraction)
    let e := exponent - fraction.length
    let magnitude := e + (Nat.toDigits 10 m).length
    let x : Float :=
      if m == 0 || magnitude < -400 then 0
      else if 400 < magnitude then 1 / 0
      else Float.ofScientific m (e < 0) e.natAbs
    if x.isInf then none else some (if negative then -x else x)

/-- Whether every underscore stands between two digits. -/
def separatesDigits : Option Char → List Char → Bool
  | _, [] => true
  | before, '_' :: rest =>
    before.any isDigit && rest.head?.any isDigit && separatesDigits (some '_') rest
  | _, c :: rest => separatesDigits (some c) rest

/-- Takes one or two digits and checks an upper bound. -/
def shortNumber? (cs : List Char) : Option (Nat × List Char) :=
  match cs with
  | a :: b :: rest =>
    if isDigit a then
      if isDigit b then some ((a.toNat - 48) * 10 + (b.toNat - 48), rest)
      else some (a.toNat - 48, b :: rest)
    else none
  | [a] => if isDigit a then some (a.toNat - 48, []) else none
  | [] => none

/-- Takes a given character. -/
def take? (c : Char) : List Char → Option (List Char)
  | x :: rest => if x == c then some rest else none
  | [] => none

/-- The number of days of a month. -/
def daysIn (year month : Nat) : Nat :=
  if month == 2 then
    if year % 4 == 0 && (year % 100 != 0 || year % 400 == 0) then 29 else 28
  else if month == 4 || month == 6 || month == 9 || month == 11 then 30
  else 31

/-- A fraction of a second, if there is one. -/
def dropFraction (cs : List Char) : List Char :=
  match cs with
  | x :: d :: rest =>
    if (x == '.' || x == ',') && isDigit d then rest.dropWhile isDigit else cs
  | _ => cs

/-- A time of day, and what follows it. -/
def clock? (cs : List Char) : Option (List Char) := do
  let (h, cs) ← shortNumber? cs
  let cs ← take? ':' cs
  let (m, cs) ← shortNumber? cs
  let cs ← take? ':' cs
  let (s, cs) ← shortNumber? cs
  if h < 24 && m < 60 && s < 60 then some (dropFraction cs) else none

/-- A time zone: `Z`, or a signed offset with two digits each for hours and minutes. A whole day and a
whole hour are offsets, too. -/
def isZone (cs : List Char) : Bool :=
  match cs with
  | ['Z'] => true
  | [sign, a, b, ':', c, d] =>
    (sign == '+' || sign == '-') && isDigit a && isDigit b && isDigit c && isDigit d &&
      (a.toNat - 48) * 10 + (b.toNat - 48) ≤ 24 && (c.toNat - 48) * 10 + (d.toNat - 48) ≤ 60
  | _ => false

/-- A date, alone or with a time of day: after spaces without a time zone, after a `T` with one. -/
def isTimestamp (cs : List Char) : Bool :=
  let year := cs.takeWhile isDigit
  year.length == 4 &&
    (do
      let y ← natOf? 10 year
      let cs ← take? '-' (cs.drop 4)
      let (m, cs) ← shortNumber? cs
      let cs ← take? '-' cs
      let (d, cs) ← shortNumber? cs
      if 1 ≤ m && m ≤ 12 && 1 ≤ d && d ≤ daysIn y m then
        match cs with
        | [] => some true
        | ' ' :: cs => return (← clock? (cs.dropWhile (· == ' '))).isEmpty
        | x :: cs => return (x == 'T' || x == 't') && isZone (← clock? cs)
      else none : Option Bool).getD false

/-- The spellings of fixed values. -/
def fixed? (s : String) : Option Meaning :=
  if ["true", "True", "TRUE"].contains s then some (.bool true)
  else if ["false", "False", "FALSE"].contains s then some (.bool false)
  else if ["", "~", "null", "Null", "NULL"].contains s then some .null
  else if [".nan", ".NaN", ".NAN"].contains s then some (.float (0 / 0))
  else if [".inf", ".Inf", ".INF", "+.inf", "+.Inf", "+.INF"].contains s then some (.float (1 / 0))
  else if ["-.inf", "-.Inf", "-.INF"].contains s then some (.float (-1 / 0))
  else none

/-- The meaning of a plain text. -/
def plainMeaning (s : String) : Meaning :=
  match fixed? s with
  | some m => m
  | none =>
    match s.toList with
    | '.' :: cs =>
      if separatesDigits none ('.' :: cs) then
        ((float? (('.' :: cs).filter (· != '_'))).map .float).getD .text
      else .text
    | c :: cs =>
      if isDigit c || c == '+' || c == '-' then
        if isTimestamp (c :: cs) then .timestamp
        else
          let cs := (c :: cs).filter (· != '_')
          match int? cs with
          | some n => .int n
          | none =>
            match float? cs with
            | some x => .float x
            | none => ((lateSign? cs).map .int).getD .text
      else .text
    | [] => .null

end Scalar

/-- The meaning of a scalar. -/
def resolve (style : Style) (s : String) : Meaning :=
  match style with
  | .quoted => .text
  | .plain => if s == "<<" then .merge else Scalar.plainMeaning s

/-! ### Reading a node as a value of a given kind -/

/-- Why a node cannot be read as a value of a given kind. -/
inductive Unfit where
  /-- A node of another kind; a scalar shows its text. -/
  | mismatch (line : Nat) (tag : String) (shown : Option String) (target : String)
  /-- A mapping holds a key twice. -/
  | duplicate (line : Nat) (key : String) (first : Nat)

/-- The start of a long text, or all of a short one. -/
def excerpt (s : String) : String :=
  if 10 < Text.byteLength s then Text.ofBytes ((Text.bytes s).take 7) ++ "..." else s

/-- The wording of one misfit. -/
def Unfit.message : Unfit → String
  | .mismatch line tag shown target =>
    "line " ++ toString line ++ ": cannot unmarshal " ++ tag ++
      (match shown with
        | some s => " `" ++ excerpt s ++ "`"
        | none => "") ++ " into " ++ target
  | .duplicate line key first =>
    "line " ++ toString line ++ ": mapping key " ++ Text.quote key ++
      " already defined at line " ++ toString first

/-- The wording of a failed reading. -/
def unfitMessage (problems : List Unfit) : String :=
  "yaml: unmarshal errors:\n  " ++ String.intercalate "\n  " (problems.map Unfit.message)

/-- The keys of a mapping that repeat an earlier key. Collections are told apart by their sort alone. -/
def duplicates : List (Node Position × Node Position) → List Unfit
  | [] => []
  | (k, _) :: rest =>
    (rest.filterMap fun (k', _) =>
      if k.sameSort k' && k.text == k'.text then
        some (.duplicate k'.mark.line k'.text k.mark.line)
      else none) ++ duplicates rest

/-- The misfit of a collection where `target` is wanted. -/
def unfitCollection (n : Node Position) (target : String) : List Unfit :=
  match n with
  | .sequence p _ => [.mismatch p.line "!!seq" none target]
  | .mapping p entries =>
    match duplicates entries with
    | [] => [.mismatch p.line "!!map" none target]
    | problems => problems
  | .scalar .. => []

/-- Reads a node as a text; null is the empty text. -/
def readText (n : Node Position) : Except (List Unfit) (Option String) :=
  match n with
  | .scalar _ style s =>
    match resolve style s with
    | .null => .ok none
    | _ => .ok (some s)
  | n => .error (unfitCollection n "string")

/-- Reads a node as a truth value; null is false. -/
def readBool (n : Node Position) : Except (List Unfit) Bool :=
  match n with
  | .scalar p style s =>
    match resolve style s with
    | .null => .ok false
    | .bool b => .ok b
    | .text =>
      if ["y", "Y", "yes", "Yes", "YES", "on", "On", "ON"].contains s then .ok true
      else if ["n", "N", "no", "No", "NO", "off", "Off", "OFF"].contains s then .ok false
      else .error [.mismatch p.line "!!str" (some s) "bool"]
    | m => .error [.mismatch p.line m.tag (some s) "bool"]
  | n => .error (unfitCollection n "bool")

/-- The integer part of a number that is not above the integers of 64 bits. What lies outside of them
becomes the least of them. -/
def truncate? (x : Float) : Option Int :=
  let bound : Float := 9223372036854775808
  if x ≤ bound then
    some (if -bound ≤ x && x < bound then x.toInt64.toInt else -(Scalar.signedBound : Int))
  else none

/-- Reads a node as an integer; null is zero and a fraction is cut off. -/
def readInt (n : Node Position) : Except (List Unfit) Int :=
  match n with
  | .scalar p style s =>
    let m := resolve style s
    let mismatch := [Unfit.mismatch p.line m.tag (some s) "int"]
    match m with
    | .null => .ok 0
    | .int n => if n < (Scalar.signedBound : Int) then .ok n else .error mismatch
    | .float x =>
      match truncate? x with
      | some n => .ok n
      | none => .error mismatch
    | _ => .error mismatch
  | n => .error (unfitCollection n "int")

/-- Reads the items of a list of texts; null items are dropped and misfits collected. -/
def readItems : List (Node Position) → List String × List Unfit
  | [] => ([], [])
  | n :: rest =>
    let (items, problems) := readItems rest
    match readText n with
    | .error more => (items, more ++ problems)
    | .ok item => (item.toList ++ items, problems)

/-- Reads a node as a list of texts; null is no list. -/
def readTexts (n : Node Position) : Except (List Unfit) (Option (List String)) :=
  match n with
  | .sequence _ items =>
    match readItems items with
    | (texts, []) => .ok (some texts)
    | (_, problems) => .error problems
  | .scalar p style s =>
    match resolve style s with
    | .null => .ok none
    | m => .error [.mismatch p.line m.tag (some s) "[]string"]
  | n => .error (unfitCollection n "[]string")

end TypeFlow.Document
