import TypeFlow.Text.Utf8
import TypeFlow.Text.Printable

/-!
# Quoted text

How messages and listings quote a text: between double quotes, with backslash escapes for the quote,
the backslash and everything that does not print. Control characters below U+0080 are written with
two hexadecimal digits, other characters with four or eight; a byte that belongs to no character is
written as `\xNN`.
-/

namespace TypeFlow.Text

/-- A lower-case hexadecimal digit. -/
def hexDigit (n : Nat) : Char :=
  Nat.digitChar (n % 16)

/-- The last `width` hexadecimal digits of `n`. -/
def hex : Nat → Nat → List Char
  | 0, _ => []
  | width + 1, n => hex width (n / 16) ++ [hexDigit n]

/-- The short escapes. -/
def shortEscape? (c : Char) : Option Char :=
  match c.toNat with
  | 0x07 => some 'a'
  | 0x08 => some 'b'
  | 0x09 => some 't'
  | 0x0A => some 'n'
  | 0x0B => some 'v'
  | 0x0C => some 'f'
  | 0x0D => some 'r'
  | 0x22 => some '"'
  | 0x5C => some '\\'
  | _ => none

/-- One rune as it is written between the quotes. -/
def quoteRune : Rune → List Char
  | .stray b => '\\' :: 'x' :: hex 2 b.toNat
  | .char c =>
    match shortEscape? c with
    | some e => ['\\', e]
    | none =>
      if isPrintable c then [c]
      else if c.toNat < 0x80 then '\\' :: 'x' :: hex 2 c.toNat
      else if c.toNat < 0x10000 then '\\' :: 'u' :: hex 4 c.toNat
      else '\\' :: 'U' :: hex 8 c.toNat

/-- A byte sequence between double quotes. -/
def quoteBytes (bs : List UInt8) : String :=
  String.ofList ('"' :: (runes bs).flatMap quoteRune ++ ['"'])

/-- A text between double quotes. -/
def quote (s : String) : String :=
  String.ofList ('"' :: s.toList.flatMap (fun c => quoteRune (.char c)) ++ ['"'])

end TypeFlow.Text
