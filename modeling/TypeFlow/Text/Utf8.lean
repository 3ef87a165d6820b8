/-!
# Text as bytes

A few rules of the input formats count and classify **bytes** rather than characters. This module
moves between a text and its UTF-8 bytes. Reading bytes back is total: `runes` splits any byte
sequence into scalar values and stray bytes, so that a message can quote a text that was cut in the
middle of a character.

`byteLength` is the length the default source ranges count in; `latinLetter`, `latinDigit` classify
one byte read as a Latin-1 code point.
-/

namespace TypeFlow.Text

/-- One unit of a decoded byte sequence: a character, or a byte that belongs to none. -/
inductive Rune where
  | char (c : Char)
  | stray (b : UInt8)
  deriving DecidableEq, Repr

/-- The UTF-8 bytes of a text. -/
def bytes (s : String) : List UInt8 :=
  s.toUTF8.toList

/-- The number of bytes of a text. -/
def byteLength (s : String) : Nat :=
  s.utf8ByteSize

/-- A byte of the form `10xxxxxx`, its six payload bits, and `none` for any other byte. -/
def continuation? (b : UInt8) : Option Nat :=
  if b.toNat / 64 = 2 then some (b.toNat % 64) else none

/-- The payload bits announced by a leading byte, with the number of continuation bytes. -/
def leading? (b : UInt8) : Option (Nat × Nat) :=
  let n := b.toNat
  if n < 0x80 then some (n, 0)
  else if n < 0xC2 then none
  else if n < 0xE0 then some (n % 32, 1)
  else if n < 0xF0 then some (n % 16, 2)
  else if n < 0xF5 then some (n % 8, 3)
  else none

/-- Appends the payload of `k` continuation bytes to `acc`. -/
def collect? : Nat → Nat → List UInt8 → Option (Nat × List UInt8)
  | 0, acc, rest => some (acc, rest)
  | _ + 1, _, [] => none
  | k + 1, acc, b :: rest =>
    match continuation? b with
    | some bits => collect? k (acc * 64 + bits) rest
    | none => none

/-- The least code point that needs `k` continuation bytes. -/
def leastFor : Nat → Nat
  | 0 => 0
  | 1 => 0x80
  | 2 => 0x800
  | _ => 0x10000

/-- The first unit of a non-empty byte sequence and what follows it. Overlong forms, surrogates and
truncated sequences give up a single stray byte. -/
def nextRune (b : UInt8) (rest : List UInt8) : Rune × List UInt8 :=
  match leading? b with
  | none => (.stray b, rest)
  | some (bits, k) =>
    match collect? k bits rest with
    | none => (.stray b, rest)
    | some (n, rest') =>
      if leastFor k ≤ n ∧ (n < 0xD800 ∨ (0xDFFF < n ∧ n < 0x110000)) then
        (.char (Char.ofNat n), rest')
      else (.stray b, rest)

/-- Splits a byte sequence into runes, reading at most `fuel` of them. -/
def runesUpTo : Nat → List UInt8 → List Rune
  | _, [] => []
  | 0, _ => []
  | fuel + 1, b :: rest =>
    let (r, rest') := nextRune b rest
    r :: runesUpTo fuel rest'

/-- Splits a byte sequence into runes. -/
def runes (bs : List UInt8) : List Rune :=
  runesUpTo bs.length bs

/-- The text of a byte sequence; a stray byte reads as the replacement character. -/
def ofBytes (bs : List UInt8) : String :=
  String.ofList <| (runes bs).map fun
    | .char c => c
    | .stray _ => Char.ofNat 0xFFFD

/-- A byte that is a letter when read as a Latin-1 code point. -/
def latinLetter (b : UInt8) : Bool :=
  let n := b.toNat
  (0x41 ≤ n && n ≤ 0x5A) || (0x61 ≤ n && n ≤ 0x7A) || n == 0xAA || n == 0xB5 || n == 0xBA ||
    (0xC0 ≤ n && n ≤ 0xD6) || (0xD8 ≤ n && n ≤ 0xF6) || 0xF8 ≤ n

/-- A byte that is a decimal digit when read as a Latin-1 code point. -/
def latinDigit (b : UInt8) : Bool :=
  0x30 ≤ b.toNat && b.toNat ≤ 0x39

end TypeFlow.Text
