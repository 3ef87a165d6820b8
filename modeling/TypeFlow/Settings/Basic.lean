import TypeFlow.Document.Scalar
import TypeFlow.Files
import TypeFlow.Settings.Numeric

/-!
# Settings

What a configuration file can say: the numeric tower, a server for macros, how much to log, and
further standard definitions, whose paths are relative to the directory of the file.

A log level is a number. Four of them have names, four apart, and a text may add to a name or subtract
from it. A level is shown as the nearest name at or below it and the distance to it; everything below
`INFO` is shown by its distance to `DEBUG`.
-/

namespace TypeFlow

/-- The settings of a compilation. -/
structure Settings where
  numeric : NumericTower := .default
  /-- The command that starts a server for macros. -/
  command : List String := []
  /-- The name of the log level. -/
  level : String := "info"
  /-- Further files of standard definitions. -/
  definitions : List String := []
  /-- The directory that the settings were read from. -/
  dir : String := ""

namespace Settings

/-- Checks the numeric tower. -/
def validate (s : Settings) : Except String Unit :=
  s.numeric.validate

/-- The paths of further standard definitions. -/
def definitionPaths (s : Settings) : List String :=
  s.definitions.map fun p =>
    if Path.isAbsolute p || s.dir == "" then p else Path.join s.dir p

end Settings

/-! ### Log levels -/

/-- How much a message matters. -/
structure Level where
  value : Int
  deriving DecidableEq, Repr

namespace Level

/-- Levels with names, from the highest. -/
def named : List (String × Int) :=
  [("ERROR", 8), ("WARN", 4), ("INFO", 0), ("DEBUG", -4)]

/-- The level that counts where none is given. -/
def info : Level := ⟨0⟩

/-- An upper-case letter for a letter of a name. Besides the ASCII letters only a dotless i has one that
occurs in names. -/
def upperChar (c : Char) : Char :=
  if c == 'ı' then 'I' else c.toUpper

/-- A signed decimal distance. -/
def distance? (cs : List Char) : Option Int :=
  if cs.isEmpty then some 0 else Document.Scalar.signed64? (Document.Scalar.digits? 10) cs

/-- Reads a name in any case with an optional distance. Levels are numbers of 64 bits. -/
def parse? (text : String) : Option Level := do
  let cs := text.toList
  let name := String.ofList ((cs.takeWhile fun c => c != '+' && c != '-').map upperChar)
  let distance ← distance? (cs.dropWhile fun c => c != '+' && c != '-')
  let (_, base) ← named.find? (·.1 == name)
  return ⟨(base + distance).bmod (2 * Document.Scalar.signedBound)⟩

/-- A level as it is shown. -/
def render (l : Level) : String :=
  let (name, base) := (named.find? fun (_, base) => base ≤ l.value).getD ("DEBUG", -4)
  let d := l.value - base
  if d = 0 then name else if d < 0 then name ++ toString d else name ++ "+" ++ toString d

end Level

end TypeFlow
