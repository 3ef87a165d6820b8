import TypeFlow.Files
import TypeFlow.Settings.Basic
import TypeFlow.Toml.Reader

/-!
# Reading settings

A settings file is read over the defaults: what it leaves out stays as it was, except that a file that
lists numeric kinds replaces the whole tower. `Settings.find` looks for a file in a directory and then in
those above it, as far as the one that is the root of a repository.
-/

namespace TypeFlow

/-- Why there are no settings. -/
inductive SettingsError where
  | unreadable (path : String) (reason : FileError)
  /-- The file is not of the form that settings have. -/
  | malformed (path : String)
  /-- The settings contradict each other. -/
  | invalid (path : String) (reason : String)
  deriving DecidableEq, Repr

/-- The wording of a failure to read settings. -/
def SettingsError.message : SettingsError → String
  | .unreadable path reason => "parsing " ++ path ++ ": " ++ reason.message
  | .malformed path => "parsing " ++ path ++ ": toml: the text is not a table of settings"
  | .invalid path reason => path ++ ": " ++ reason

namespace Settings

/-! ### Fields of tables

Every reader gives `none` for a value of the wrong form, and a default for one that is not there. -/

/-- The letter that stands for all forms of a letter when keys are compared. Besides the ASCII letters
only the Kelvin sign and the long s have an ASCII letter as another form. -/
def foldChar (c : Char) : Char :=
  if c == '\u212A' then 'k' else if c == '\u017F' then 's' else c.toLower

/-- The value of a key. A key in the given case is preferred to one in another. -/
def field? (es : Toml.Entries) (key : String) : Option Toml.Value :=
  match Toml.find? es key with
  | some v => some v
  | none => (es.find? fun (k, _) => k.toList.map foldChar == key.toList).map (·.2)

/-- Reads a field, which is `absent` where it is not there. -/
def readField {α : Type} (read? : Toml.Value → Option α) (absent : α) (es : Toml.Entries)
    (key : String) : Option α :=
  match field? es key with
  | none => some absent
  | some v => read? v

/-- A text. -/
def asText? : Toml.Value → Option String
  | .string s => some s
  | _ => none

/-- An integer. -/
def asInt? : Toml.Value → Option Int
  | .integer n => some n
  | _ => none

/-- A truth value. -/
def asBool? : Toml.Value → Option Bool
  | .boolean b => some b
  | _ => none

/-- The entries of a table. -/
def asTable? : Toml.Value → Option Toml.Entries
  | .table es => some es
  | _ => none

/-- A list of texts. -/
def asTexts? : Toml.Value → Option (List String)
  | .array vs => vs.mapM asText?
  | _ => none

/-- A list of tables, in either notation. -/
def asTables? : Toml.Value → Option (List Toml.Entries)
  | .array vs => vs.mapM asTable?
  | .tables ts => some ts.reverse
  | _ => none

/-- A numeric kind. -/
def kindOf? (es : Toml.Entries) : Option NumericKind := do
  return { name := ← readField asText? "" es "name"
           size := ← readField asInt? 0 es "size"
           float := ← readField asBool? false es "float"
           signed := ← readField asBool? false es "signed" }

/-- A promotion. -/
def promotionOf? (es : Toml.Entries) : Option Promotion := do
  return { left := ← readField asText? "" es "left"
           right := ← readField asText? "" es "right"
           result := ← readField asText? "" es "result" }

/-- The tower that a table describes. -/
def numericOf? (es : Toml.Entries) : Option NumericTower := do
  let kinds ← (← readField asTables? [] es "kinds").mapM kindOf?
  let promotions ← (← readField asTables? [] es "promotions").mapM promotionOf?
  let intLiteral ← readField asText? "" es "int_literal"
  let floatLiteral ← readField asText? "" es "float_literal"
  let d := NumericTower.default
  return { kinds := if kinds.isEmpty then d.kinds else kinds
           promotions
           intLiteral := if intLiteral == "" then d.intLiteral else intLiteral
           floatLiteral := if floatLiteral == "" then d.floatLiteral else floatLiteral }

/-- The settings that a table describes. -/
def ofTable? (es : Toml.Entries) : Option Settings := do
  let numeric ← numericOf? (← readField asTable? [] es "numeric")
  let command ← readField asTexts? [] (← readField asTable? [] es "macros") "command"
  let level ← readField asText? "" (← readField asTable? [] es "log") "level"
  let definitions ← readField asTexts? [] es "prelude"
  return { numeric, command, definitions, level := if level == "" then "info" else level }

/-! ### Files -/

/-- The settings in the text of a file. -/
def ofText (path text : String) : Except SettingsError Settings :=
  match (Toml.parse? text).bind ofTable? with
  | none => .error (.malformed path)
  | some s =>
    match s.validate with
    | .error reason => .error (.invalid path reason)
    | .ok _ => .ok { s with dir := Path.dir path }

/-- The level that counts for logging. -/
def logLevel (s : Settings) : Level :=
  (Level.parse? s.level).getD .info

/-- The name of settings files. -/
def fileName : String := "quartz.toml"

variable {m : Type → Type} [Monad m]

/-- Reads a settings file. -/
def load (files : Files m) (path : String) : m (Except SettingsError Settings) := do
  match ← files.read path with
  | .error reason => return .error (.unreadable path reason)
  | .ok text => return ofText path text

/-- Reads the first settings file in a list of directories, of which those after the root of a repository
do not count. -/
def findIn (files : Files m) : List String → m (Except SettingsError Settings)
  | [] => return .ok {}
  | dir :: rest => do
    let path := Path.join dir fileName
    if ← files.isPresent path then load files path
    else if ← files.isPresent (Path.join dir ".git") then return .ok {}
    else findIn files rest

/-- Finds the settings for a directory. -/
def find (files : Files m) (dir : String) : m (Except SettingsError Settings) :=
  findIn files (Path.upward (Path.absolute files.current dir))

end Settings

end TypeFlow
