import TypeFlow.Text.Quoted

/-!
# Commands

What can be asked for on the command line. Flags may stand anywhere before `--`, and everything else is a
file. A wrong flag counts before a wrong number of files.
-/

namespace TypeFlow

/-- A command. -/
inductive Command where
  /-- Types files and says of each whether it is well typed. -/
  | check (files : List String)
  /-- Prints a typed program, or its method table alone. -/
  | dump (tableOnly : Bool) (file : String)
  /-- Says how a command is used. -/
  | help (usage : String)
  deriving DecidableEq, Repr

/-- A flag that is either on or off. -/
structure Flag where
  name : String
  /-- The letter that stands for it after a single hyphen. -/
  short : Option Char := none
  deriving DecidableEq, Repr

/-- The flag that asks for the method table alone. -/
def Flag.table : Flag := { name := "raw" }

/-- The flag that asks how a command is used. -/
def Flag.help : Flag := { name := "help", short := some 'h' }

/-- A flag as messages name it. -/
def Flag.render (f : Flag) : String :=
  (f.short.elim "" fun c => "-" ++ String.singleton c ++ ", ") ++ "--" ++ f.name

/-- Why arguments are not a command. -/
inductive UsageError where
  | unknownCommand (name : String)
  | unknownFlag (name : String)
  /-- The first of some letters after a hyphen is no flag. -/
  | unknownShortFlag (letter : Char) (letters : String)
  | malformedFlag (flag : String)
  | notBoolean (flag : Flag) (value : String)
  | noFiles
  | notOneFile (given : Nat)
  deriving DecidableEq, Repr

/-- A letter as messages quote it. Of a letter beyond ASCII only the first byte of the written form of
its first byte is shown. -/
def quoteLetter (c : Char) : String :=
  let shown := if c.toNat < 0x80 then c else Char.ofNat 0xC3
  let inner :=
    if shown == '\'' then "\\'" else if shown == '"' then "\""
    else String.ofList (Text.quoteRune (.char shown))
  "'" ++ inner ++ "'"

/-- The wording of a wrong use. -/
def UsageError.message : UsageError → String
  | .unknownCommand name => "unknown command " ++ Text.quote name
  | .unknownFlag name => "unknown flag: --" ++ name
  | .unknownShortFlag letter letters =>
    "unknown shorthand flag: " ++ quoteLetter letter ++ " in -" ++ letters
  | .malformedFlag flag => "bad flag syntax: " ++ flag
  | .notBoolean flag value =>
    "invalid argument " ++ Text.quote value ++ " for " ++ Text.quote flag.render ++
      " flag: strconv.ParseBool: parsing " ++ Text.quote value ++ ": invalid syntax"
  | .noFiles => "requires at least 1 arg(s), only received 0"
  | .notOneFile given => "accepts 1 arg(s), received " ++ toString given

namespace Command

/-- A truth value on the command line. -/
def truth? (s : String) : Option Bool :=
  if ["1", "t", "T", "true", "TRUE", "True"].contains s then some true
  else if ["0", "f", "F", "false", "FALSE", "False"].contains s then some false
  else none

/-- What the flags say: the last word on each of them. -/
abbrev Switches := List (Flag × Bool)

/-- Whether a flag is on. -/
def Switches.isOn (s : Switches) (f : Flag) : Bool :=
  (s.lookup f).getD false

/-- Sets a flag to a written value. -/
def assign (s : Switches) (f : Flag) (value : String) : Except UsageError Switches :=
  match truth? value with
  | some b => .ok ((f, b) :: s)
  | none => .error (.notBoolean f value)

/-- Reads a flag after its two hyphens. -/
def longFlag (known : List Flag) (s : Switches) (flag : String) : Except UsageError Switches :=
  if flag == "" || flag.startsWith "-" || flag.startsWith "=" then
    .error (.malformedFlag ("--" ++ flag))
  else
    let name := String.ofList (flag.toList.takeWhile (· != '='))
    match known.find? (·.name == name), flag.toList.dropWhile (· != '=') with
    | none, _ => .error (.unknownFlag name)
    | some f, [] => .ok ((f, true) :: s)
    | some f, _ :: value => assign s f (String.ofList value)

/-- Letters that are set aside for test runs. -/
def isTestFlag (letters : List Char) : Bool :=
  "test.".toList.isPrefixOf letters

/-- Reads the letters after a single hyphen. Each is a flag; a value may follow the last. -/
def shortFlags (known : List Flag) : Switches → List Char → Except UsageError Switches
  | s, [] => .ok s
  | s, c :: cs =>
    if isTestFlag (c :: cs) then .ok s
    else
      match known.find? (·.short == some c) with
      | none => .error (.unknownShortFlag c (String.ofList (c :: cs)))
      | some f =>
        match cs with
        | '=' :: v :: value => assign s f (String.ofList (v :: value))
        | cs => shortFlags known ((f, true) :: s) cs

/-- Reads arguments one by one: what the flags say, and the files. -/
def arguments (known : List Flag) (s : Switches) :
    List String → Except UsageError (Switches × List String)
  | [] => .ok (s, [])
  | arg :: rest =>
    match arg.toList with
    | ['-', '-'] => .ok (s, rest)
    | '-' :: '-' :: flag => do arguments known (← longFlag known s (String.ofList flag)) rest
    | '-' :: c :: cs => do arguments known (← shortFlags known s (c :: cs)) rest
    | _ => do
      let (s, files) ← arguments known s rest
      return (s, arg :: files)

/-- Reads a command. -/
def parse : List String → Except UsageError Command
  | "check" :: args => do
    let (s, files) ← arguments [Flag.help] [] args
    if s.isOn Flag.help then .ok (.help "check FILE...")
    else if files.isEmpty then .error .noFiles
    else .ok (.check files)
  | "dump" :: args => do
    let (s, files) ← arguments [Flag.help, Flag.table] [] args
    if s.isOn Flag.help then .ok (.help "dump FILE")
    else
      match files with
      | [file] => .ok (.dump (s.isOn Flag.table) file)
      | files => .error (.notOneFile files.length)
  | name :: _ => .error (.unknownCommand name)
  | [] => .error (.unknownCommand "")

end Command

end TypeFlow
