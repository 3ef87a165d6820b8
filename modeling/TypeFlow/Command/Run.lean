import TypeFlow.Command.Basic
import TypeFlow.Report.Listing
import TypeFlow.Settings.Load
import TypeFlow.Text.Terminal

/-!
# Running commands

A command reads its settings and then the files it names, and gives what it prints and how it fails, if
it does. Commands do not start other programs: settings that ask for a server for macros are refused.

Reports are written for a terminal and then stripped of their control sequences, so that a control
sequence in a name or a path goes the same way.
-/

namespace TypeFlow

/-- Why a command fails. -/
inductive CommandError where
  | usage (e : UsageError)
  | settings (e : SettingsError)
  /-- A program that cannot be started. -/
  | server (program : String) (fault : PathFault)
  /-- A program without a name. -/
  | nothingToStart
  /-- Some files are not well typed. -/
  | failed (count total : Nat)
  /-- The file is not well typed; the text says why. -/
  | rejected (diagnostic : String)
  deriving DecidableEq, Repr

/-- The wording of a failure. -/
def CommandError.message : CommandError → String
  | .usage e => e.message
  | .settings e => e.message
  | .server program fault => "starting macro server: " ++ program ++ ": " ++ fault.text
  | .nothingToStart => "starting macro server: exec: no command"
  | .failed count total => toString count ++ " of " ++ toString total ++ " files failed"
  | .rejected diagnostic => diagnostic

/-- What a command prints, and its failure. -/
structure Outcome where
  stdout : String := ""
  failure : Option CommandError := none

namespace Command

variable {m : Type → Type} [Monad m]

/-- Reads a file together with its path. -/
def readFile (files : Files m) (path : String) : m Standard.TextFile := do
  return { path, content := ← files.read path }

/-- Compiles a file. -/
def compile (files : Files m) (s : Settings) (path : String) : m (Except Failure Compiled) := do
  let definitions ← s.definitionPaths.mapM (readFile files)
  match ← files.read path with
  | .error reason => return .error (.plain reason.message)
  | .ok text =>
    let options := { numeric := s.numeric, definitions, expander := .substitute }
    return (Compilation.compileText options path text).1

/-- A failure to compile a file as a terminal shows it. -/
def diagnostic (files : Files m) (path : String) (f : Failure) : m String := do
  let known := [(Standard.baseName, Standard.baseText)]
  let sources :=
    match ← files.read path with
    | .ok text => (path, text) :: known
    | .error _ => known
  return Diagnostic.render .terminal (← Sources.gather files sources f) f

/-- The report on a checked file as a terminal shows it, and whether the file is well typed. -/
def verdict (files : Files m) (s : Settings) (path : String) : m (Bool × String) := do
  match ← compile files s path with
  | .ok _ => return (true, "\x1b[32mok\x1b[m " ++ path)
  | .error f =>
    return (false, "\x1b[1;31mFAIL\x1b[m " ++ Text.Terminal.boldBlock path ++ "\n" ++
      (← diagnostic files path f))

/-- Checks files and reports on them in order. -/
def checkAll (files : Files m) (s : Settings) (paths : List String) : m Outcome := do
  let verdicts ← paths.mapM (verdict files s)
  let count := verdicts.countP (!·.1)
  return { stdout := String.join (verdicts.map fun v => Text.Terminal.strip v.2 ++ "\n")
           failure := if count = 0 then none else some (.failed count paths.length) }

/-- Prints the typed program of a file, or its method table alone. -/
def dumpOne (files : Files m) (s : Settings) (tableOnly : Bool) (path : String) : m Outcome := do
  match ← compile files s path with
  | .error f =>
    return { failure := some (.rejected (Text.Terminal.strip (← diagnostic files path f))) }
  | .ok c =>
    return { stdout := if tableOnly then MethodTable.render c else Listing.render c.program c.roots }

/-- Why a program cannot be started. A name without a slash is looked for among installed programs, of
which there are none; nothing else can be run. -/
def startFault (files : Files m) (program : String) : m CommandError := do
  if program == "" then return .nothingToStart
  else if !program.toList.contains '/' then return .server program .missing
  else
    match ← files.read program with
    | .ok _ => return .server program .denied
    | .error e => return .server program (if e.fault = .isDirectory then .denied else e.fault)

/-- Runs a command with given settings. -/
def runWith (files : Files m) (s : Settings) : Command → m Outcome
  | .check paths => checkAll files s paths
  | .dump tableOnly path => dumpOne files s tableOnly path
  | .help usage => return { stdout := "USAGE\n\n    " ++ usage ++ "\n" }

/-- Reads the settings of a command: those in a given file, or those found for the current directory. -/
def settings (files : Files m) (file : String) : m (Except SettingsError Settings) :=
  if file == "" then Settings.find files "." else Settings.load files file

/-- Runs the command that arguments describe; `file` names the settings file unless it is empty. -/
def run (files : Files m) (file : String) (args : List String) : m Outcome := do
  match parse args with
  | .error e => return { failure := some (.usage e) }
  | .ok (.help usage) => runWith files {} (.help usage)
  | .ok c =>
    match ← settings files file with
    | .error e => return { failure := some (.settings e) }
    | .ok s =>
      match s.command with
      | program :: _ => return { failure := some (← startFault files program) }
      | [] => runWith files s c

end Command

end TypeFlow
