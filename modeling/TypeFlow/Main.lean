import TypeFlow.Command.Run

/-!
# The command line

Runs a command on real files. `-c FILE` or `--config FILE` before the command names the settings file.
-/

namespace TypeFlow

/-- The file system as seen from the current directory. -/
def realFiles : IO (Files IO) := do
  let current := (← IO.currentDir).toString
  let isPresent (path : String) : IO Bool := do
    try
      discard (IO.FS.Handle.mk path .read)
      return true
    catch _ => return false
  let read (path : String) : IO (Except FileError String) := do
    try
      return .ok (← IO.FS.readFile path)
    catch _ =>
      return .error ⟨path, if ← isPresent path then .isDirectory else .missing⟩
  return { current, read, isPresent }

/-- Splits the name of the settings file off the arguments. -/
def settingsArgument : List String → String × List String
  | "-c" :: file :: args => (file, args)
  | "--config" :: file :: args => (file, args)
  | args => ("", args)

end TypeFlow

/-- Prints what a command prints, and its failure on the other stream. -/
def main (args : List String) : IO UInt32 := do
  let (file, args) := TypeFlow.settingsArgument args
  let outcome ← TypeFlow.Command.run (← TypeFlow.realFiles) file args
  IO.print outcome.stdout
  match outcome.failure with
  | none => return 0
  | some e =>
    IO.eprintln e.message
    return 1
