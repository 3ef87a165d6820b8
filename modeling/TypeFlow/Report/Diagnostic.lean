import TypeFlow.Failure
import TypeFlow.Files
import TypeFlow.Tree.Expansion

/-!
# Diagnostics

A failure as it is shown to the user: the cause first, then every instantiation and macro expansion it
happened in, out to the outermost call. Each of them is shown with the lines of source around it and an
underline. A `Palette` holds the marks that color the parts.

The lines come from `Sources`. `Sources.gather` makes sure that they hold every text a failure points
into: the expansions it happened in, and the files it names.
-/

namespace TypeFlow

/-- How the parts of a diagnostic are marked. -/
structure Palette where
  red : String
  blue : String
  bold : String
  dim : String
  reset : String

/-- Terminal colors. -/
def Palette.terminal : Palette :=
  { red := "\x1b[31m", blue := "\x1b[34m", bold := "\x1b[1m", dim := "\x1b[2m", reset := "\x1b[0m" }

/-- The texts that failures may point into, by name; of several the first counts. -/
abbrev Sources := List (String × String)

namespace Sources

/-- The texts of the macro expansions that a failure happened in, the innermost first. -/
def expansions (f : Failure) : Sources :=
  (f.chain.filterMap fun
    | .expanding _ name text _ => if text == "" then none else some (Expansion.fileName name, text)
    | _ => none).reverse

variable {m : Type → Type} [Monad m]

/-- Adds the file with a name, if it can be read and no text of that name is known. -/
def add (files : Files m) (sources : Sources) (name : String) : m Sources := do
  if name == "" || (sources.lookup name).isSome then return sources
  else
    match ← files.read name with
    | .ok text => return (name, text) :: sources
    | .error _ => return sources

/-- Adds the texts that a failure points into. Its expansions replace earlier texts of the same
name. -/
def gather (files : Files m) (sources : Sources) (f : Failure) : m Sources :=
  (f.chain.filterMap fun g => g.loc?.map (·.file)).foldlM (add files) (expansions f ++ sources)

end Sources

namespace Diagnostic

/-- The lines of a source text; none if it is empty or unknown. -/
def linesOf (sources : Sources) (name : String) : List String :=
  match sources.lookup name with
  | none => []
  | some text => if text == "" then [] else text.splitOn "\n"

/-- A text after spaces that fill it up to a width. -/
def padLeft (width : Nat) (s : String) : String :=
  String.ofList (List.replicate (width - s.length) ' ') ++ s

/-- A character several times. -/
def times (n : Nat) (c : Char) : String :=
  String.ofList (List.replicate n c)

/-- The line that a location points at, with its underline. -/
def pointedLine (p : Palette) (loc : Location) (color : String) (n : Nat) (text : String) : String :=
  let underline := times (max 1 loc.length).toNat '^'
  let padding := times (6 + (max loc.column 1).toNat) ' '
  " " ++ p.dim ++ p.blue ++ p.bold ++ padLeft 3 (toString n) ++ " | " ++ p.reset ++ text ++ "\n" ++
    p.dim ++ padding ++ color ++ underline ++ p.reset ++ "\n"

/-- A line around the one that a location points at. -/
def contextLine (p : Palette) (n : Nat) (text : String) : String :=
  " " ++ p.dim ++ padLeft 3 (toString n) ++ " | " ++ text ++ p.reset ++ "\n"

/-- The frame above and below the lines. -/
def rule (p : Palette) : String :=
  " " ++ p.dim ++ "    |" ++ p.reset ++ "\n"

/-- The lines around a line number that is in range. -/
def window (p : Palette) (loc : Location) (color : String) (line : Nat) (lines : List String) : String :=
  let numbered := lines.zipIdx.map fun (text, i) => (i + 1, text)
  let shown := numbered.filter fun (n, _) => line ≤ n + 2 && n ≤ line + 2
  String.join <| shown.map fun (n, text) =>
    if n = line then pointedLine p loc color n text else contextLine p n text

/-- A location with the lines of source around it. -/
def snippet (p : Palette) (sources : Sources) (color : String) : Option Location → String
  | none => ""
  | some loc =>
    let arrow := "  " ++ p.dim ++ p.blue ++ "--> " ++ loc.render ++ p.reset ++ "\n"
    let lines := linesOf sources loc.file
    if loc.line < 1 ∨ loc.line > lines.length then arrow
    else arrow ++ rule p ++ window p loc color loc.line.toNat lines ++ rule p

/-- The heading of a frame, with its location. -/
def frame? : Failure → Option (String × Option Location)
  | .instantiating loc signature _ => some ("while instantiating '" ++ signature ++ "'", loc)
  | .expanding loc name _ _ => some ("in expansion of macro '" ++ name ++ "'", loc)
  | _ => none

/-- A failure as it is shown to the user. -/
def render (p : Palette) (sources : Sources) (f : Failure) : String :=
  let cause := f.chain.getLastD f
  let frames := (f.chain.filterMap frame?).reverse
  p.bold ++ p.red ++ "Error:" ++ p.reset ++ " " ++ cause.message ++ "\n" ++
    snippet p sources p.red cause.loc? ++
    String.join (frames.map fun (heading, loc) =>
      p.bold ++ heading ++ p.reset ++ "\n" ++ snippet p sources p.blue loc)

end Diagnostic

end TypeFlow
