/-!
# Files

What a command sees of the files around it. The operations run in any monad: `IO` for a real file
system, `Id` for a fixed set of texts (`Files/Volume.lean`).

Paths are separated by slashes. `Path.clean` is the shortest path that means the same without looking at
a file system: empty and `.` segments vanish, and `..` takes the segment before it away.
-/

namespace TypeFlow

/-- Why a path cannot be read or run. -/
inductive PathFault where
  | missing
  | isDirectory
  /-- Something on the way is not a directory. -/
  | notDirectory
  | nameTooLong
  /-- The path holds a character that no path may hold. -/
  | invalid
  | denied
  deriving DecidableEq, Repr

/-- The wording of a fault. -/
def PathFault.text : PathFault → String
  | .missing => "no such file or directory"
  | .isDirectory => "is a directory"
  | .notDirectory => "not a directory"
  | .nameTooLong => "file name too long"
  | .invalid => "invalid argument"
  | .denied => "permission denied"

/-- A path and why it cannot be read. -/
structure FileError where
  path : String
  fault : PathFault
  deriving DecidableEq, Repr

/-- The wording of a failure to read. A directory opens like a file and fails when it is read. -/
def FileError.message (e : FileError) : String :=
  (if e.fault = .isDirectory then "read " else "open ") ++ e.path ++ ": " ++ e.fault.text

/-- A view of a file system. -/
structure Files (m : Type → Type) where
  /-- The absolute path of the directory that relative paths start from. -/
  current : String
  read : String → m (Except FileError String)
  /-- Whether a path leads to a file or a directory. -/
  isPresent : String → m Bool

/-! ### Paths -/

namespace Path

/-- Whether a path starts at the root. -/
def isAbsolute (p : String) : Bool :=
  p.startsWith "/"

/-- Adds a segment to cleaned ones, of which the last comes first. -/
def step (rooted : Bool) (done : List String) (segment : String) : List String :=
  if segment == "" || segment == "." then done
  else if segment == ".." then
    match done with
    | [] => if rooted then [] else [".."]
    | ".." :: _ => ".." :: done
    | _ :: rest => rest
  else segment :: done

/-- The shortest path that means the same. -/
def clean (p : String) : String :=
  let rooted := isAbsolute p
  let segments := ((p.splitOn "/").foldl (step rooted) []).reverse
  let body := String.intercalate "/" segments
  if rooted then "/" ++ body else if segments.isEmpty then "." else body

/-- A path inside a directory; empty parts do not count. -/
def join (dir p : String) : String :=
  match [dir, p].filter (· != "") with
  | [] => ""
  | parts => clean (String.intercalate "/" parts)

/-- The directory of a path. -/
def dir (p : String) : String :=
  clean (String.intercalate "/" (p.splitOn "/").dropLast ++ if (p.splitOn "/").length > 1 then "/" else "")

/-- A path as seen from the root, given the current directory. -/
def absolute (current p : String) : String :=
  if isAbsolute p then clean p else join current p

/-- A clean absolute path and the directories above it, up to the root. -/
def upward (p : String) : List String :=
  let segments := (p.splitOn "/").filter (· != "")
  (List.range (segments.length + 1)).reverse.map fun n =>
    "/" ++ String.intercalate "/" (segments.take n)

end Path

end TypeFlow
