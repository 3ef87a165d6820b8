import TypeFlow.Files
import TypeFlow.Text.Utf8

/-!
# A fixed set of files

A volume is a list of texts and directories by their place below the root. A path is walked segment
by segment: `.` and empty segments stay where they are, `..` goes up, and each of them needs a
directory to start from.
-/

namespace TypeFlow

/-- What can stand at a place. -/
inductive Volume.Item where
  | file (text : String)
  | directory
  deriving DecidableEq, Repr

/-- Files and directories by the segments of their paths. The directories above each of them are
there too. -/
structure Volume where
  items : List (List String × Volume.Item) := []

namespace Volume

/-- Adds an item at an absolute path. -/
def insert (v : Volume) (path : String) (e : Item) : Volume :=
  ⟨(((Path.clean path).splitOn "/").filter (· != ""), e) :: v.items⟩

/-- What stands at a place. -/
def item? (v : Volume) (place : List String) : Option Item :=
  match v.items.lookup place with
  | some e => some e
  | none =>
    if place.isEmpty || v.items.any (fun (p, _) => place.isPrefixOf p) then some .directory
    else none

/-- The greatest number of bytes of a segment. -/
def maxSegment : Nat := 255

/-- The greatest number of bytes of a path. -/
def maxPath : Nat := 4095

/-- Walks from a place along the segments of a path. -/
def walk (v : Volume) : List String → List String → Except PathFault (List String)
  | place, [] => .ok place
  | place, segment :: rest =>
    match v.item? place with
    | some .directory =>
      if segment == "" || segment == "." then v.walk place rest
      else if segment == ".." then v.walk place.dropLast rest
      else if maxSegment < Text.byteLength segment then .error .nameTooLong
      else if (v.item? (place ++ [segment])).isNone then .error .missing
      else v.walk (place ++ [segment]) rest
    | _ => .error .notDirectory

/-- What a path leads to, seen from the directory `current`. -/
def find (v : Volume) (current path : String) : Except PathFault Item := do
  if path == "" then .error .missing
  else if path.toList.contains (Char.ofNat 0) then .error .invalid
  else if maxPath < Text.byteLength path then .error .nameTooLong
  else
    let start := if Path.isAbsolute path then [] else (current.splitOn "/").filter (· != "")
    match v.item? (← v.walk start (path.splitOn "/")) with
    | some e => .ok e
    | none => .error .missing

/-- A volume as a file system seen from the directory `current`. -/
def files (v : Volume) (current : String) : Files Id where
  current
  read path :=
    match v.find current path with
    | .ok (.file text) => .ok text
    | .ok .directory => .error ⟨path, .isDirectory⟩
    | .error fault => .error ⟨path, fault⟩
  isPresent path := (v.find current path).toOption.isSome

end Volume

end TypeFlow
