import TypeFlow.Toml.Basic

/-!
# A table in the making

A settings file may mention a table before it defines it, and define it only once. A `Draft` is the table
of a file as far as it was read, together with what decides whether a path may be defined: the paths that
were only `implied` so far, and those whose last value was a list in brackets. Both are remembered by path
alone, so the elements of a list of tables share them.
-/

namespace TypeFlow.Toml

/-- The table of a file as far as it was read. -/
structure Draft where
  entries : Entries := []
  /-- Tables that were mentioned and may still be defined. -/
  implied : List (List String) := []
  /-- Paths whose last value was a list in brackets. -/
  arrays : List (List String) := []

/-- A step of the reading, which fails where something is said twice. -/
abbrev Drafting := StateT Draft Option

namespace Draft

/-- Marks a path as only mentioned. -/
def imply (path : List String) : Drafting Unit :=
  modify fun d => { d with implied := path :: d.implied.filter (· != path) }

/-- Marks a path as defined. -/
def settle (path : List String) : Drafting Unit :=
  modify fun d => { d with implied := d.implied.filter (· != path) }

/-- Remembers whether a path has a list in brackets. A key without a name stands for its table. -/
def note (context : List String) (key : String) (isArray : Bool) : Drafting Unit :=
  modify fun d =>
    let path := if key != "" then context ++ [key] else if context.isEmpty then [""] else context
    let others := d.arrays.filter (· != path)
    { d with arrays := if isArray then path :: others else others }

/-- Changes the table at a path. -/
def change (path : List String) (f : Entries → Option Entries) : Drafting Unit := do
  let d ← get
  match within? f path d.entries with
  | some entries => set { d with entries }
  | none => failure

/-- Gives a key of the table at `context` a value. A key that is there keeps its value if it was implied,
except that a list in brackets gives way; otherwise it is said twice. -/
def assign (context : List String) (key : String) (v : Value) : Drafting Unit := do
  let d ← get
  let path := context ++ [key]
  match (at? context d.entries).map (find? · key) with
  | none => failure
  | some none => change context fun es => some (put key v es)
  | some (some _) =>
    if !d.implied.contains path then failure
    else
      settle path
      if d.arrays.contains path then change context fun es => some (put key v es)

/-- Makes sure that there are tables on the way along `rest` from `done` on. -/
def reach (done : List String) : List String → Drafting Unit
  | [] => return ()
  | key :: rest => do
    let path := done ++ [key]
    match (at? done (← get).entries).map (find? · key) with
    | none => failure
    | some none =>
      imply path
      change done fun es => some (put key (.table []) es)
      reach path rest
    | some (some v) => if v.entries?.isSome then reach path rest else failure

/-- Adds a table to the list of tables under a key. -/
def append? (key : String) (es : Entries) : Option Entries :=
  match find? es key with
  | none => some (put key (.tables [[]]) es)
  | some (.tables ts) => some (put key (.tables ([] :: ts)) es)
  | some _ => none

/-- Goes to the table at a path: a new one of a list of tables if `inList`, and else one that may have
been implied. -/
def enter (path : List String) (inList : Bool) : Drafting Unit := do
  match path.getLast? with
  | none => failure
  | some key =>
    reach [] path.dropLast
    if inList then change path.dropLast (append? key) else assign path.dropLast key (.table [])

/-- Goes to the table that the segments before the last of a key lead to from `context`. -/
def descend (context : List String) : List String → Drafting (List String)
  | [] => return context
  | key :: rest => do
    let path := context ++ [key]
    imply path
    enter path false
    descend path rest

end Draft

end TypeFlow.Toml
