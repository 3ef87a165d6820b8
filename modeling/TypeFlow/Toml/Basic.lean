/-!
# Tables of settings

The values that a settings file can hold. Keys of a table are distinct and stand in the order in which
they were first mentioned. Every function on a path takes the last of a list of tables on its way.
-/

namespace TypeFlow.Toml

/-- A value. -/
inductive Value where
  | string (s : String)
  | integer (n : Int)
  /-- A float. No setting is one, so its value does not count. -/
  | float
  /-- A date, a time of day or both. No setting is one, either. -/
  | moment
  | boolean (b : Bool)
  | array (items : List Value)
  | table (entries : List (String × Value))
  /-- The tables under one double header, the last first. -/
  | tables (entries : List (List (String × Value)))

/-- The entries of a table. -/
abbrev Entries := List (String × Value)

/-- Whether a value is a list in brackets. -/
def Value.isArray : Value → Bool
  | .array _ => true
  | _ => false

/-- The value of a key. -/
def find? (es : Entries) (key : String) : Option Value :=
  (es.find? (·.1 == key)).map (·.2)

/-- Gives a key a value, which replaces one that is there. -/
def put (key : String) (v : Value) (es : Entries) : Entries :=
  if (find? es key).isSome then es.map fun e => if e.1 == key then (key, v) else e
  else es ++ [(key, v)]

/-- The table that a value stands for. -/
def Value.entries? : Value → Option Entries
  | .table es => some es
  | .tables (es :: _) => some es
  | _ => none

/-- A value that stands for a table, with other entries. -/
def Value.withEntries (es : Entries) : Value → Value
  | .tables (_ :: rest) => .tables (es :: rest)
  | _ => .table es

/-- The table at a path. -/
def at? : List String → Entries → Option Entries
  | [], es => some es
  | key :: path, es => do at? path (← (← find? es key).entries?)

/-- Changes the table at a path. -/
def within? (change : Entries → Option Entries) : List String → Entries → Option Entries
  | [], es => change es
  | key :: path, es => do
    let v ← find? es key
    return put key (v.withEntries (← within? change path (← v.entries?))) es

/-- Enters a value below the last of some keys, making the tables on the way that are not there yet. -/
def putAt? (v : Value) : List String → Entries → Option Entries
  | [], _ => none
  | [key], es => some (put key v es)
  | key :: path, es =>
    match find? es key with
    | none => do return put key (.table (← putAt? v path [])) es
    | some (.table t) => do return put key (.table (← putAt? v path t)) es
    | some _ => none

end TypeFlow.Toml
