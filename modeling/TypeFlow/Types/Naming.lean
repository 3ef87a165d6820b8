import TypeFlow.Types.Table

/-!
# Names of types

How a type is written in messages and listings, and how declarations inside a namespace are named.
The name of a type mentions its components, which `Table.name?` follows to a depth that no name with an
end exceeds.
-/

namespace TypeFlow

namespace Entry

/-- The types that the name of a type mentions. -/
def mentioned : Entry → List TypeId
  | .object o => o.typeArgs
  | .pointer p => [p]
  | .union ms => ms
  | .metaclass of => [of]
  | .hierarchy base => [base]
  | .struct s => [s.lib]
  | .const _ owner _ => if owner == 0 || owner == Builtin.program then [] else [owner]
  | _ => []

/-- The name of a type, made from the names of the types that it mentions. -/
def wording (names : List String) : Entry → String
  | .primitive p => p.name
  | .object o => if names.isEmpty then o.name else o.name ++ "(" ++ String.intercalate ", " names ++ ")"
  | .pointer _ => "Pointer(" ++ names.headD "" ++ ")"
  | .union _ => "(" ++ String.intercalate " | " names ++ ")"
  | .metaclass _ => names.headD "" ++ ".class"
  | .hierarchy _ => names.headD "" ++ "+"
  | .typeVar name => name
  | .struct s => names.headD "" ++ "::" ++ s.name
  | .const name _ _ => if names.isEmpty then name else names.headD "" ++ "::" ++ name
  | .lib name => name

end Entry

namespace Table

/-- The name of a type, if it is complete after `fuel` steps inwards; no type is a question mark. -/
def nameUpTo (t : Table) : Nat → TypeId → Option String
  | 0, _ => none
  | fuel + 1, id =>
    match t.get? id with
    | none => some "?"
    | some e => (e.mentioned.mapM (nameUpTo t fuel)).map fun names => e.wording names

/-- The name of a type. There is none if a type that it mentions mentions it in turn: such a name would go on for
ever (`Table.name?_eq_none_iff`). -/
def name? (t : Table) (id : TypeId) : Option String :=
  t.nameUpTo t.size id

/-- The name of a type where it is shown; names end in every program (`Table.WellFormed.isSome_name?`). -/
def name (t : Table) (id : TypeId) : String :=
  (t.name? id).getD "?"

/-- The names of several types. -/
def nameList (t : Table) (ids : List TypeId) : String :=
  String.intercalate ", " (ids.map t.name)

/-- The name of a declaration inside a namespace. -/
def qualify (t : Table) (owner : TypeId) (name : String) : String :=
  if owner == 0 || owner == Builtin.program then name else t.name owner ++ "::" ++ name

/-- The type a name stands for inside a namespace, or else globally. -/
def lookupIn? (t : Table) (owner : TypeId) (name : String) : Option TypeId :=
  if owner != 0 && owner != Builtin.program then
    (t.lookup? (t.qualify owner name)).or (t.lookup? name)
  else t.lookup? name

/-- Declares a foreign structure or union. -/
def defineStruct (lib : TypeId) (name : String) (isUnion : Bool)
    (members : List (String × TypeId)) : TableM TypeId := do
  let id ← push (.struct { name, lib, isUnion, members })
  register ((← get).qualify lib name) id
  return id

/-- Declares a constant. -/
def defineConst (owner : TypeId) (name : String) (value : Nat) : TableM TypeId := do
  let id ← push (.const name owner value)
  register ((← get).qualify owner name) id
  return id

/-- The instance of a generic class for given arguments; a pointer for `Pointer`. Fails with a
message if the type is not generic or takes another number of arguments. -/
def instantiate (template : TypeId) (args : List TypeId) : TableM (Except String TypeId) := do
  let t ← get
  match (t.object? template).filter ObjectEntry.isTemplate with
  | none => return .error (t.name template ++ " is not a generic type")
  | some o =>
    if args.length ≠ o.typeParams.length then
      return .error ("wrong number of type vars for " ++ o.name ++ " (" ++ toString args.length ++
        " for " ++ toString o.typeParams.length ++ ")")
    else if template == Builtin.pointer then
      return .ok (← pointerOf (args.headD 0))
    else
      match t.instance? template args with
      | some id => return .ok id
      | none =>
        let id ← push (.object {
          name := o.name, superclass := o.superclass, generic := template,
          madeFor := args, typeArgs := args })
        return .ok id

/-- A list of types as a key: their numbers after a zero, separated by commas. -/
def key (ids : List TypeId) : String :=
  String.intercalate "," ("0" :: ids.map toString)

end Table

end TypeFlow
