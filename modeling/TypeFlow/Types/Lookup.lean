import TypeFlow.Types.Naming

/-!
# Names as seen from a type

Inside a type its type parameters are known by name, then the declarations of its namespace, then the
global ones. A metaclass sees what its class sees.
-/

namespace TypeFlow

/-- Finds the type that a path of names stands for, as seen from an owner. -/
abbrev Resolver := Table → TypeId → List String → Option TypeId

namespace Table

/-- The argument for a named type parameter of a generic instance. -/
def typeArg? (t : Table) (id : TypeId) (param : String) : Option TypeId :=
  match t.object? id with
  | some o =>
    match t.object? o.generic with
    | some template => ((template.typeParams.zip o.typeArgs).find? fun (p, _) => p == param).map Prod.snd
    | none => none
  | none => none

/-- The argument for a named type parameter of a class or one of its superclasses, climbing at most
`fuel` steps. -/
def inheritedArgUpTo (t : Table) (param : String) : Nat → TypeId → Option TypeId
  | 0, _ => none
  | fuel + 1, id =>
    match t.typeArg? id param with
    | some a => some a
    | none => if t.superclass id = 0 then none else inheritedArgUpTo t param fuel (t.superclass id)

/-- The type that a type parameter stands for inside a type. -/
def boundParam? (t : Table) (owner : TypeId) (param : String) : Option TypeId :=
  match t.get? owner with
  | some (.pointer pointee) =>
    match t.object? Builtin.pointer with
    | some o => if o.typeParams.contains param then some pointee else none
    | none => none
  | _ => t.inheritedArgUpTo param t.size owner

/-- The class behind a metaclass, or the type itself. -/
def selfType (t : Table) (id : TypeId) : TypeId :=
  match t.get? id with
  | some (.metaclass of) => of
  | _ => id

/-- What a path of names stands for inside a type: a type, a constant or a library. -/
def resolveName? (t : Table) (owner : TypeId) (names : List String) : Option TypeId :=
  let owner := t.selfType owner
  let bound :=
    match names with
    | [name] => t.boundParam? owner name
    | _ => none
  bound.or (t.lookupIn? owner (String.intercalate "::" names))

/-- The type that a path of names stands for inside a type. -/
def resolveType? : Resolver := fun t owner names =>
  match t.resolveName? owner names with
  | some id =>
    match t.kind? id with
    | some .const | some .lib => none
    | _ => some id
  | none => none

end Table

end TypeFlow
