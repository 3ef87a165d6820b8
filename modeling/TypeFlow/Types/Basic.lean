/-!
# Types

A type is addressed by its number in a table, counted from one in the order of creation; zero stands
for no type. An `Entry` says what a type is. Apart from the subclasses, includes, instance variables
and type arguments of an object and the members of a foreign structure, an entry never changes.
-/

namespace TypeFlow

/-- The number of a type; zero is no type. -/
abbrev TypeId := Nat

/-- What sort of type an entry is. -/
inductive TypeKind where
  | primitive | object | pointer | union | metaclass | hierarchy | typeVar | struct | const | lib
  deriving DecidableEq, Repr

namespace TypeKind

/-- All sorts in the order of their numbers. -/
def all : List TypeKind :=
  [primitive, object, pointer, union, metaclass, hierarchy, typeVar, struct, const, lib]

/-- The name of a sort. -/
def name : TypeKind → String
  | primitive => "primitive"
  | object => "object"
  | pointer => "pointer"
  | union => "union"
  | metaclass => "metaclass"
  | hierarchy => "hierarchy"
  | typeVar => "typevar"
  | struct => "struct"
  | const => "const"
  | lib => "lib"

/-- The name of the sort with a given number, counted from one, also for numbers that none has. -/
def nameOfNumber (n : Nat) : String :=
  match n with
  | 0 => "Kind(0)"
  | k + 1 =>
    match all[k]? with
    | some s => s.name
    | none => "Kind(" ++ toString n ++ ")"

end TypeKind

/-- The arithmetic properties of a numeric primitive. -/
structure Numeric where
  float : Bool
  signed : Bool
  deriving DecidableEq, Repr

/-- A value type of fixed size. -/
structure PrimitiveEntry where
  name : String
  size : Int
  /-- The class it inherits methods from. -/
  parent : TypeId
  numeric : Option Numeric
  deriving DecidableEq, Repr

/-- A class or module, or an instance of a generic class. -/
structure ObjectEntry where
  name : String
  superclass : TypeId := 0
  /-- The classes declared below this one, in order. -/
  subclasses : List TypeId := []
  includes : List TypeId := []
  isModule : Bool := false
  typeParams : List String := []
  /-- The class this is an instance of; zero if it is none. -/
  generic : TypeId := 0
  /-- The arguments that the instance was made for. They tell it from the other instances. -/
  madeFor : List TypeId := []
  /-- The current type arguments. -/
  typeArgs : List TypeId := []
  /-- Instance variables with their types, in order of declaration. -/
  ivars : List (String × TypeId) := []
  deriving DecidableEq, Repr

/-- A foreign structure or union. -/
structure StructEntry where
  name : String
  lib : TypeId
  isUnion : Bool
  members : List (String × TypeId)
  deriving DecidableEq, Repr

/-- What a type is. -/
inductive Entry where
  | primitive (p : PrimitiveEntry)
  | object (o : ObjectEntry)
  | pointer (pointee : TypeId)
  /-- Two or more members in increasing order. -/
  | union (members : List TypeId)
  /-- The type of a class as a value. -/
  | metaclass (of : TypeId)
  /-- A class or any class below it. -/
  | hierarchy (base : TypeId)
  | typeVar (name : String)
  | struct (s : StructEntry)
  /-- A named constant; `value` is the graph node of its value. -/
  | const (name : String) (owner : TypeId) (value : Nat)
  /-- A foreign library. -/
  | lib (name : String)
  deriving DecidableEq, Repr

/-- The sort of an entry. -/
def Entry.kind : Entry → TypeKind
  | .primitive _ => .primitive
  | .object _ => .object
  | .pointer _ => .pointer
  | .union _ => .union
  | .metaclass _ => .metaclass
  | .hierarchy _ => .hierarchy
  | .typeVar _ => .typeVar
  | .struct _ => .struct
  | .const .. => .const
  | .lib _ => .lib

namespace ObjectEntry

/-- A generic class that is not an instance. -/
def isTemplate (o : ObjectEntry) : Bool :=
  !o.typeParams.isEmpty && o.generic == 0

/-- The type of an instance variable. -/
def ivar? (o : ObjectEntry) (name : String) : Option TypeId :=
  (o.ivars.find? fun (n, _) => n == name).map Prod.snd

/-- Sets the type of an instance variable, declaring it if need be. -/
def setIVar (o : ObjectEntry) (name : String) (t : TypeId) : ObjectEntry :=
  { o with ivars := set o.ivars }
where
  set : List (String × TypeId) → List (String × TypeId)
    | [] => [(name, t)]
    | (n, u) :: rest => if n == name then (n, t) :: rest else (n, u) :: set rest

end ObjectEntry

/-- The type of a member of a foreign structure. -/
def StructEntry.member? (s : StructEntry) (name : String) : Option TypeId :=
  (s.members.find? fun (n, _) => n == name).map Prod.snd

end TypeFlow
