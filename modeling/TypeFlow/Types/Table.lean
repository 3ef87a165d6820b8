import TypeFlow.Types.Basic

/-!
# The type table

A table holds every type of a program and the names by which types are known. Derived types
(pointers, unions, metaclasses, hierarchies, type variables and generic instances) are interned: to
make one that exists already gives the existing one.

`Table.initial` holds the built-in class tree, whose numbers are the constants of `Builtin`.
-/

namespace TypeFlow

/-- All types of a program and their names. -/
structure Table where
  /-- The entry of type `n` is at index `n - 1`. -/
  entries : Array Entry := #[]
  /-- The names of types, the latest first. -/
  names : List (String × TypeId) := []

/-- A computation that may add types. -/
abbrev TableM := StateM Table

namespace Builtin

/-- The root of the class tree. -/
def object : TypeId := 1
/-- The values. -/
def value : TypeId := 2
/-- The numbers. -/
def numeric : TypeId := 3
/-- The type of nil. -/
def nil : TypeId := 4
/-- The truth values. -/
def bool : TypeId := 5
/-- The characters. -/
def char : TypeId := 6
/-- The symbols. -/
def symbol : TypeId := 7
/-- The result of a foreign function that has none. -/
def void : TypeId := 8
/-- The type of an expression that never yields a value. -/
def noReturn : TypeId := 9
/-- The texts. -/
def string : TypeId := 10
/-- The arrays of any element type. -/
def array : TypeId := 11
/-- The pointers to any type. -/
def pointer : TypeId := 12
/-- The module of top-level code. -/
def program : TypeId := 13

end Builtin

namespace Table

/-! ### Access -/

/-- One more than the number of types. -/
def size (t : Table) : Nat :=
  t.entries.size + 1

/-- The entry of a type. -/
def get? (t : Table) : TypeId → Option Entry
  | 0 => none
  | n + 1 => t.entries[n]?

/-- The sort of a type. -/
def kind? (t : Table) (id : TypeId) : Option TypeKind :=
  (t.get? id).map Entry.kind

/-- The object entry of a type. -/
def object? (t : Table) (id : TypeId) : Option ObjectEntry :=
  match t.get? id with
  | some (.object o) => some o
  | _ => none

/-- The type that a name stands for. -/
def lookup? (t : Table) (name : String) : Option TypeId :=
  (t.names.find? fun (n, _) => n == name).map Prod.snd

/-! ### Change -/

/-- Lets a name stand for a type. -/
def register (name : String) (id : TypeId) : TableM Unit :=
  modify fun t => { t with names := (name, id) :: t.names }

/-- Adds an entry. -/
def push (e : Entry) : TableM TypeId :=
  modifyGet fun t => (t.entries.size + 1, { t with entries := t.entries.push e })

/-- Changes the object entry of a type; other types stay as they are. -/
def modifyObject (id : TypeId) (f : ObjectEntry → ObjectEntry) : TableM Unit :=
  modify fun t =>
    match id with
    | 0 => t
    | n + 1 =>
      { t with
        entries := t.entries.modify n fun
          | .object o => .object (f o)
          | e => e }

/-- Adds a member to a foreign structure. -/
def addMember (id : TypeId) (name : String) (type : TypeId) : TableM Unit :=
  modify fun t =>
    match id with
    | 0 => t
    | n + 1 =>
      { t with
        entries := t.entries.modify n fun
          | .struct s => .struct { s with members := s.members ++ [(name, type)] }
          | e => e }

/-- The first type with a given entry. -/
def find? (t : Table) (e : Entry) : Option TypeId :=
  (t.entries.findIdx? (· == e)).map (· + 1)

/-- The type with a given entry, added if there is none. -/
def intern (e : Entry) : TableM TypeId := do
  match (← get).find? e with
  | some id => return id
  | none => push e

/-! ### Declarations -/

/-- Declares a primitive. -/
def definePrimitive (name : String) (size : Int) (parent : TypeId) (numeric : Option Numeric) :
    TableM TypeId := do
  let id ← push (.primitive { name, size, parent, numeric })
  register name id
  return id

/-- Declares a class below another one. -/
def defineClass (name : String) (superclass : TypeId) (typeParams : List String) :
    TableM TypeId := do
  let id ← push (.object { name, superclass, typeParams })
  register name id
  modifyObject superclass fun o => { o with subclasses := o.subclasses ++ [id] }
  return id

/-- Declares a module. -/
def defineModule (name : String) : TableM TypeId := do
  let id ← push (.object { name, isModule := true })
  register name id
  return id

/-- Adds an object that no name stands for. -/
def newObject (name : String) (superclass : TypeId) : TableM TypeId :=
  push (.object { name, superclass })

/-- Lets a class or module include a module. -/
def «include» (id module : TypeId) : TableM Unit :=
  modifyObject id fun o =>
    if o.includes.contains module then o else { o with includes := o.includes ++ [module] }

/-- Declares a foreign library. -/
def defineLib (name : String) : TableM TypeId := do
  let id ← push (.lib name)
  register name id
  return id

/-! ### Derived types -/

/-- The pointers to a type. -/
def pointerOf (pointee : TypeId) : TableM TypeId :=
  intern (.pointer pointee)

/-- The metaclass of a type. -/
def metaclassOf (of : TypeId) : TableM TypeId :=
  intern (.metaclass of)

/-- A class with all classes below it. -/
def hierarchyOf (base : TypeId) : TableM TypeId :=
  intern (.hierarchy base)

/-- A free type variable. -/
def typeVarOf (name : String) : TableM TypeId :=
  intern (.typeVar name)

/-- The instance of a generic class made for given arguments. -/
def instance? (t : Table) (template : TypeId) (args : List TypeId) : Option TypeId :=
  (t.entries.findIdx? fun
    | .object o => o.generic == template && o.generic != 0 && o.madeFor == args
    | _ => false).map (· + 1)

/-! ### Structure -/

/-- The type a value inherits methods from; zero if there is none. -/
def parent (t : Table) (id : TypeId) : TypeId :=
  match t.get? id with
  | some (.primitive p) => p.parent
  | some (.object o) => if o.generic != 0 then o.generic else o.superclass
  | some (.pointer _) => Builtin.pointer
  | some (.struct _) => Builtin.value
  | _ => 0

/-- The superclass of a class; zero for anything else. -/
def superclass (t : Table) (id : TypeId) : TypeId :=
  match t.object? id with
  | some o => o.superclass
  | none => 0

/-- The members of a union, or the type itself. -/
def members (t : Table) (id : TypeId) : List TypeId :=
  match t.get? id with
  | some (.union ms) => ms
  | _ => if id == 0 then [] else [id]

/-! ### The built-in types -/

/-- Declares the built-in class tree. -/
def declareBuiltins : TableM Unit := do
  let object ← defineClass "Object" 0 []
  let value ← defineClass "Value" object []
  let _ ← defineClass "Numeric" value []
  let _ ← definePrimitive "Nil" 0 value none
  let _ ← definePrimitive "Bool" 1 value none
  let _ ← definePrimitive "Char" 1 value none
  let _ ← definePrimitive "Symbol" 4 value none
  let _ ← definePrimitive "Void" 0 value none
  let _ ← definePrimitive "NoReturn" 0 value none
  let _ ← defineClass "String" object []
  let _ ← defineClass "Array" object ["T"]
  let _ ← defineClass "Pointer" value ["T"]
  let _ ← defineModule "<Program>"

/-- The table of built-in types. -/
def initial : Table :=
  (declareBuiltins.run {}).2

end Table

end TypeFlow
