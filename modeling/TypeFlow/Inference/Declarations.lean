import TypeFlow.Inference.Foreign

/-!
# Declarations

Methods, classes, modules, macros, and what a foreign library declares. A declaration has the value
nil. Declaring a class or module that exists already reopens it.
-/

namespace TypeFlow

namespace Infer

/-- The parameters of a declaration without their places. -/
def sourceParams (params : Option (List (Param Placed))) : List (Param Source) :=
  (params.getD []).map fun p =>
    { name := p.name, restriction := p.restriction, fallback := p.fallback.map Placed.source,
      out := p.out }

/-- The type that a method with a written receiver is declared on. -/
def methodOwner (s : ScopeId) (receiver : String) : Infer TypeId := do
  let home := (← scope s).home
  if receiver == "" then return home
  else if receiver == "self" then Flow.onTypes (Table.metaclassOf home)
  else
    match Table.resolveType? (← Flow.types) home (receiver.splitOn "::") with
    | none => undefined s ("uninitialized constant " ++ receiver)
    | some t => Flow.onTypes (Table.metaclassOf t)

/-- Whether a type is a library. -/
def isLib (t : Table) (id : TypeId) : Bool :=
  match t.get? id with
  | some (.lib _) => true
  | _ => false

/-- The class that a declaration names as superclass; zero if it names none. -/
def superclassOf (s : ScopeId) : Option (PathRef Mark) → Infer TypeId
  | none => return 0
  | some p => do
    let id ← Flow.locating p.mark.loc (lookupPath s (p.names.getD []) (p.typeArgs.getD []))
    let t ← Flow.types
    match t.object? id with
    | some o =>
      if o.isModule then throw (.mismatch p.mark.loc (t.name id ++ " is not a class"))
      else return id
    | none => throw (.mismatch p.mark.loc (t.name id ++ " is not a class"))

/-- Checks that a class that is reopened has the superclass named, if any is. -/
def checkSuperclass (t : Table) (name : String) (super actual : TypeId) : Infer Unit := do
  if super ≠ 0 && super ≠ actual then
    throw (.mismatch none ("superclass mismatch for class " ++ name ++ " (" ++ t.name super ++
      " for " ++ t.name actual ++ ")"))

/-- Checks that a declared name can be reopened as a class. -/
def checkReopened (name : String) (super id : TypeId) : Infer Unit := do
  let t ← Flow.types
  match t.get? id with
  | some (.primitive p) => checkSuperclass t name super p.parent
  | some (.object o) =>
    if o.isModule then throw (.mismatch none (name ++ " is not a class"))
    else checkSuperclass t name super o.superclass
  | _ => throw (.mismatch none (name ++ " is not a class"))

/-- The class that a declaration declares or reopens. -/
def declareClass (s : ScopeId) (name : String) (super : TypeId) (typeParams : List String) :
    Infer TypeId := do
  let t ← Flow.types
  let qualified := t.qualify (← scope s).home name
  match t.lookup? qualified with
  | some id =>
    checkReopened name super id
    return id
  | none =>
    let super := if super = 0 then Builtin.object else super
    Flow.onTypes (Table.defineClass qualified super typeParams)

/-- Whether a type is a module. -/
def isModule (t : Table) (id : TypeId) : Bool :=
  match t.object? id with
  | some o => o.isModule
  | none => false

/-- The module that a declaration declares or reopens. -/
def declareModule (s : ScopeId) (name : String) : Infer TypeId := do
  let t ← Flow.types
  let qualified := t.qualify (← scope s).home name
  match t.lookup? qualified with
  | some id =>
    if isModule t id then return id else throw (.mismatch none (name ++ " is not a module"))
  | none => Flow.onTypes (Table.defineModule qualified)

/-- The library around a declaration that only makes sense inside one. -/
def currentLib (s : ScopeId) (what : String) (loc : Option Location) : Infer TypeId := do
  let home := (← scope s).home
  if isLib (← Flow.types) home then return home
  else throw (.malformed loc (what ++ " outside of a lib"))

/-- The library that a declaration declares or reopens. -/
def declareLib (name : String) : Infer TypeId := do
  let t ← Flow.types
  match t.lookup? name with
  | none => Flow.onTypes (Table.defineLib name)
  | some id => if isLib t id then return id else throw (.mismatch none (name ++ " is not a lib"))

/-- Checks the parameters of a foreign function. -/
def checkFunParams (lib : TypeId) (name : String) (loc : Option Location) :
    List (Param Source) → Infer Unit
  | [] => return
  | p :: rest => do
    match p.restriction with
    | none =>
      throw (.malformed loc ("parameter '" ++ p.name ++ "' of fun '" ++ name ++ "' needs a type"))
    | some t =>
      let _ ← resolveIn lib t
      checkFunParams lib name loc rest

/-- Adds members to a foreign structure. -/
def addMembers (lib id : TypeId) (name : String) (loc : Option Location) :
    List (Param Source) → Infer Unit
  | [] => return
  | p :: rest => do
    match p.restriction with
    | none => throw (.malformed loc ("field '" ++ p.name ++ "' of " ++ name ++ " needs a type"))
    | some t =>
      let type ← resolveIn lib t
      Flow.onTypes (Table.addMember id p.name type)
      addMembers lib id name loc rest

/-- Declares the accessors of the members of a foreign structure. -/
def addAccessors (id : TypeId) (loc : Option Location) : List (String × TypeId) → Infer Unit
  | [] => return
  | (name, type) :: rest => do
    let _ ← register { definition := { loc, name }, kind := .getter type, owner := id }
    let value : Param Source := { name := "value", restriction := none, fallback := none, out := false }
    let _ ← register
      { definition := { loc, name := name ++ "=", params := [value] }, kind := .setter type, owner := id }
    addAccessors id loc rest

/-- The members of a foreign structure. -/
def membersOf (t : Table) (id : TypeId) : List (String × TypeId) :=
  match t.get? id with
  | some (.struct s) => s.members
  | _ => []

end Infer

namespace Engine

variable (e : Engine)

/-- Types the declaration of a method. -/
def visitMethodDef (s : ScopeId) (n : Placed) (receiver : String) (d : Definition) : Infer Unit := do
  let owner ← Infer.methodOwner s receiver
  if Infer.isLib (← Flow.types) owner then
    throw (.malformed n.loc "can't define a method inside a lib")
  else
    Infer.addMethod owner d
    e.setType n Builtin.nil

/-- Types the body of a class or module. -/
def visitBody (home : TypeId) (body : Option Placed) : Infer Unit := do
  let self ← Flow.onTypes (Table.metaclassOf home)
  let s ← Infer.newScope { self, home }
  e.visitOption s body

/-- Types the declaration of a class. -/
def visitClassDef (s : ScopeId) (n : Placed) (name : String) (superclass : Option (PathRef Mark))
    (typeParams : List String) (body : Option Placed) : Infer Unit := do
  let super ← Infer.superclassOf s superclass
  let id ← Infer.declareClass s name super typeParams
  e.visitBody id body
  e.setType n Builtin.nil

/-- Types the declaration of a module. -/
def visitModuleDef (s : ScopeId) (n : Placed) (name : String) (body : Option Placed) :
    Infer Unit := do
  let id ← Infer.declareModule s name
  e.visitBody id body
  e.setType n Builtin.nil

/-- Types the inclusion of a module. -/
def visitInclude (s : ScopeId) (n : Placed) (names : List String) (typeArgs : List TypeExpr) :
    Infer Unit := do
  let home := (← Infer.scope s).home
  if home = Builtin.program || ((← Flow.types).object? home).isNone then
    throw (.malformed n.loc "can only include modules in a class or module")
  else
    let id ← Infer.lookupPath s names typeArgs
    let t ← Flow.types
    if Infer.isModule t id then
      Flow.onTypes (Table.include home id)
      e.setType n Builtin.nil
    else throw (.mismatch none (t.name id ++ " is not a module"))

/-- Types the declaration of a macro. -/
def visitMacroDef (n : Placed) (name : String) (params : Option (List String))
    (body : Option Placed) : Infer Unit := do
  if (params.getD []).contains "" then
    throw (.malformed n.loc "macro parameter without a name")
  else
    Infer.changeEnv fun env =>
      { env with macros := (name, ⟨params, body.map Placed.source⟩) :: env.macros }
    e.setType n Builtin.nil

/-! ### Foreign libraries -/

/-- Types the declaration of a library. -/
def visitLibDef (s : ScopeId) (n : Placed) (name : String) (body : List Placed) : Infer Unit := do
  let home := (← Infer.scope s).home
  if home ≠ Builtin.program then
    throw (.malformed n.loc ("can't declare a lib inside " ++ (← Flow.types).name home))
  else
    let lib ← Infer.declareLib name
    let inner ← Infer.newScope { self := lib, home := lib }
    e.visitAll inner body
    e.setType n Builtin.nil

/-- Types the declaration of a foreign function. -/
def visitFunDef (s : ScopeId) (n : Placed) (name : String) (params : List (Param Source))
    (result : Option TypeExpr) (varargs : Bool) : Infer Unit := do
  let lib ← Infer.currentLib s "fun" n.loc
  Infer.checkFunParams lib name n.loc params
  if let some t := result then
    let _ ← Infer.resolveIn lib t
  let id ← Infer.newMethod
    { definition := { loc := n.loc, name, params, result }, kind := .external varargs, owner := lib }
  Infer.changeEnv fun env => { env with funs := ((lib, name), id) :: env.funs }
  e.setType n Builtin.nil

/-- Types the declaration of a foreign structure. It is declared before its members, so that these can
point at it. -/
def visitStructDef (s : ScopeId) (n : Placed) (name : String) (isUnion : Bool)
    (members : List (Param Source)) : Infer Unit := do
  let lib ← Infer.currentLib s "struct" n.loc
  let t ← Flow.types
  let qualified := t.name lib ++ "::" ++ name
  if (t.lookup? qualified).isSome then
    throw (.mismatch none (qualified ++ " is already defined"))
  else
    let id ← Flow.onTypes (Table.defineStruct lib name isUnion [])
    Infer.addMembers lib id name n.loc members
    let self ← Flow.onTypes (Table.metaclassOf id)
    Infer.addMethod self
      { loc := n.loc, name := "new", result := some .self,
        body := some (.node n.loc (.primitive "new")) }
    Infer.addAccessors id n.loc (Infer.membersOf (← Flow.types) id)
    e.setType n Builtin.nil

/-- Types the declaration of another name for a type inside a library. -/
def visitTypeDef (s : ScopeId) (n : Placed) (name : String) (type : Option TypeExpr) :
    Infer Unit := do
  let lib ← Infer.currentLib s "type" n.loc
  match type with
  | none => throw (.malformed n.loc "type without a definition")
  | some type =>
    let t ← Infer.resolveIn lib type
    Flow.onTypes (Table.register ((← Flow.types).name lib ++ "::" ++ name) t)
    e.setType n Builtin.nil

end Engine

end TypeFlow
