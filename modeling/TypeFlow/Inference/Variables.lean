import TypeFlow.Inference.Engine
import TypeFlow.Inference.Edits

/-!
# Variables

Every variable has one graph node, to which all its uses are bound. An instance, class or global
variable that is read before it was ever written may be nil.
-/

namespace TypeFlow

namespace Infer

/-- The type whose instance variables a scope can use. -/
def ivarOwner (s : ScopeId) : Infer TypeId := do
  let self := (← scope s).self
  let t ← Flow.types
  if self = Builtin.program then
    undefined s "can't use instance variables at the top level"
  else
    match t.get? self with
    | some (.metaclass _) => undefined s "can't use instance variables inside class methods"
    | some (.object o) =>
      if o.isModule then undefined s ("can't use instance variables inside " ++ t.name self)
      else return self
    | _ => undefined s ("can't use instance variables inside " ++ t.name self)

end Infer

namespace Engine

variable (e : Engine)

/-- Lets a new variable be nil if it is read first. -/
def initVar (id : NodeId) (read : Bool) : Infer NodeId := do
  if read then e.connect id [Infer.nilNode]
  return id

/-- The node of an instance variable. Its type flows into the class. -/
def ivarNode (owner : TypeId) (name : String) (read : Bool) : Infer NodeId := do
  match assoc? (← Infer.env).ivars (owner, name) with
  | some id => return id
  | none =>
    let id ← Flow.newNode ((← Flow.types).name owner ++ " @" ++ name)
    Flow.changeGraph (·.writeBack id owner name)
    Flow.onTypes (Table.modifyObject owner (·.setIVar name 0))
    Infer.changeEnv fun env => { env with ivars := ((owner, name), id) :: env.ivars }
    e.initVar id read

/-- The node of a class variable of the class around a scope. -/
def classVarNode (s : ScopeId) (name : String) (read : Bool) : Infer NodeId := do
  let owner := (← Infer.scope s).home
  let t ← Flow.types
  if owner = Builtin.program || (t.object? owner).isNone then
    Infer.undefined s "can't use class variables at the top level"
  else
    match assoc? (← Infer.env).classVars (owner, name) with
    | some id => return id
    | none =>
      let id ← Flow.newNode (t.name owner ++ " @@" ++ name)
      Infer.changeEnv fun env => { env with classVars := ((owner, name), id) :: env.classVars }
      e.initVar id read

/-- The node of a global variable. -/
def globalNode (name : String) (read : Bool) : Infer NodeId := do
  match assoc? (← Infer.env).globals name with
  | some id => return id
  | none =>
    let id ← Flow.newNode ("$" ++ name)
    Infer.changeEnv fun env => { env with globals := (name, id) :: env.globals }
    e.initVar id read

/-- Types the use of a local variable. -/
def visitLocal (s : ScopeId) (n : Placed) (name : String) (out : Bool) : Infer Unit := do
  if out then
    Infer.dropViews s name
    let var ← Infer.declare s name
    e.bind n [var]
  else
    match (← Infer.env).lookupVar? s name with
    | some id => e.bind n [id]
    | none => Infer.undefined s ("undefined local variable or method '" ++ name ++ "'")

/-- Types the use of an instance variable. -/
def visitIVar (s : ScopeId) (n : Placed) (name : String) (out : Bool) : Infer Unit := do
  let owner ← Infer.ivarOwner s
  let id ← e.ivarNode owner name (!out)
  e.bind n [id]

/-- Types the use of a class variable. -/
def visitClassVar (s : ScopeId) (n : Placed) (name : String) : Infer Unit := do
  let id ← e.classVarNode s name true
  e.bind n [id]

/-- Types the use of a global variable. -/
def visitGlobal (n : Placed) (name : String) : Infer Unit := do
  let id ← e.globalNode name true
  e.bind n [id]

/-- Types a path: a constant has the type of its value, a library stands for itself, and a type is a
value of its metaclass. -/
def visitPath (s : ScopeId) (n : Placed) (names : List String) (typeArgs : List TypeExpr) :
    Infer Unit := do
  let id ← Infer.lookupPath s names typeArgs
  match (← Flow.types).get? id with
  | some (.const _ _ value) => e.bind n [value]
  | some (.lib _) => e.setType n id
  | _ => e.setType n (← Flow.onTypes (Table.metaclassOf id))

/-! ### Assignments -/

/-- The node that an assignment to a variable writes, once its value is typed. Whether the variable
can be used at all is checked before that for instance and class variables. -/
def assignTarget (s : ScopeId) (target : Placed) (value : Option Placed) : Infer (Option NodeId) := do
  match target.form with
  | .localVar name _ =>
    e.visitOption s value
    Infer.dropViews s name
    return some (← Infer.declare s name)
  | .instanceVar name _ =>
    let owner ← Flow.locating target.loc (Infer.ivarOwner s)
    e.visitOption s value
    return some (← e.ivarNode owner name false)
  | .classVar name =>
    let id ← Flow.locating target.loc (e.classVarNode s name false)
    e.visitOption s value
    return some id
  | .globalVar name =>
    e.visitOption s value
    return some (← e.globalNode name false)
  | _ => return none

/-- Declares a constant. Its value is typed in a scope of its own. -/
def declareConst (s : ScopeId) (n target : Placed) (names : List String) (value : Option Placed) :
    Infer Unit := do
  match names with
  | [name] =>
    let sc ← Infer.scope s
    let t ← Flow.types
    let qualified := t.qualify sc.home name
    if (t.lookup? qualified).isSome then
      Infer.undefined s ("already initialized constant " ++ qualified)
    else
      let inner ← Infer.newScope { self := sc.self, home := sc.home }
      e.visitOption inner value
      let id ← Infer.nodeOrNil value
      let _ ← Flow.onTypes (Table.defineConst sc.home name id)
      Infer.setAssigned target.mark.occ id
      e.bind n [id]
  | _ => throw (.malformed target.loc "can't declare a qualified constant")

/-- Types an assignment. -/
def visitAssign (s : ScopeId) (n target : Placed) (value : Option Placed) : Infer Unit := do
  match target.form with
  | .path names _ => e.declareConst s n target (names.getD []) value
  | _ =>
    match ← e.assignTarget s target value with
    | none => throw (.malformed n.loc ("can't assign to " ++ target.kind.name))
    | some id =>
      Infer.setAssigned target.mark.occ id
      let v ← Infer.nodeOrNil value
      Flow.locating target.loc (e.connect id [v])
      e.bind n [v]

end Engine

end TypeFlow
