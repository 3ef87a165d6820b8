import TypeFlow.Inference.Env

/-!
# Methods and where they are found

A method with default arguments is filed under every number of arguments it accepts: from the first
parameter with a default on. Methods are looked for in a type and then in what it inherits from; a
class method in the metaclasses of these.
-/

namespace TypeFlow

/-- What overload resolution knows of a method. -/
def Method.signature (m : Method) : Signature :=
  { owner := m.owner, params := m.definition.params.map fun p => (p.name, p.restriction) }

/-- A definition without body whose result type is declared. -/
def Definition.primitive (name : String) (result : Option TypeExpr)
    (params : List (String × TypeExpr)) : Definition :=
  { name, result, body := some (.node none (.primitive name)),
    params := params.map fun (n, t) =>
      { name := n, restriction := some t, fallback := none, out := false } }

/-- The least number of arguments that a method accepts: that of the parameters before the first one
with a default. -/
def Definition.required (d : Definition) : Nat :=
  (d.params.findIdx? (·.fallback.isSome)).getD d.params.length

/-- The numbers of arguments that a method accepts. -/
def Definition.arities (d : Definition) : List Nat :=
  (List.range (d.params.length + 1)).filter (d.required ≤ ·)

/-- The types whose methods apply to a type, the nearest first. -/
def lookupChain (owner : TypeId) : TableM (List TypeId) := do
  let t ← get
  match t.get? owner with
  | some (.metaclass of) => (t.ancestors of).mapM Table.metaclassOf
  | _ => return t.ancestors owner

/-- How messages refer to a method of a type. -/
def qualifiedName (t : Table) (owner : TypeId) (name : String) : String :=
  if owner = Builtin.program ∨ owner = 0 then name
  else
    match t.get? owner with
    | some (.lib _) => t.name owner ++ "." ++ name
    | some (.metaclass of) => t.name of ++ "." ++ name
    | _ => t.name owner ++ "#" ++ name

/-- How messages refer to a call with given argument types. -/
def describeCall (t : Table) (owner : TypeId) (name : String) (args : List TypeId) : String :=
  qualifiedName t owner name ++ "(" ++ t.nameList args ++ ")"

namespace Env

/-- The overload group with a key on a type. -/
def group? (e : Env) (owner : TypeId) (key : GroupKey) : Option Group :=
  e.groups.find? fun g => g.owner == owner && g.key == key

/-- The overload group with a key that applies to a type. -/
def findGroup? (e : Env) (owner : TypeId) (key : GroupKey) : TableM (Option Group) :=
  return (← lookupChain owner).findSome? (e.group? · key)

/-- The overload group with a key that applies to a type beyond the type that declared the calling
method. -/
def findSuperGroup? (e : Env) (owner declaring : TypeId) (key : GroupKey) :
    TableM (Option Group) := do
  match (← lookupChain owner).dropWhile (· ≠ declaring) with
  | [] => return none
  | _ :: beyond => return beyond.findSome? (e.group? · key)

/-- The overload groups of a name on a type, in the order of declaration. -/
def groupsOn (e : Env) (owner : TypeId) (name : String) : List Group :=
  (e.groups.filter fun g => g.owner == owner && g.key.name == name).toList

/-- All overload groups of a name that apply to a type. -/
def groupsNamed (e : Env) (owner : TypeId) (name : String) : TableM (List Group) :=
  return (← lookupChain owner).flatMap (e.groupsOn · name)

/-- Whether a type has a method of a name. -/
def respondsTo (e : Env) (owner : TypeId) (name : String) : TableM Bool :=
  return !(← e.groupsNamed owner name).isEmpty

end Env

namespace Infer

/-- A method. -/
def method (id : MethodId) : Infer Method :=
  return ((← env).methods[id]?).getD
    { definition := { name := "" }, kind := .primitive, owner := 0 }

/-- Changes a method. -/
def changeMethod (id : MethodId) (f : Method → Method) : Infer Unit :=
  changeEnv fun e => { e with methods := e.methods.modify id f }

/-- Adds a method without filing it. -/
def newMethod (m : Method) : Infer MethodId := do
  let id := (← env).methods.size
  changeEnv fun e => { e with methods := e.methods.push m }
  return id

/-- Files a method in the overload group with a key, which is opened if need be. -/
def fileUnder (id : MethodId) (m : Method) (key : GroupKey) : Infer Unit := do
  let candidate : Candidate MethodId := ⟨id, m.signature⟩
  let e ← env
  match e.groups.findIdx? fun g => g.owner == m.owner && g.key == key with
  | none =>
    changeEnv fun e =>
      { e with groups := e.groups.push { key, owner := m.owner, candidates := [candidate] } }
  | some i =>
    let candidates := ((e.groups[i]?).map Group.candidates).getD []
    let candidates ← Flow.onTypes (Overload.insert Table.resolveType? candidates candidate)
    changeEnv fun e => { e with groups := e.groups.modify i fun g => { g with candidates } }

/-- Files a method under every number of arguments it accepts. -/
def register (m : Method) : Infer MethodId := do
  let id ← newMethod m
  let d := m.definition
  for arity in d.arities do
    fileUnder id m { name := d.name, arity, yields := d.yields }
  return id

/-- The kind of a declared method: primitive if its body is. -/
def kindOf (d : Definition) : MethodKind :=
  match d.body.map Tree.form with
  | some (.primitive _) => .primitive
  | _ => .user

/-- Declares a method on a type. -/
def addMethod (owner : TypeId) (d : Definition) : Infer Unit := do
  let _ ← register { definition := d, kind := kindOf d, owner }

/-- Declares a constructor that is made from `initialize`. -/
def addConstructor (owner : TypeId) (d : Definition) : Infer Unit := do
  let _ ← register { definition := d, kind := .user, owner, synthetic := true }

/-- The overload group with a key that applies to a type. -/
def findGroup? (owner : TypeId) (key : GroupKey) : Infer (Option Group) := do
  let e ← env
  Flow.onTypes (e.findGroup? owner key)

/-- All overload groups of a name that apply to a type. -/
def groupsNamed (owner : TypeId) (name : String) : Infer (List Group) := do
  let e ← env
  Flow.onTypes (e.groupsNamed owner name)

/-- An instance. -/
def instanceOf (id : InstanceId) : Infer Instance :=
  return ((← env).instances[id]?).getD
    { method := 0, owner := 0, args := [], free := [], result := 0, signature := "" }

/-- Changes an instance. -/
def changeInstance (id : InstanceId) (f : Instance → Instance) : Infer Unit :=
  changeEnv fun e => { e with instances := e.instances.modify id f }

/-- Adds an instance of a method. -/
def newInstance (m : MethodId) (owner : TypeId) (args : List TypeId) (free : Bindings) :
    Infer InstanceId := do
  let signature := describeCall (← Flow.types) owner (← method m).definition.name args
  let id := (← env).instances.size
  let result ← Flow.newNode signature
  changeEnv fun e =>
    { e with instances := e.instances.push { method := m, owner, args, free, result, signature } }
  return id

end Infer

end TypeFlow
