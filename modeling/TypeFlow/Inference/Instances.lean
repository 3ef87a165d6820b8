import TypeFlow.Inference.Engine
import TypeFlow.Inference.Edits

/-!
# Instances of methods

A method is typed anew for every receiver type and tuple of argument types. A call without block
reuses the instance made for the same types. That instance is recorded before its body is typed, so a
recursive call finds it under construction. A call with a block always gets an instance of its own;
nesting of these is bounded.
-/

namespace TypeFlow

/-- How many bodies may be typed inside each other. -/
def maxDepth : Nat :=
  512

namespace Infer

/-- The declared result type of a method as seen from an instance. -/
def resolveDeclared (inst : Instance) (t : TypeExpr) : Infer TypeId := do
  match boundIn inst.free t with
  | some bound => return bound
  | none =>
    match ← Flow.onTypes (Overload.resolve Table.resolveType? inst.owner t) with
    | some id => return id
    | none => throw (.undefined none ("uninitialized constant " ++ TypeExpr.render t) "")

/-- The assignment of its default to a parameter; none if it has no default. -/
def defaultFor? (p : Param Source) : Option Source :=
  p.fallback.map fun value =>
    .node value.mark (.assign (some (.node none (.localVar p.name false))) (some value))

/-- The body of a definition, nil if it has none, behind the assignments of the arguments that a call
with `given` arguments leaves to their defaults; none if one of these is absent. -/
def bodyFor? (d : Definition) (given : Nat) : Option Source :=
  let body := d.body.getD (.node d.loc .nilLiteral)
  if given < d.params.length then
    ((d.params.drop given).mapM defaultFor?).map fun defaults =>
      .node d.loc (.expressions (some (defaults ++ [body])))
  else some body

/-- Gives an instance a body. -/
def write (id : InstanceId) (source : Source) : Infer Placed := do
  let body ← place source
  changeInstance id fun i => { i with body := some body }
  return body

/-- Gives an instance the body of its definition. A default that is absent is used all the same, and typing
ends there. -/
def writeBody (id : InstanceId) (d : Definition) (given : Nat) : Infer Placed :=
  match bodyFor? d given with
  | none => throw (Failure.absent.locate d.loc)
  | some source => write id source

end Infer

namespace Engine

variable (e : Engine)

/-- Types an instance of a primitive method. -/
def typePrimitive (id : InstanceId) : Infer Unit := do
  let inst ← Infer.instanceOf id
  let d := (← Infer.method inst.method).definition
  let result ←
    match d.result with
    | none => pure Builtin.nil
    | some t => Flow.locating d.loc (Infer.resolveDeclared inst t)
  let body ← Infer.write id (d.body.getD (.node d.loc .nilLiteral))
  e.setType body result
  Flow.freeze inst.result result

/-- Types an instance of a member access. -/
def typeMember (id : InstanceId) (type : TypeId) (writes : Bool) : Infer Unit := do
  let inst ← Infer.instanceOf id
  let t ← Flow.types
  let value := inst.args.headD 0
  if writes && !t.implements value type then
    let name := (← Infer.method inst.method).definition.name
    throw (.mismatch none ("field '" ++ (name.dropEnd 1).toString ++ "' of " ++
      t.name inst.owner ++ " must be " ++ t.name type ++ ", not " ++ t.name value))
  else Flow.freeze inst.result type

/-- The block that a call gives to an instance; from the second time on it is a copy. -/
def openBlock (node : NodeId) : Infer (Option Nat) := do
  match (← Infer.env).sites.get? node with
  | none => return none
  | some site =>
    match site.call.block with
    | none => return none
    | some block =>
      let block ← if site.blocks > 0 then Infer.copyBlock block else pure block
      let id := (← Infer.env).blocks.size
      Infer.changeEnv fun env =>
        { env with
          sites := env.sites.modify node fun s => { s with blocks := s.blocks + 1 }
          blocks := env.blocks.push { block, caller := site.scope, call := node } }
      return some id

/-- Declares the parameters of an instance in the scope of its body. -/
def bindParams (s : ScopeId) : List (Param Source × TypeId) → Infer Unit
  | [] => return
  | (p, t) :: rest => do
    let arg ← Flow.newNode (p.name ++ " : " ++ (← Flow.types).name t)
    e.assign arg t
    let var ← Infer.declare s p.name
    e.connect var [arg]
    bindParams s rest

/-- Fixes the result type of an instance whose method declares one. -/
def freezeResult (inst : Instance) (d : Definition) : Infer Unit := do
  match d.result with
  | none => return
  | some t =>
    let result ← Flow.locating d.loc (Infer.resolveDeclared inst t)
    Flow.freeze inst.result result

/-- Opens the scope of the body of an instance for the call at a node. -/
def openBody (node : NodeId) (id : InstanceId) (inst : Instance) (name : String) : Infer ScopeId := do
  let block ← openBlock node
  let home := (← Flow.types).selfType inst.owner
  Infer.newScope { self := inst.owner, home, inst := some id, block, method := name }

/-- Types the body that an instance of a method got for the call at a node, in a scope of its own. -/
def typeWritten (node : NodeId) (id : InstanceId) (inst : Instance) (d : Definition) (body : Placed) :
    Infer Unit := do
  let s ← openBody node id inst d.name
  e.bindParams s (d.params.zip inst.args)
  freezeResult inst d
  e.visit s body
  let result ← Infer.nodeOf body
  Flow.locating d.loc (e.connect inst.result [result])

/-- Types the body of an instance for the call at a node. -/
def typeBody (node : NodeId) (id : InstanceId) : Infer Unit := do
  let inst ← Infer.instanceOf id
  let d := (← Infer.method inst.method).definition
  let body ← Infer.writeBody id d inst.args.length
  e.typeWritten node id inst d body

/-- Types the body of an instance one level deeper; a failure names the instance. -/
def typeNested (node : NodeId) (loc : Option Location) (id : InstanceId) : Infer Unit := do
  Infer.changeEnv fun env => { env with depth := env.depth + 1 }
  let outcome ← Flow.attempt (e.typeBody node id)
  Infer.changeEnv fun env => { env with depth := env.depth - 1 }
  match outcome with
  | .ok _ => return
  | .error f => throw (.instantiating loc (← Infer.instanceOf id).signature f)

/-- Types a new instance by the kind of its method. -/
def typeInstance (site : Site) (id : InstanceId) (kind : MethodKind) : Infer Unit :=
  match kind with
  | .primitive => e.typePrimitive id
  | .getter t => typeMember id t false
  | .setter t => typeMember id t true
  | .user | .external _ => e.typeNested site.node site.call.mark.loc id

/-- The instance of a matched method for a call. -/
def instantiate (site : Site) (owner : TypeId) (m : Match MethodId) : Infer InstanceId := do
  let id := m.candidate.id
  let method ← Infer.method id
  let key := owner :: m.argTypes
  let known := if site.call.block.isNone then assoc? method.memo key else none
  match known with
  | some inst => return inst
  | none =>
    if (← Infer.env).depth ≥ maxDepth then
      throw (.plain ("instantiating '" ++
        describeCall (← Flow.types) owner method.definition.name m.argTypes ++
        "' nests too deeply"))
    else
      let inst ← Infer.newInstance id owner m.argTypes m.free
      if site.call.block.isNone then
        Infer.changeMethod id fun method => { method with memo := (key, inst) :: method.memo }
      e.typeInstance site inst method.kind
      return inst

end Engine

end TypeFlow
