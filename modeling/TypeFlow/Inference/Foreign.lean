import TypeFlow.Inference.Engine
import TypeFlow.Inference.Variables

/-!
# Foreign functions

A foreign function has a single instance, whose parameter and result types are fixed by its
declaration. A call has to fit them, except that nil is accepted for a pointer and a text for a
pointer to bytes, into which it is converted. Variables passed to out parameters take on the type of
the parameter, so the call resolves before they are ever assigned.
-/

namespace TypeFlow

namespace Infer

/-- The type that a written type stands for inside a library. -/
def resolveIn (lib : TypeId) (e : TypeExpr) : Infer TypeId := do
  match ← Flow.onTypes (Overload.resolve Table.resolveType? lib e) with
  | some t => return t
  | none => throw (.undefined none ("uninitialized constant " ++ TypeExpr.render e) "")

/-- The types of the parameters of a foreign function. -/
def paramTypes (lib : TypeId) : List (Param Source) → Infer (List TypeId)
  | [] => return []
  | p :: rest => do
    let t ←
      match p.restriction with
      | none => pure 0
      | some e => resolveIn lib e
    return t :: (← paramTypes lib rest)

/-- Nodes of fixed type for the parameters of a foreign function. -/
def paramNodes : List (String × TypeId) → Infer (List NodeId)
  | [] => return []
  | (name, t) :: rest => do
    let id ← Flow.newNode (name ++ " : " ++ (← Flow.types).name t)
    Flow.freeze id t
    return id :: (← paramNodes rest)

/-- Makes the instance of a foreign function. -/
def newExternal (id : MethodId) (m : Method) : Infer InstanceId := do
  let d := m.definition
  let args ← paramTypes m.owner d.params
  let result ←
    match d.result with
    | none => pure Builtin.void
    | some e => resolveIn m.owner e
  let inst ← newInstance id m.owner args []
  let params ← paramNodes ((d.params.map (·.name)).zip args)
  changeInstance inst fun i => { i with params }
  Flow.freeze (← instanceOf inst).result result
  changeMethod id fun m => { m with external := some inst }
  return inst

/-- The instance of a foreign function, made at the first call. -/
def external (id : MethodId) : Infer Instance := do
  let m ← method id
  match m.external with
  | some i => instanceOf i
  | none =>
    let i ← newExternal id m
    instanceOf i

/-- The instance of a foreign function by number. -/
def externalId (id : MethodId) : Infer InstanceId := do
  let _ ← external id
  return (← method id).external.getD 0

/-- Whether a type is a pointer to single bytes: to characters, or to integers of one byte. -/
def isBytePointer (t : Table) (id : TypeId) : Bool :=
  match t.get? id with
  | some (.pointer pointee) =>
    pointee = Builtin.char ||
      match t.get? pointee with
      | some (.primitive p) =>
        p.size = 1 &&
          match p.numeric with
          | some n => !n.float
          | none => false
      | _ => false
  | _ => false

/-- Whether a type is a pointer. -/
def isPointer (t : Table) (id : TypeId) : Bool :=
  match t.get? id with
  | some (.pointer _) => true
  | _ => false

/-- The foreign function of a name in a library. -/
def fun? (lib : TypeId) (name : String) : Infer (Option MethodId) :=
  return assoc? (← env).funs (lib, name)

/-- Whether a foreign function accepts further arguments. -/
def isVarargs (m : Method) : Bool :=
  match m.kind with
  | .external varargs => varargs
  | _ => false

/-- The location of an argument of a call. -/
def argLoc (site : Site) (i : Nat) : Option Location :=
  (site.call.args[i]?).bind Placed.loc

/-- The failure of an argument that a foreign function does not accept. -/
def wrongArgument (site : Site) (lib : TypeId) (i : Nat) (expected got : TypeId) : Infer Failure := do
  let t ← Flow.types
  return .mismatch (argLoc site i) ("argument #" ++ toString (i + 1) ++ " to " ++
    qualifiedName t lib site.call.name ++ " must be " ++ t.name expected ++ ", not " ++ t.name got)

/-- Whether a foreign function accepts an argument as it is. -/
def acceptsArgument (t : Table) (expected got : TypeId) : Bool :=
  t.implements got expected || (got = Builtin.nil && isPointer t expected)

end Infer

namespace Engine

variable (e : Engine)

/-- Wraps an argument of the call at a node in a conversion, unless it is wrapped already. -/
def convert (node : NodeId) (i : Nat) : Infer Unit := do
  match ← Infer.site? node with
  | none => return
  | some site =>
    if site.converted.contains i then return
    else
      Infer.changeSite node fun s => { s with converted := i :: s.converted }
      match site.call.args[i]? with
      | none => return
      | some arg =>
        let mark ← Infer.freshMark arg.loc
        Infer.changeNote site.call.mark.occ fun n =>
          { n with conversions := n.conversions ++ [(i, mark)] }
        let call : CallParts :=
          { mark, obj := some arg, name := conversionName, args := [], block := none,
            hasParens := false }
        let id ← Infer.newSite call site.scope none
        e.recalculate id

/-- Checks arguments against the parameters of a foreign function, counting from `i`. -/
def checkArgs (site : Site) (lib : TypeId) : Nat → List NodeId → List TypeId → Infer Unit
  | i, p :: ps, a :: as => do
    let expected ← Flow.typeOf p
    let t ← Flow.types
    if Infer.acceptsArgument t expected a then checkArgs site lib (i + 1) ps as
    else if a = Builtin.string && Infer.isBytePointer t expected then
      e.convert site.node i
      checkArgs site lib (i + 1) ps as
    else throw (← Infer.wrongArgument site lib i expected a)
  | _, _, _ => return

/-- Converts the texts among further arguments, counting from `i`. -/
def convertRest (site : Site) : Nat → List TypeId → Infer Unit
  | _, [] => return
  | i, a :: as => do
    if a = Builtin.string then e.convert site.node i
    convertRest site (i + 1) as

/-- Resolves a call of a foreign function. -/
def callFun (site : Site) (lib : TypeId) (args : List TypeId) (id : MethodId) :
    Infer (List NodeId × List Target) := do
  let m ← Infer.method id
  let want := m.definition.params.length
  if args.length < want || (args.length > want && !Infer.isVarargs m) then
    throw (.arity none (qualifiedName (← Flow.types) lib site.call.name) args.length [want])
  else
    let i ← Infer.externalId id
    let inst ← Infer.instanceOf i
    e.checkArgs site lib 0 inst.params args
    if Infer.isVarargs m then e.convertRest site want (args.drop want)
    return ([inst.result], [.inst i])

/-- Resolves a call on a library. -/
def funCall (site : Site) (lib : TypeId) (args : List TypeId) :
    Infer (List NodeId × List Target) := do
  let name := site.call.name
  match ← Infer.fun? lib name with
  | none =>
    throw (.undefined none ("undefined fun '" ++ name ++ "' for " ++ (← Flow.types).name lib) "")
  | some id => e.callFun site lib args id

/-- The node of the variable that an argument passes to an out parameter; zero if it passes none. -/
def outTarget (site : Site) (arg : Placed) : Infer NodeId := do
  match arg.form with
  | .localVar name true => Infer.declare site.scope name
  | .instanceVar name true => e.ivarNode (← Infer.scope site.scope).self name false
  | _ => return 0

/-- Binds the variables passed to out parameters to the parameter types, counting from `i`. -/
def bindOuts (site : Site) (lib : TypeId) (id : MethodId) :
    Nat → List (Param Source) → List Placed → Infer Unit
  | i, p :: ps, arg :: args => do
    if p.out then
      let target ← e.outTarget site arg
      if target = 0 then
        let t ← Flow.types
        throw (.mismatch arg.loc ("argument #" ++ toString (i + 1) ++ " to " ++
          qualifiedName t lib (← Infer.method id).definition.name ++ " must be passed as 'out'"))
      else
        let inst ← Infer.external id
        e.connect target [inst.params.getD i 0]
    bindOuts site lib id (i + 1) ps args
  | _, _, _ => return

/-- Binds the variables that a call on a library passes to out parameters. This may resolve the call
again before it is done, so it is noted first. -/
def bindOutArgs (site : Site) (lib : TypeId) : Infer Unit := do
  match ← Infer.fun? lib site.call.name with
  | none => return
  | some id =>
    Infer.changeSite site.node fun s => { s with outBound := true }
    let m ← Infer.method id
    e.bindOuts site lib id 0 m.definition.params site.call.args

end Engine

end TypeFlow
