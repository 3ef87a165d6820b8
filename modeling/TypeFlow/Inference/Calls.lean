import TypeFlow.Inference.Dispatch
import TypeFlow.Inference.Foreign
import TypeFlow.Inference.Instances

/-!
# Resolving calls

A call resolves once its receiver and all its arguments have a type, and again whenever one of these
types changes. It becomes a call of one instance, a call of a foreign function, or a dispatch.
-/

namespace TypeFlow

namespace Engine

variable (e : Engine)

/-- Resolves a call on a single receiver class. -/
def resolveSingle (site : Site) (recv : TypeId) (args : List TypeId) :
    Infer (List NodeId × List Target) := do
  let (owner, ms) ← Infer.matchCall site recv args
  if ms.branches args then e.dispatch site [recv] args
  else
    match ms.list with
    | [] => return ([], [])
    | m :: _ =>
      let i ← e.instantiate site owner m
      return ([(← Infer.instanceOf i).result], [.inst i])

/-- Whether a call is one on a library. -/
def isForeign (t : Table) (site : Site) (recv : TypeId) : Bool :=
  site.obj ≠ 0 &&
    match t.kind? recv with
    | some .lib => true
    | _ => false

/-- Resolves a call for given types: the nodes that its type depends on, and its targets. -/
def resolveCall (site : Site) (recv : TypeId) (args : List TypeId) :
    Infer (List NodeId × List Target) := do
  let t ← Flow.types
  if isForeign t site recv then e.funCall site recv args
  else
    match if site.obj = 0 then [recv] else t.concrete recv with
    | [r] => e.resolveSingle site r args
    | rs => e.dispatch site rs args

/-- Makes the call at a node depend on what it resolved to. -/
def retarget (node : NodeId) (loc : Option Location) (occ : Nat) (nodes : List NodeId)
    (targets : List Target) : Infer Unit := do
  let old := ((← Infer.site? node).map Site.targets).getD []
  Flow.changeGraph (·.dropDeps node old)
  Infer.changeSite node fun s => { s with targets := nodes }
  Infer.changeNote occ fun n => { n with targets }
  Flow.locating loc (e.connect node nodes)

/-- Resolves the call at a node for given types, unless these are the ones it was resolved for
last. -/
def resolveFor (node : NodeId) (recv : TypeId) (args : List TypeId) : Infer Unit := do
  match ← Infer.site? node with
  | none => return
  | some site =>
    let key := some (recv :: args)
    if site.key = key then return
    else
      Infer.changeSite node fun s => { s with key }
      let mark := site.call.mark
      let (nodes, targets) ← Flow.locating mark.loc (e.resolveCall site recv args)
      e.retarget node mark.loc mark.occ nodes targets

/-- Binds the out arguments of a call on a library when its receiver is first known. -/
def prepare (site : Site) (recv : TypeId) : Infer Unit := do
  if !site.outBound && isForeign (← Flow.types) site recv then
    Flow.locating site.call.mark.loc (e.bindOutArgs site recv)

/-- Resolves the call at a node for the current types. Until all of them are known it stays
unresolved. -/
def resolveSite (node : NodeId) : Infer Unit := do
  match ← Infer.site? node with
  | none => return
  | some site =>
    let recv ← Infer.receiverType site
    if recv = 0 then return
    else
      e.prepare site recv
      match ← Infer.typesOf? site.args with
      | none => return
      | some args => e.resolveFor node recv args

/-! ### Typing calls -/

/-- Types a call that is no macro call and no call of `super`. -/
def visitPlainCall (s : ScopeId) (call : CallParts) : Infer Unit := do
  e.visitOption s call.obj
  e.visitAll s call.args
  let node ← Infer.newSite call s none
  e.recalculate node

/-- The parameters of a method as variables at a location. -/
def passOn (loc : Option Location) : List (Param Source) → Infer (List Placed)
  | [] => return []
  | p :: rest => do
    let v : Placed := .node (← Infer.freshMark loc) (.localVar p.name false)
    return v :: (← passOn loc rest)

/-- The method whose body a scope belongs to, if it can call `super`. -/
def callingMethod? (s : ScopeId) : Infer (Option Method) := do
  match (← Infer.scope s).inst with
  | none => return none
  | some i =>
    let m ← Infer.method (← Infer.instanceOf i).method
    match m.kind with
    | .user => return some m
    | _ => return none

/-- The arguments of a call of `super`; one written without any passes on those of the method. -/
def superArgs (call : CallParts) (m : Method) : Infer (List Placed) := do
  if call.args.isEmpty && !call.hasParens then
    let added ← passOn call.mark.loc m.definition.params
    Infer.changeNote call.mark.occ fun n => { n with added }
    return added
  else return call.args

/-- Types a call of `super`. -/
def visitSuper (s : ScopeId) (call : CallParts) : Infer Unit := do
  match ← callingMethod? s with
  | none => throw (.malformed call.mark.loc "can't use super outside a method")
  | some m =>
    let args ← superArgs call m
    e.visitAll s args
    let node ← Infer.newSite { call with args } s (some (m.owner, m.definition.name))
    e.recalculate node

end Engine

end TypeFlow
