import TypeFlow.Inference.Scope
import TypeFlow.Inference.Methods

/-!
# The engine

Typing a tree and resolving a call again call each other: a body is typed when a call is resolved, and
a change of type somewhere in a body may concern calls typed long before. The typing steps are written
against an `Engine`, which gives them both; the recursion is closed in `TypeFlow.Inference.Visit`.
-/

namespace TypeFlow

/-- What the typing steps call back. -/
structure Engine where
  /-- Types a tree in a scope. -/
  visit : ScopeId → Placed → Infer Unit
  /-- Resolves the call at a node again, if there is one. -/
  recalculate : NodeId → Infer Unit

namespace Engine

/-- How many observers one propagation may serve. -/
def budget : Nat :=
  10000000

variable (e : Engine)

/-- Propagation resolves calls again through the engine. -/
def hooks : Hooks Env :=
  { recalc := e.recalculate, responds := Env.respondsTo, budget }

/-- Gives a node a type. -/
def assign (id : NodeId) (t : TypeId) : Infer Unit :=
  Flow.setType e.hooks id t

/-- Makes a node depend on others. -/
def connect (id : NodeId) (deps : List NodeId) : Infer Unit :=
  Flow.dependOn e.hooks id deps

/-- Gives a tree node a type. -/
def setType (n : Placed) (t : TypeId) : Infer Unit := do
  e.assign (← Infer.nodeOf n) t

/-- Makes the type of a tree node depend on graph nodes. -/
def bind (n : Placed) (deps : List NodeId) : Infer Unit := do
  e.connect (← Infer.nodeOf n) deps

/-- Types an optional tree. -/
def visitOption (s : ScopeId) : Option Placed → Infer Unit
  | none => return
  | some n => e.visit s n

/-- Types trees in order. -/
def visitAll (s : ScopeId) : List Placed → Infer Unit
  | [] => return
  | n :: rest => do
    e.visit s n
    visitAll s rest

end Engine

namespace Infer

/-- The type that a free type variable in a scope is bound to, for a name without type arguments. -/
def boundIn (free : Bindings) : TypeExpr → Option TypeId
  | .named [name] [] => free.get? name
  | _ => none

/-- The type that a written type stands for in a scope. -/
def resolveType (s : ScopeId) (t : TypeExpr) : Infer TypeId := do
  match boundIn (← freeIn s) t with
  | some bound => return bound
  | none =>
    let self := (← scope s).self
    match ← Flow.onTypes (Overload.resolve Table.resolveType? self t) with
    | some id => return id
    | none => undefined s ("uninitialized constant " ++ TypeExpr.render t)

/-- The types that several written types stand for in a scope. -/
def resolveTypes (s : ScopeId) : List TypeExpr → Infer (List TypeId)
  | [] => return []
  | t :: rest => return (← resolveType s t) :: (← resolveTypes s rest)

/-- The instance of a generic class. -/
def instantiateType (template : TypeId) (args : List TypeId) : Infer TypeId := do
  match ← Flow.onTypes (Table.instantiate template args) with
  | .ok id => return id
  | .error message => throw (.plain message)

/-- What a path stands for in a scope: a type, a constant or a library. -/
def lookupPath (s : ScopeId) (names : List String) (typeArgs : List TypeExpr) : Infer TypeId := do
  let sc ← scope s
  let bound ←
    match names, typeArgs with
    | [name], [] => pure ((← freeIn s).get? name)
    | _, _ => pure none
  match bound with
  | some t => return t
  | none =>
    let t ← Flow.types
    match (t.resolveName? sc.home names).or (t.resolveName? sc.self names) with
    | none => undefined s ("uninitialized constant " ++ String.intercalate "::" names)
    | some id =>
      if typeArgs.isEmpty then return id
      else instantiateType id (← resolveTypes s typeArgs)

end Infer

/-! ### Call sites

Opening a site makes the call be resolved again whenever the type of its receiver or of one of its
arguments changes. -/

/-- A call as a tree node. -/
def CallParts.tree (c : CallParts) : Placed :=
  .node c.mark (.call c.obj c.name (some c.args) c.block c.hasParens)

namespace Infer

/-- The site at a node. -/
def site? (node : NodeId) : Infer (Option Site) :=
  return (← env).sites.get? node

/-- Changes the site at a node. -/
def changeSite (node : NodeId) (f : Site → Site) : Infer Unit :=
  changeEnv fun e => { e with sites := e.sites.modify node f }

/-- The graph node of a receiver; zero if there is none. -/
def receiverNode : Option Placed → Infer NodeId
  | none => return 0
  | some t => nodeOf t

/-- Opens the site of a call. -/
def newSite (call : CallParts) (s : ScopeId) (super : Option (TypeId × String)) : Infer NodeId := do
  let node ← nodeOf call.tree
  let obj ← receiverNode call.obj
  let args ← nodesOf call.args
  changeEnv fun e => { e with sites := e.sites.set node { call, scope := s, node, obj, args, super } }
  Flow.changeGraph (·.watch node (obj :: args))
  return node

/-- The current receiver type of a call: the scope's own type if it has no receiver. -/
def receiverType (site : Site) : Infer TypeId := do
  if site.obj = 0 then return (← scope site.scope).self else Flow.typeOf site.obj

/-- The current types of nodes; none as long as one of them has no type. -/
def typesOf? : List NodeId → Infer (Option (List TypeId))
  | [] => return some []
  | id :: rest => do
    let t ← Flow.typeOf id
    if t = 0 then return none else return (← typesOf? rest).map (t :: ·)

end Infer

end TypeFlow
