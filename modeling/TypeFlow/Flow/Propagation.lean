import TypeFlow.Failure
import TypeFlow.Types.Naming
import TypeFlow.Flow.Graph

/-!
# Propagation

A change of a node is pushed to its observers through a queue. Each node is in a queue at most once
per kind of edge, also when queues nest: resolving a call again may change other nodes, which starts a
propagation of its own, and what waits in an outer queue already is left to that one. A failure gives
up the queue it passes through.

`Flow κ` is a computation on a world of types, nodes and further state `κ`; what was done before a
failure stays done. The call that a node stands for is resolved by `Hooks.recalc`.
-/

namespace TypeFlow

/-- Types, nodes and further state. -/
structure World (κ : Type) where
  types : Table
  graph : Graph
  env : κ

/-- A computation on a world that may fail; the world survives a failure. -/
abbrev Flow (κ : Type) := ExceptT Failure (StateM (World κ))

/-- What propagation leaves to others. -/
structure Hooks (κ : Type) where
  /-- Resolves the call at a node again. -/
  recalc : NodeId → Flow κ Unit
  /-- Whether a class has a method of a name. -/
  responds : κ → TypeId → String → TableM Bool
  /-- How many observers one propagation may serve before it is given up. -/
  budget : Nat

namespace Flow

variable {κ α : Type}

/-- Runs a computation on the types. -/
def onTypes (m : TableM α) : Flow κ α :=
  modifyGet fun ⟨types, graph, env⟩ =>
    let (a, types) := m.run types
    (a, ⟨types, graph, env⟩)

/-- Reads the types. -/
def types : Flow κ Table :=
  return (← get).types

/-- Runs a computation on the graph. -/
def onGraph (f : Graph → α × Graph) : Flow κ α :=
  modifyGet fun ⟨types, graph, env⟩ =>
    let (a, graph) := f graph
    (a, ⟨types, graph, env⟩)

/-- Changes the graph. -/
def changeGraph (f : Graph → Graph) : Flow κ Unit :=
  modify fun ⟨types, graph, env⟩ => ⟨types, f graph, env⟩

/-- The type of a node. -/
def typeOf (id : NodeId) : Flow κ TypeId :=
  return (← get).graph.typeOf id

/-- Adds a node. -/
def newNode (label : String) : Flow κ NodeId :=
  onGraph (·.add label)

/-- Fixes the type of a node. -/
def freeze (id : NodeId) (t : TypeId) : Flow κ Unit :=
  changeGraph (·.freeze id t)

/-- The outcome of a computation, be it a failure. -/
def attempt (m : Flow κ α) : Flow κ (Except Failure α) :=
  ExceptT.mk do return .ok (← m.run)

/-- Gives a failure the location of the node at which it passes by. -/
def locating (loc : Option Location) (m : Flow κ α) : Flow κ α :=
  ExceptT.mk do
    match ← m.run with
    | .ok a => return .ok a
    | .error f => return .error (f.locate loc)

/-- The attempt to give a node of fixed type another one. -/
def frozenFailure (n : Graph.Node) (t : TypeId) : Flow κ Failure := do
  let tab ← types
  return .frozen { label := n.label, declared := tab.name n.type, got := tab.name t }

/-- What a node makes of the joined type of its dependencies. -/
def mapped (h : Hooks κ) (n : Graph.Node) (t : TypeId) : Flow κ TypeId := do
  match n.mapping with
  | .merge => return t
  | .pointer => onTypes (Table.pointerOf t)
  | .array =>
    match ← onTypes (Table.instantiate Builtin.array [t]) with
    | .ok a => return a
    | .error _ => return 0
  | .metaclass => onTypes (Table.metaclassOf t)
  | .filtered =>
    match n.filter with
    | none => return t
    | some f =>
      let env := (← get).env
      onTypes (f.apply (h.responds env) t)

/-- Gives a node a type and lets it flow into the instance variable of the node. -/
def assign (id : NodeId) (n : Graph.Node) (t : TypeId) : Flow κ Unit := do
  changeGraph (·.retype id t)
  match n.slot with
  | none => return
  | some (owner, name) => onTypes (Table.modifyObject owner (·.setIVar name t))

/-- Gives a node whose dependencies make `t` that type, unless it has it already, and says whether it
changed. A fixed type stays, and has to accept the new one. -/
def settle (id : NodeId) (n : Graph.Node) (t : TypeId) : Flow κ Bool := do
  if t = 0 ∨ t = n.type then return false
  else if n.frozen then
    if (← types).implements t n.type then return false
    else throw (← frozenFailure n t)
  else
    assign id n t
    return true

/-- Computes the type of a node from its dependencies, and says whether it changed. Dependencies
without a type count for nothing; without any type known the node stays as it is. -/
def recompute (h : Hooks κ) (id : NodeId) : Flow κ Bool := do
  let g := (← get).graph
  match g.get? id with
  | none => return false
  | some n =>
    if n.deps.isEmpty then return false
    else
      let t ← onTypes (Table.merge (n.deps.map g.typeOf))
      if t = 0 then return false
      else
        let t ← mapped h n t
        settle id n t

/-- Serves one observer that was taken from its queue, and says whether its type changed. -/
def serve (h : Hooks κ) (o : Graph.Observer) : Flow κ Bool := do
  match o.edge with
  | .update => recompute h o.node
  | .recalc =>
    h.recalc o.node
    return false

/-- Serves the observers in a queue, one after the other; those of every node that changes join at
the end. A failure gives up the queue. -/
def serveAll (h : Hooks κ) : Nat → List Graph.Observer → Flow κ Unit
  | _, [] => return
  | 0, queue => do
    changeGraph (·.drain queue)
    throw .exhausted
  | fuel + 1, o :: queue => do
    changeGraph (·.unqueue o)
    match ← attempt (serve h o) with
    | .error f =>
      changeGraph (·.drain queue)
      throw f
    | .ok false => serveAll h fuel queue
    | .ok true =>
      let more ← onGraph (·.queueObservers o.node)
      serveAll h fuel (queue ++ more)

/-- Tells the observers of a changed node. -/
def propagate (h : Hooks κ) (changed : NodeId) : Flow κ Unit := do
  let queue ← onGraph (·.queueObservers changed)
  serveAll h h.budget queue

/-- Gives a node a type directly. -/
def setType (h : Hooks κ) (id : NodeId) (t : TypeId) : Flow κ Unit := do
  match (← get).graph.get? id with
  | none => return
  | some n =>
    if n.type = t then return
    else if n.frozen then throw (← frozenFailure n t)
    else
      assign id n t
      propagate h id

/-- Makes a node depend on others and computes its type again. -/
def dependOn (h : Hooks κ) (id : NodeId) (deps : List NodeId) : Flow κ Unit := do
  if ← onGraph (·.addDeps id deps) then
    if ← recompute h id then propagate h id

end Flow

end TypeFlow
