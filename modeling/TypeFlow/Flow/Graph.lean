import TypeFlow.Types.Subtyping

/-!
# The type graph

Every expression and every variable has a node, whose type is derived from the nodes it depends on.
Nodes are numbered from one; zero is no node. An edge from a node to an observer says what happens to
the observer when the type of the node changes: its type is computed again, or the call that it stands
for is resolved again.

This module holds the graph as data. How changes travel through it is the subject of
`TypeFlow.Flow.Propagation`.
-/

namespace TypeFlow

/-- The number of a node; zero is no node. -/
abbrev NodeId := Nat

namespace Graph

/-- What is made of the joined type of the dependencies. -/
inductive Mapping where
  /-- The joined type itself. -/
  | merge
  /-- The pointers to it. -/
  | pointer
  /-- The arrays of it. -/
  | array
  /-- Its metaclass. -/
  | metaclass
  /-- What the filter of the node leaves of it. -/
  | filtered
  deriving DecidableEq, Repr

/-- What happens to an observer when a dependency changes. -/
inductive Edge where
  /-- Its type is computed again. -/
  | update
  /-- The call it stands for is resolved again. -/
  | recalc
  deriving DecidableEq, Repr

/-- A node that is told about changes of another one. -/
structure Observer where
  node : NodeId
  edge : Edge
  deriving DecidableEq, Repr

/-- A node of the graph. -/
structure Node where
  /-- How messages refer to it. -/
  label : String
  /-- Its current type; zero as long as none is known. -/
  type : TypeId := 0
  deps : List NodeId := []
  observers : List Observer := []
  mapping : Mapping := .merge
  filter : Option Filter := none
  /-- Whether its type is fixed. -/
  frozen : Bool := false
  /-- The instance variable that takes on its type. -/
  slot : Option (TypeId × String) := none
  /-- Whether it waits in a queue to be computed again. -/
  queuedUpdate : Bool := false
  /-- Whether it waits in a queue to be resolved again. -/
  queuedRecalc : Bool := false
  deriving DecidableEq, Repr

end Graph

/-- All nodes; node `n` is at index `n - 1`. -/
structure Graph where
  nodes : Array Graph.Node := #[]

namespace Graph

/-- One more than the number of nodes. -/
def size (g : Graph) : Nat :=
  g.nodes.size + 1

/-- A node. -/
def get? (g : Graph) : NodeId → Option Node
  | 0 => none
  | n + 1 => g.nodes[n]?

/-- The type of a node; zero if it has none. -/
def typeOf (g : Graph) (id : NodeId) : TypeId :=
  match g.get? id with
  | some n => n.type
  | none => 0

/-- The label of a node. -/
def labelOf (g : Graph) (id : NodeId) : String :=
  match g.get? id with
  | some n => n.label
  | none => ""

/-- Adds a node without dependencies. -/
def add (g : Graph) (label : String) : NodeId × Graph :=
  (g.nodes.size + 1, { g with nodes := g.nodes.push { label } })

/-- Changes a node. -/
def modify (g : Graph) (id : NodeId) (f : Node → Node) : Graph :=
  match id with
  | 0 => g
  | n + 1 => { g with nodes := g.nodes.modify n f }

/-- Sets what is made of the joined type of the dependencies. -/
def setMapping (g : Graph) (id : NodeId) (m : Mapping) : Graph :=
  g.modify id fun n => { n with mapping := m }

/-- Makes a node a narrowed view of its dependencies. -/
def setFilter (g : Graph) (id : NodeId) (f : Filter) : Graph :=
  g.modify id fun n => { n with mapping := .filtered, filter := some f }

/-- Lets the type of a node flow into an instance variable of `owner`. -/
def writeBack (g : Graph) (id : NodeId) (owner : TypeId) (name : String) : Graph :=
  g.modify id fun n => { n with slot := some (owner, name) }

/-- Fixes the type of a node. -/
def freeze (g : Graph) (id : NodeId) (t : TypeId) : Graph :=
  g.modify id fun n => { n with type := t, frozen := true }

/-- Replaces the type of a node without telling its observers. -/
def retype (g : Graph) (id : NodeId) (t : TypeId) : Graph :=
  g.modify id fun n => { n with type := t }

/-- Adds one dependency, and says whether it is new. Nothing depends on no node or on itself. -/
def addDep (g : Graph) (id dep : NodeId) : Bool × Graph :=
  match g.get? id with
  | none => (false, g)
  | some n =>
    if dep = 0 ∨ dep = id ∨ dep ∈ n.deps then (false, g)
    else
      let g := g.modify id fun n => { n with deps := n.deps ++ [dep] }
      (true, g.modify dep fun d => { d with observers := d.observers ++ [⟨id, .update⟩] })

/-- Adds dependencies, and says whether any is new. -/
def addDeps (g : Graph) (id : NodeId) : List NodeId → Bool × Graph
  | [] => (false, g)
  | dep :: rest =>
    let (added, g) := g.addDep id dep
    let (more, g) := g.addDeps id rest
    (added || more, g)

/-- Removes dependencies. The type of the node stays until it is computed again. -/
def dropDeps (g : Graph) (id : NodeId) (deps : List NodeId) : Graph :=
  deps.foldl (fun g dep =>
    let g := g.modify id fun n => { n with deps := n.deps.filter (· ≠ dep) }
    g.modify dep fun d => { d with observers := d.observers.filter (· ≠ ⟨id, .update⟩) }) g

/-- Lets the call at a node be resolved again whenever one of the given nodes changes. -/
def watch (g : Graph) (id : NodeId) (watched : List NodeId) : Graph :=
  watched.foldl (fun g w => g.modify w fun n =>
    if n.observers.contains ⟨id, .recalc⟩ then n
    else { n with observers := n.observers ++ [⟨id, .recalc⟩] }) g

/-! ### Queues -/

/-- Whether an observer waits in a queue. -/
def Node.isQueued (n : Node) : Edge → Bool
  | .update => n.queuedUpdate
  | .recalc => n.queuedRecalc

/-- Notes whether an observer waits in a queue. -/
def Node.setQueued (n : Node) (queued : Bool) : Edge → Node
  | .update => { n with queuedUpdate := queued }
  | .recalc => { n with queuedRecalc := queued }

/-- Queues those observers that do not wait in a queue already. -/
def queueUp (g : Graph) : List Observer → List Observer × Graph
  | [] => ([], g)
  | o :: rest =>
    match g.get? o.node with
    | none => g.queueUp rest
    | some n =>
      if n.isQueued o.edge then g.queueUp rest
      else
        let (queue, g) := (g.modify o.node fun n => n.setQueued true o.edge).queueUp rest
        (o :: queue, g)

/-- Queues the observers of a changed node. -/
def queueObservers (g : Graph) (changed : NodeId) : List Observer × Graph :=
  match g.get? changed with
  | none => ([], g)
  | some n => g.queueUp n.observers

/-- Takes an observer from its queue. -/
def unqueue (g : Graph) (o : Observer) : Graph :=
  g.modify o.node fun n => n.setQueued false o.edge

/-- Gives up a queue: nothing in it waits any longer. -/
def drain (g : Graph) (queue : List Observer) : Graph :=
  queue.foldl (fun g o =>
    g.modify o.node fun n => { n with queuedUpdate := false, queuedRecalc := false }) g

end Graph

end TypeFlow
