import TypeFlow.Flow.Propagation
import TypeFlow.Proofs.Flow.Nodes
import TypeFlow.Proofs.Types.Repeating

/-!
# Operations, and hooks that perform them

The operations from outside that change a graph are data, and so is what a sequence of them does (`runEach`). A
failure of one operation does not keep the next from being performed: what was done before the failure stays done.

To resolve a call again may change the graph: the hook performs operations, each of which propagates,
and this may resolve further calls. A `Script` says what a hook does, as data. It may look at the world
at any time, keeps a state of its own, may fail, and ends with the first failure of an operation that it
performs. The hooks of a run are indexed by how deep resolutions may nest (`hooks`); the one beyond that
fails.

An operation is performed only where it makes sense (`Operation.Permitted`): it is about nodes and types
that are there, what is made of dependencies is said before there are any, a type is given only to a node
without dependencies and fixed before others depend on the node, and a node that gives up dependencies
takes on another one at once.

A `Trace` notes for each node and each node that it watches the type that was there when the call at the
former was last resolved, or when it began to watch.
-/

namespace TypeFlow.Flow

open TypeFlow.Graph (Observer)

variable {κ : Type}

/-! ### Operations -/

/-- An operation on a graph. -/
inductive Operation where
  | newNode (label : String)
  | freeze (id : NodeId) (type : TypeId)
  | setMapping (id : NodeId) (mapping : Graph.Mapping)
  | setFilter (id : NodeId) (filter : Filter)
  | setType (id : NodeId) (type : TypeId)
  | bind (id : NodeId) (deps : List NodeId)
  | watch (id : NodeId) (watched : List NodeId)
  /-- Gives up some dependencies and takes on others. -/
  | rebind (id : NodeId) (dropped added : List NodeId)

/-- Performs an operation. -/
def Operation.run (h : Hooks κ) : Operation → Flow κ Unit
  | newNode label => discard (Flow.newNode label)
  | freeze id type => Flow.freeze id type
  | setMapping id mapping => changeGraph (·.setMapping id mapping)
  | setFilter id filter => changeGraph (·.setFilter id filter)
  | setType id type => Flow.setType h id type
  | bind id deps => dependOn h id deps
  | watch id watched => changeGraph (·.watch id watched)
  | rebind id dropped added => do
    changeGraph (·.dropDeps id dropped)
    dependOn h id added

/-- Performs operations in a given way, one after the other; says how each has ended. -/
def runEach (perform : Operation → Flow κ Unit) :
    List Operation → World κ → List (Except Failure Unit) × World κ
  | [], w => ([], w)
  | op :: ops, w =>
    let (r, w) := (perform op).run.run w
    let (rs, w) := runEach perform ops w
    (r :: rs, w)

/-! ### Scripts -/

/-- The further state of a run: what belongs to the hooks, and what was noted about them. -/
structure Trace (κ : Type) where
  own : κ
  /-- The type of a watched node as it was last seen from a node that watches it. -/
  seen : NodeId → NodeId → TypeId

/-- What a hook does. -/
inductive Script (κ : Type) where
  | done
  | fail (failure : Failure)
  | look (next : World (Trace κ) → Script κ)
  | note (change : κ → κ) (next : Script κ)
  | perform (op : Operation) (next : Script κ)

/-! ### Operations where they make sense -/

/-- Whether there is a node of a number. -/
def IsNode (g : Graph) (id : NodeId) : Prop :=
  (g.view id).isSome

instance (g : Graph) (id : NodeId) : Decidable (IsNode g id) :=
  inferInstanceAs (Decidable ((g.view id).isSome = true))

/-- Whether an operation makes sense as things stand. -/
def Operation.Permitted (w : World κ) : Operation → Prop
  | newNode _ => True
  | freeze id type => IsNode w.graph id ∧ w.graph.depsOf id = [] ∧
      (∀ o ∈ w.graph.observersOf id, o.edge = .recalc) ∧ type < w.types.size
  | setMapping id _ => IsNode w.graph id ∧ w.graph.depsOf id = []
  | setFilter id filter => IsNode w.graph id ∧ w.graph.depsOf id = [] ∧ filter.Reads w.types
  | setType id type => IsNode w.graph id ∧ w.graph.depsOf id = [] ∧ type < w.types.size
  | bind id deps => IsNode w.graph id ∧ ∀ d ∈ deps, d < w.graph.size
  | watch id watched => IsNode w.graph id ∧ ∀ d ∈ watched, d < w.graph.size
  | rebind id dropped added => IsNode w.graph id ∧ (∀ d ∈ added, d < w.graph.size) ∧
      ∃ d ∈ added, d ≠ 0 ∧ d ≠ id ∧ (d ∈ dropped ∨ d ∉ w.graph.depsOf id)

instance (t : Table) : (f : Filter) → Decidable (f.Reads t)
  | .isA target _ => inferInstanceAs (Decidable (target < t.size))
  | .notNil => .isTrue trivial
  | .respondsTo _ => .isFalse id

instance (w : World κ) : (op : Operation) → Decidable (op.Permitted w)
  | .newNode _ => .isTrue trivial
  | .freeze _ _ => inferInstanceAs (Decidable (_ ∧ _ ∧ _ ∧ _))
  | .setMapping _ _ => inferInstanceAs (Decidable (_ ∧ _))
  | .setFilter _ _ => inferInstanceAs (Decidable (_ ∧ _ ∧ _))
  | .setType _ _ => inferInstanceAs (Decidable (_ ∧ _ ∧ _))
  | .bind _ _ => inferInstanceAs (Decidable (_ ∧ _))
  | .watch _ _ => inferInstanceAs (Decidable (_ ∧ _))
  | .rebind _ _ _ => inferInstanceAs (Decidable (_ ∧ _ ∧ _))

/-- What is noted when an operation is performed: a node that begins to watch another one has seen its
type. -/
def Operation.noted (w : World (Trace κ)) : Operation → Trace κ
  | watch id watched =>
    { w.env with
      seen := fun x d =>
        if x = id ∧ d ∈ watched ∧ ⟨id, .recalc⟩ ∉ w.graph.observersOf d then w.graph.typeOf d
        else w.env.seen x d }
  | _ => w.env

/-- Performs an operation if it makes sense. -/
def Operation.perform (h : Hooks (Trace κ)) (op : Operation) : Flow (Trace κ) Unit := do
  let w ← get
  if op.Permitted w then
    set { w with env := op.noted w }
    op.run h

/-! ### Hooks -/

/-- Does what a script says. -/
def Script.run (h : Hooks (Trace κ)) : Script κ → Flow (Trace κ) Unit
  | done => return
  | fail failure => throw failure
  | look next => do (next (← get)).run h
  | note change next => do
    modify fun w => { w with env := { w.env with own := change w.env.own } }
    next.run h
  | perform op next => do
    op.perform h
    next.run h

/-- Notes that the call at a node is resolved as things stand. -/
def resolved (x : NodeId) (w : World (Trace κ)) : World (Trace κ) :=
  { w with
    env := { w.env with
      seen := fun y d => if y = x then w.graph.typeOf d else w.env.seen y d } }

/-- Hooks that follow scripts, nested at most `depth` deep. -/
def hooks (responds : Trace κ → TypeId → String → TableM Bool) (budget : Nat)
    (script : NodeId → Script κ) : Nat → Hooks (Trace κ)
  | 0 => { recalc := fun _ => throw .exhausted, responds, budget }
  | depth + 1 =>
    { recalc := fun x => do
        modify (resolved x)
        (script x).run (hooks responds budget script depth)
      responds, budget }

end TypeFlow.Flow
