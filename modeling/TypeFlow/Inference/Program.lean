import TypeFlow.Inference.Visit
import TypeFlow.Unification

/-!
# Programs

A program starts with the built-in types and grows with every tree that is typed: what one tree
declares is known to the next. A tree that fails leaves behind what was done up to the failure.
-/

namespace TypeFlow

namespace Program

/-- How deep typing may nest. -/
def nesting : Nat :=
  1000000

/-- Declares what every program starts with: the node whose type is nil, and `allocate` on every
class. -/
def setUp : Infer Unit := do
  let id ← Flow.newNode "nil"
  Flow.freeze id Builtin.nil
  let meta' ← Flow.onTypes (Table.metaclassOf Builtin.object)
  Infer.addMethod meta' (.primitive "allocate" (some .self) [])

/-- The program before anything is typed. -/
def initial (expander : Expander) : Program :=
  (setUp.run.run { types := .initial, graph := {}, env := { expander } }).2

/-- Types a tree at top level. -/
def infer (t : Source) : Infer Unit := do
  let root ← Infer.place t
  Infer.changeEnv fun e => { e with roots := e.roots ++ [root] }
  let s ← Infer.newScope { self := Builtin.program, home := Builtin.program }
  visit nesting s root

/-- Runs a typing step. -/
def run {α : Type} (p : Program) (m : Infer α) : Except Failure α × Program :=
  m.run.run p

/-- The type inferred for the value of an occurrence; zero if there is none. -/
def typeOf (p : Program) (t : Placed) : TypeId :=
  p.graph.typeOf (p.env.note t.mark.occ).node

/-! ### Instances -/

/-- The type of the result of an instance. -/
def resultOf (p : Program) (i : Instance) : TypeId :=
  p.graph.typeOf i.result

/-- The name of the method of an instance. -/
def methodName (p : Program) (i : Instance) : String :=
  match p.env.methods[i.method]? with
  | some m => m.definition.name
  | none => ""

/-- The name of an instance in generated code: its owner, name, argument types and result type. -/
def mangled (p : Program) (i : Instance) : String :=
  qualifiedName p.types i.owner (p.methodName i) ++ "<" ++ p.types.nameList i.args ++ ">:" ++
    p.types.name (p.resultOf i)

/-- An instance with its number and its name in generated code. -/
structure Listed where
  id : InstanceId
  inst : Instance
  mangled : String

/-- All instances, ordered by their names in generated code and then by number. -/
def listed (p : Program) : List Listed :=
  (p.env.instances.toList.zipIdx.map fun (inst, id) =>
    { id, inst, mangled := p.mangled inst : Listed }).mergeSort fun a b => Table.textLe a.mangled b.mangled

/-! ### Unification -/

/-- The representatives of several types. -/
def unifyTypes : List TypeId → Unifier.Bounded (List TypeId)
  | [] => return []
  | t :: rest => return (← Unifier.canonical t) :: (← unifyTypes rest)

/-- An instance with its types replaced by their representatives. -/
def unifyInstance (i : Instance) : Unifier.Bounded Instance := do
  let owner ← Unifier.canonical i.owner
  let args ← unifyTypes i.args
  let free ← unifyTypes (i.free.map Prod.snd)
  let out := { i with owner, args, free := (i.free.map Prod.fst).zip free }
  if out.owner ≠ i.owner ∨ out.args ≠ i.args ∨ out.free ≠ i.free then
    modify fun u => { u with stats := { u.stats with instances := u.stats.instances + 1 } }
  return out

/-- Replaces the types of instances by their representatives, in a given order. -/
def unifyInstances : List InstanceId → Array Instance → Unifier.Bounded (Array Instance)
  | [], is => return is
  | id :: rest, is => do
    match is[id]? with
    | none => unifyInstances rest is
    | some i => unifyInstances rest (is.setIfInBounds id (← unifyInstance i))

/-- Unifies the types of a program: those of its graph, then those of its instances. There is no result if
that has no end. -/
def unify (p : Program) : Option (Unifier.Stats × Program) := do
  let ((graph, u), types) := ((Unifier.unifyGraph p.graph).run.run {}).run p.types
  let p : Program := { p with graph := ← graph, types }
  let order := p.listed.map Listed.id
  let ((instances, u), types) := ((unifyInstances order p.env.instances).run.run u).run p.types
  return (u.stats, { p with types, env := { p.env with instances := ← instances } })

end Program

end TypeFlow
