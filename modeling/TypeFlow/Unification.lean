import TypeFlow.Types.Equality
import TypeFlow.Types.Fingerprint
import TypeFlow.Types.Merge
import TypeFlow.Flow.Graph

/-!
# Unification

Chooses one representative for every class of equal types, so that equal types have the same number.
Components are unified before the type itself: objects are changed in place, derived types are made
anew from the representatives of their components. A type that is reached again while its own
components are being unified stands for itself, which keeps cyclic types finite.

A representative is looked for among those with the same hash of the fingerprint, in the order in which
they were chosen. A fingerprint may show the name of a type in which something is declared. Such a name may
have no end, and then looking for a representative has none either.
-/

namespace TypeFlow

namespace Unifier

/-- What unification did. -/
structure Stats where
  /-- The number of representatives. -/
  canonical : Nat := 0
  /-- The number of types with another representative. -/
  folded : Nat := 0
  /-- The number of graph nodes whose type was replaced. -/
  nodes : Nat := 0
  /-- The number of method instances of which a type was replaced. -/
  instances : Nat := 0
  deriving DecidableEq, Repr

end Unifier

/-- The state of a unification. -/
structure Unifier where
  /-- The hash of fingerprints. -/
  digest : Fingerprint → UInt64 := Fingerprint.digest
  /-- The representatives in the order in which they were chosen, with their fingerprints at that time. -/
  chosen : List (Fingerprint × TypeId) := []
  /-- The representative of every type seen. -/
  known : List (TypeId × TypeId) := []
  /-- The types whose components are being unified. -/
  visiting : List TypeId := []
  stats : Unifier.Stats := {}

/-- A computation that unifies types. -/
abbrev Unify := StateT Unifier TableM

namespace Unifier

/-- A computation that unifies types, and may have no end or run out of steps. -/
abbrev Bounded := OptionT Unify

/-- The types. -/
def types : Unify Table :=
  getThe Table

/-- The representative of a type that was seen before. -/
def known? (u : Unifier) (id : TypeId) : Option TypeId :=
  (u.known.find? fun (t, _) => t = id).map Prod.snd

/-- A representative that equals a type. -/
def find? (u : Unifier) (t : Table) (id : TypeId) : Option TypeId :=
  let h := u.digest (t.fingerprint id)
  (u.chosen.find? fun (f, rep) => u.digest f == h && t.equal id rep).map Prod.snd

/-- Looks for a representative that equals a type. -/
def search (id : TypeId) : Bounded (Option TypeId) := do
  let t ← types
  match t.fingerprint? id with
  | some _ => return (← get).find? t id
  | none => failure

/-- Notes the representative of a type. -/
def fold (id rep : TypeId) : Unify TypeId :=
  modifyGet fun u =>
    let stats := if rep = id then u.stats else { u.stats with folded := u.stats.folded + 1 }
    (rep, { u with known := (id, rep) :: u.known, stats })

/-- Makes a type its own representative. -/
def choose (id : TypeId) : Unify TypeId := do
  let f := (← types).fingerprint id
  modifyGet fun u =>
    (id, { u with
      chosen := u.chosen ++ [(f, id)]
      known := (id, id) :: u.known
      stats := { u.stats with canonical := u.stats.canonical + 1 } })

/-- Notes the representative of a type if there is one, and makes it its own otherwise. -/
def foldOrChoose (id : TypeId) : Bounded TypeId := do
  match ← search id with
  | some rep => fold id rep
  | none => choose id

section Components

variable (canonical : TypeId → Bounded TypeId)

/-- Replaces the type arguments of an object from index `i` on by their representatives. -/
def unifyArgs (id : TypeId) : Nat → List TypeId → Bounded Unit
  | _, [] => return
  | i, a :: rest => do
    let c ← canonical a
    liftM (Table.modifyObject id fun o => { o with typeArgs := o.typeArgs.set i c })
    unifyArgs id (i + 1) rest

/-- Replaces the types of instance variables by their representatives. -/
def unifyIVars (id : TypeId) : List (String × TypeId) → Bounded Unit
  | [] => return
  | (name, t) :: rest => do
    let c ← canonical t
    liftM (Table.modifyObject id (·.setIVar name c))
    unifyIVars id rest

/-- A type with representatives for components. -/
def rebuild (id : TypeId) : Bounded TypeId := do
  match (← types).get? id with
  | some (.object o) =>
    unifyArgs canonical id 0 o.typeArgs
    unifyIVars canonical id o.ivars
    return id
  | some (.pointer p) => liftM (Table.pointerOf (← canonical p))
  | some (.union ms) => liftM (Table.unionOf (← ms.mapM canonical))
  | some (.metaclass of) => liftM (Table.metaclassOf (← canonical of))
  | some (.hierarchy base) => liftM (Table.hierarchyOf (← canonical base))
  | _ => return id

/-- Unifies the components of a type that is new to the unifier, then the type itself. -/
def resolve (id : TypeId) : Bounded TypeId := do
  modify fun u => { u with visiting := id :: u.visiting }
  let built ← rebuild canonical id
  modify fun u => { u with visiting := u.visiting.filter (· ≠ id) }
  if built = id then foldOrChoose id
  else
    let rep ← canonical built
    fold id rep

end Components

/-- The representative of a type, nesting at most `fuel` deep. -/
def canonicalUpTo : Nat → TypeId → Bounded TypeId
  | 0, _ => failure
  | fuel + 1, id => do
    let u ← get
    match u.known? id with
    | some c => return c
    | none =>
      if id = 0 ∨ id ∈ u.visiting then return id
      else
        match ← search id with
        | some rep => fold id rep
        | none => resolve (canonicalUpTo fuel) id

/-- The representative of a type. -/
def canonical (id : TypeId) : Bounded TypeId := do
  canonicalUpTo (2 * (← types).size + 8) id

/-- Replaces the type of a node by its representative. -/
def unifyNode (g : Graph) (id : NodeId) : Bounded Graph := do
  let t := g.typeOf id
  let c ← canonical t
  if c = t then return g
  else
    modify fun u => { u with stats := { u.stats with nodes := u.stats.nodes + 1 } }
    return g.retype id c

/-- Replaces the types of all nodes by their representatives, in order. -/
def unifyGraph (g : Graph) : Bounded Graph :=
  ((List.range g.nodes.size).map (· + 1)).foldlM unifyNode g

end Unifier

end TypeFlow
