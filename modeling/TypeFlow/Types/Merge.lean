import TypeFlow.Types.Ancestry
import TypeFlow.Types.Equality

/-!
# Joining types

`merge` is the join of several types: unions are flattened, structurally equal members collapse to
the one with the lowest number, `NoReturn` is absorbed by any other member, and classes that share an
ancestor below a root combine into the hierarchy of their nearest common ancestor. A single member
that is left is the result; no members are no type. `unionOf` does the same without combining.
-/

namespace TypeFlow.Table

/-- Keeps the types that equal no earlier one; `kept` holds the earlier ones, latest first. -/
def dropEqual (t : Table) (kept : List TypeId) : List TypeId → List TypeId
  | [] => kept.reverse
  | id :: rest =>
    if kept.reverse.any (t.equal · id) then dropEqual t kept rest else dropEqual t (id :: kept) rest

/-- The members of several types, without repetitions and in increasing order. -/
def flatten (t : Table) (ids : List TypeId) : List TypeId :=
  let all := ids.flatMap t.members
  let rest := all.filter (· ≠ Builtin.noReturn)
  match t.dropEqual [] (sortedUnique rest) with
  | [] => if Builtin.noReturn ∈ all then [Builtin.noReturn] else []
  | out => out

/-- The union of members that are flat; a single member is itself. -/
def internUnion : List TypeId → TableM TypeId
  | [] => return 0
  | [id] => return id
  | ids => intern (.union ids)

/-- The union of several types. -/
def unionOf (ids : List TypeId) : TableM TypeId := do
  internUnion ((← get).flatten ids)

/-- The class that a member contributes to a combination, and whether it stands for all classes below
it too. -/
def combinable? (t : Table) (id : TypeId) : Option (TypeId × Bool) :=
  match t.get? id with
  | some (.hierarchy base) => some (base, true)
  | some (.object o) =>
    if o.isModule || o.isTemplate || o.generic != 0 then none else some (id, false)
  | _ => none

/-- Members that share the ancestor `top` directly below a root. -/
structure Family where
  top : TypeId
  /-- Their nearest common ancestor. -/
  ancestor : TypeId
  /-- Whether there are several of them or one that is a hierarchy. -/
  whole : Bool

/-- Adds a class to its family. -/
def joinFamily (t : Table) (top base : TypeId) (whole : Bool) : List Family → List Family
  | [] => [⟨top, base, whole⟩]
  | f :: rest =>
    if f.top = top then ⟨top, t.commonAncestor f.ancestor base, true⟩ :: rest
    else f :: joinFamily t top base whole rest

/-- Splits members into those that do not combine and the families of the others. -/
def families (t : Table) : List TypeId → List TypeId × List Family → List TypeId × List Family
  | [], acc => acc
  | m :: rest, (single, fs) =>
    match t.combinable? m with
    | none => families t rest (single ++ [m], fs)
    | some (base, whole) =>
      if t.topAncestor base = 0 then families t rest (single ++ [m], fs)
      else families t rest (single, t.joinFamily (t.topAncestor base) base whole fs)

/-- Replaces the members of each family by one type. -/
def combine (ids : List TypeId) : TableM (List TypeId) := do
  let (single, fs) := (← get).families ids ([], [])
  let combined ← fs.mapM fun f => if f.whole then hierarchyOf f.ancestor else pure f.ancestor
  return sortedUnique (single ++ combined)

/-- The join of several types. -/
def merge (ids : List TypeId) : TableM TypeId := do
  match (← get).flatten ids with
  | [] => return 0
  | ms => internUnion (← combine ms)

end TypeFlow.Table
