import TypeFlow.Types.Table

/-!
# Ancestry

Where a type stands in the class tree. `ancestors` lists a type and everything it inherits from,
nearest first, following the included modules of each type before its parent; `subtree` lists a class
and everything declared below it. `concrete` is the set of classes that a value of a type may have.
-/

namespace TypeFlow.Table

/-- Inserts a number into an increasing list, unless it is there. -/
def insertSorted (x : TypeId) : List TypeId → List TypeId
  | [] => [x]
  | y :: rest =>
    if x < y then x :: y :: rest else if x = y then y :: rest else y :: insertSorted x rest

/-- The distinct members of a list in increasing order. -/
def sortedUnique (ids : List TypeId) : List TypeId :=
  ids.foldr insertSorted []

/-- The types a type inherits from directly: its included modules, then its parent. -/
def inheritsFrom (t : Table) (id : TypeId) : List TypeId :=
  (match t.object? id with
    | some o => o.includes
    | none => []) ++ [t.parent id]

/-- Adds a type and all it inherits from to those seen, latest first, following links at most `fuel`
deep. -/
def visitAncestors (t : Table) : Nat → List TypeId → TypeId → List TypeId
  | 0, seen, _ => seen
  | fuel + 1, seen, id =>
    if id = 0 ∨ id ∈ seen then seen
    else (t.inheritsFrom id).foldl (visitAncestors t fuel) (id :: seen)

/-- A type followed by every type it inherits from, nearest first. -/
def ancestors (t : Table) (id : TypeId) : List TypeId :=
  (t.visitAncestors (t.size + 1) [] id).reverse

/-- A class and every class below it, to a depth of at most `fuel`. -/
def subtreeUpTo (t : Table) : Nat → TypeId → List TypeId
  | 0, id => [id]
  | fuel + 1, id =>
    id :: (match t.object? id with
      | some o => o.subclasses
      | none => []).flatMap (subtreeUpTo t fuel)

/-- A class and every class below it, each before those below it. -/
def subtree (t : Table) (id : TypeId) : List TypeId :=
  t.subtreeUpTo t.size id

/-- The classes that a value of a type may have, in increasing order. -/
def concrete (t : Table) (id : TypeId) : List TypeId :=
  sortedUnique <| (t.members id).flatMap fun m =>
    match t.get? m with
    | some (.hierarchy base) => t.subtree base
    | _ => [m]

/-- The number of superclasses above a class, counting at most `fuel`. -/
def depthUpTo (t : Table) : Nat → TypeId → Nat
  | 0, _ => 0
  | fuel + 1, id => if t.superclass id = 0 then 0 else depthUpTo t fuel (t.superclass id) + 1

/-- The number of superclasses above a class. -/
def depth (t : Table) (id : TypeId) : Nat :=
  t.depthUpTo t.size id

/-- Whether a class is another one or descends from it, climbing at most `fuel` steps. -/
def descendsUpTo (t : Table) (super : TypeId) : Nat → TypeId → Bool
  | 0, _ => false
  | fuel + 1, id =>
    if id = 0 then false
    else if id = super then true
    else descendsUpTo t super fuel (t.superclass id)

/-- Whether a class is another one or descends from it. -/
def isSubclassOf (t : Table) (id super : TypeId) : Bool :=
  t.descendsUpTo super (t.size + 1) id

/-- The ancestor of a class directly below a root, climbing at most `fuel` steps; zero for a root and
for anything that is not a class. -/
def topUpTo (t : Table) : Nat → TypeId → TypeId
  | 0, _ => 0
  | fuel + 1, id =>
    let super := t.superclass id
    if super = 0 then 0
    else if t.superclass super = 0 then id
    else topUpTo t fuel super

/-- The ancestor of a class directly below a root. -/
def topAncestor (t : Table) (id : TypeId) : TypeId :=
  t.topUpTo t.size id

/-- Climbs a number of superclasses. -/
def climb (t : Table) : Nat → TypeId → TypeId
  | 0, id => id
  | n + 1, id => climb t n (t.superclass id)

/-- Climbs from two classes in step until they meet, at most `fuel` times. -/
def meet (t : Table) : Nat → TypeId → TypeId → TypeId
  | 0, a, _ => a
  | fuel + 1, a, b => if a = b then a else meet t fuel (t.superclass a) (t.superclass b)

/-- The nearest common ancestor of two classes: both climb to the same depth, then in step. -/
def commonAncestor (t : Table) (a b : TypeId) : TypeId :=
  let a' := t.climb (t.depth a - t.depth b) a
  let b' := t.climb (t.depth b - t.depth a') b
  t.meet t.size a' b'

end TypeFlow.Table
