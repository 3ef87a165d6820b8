import TypeFlow.Types.Ancestry

/-!
# Covers

When an argument type stands for several classes, every combination of classes has to be accepted by
some candidate. A cover records which combinations are. Combinations are numbered so that the last
argument varies fastest; `Overload.product` lists them in that order.
-/

namespace TypeFlow

namespace Overload

/-- All combinations of one member from each list, the last varying fastest. -/
def product : List (List TypeId) → List (List TypeId)
  | [] => [[]]
  | dim :: rest => dim.flatMap fun m => (product rest).map (m :: ·)

end Overload

/-- Which combinations of classes are accepted. -/
structure Cover where
  /-- The classes of each argument. -/
  dims : List (List TypeId)
  /-- For every combination by number whether it is accepted. -/
  marks : List Bool

namespace Cover

/-- The cover of argument types that accepts nothing yet. -/
def ofArgs (t : Table) (args : List TypeId) : Cover :=
  let dims := args.map t.concrete
  { dims, marks := List.replicate (dims.foldl (fun n d => n * d.length) 1) false }

/-- The number of combinations. -/
def size (c : Cover) : Nat :=
  c.marks.length

/-- Decodes a number over the reversed arguments: the combination, last argument first. -/
def decode : List (List TypeId) → Nat → List TypeId
  | [], _ => []
  | dim :: rest, n => dim.getD (n % dim.length) 0 :: decode rest (n / dim.length)

/-- The combination with a number. -/
def tuple (c : Cover) (n : Nat) : List TypeId :=
  (decode c.dims.reverse n).reverse

/-- Whether a combination lies within the allowed classes of each argument. -/
def within : List (List TypeId) → List TypeId → Bool
  | _, [] => true
  | [], _ :: _ => false
  | allowed :: rest, m :: ms => allowed.contains m && within rest ms

/-- Accepts every combination whose classes lie within the given types. -/
def mark (t : Table) (c : Cover) (restricted : List TypeId) : Cover :=
  let allowed := restricted.map t.concrete
  { c with marks := c.marks.mapIdx fun n b => b || within allowed (c.tuple n) }

/-- Whether every combination is accepted. -/
def all (c : Cover) : Bool :=
  c.marks.all id

/-- The combinations that are not accepted, in order. -/
def missing (c : Cover) : List (List TypeId) :=
  (c.marks.zipIdx.filter fun (b, _) => !b).map fun (_, n) => c.tuple n

end Cover

end TypeFlow
