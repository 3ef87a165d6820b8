import TypeFlow.Types.Table

/-!
# Structural equality

Two types are equal if they have the same shape: objects with the same name, type arguments and
instance variables, and derived types with equal components. Types may be cyclic, so a pair that is
being compared already is assumed equal. Primitives, type variables, foreign structures, constants
and libraries are equal only to themselves.

The assumptions are threaded through the comparison. A pair that turns out unequal is withdrawn;
what was assumed inside it stays, except in a union, where each attempt to match a member starts from
a copy.
-/

namespace TypeFlow.Table

/-- Pairs of types assumed equal. -/
abbrev Assumptions := List (TypeId × TypeId)

/-- A comparison of two types under assumptions. -/
abbrev Comparison := TypeId → TypeId → Assumptions → Bool × Assumptions

/-- Compares pairs one after the other up to the first that is missing or unequal. -/
def compareAll (eq : Comparison) : List (Option (TypeId × TypeId)) → Assumptions → Bool × Assumptions
  | [], as => (true, as)
  | none :: _, as => (false, as)
  | some (a, b) :: rest, as =>
    match eq a b as with
    | (true, as) => compareAll eq rest as
    | (false, as) => (false, as)

/-- Finds a type equal to `a`; each attempt starts from the given assumptions. -/
def compareAny (eq : Comparison) (a : TypeId) : List TypeId → Assumptions → Option Assumptions
  | [], _ => none
  | b :: rest, as =>
    match eq a b as with
    | (true, as') => some as'
    | (false, _) => compareAny eq a rest as

/-- Finds an equal of each of `xs` among `ys`. -/
def compareMembers (eq : Comparison) (ys : List TypeId) : List TypeId → Assumptions → Bool × Assumptions
  | [], as => (true, as)
  | x :: rest, as =>
    match compareAny eq x ys as with
    | some as' => compareMembers eq ys rest as'
    | none => (false, as)

/-- The components of two objects that have to be equal, in the order of comparison. -/
def objectPairs (x y : ObjectEntry) : List (Option (TypeId × TypeId)) :=
  (if x.generic = y.generic then [] else [some (x.generic, y.generic)]) ++
    (x.typeArgs.zip y.typeArgs).map some ++
    x.ivars.map fun (n, t) => (y.ivar? n).map fun u => (t, u)

/-- Compares two entries, given the comparison of their components. -/
def compareShapes (eq : Comparison) : Entry → Entry → Assumptions → Bool × Assumptions
  | .object x, .object y, as =>
    if x.name = y.name ∧ x.isModule = y.isModule ∧ x.typeArgs.length = y.typeArgs.length ∧
        x.ivars.length = y.ivars.length then
      compareAll eq (objectPairs x y) as
    else (false, as)
  | .pointer a, .pointer b, as => eq a b as
  | .metaclass a, .metaclass b, as => eq a b as
  | .hierarchy a, .hierarchy b, as => eq a b as
  | .union xs, .union ys, as =>
    if xs.length = ys.length then compareMembers eq ys xs as else (false, as)
  | _, _, as => (false, as)

/-- Compares two types, following components at most `fuel` deep. -/
def compareUpTo (t : Table) : Nat → Comparison
  | 0, _, _, as => (true, as)
  | fuel + 1, a, b, as =>
    if a = b then (true, as)
    else
      match t.get? a, t.get? b with
      | some x, some y =>
        if x.kind ≠ y.kind then (false, as)
        else if (a, b) ∈ as then (true, as)
        else
          match compareShapes (compareUpTo t fuel) x y ((a, b) :: as) with
          | (true, as') => (true, as')
          | (false, as') => (false, as'.erase (a, b))
      | _, _ => (false, as)

/-- Whether two types are structurally equal. A comparison never nests deeper than there are pairs
of types. -/
def equal (t : Table) (a b : TypeId) : Bool :=
  (t.compareUpTo (t.size * t.size + 1) a b []).1

end TypeFlow.Table
