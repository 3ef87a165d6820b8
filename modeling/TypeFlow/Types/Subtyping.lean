import TypeFlow.Types.Merge

/-!
# Which types fit where

`implements` says whether every value of a type is acceptable where another type is expected, by
identity, inheritance, inclusion of modules, membership in a union, or structural equality of
objects. `restrict` narrows a type to the part that is acceptable.
-/

namespace TypeFlow.Table

/-- Whether a type that is neither a union nor a hierarchy nor a metaclass fits a target that is no
union. -/
def fits (t : Table) (id target : TypeId) : Bool :=
  let base :=
    match t.get? target with
    | some (.hierarchy b) => b
    | _ => target
  (t.ancestors id).contains base ||
    ((t.object? id).isSome && (t.object? base).isSome && t.equal id base)

/-- Whether a type fits a target, following components at most `fuel` deep. -/
def implementsUpTo (t : Table) : Nat → TypeId → TypeId → Bool
  | 0, _, _ => false
  | fuel + 1, id, target =>
    if id = target then true
    else if id = 0 ∨ target = 0 then false
    else
      match t.get? target, t.get? id with
      | some (.union ms), _ => ms.any (implementsUpTo t fuel id ·)
      | _, some (.union ms) => ms.all (implementsUpTo t fuel · target)
      | _, some (.hierarchy base) => implementsUpTo t fuel base target
      | some (.metaclass b), some (.metaclass a) => implementsUpTo t fuel a b
      | _, some (.metaclass _) => false
      | _, _ => t.fits id target

/-- Whether every value of a type is acceptable where `target` is expected. -/
def «implements» (t : Table) (id target : TypeId) : Bool :=
  t.implementsUpTo (2 * t.size + 1) id target

/-- The classes below `base` that fit the restriction, as hierarchies. -/
def restrictBelow (restriction : TypeId) : Nat → TypeId → TableM TypeId
  | 0, _ => return 0
  | fuel + 1, base => do
    let t ← get
    if t.implements base restriction then hierarchyOf base
    else
      let below := (t.object? base).map ObjectEntry.subclasses
      let parts ← (below.getD []).mapM (restrictBelow restriction fuel)
      unionOf (parts.filter (· ≠ 0))

/-- The part of a type that fits the restriction, following components at most `fuel` deep. -/
def restrictUpTo : Nat → TypeId → TypeId → TableM TypeId
  | 0, _, _ => return 0
  | fuel + 1, id, restriction => do
    let t ← get
    if id = 0 then return 0
    else if restriction = 0 ∨ id = restriction then return id
    else
      match t.get? restriction, t.get? id with
      | some (.typeVar _), _ => return id
      | _, some (.union ms) =>
        let parts ← ms.mapM (restrictUpTo fuel · restriction)
        unionOf (parts.filter (· ≠ 0))
      | _, some (.hierarchy base) => restrictBelow restriction t.size base
      | some (.union ms), _ =>
        let parts ← ms.mapM (restrictUpTo fuel id ·)
        unionOf (parts.filter (· ≠ 0))
      | _, _ => return if t.implements id restriction then id else 0

/-- The part of a type that fits the restriction; zero if there is none. -/
def restrict (id restriction : TypeId) : TableM TypeId := do
  restrictUpTo (2 * (← get).size + 1) id restriction

/-- The members of a type that fit a target. -/
def filterBy (id target : TypeId) : TableM TypeId := do
  let t ← get
  unionOf ((t.members id).filter (t.implements · target))

/-- A type without one of its members. -/
def without (id drop : TypeId) : TableM TypeId := do
  unionOf (((← get).members id).filter (· ≠ drop))

end TypeFlow.Table

/-! ### Narrowing in branches

Inside a branch a variable has only the part of its type for which the condition of the branch can
hold. A `Filter` says which part that is. -/

namespace TypeFlow

/-- The part of a type for which a condition can hold. -/
inductive Filter where
  /-- What fits a target, which was written as `label`. -/
  | isA (target : TypeId) (label : String)
  /-- Everything but nil. -/
  | notNil
  /-- The classes that have a method of a name. -/
  | respondsTo (name : String)
  deriving DecidableEq, Repr

namespace Filter

/-- The written form of a filter. -/
def render : Filter → String
  | .isA _ label => "is_a?(" ++ label ++ ")"
  | .notNil => "not_nil"
  | .respondsTo name => "responds_to?(:" ++ name ++ ")"

/-- Narrows a type; `responds` says whether a class has a method of a name. The result is zero if
nothing is left. -/
def apply (responds : TypeId → String → TableM Bool) (f : Filter) (id : TypeId) : TableM TypeId := do
  match f with
  | .isA target _ => Table.restrict id target
  | .notNil => Table.without id Builtin.nil
  | .respondsTo name =>
    let kept ← ((← get).concrete id).filterM (responds · name)
    Table.merge kept

end Filter

end TypeFlow
