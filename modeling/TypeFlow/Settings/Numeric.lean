/-!
# The numeric tower

Which numeric types a program has, which of them its literals have, and which type an operation on two
of them has. Without an explicit promotion a float beats an integer, the wider of two beats the
narrower, and otherwise the left operand decides.
-/

namespace TypeFlow

/-- A numeric type. -/
structure NumericKind where
  name : String := ""
  size : Int := 0
  float : Bool := false
  signed : Bool := false
  deriving DecidableEq, Repr

/-- The type of operations on two numeric types. -/
structure Promotion where
  left : String := ""
  right : String := ""
  result : String := ""
  deriving DecidableEq, Repr

/-- The numeric types of a program. -/
structure NumericTower where
  /-- The type of integer literals. -/
  intLiteral : String
  /-- The type of float literals. -/
  floatLiteral : String
  kinds : List NumericKind
  promotions : List Promotion := []
  deriving DecidableEq, Repr

namespace NumericTower

/-- Integers of one to eight bytes with and without sign, floats of four and eight bytes. -/
def default : NumericTower :=
  let integers (stem : String) (signed : Bool) :=
    [1, 2, 4, 8].map fun (size : Nat) =>
      { name := stem ++ toString (8 * size), size, signed : NumericKind }
  { intLiteral := "Int32", floatLiteral := "Float64",
    kinds := integers "Int" true ++ integers "UInt" false ++
      [{ name := "Float32", size := 4, float := true, signed := true },
       { name := "Float64", size := 8, float := true, signed := true }] }

/-- The kind of a name. -/
def kind? (n : NumericTower) (name : String) : Option NumericKind :=
  n.kinds.find? (·.name == name)

/-- The type of an operation on two numeric types. An unknown name counts as an integer of no size. -/
def promote (n : NumericTower) (left right : String) : String :=
  match n.promotions.find? fun p => p.left == left && p.right == right with
  | some p => p.result
  | none =>
    let l := (n.kind? left).getD {}
    let r := (n.kind? right).getD {}
    if l.float != r.float then if r.float then right else left
    else if r.size > l.size then right
    else left

/-- Checks that kinds have distinct names; `seen` holds those before. -/
def checkKinds (seen : List String) : List NumericKind → Except String (List String)
  | [] => .ok seen
  | k :: rest =>
    if k.name == "" then .error "numeric: kind without a name"
    else if seen.contains k.name then .error ("numeric: kind " ++ k.name ++ " declared twice")
    else checkKinds (k.name :: seen) rest

/-- Checks that literals have declared kinds. -/
def checkLiterals (seen : List String) : List String → Except String Unit
  | [] => .ok ()
  | name :: rest =>
    if seen.contains name then checkLiterals seen rest
    else .error ("numeric: literal kind " ++ name ++ " is not declared")

/-- Checks that promotions mention declared kinds only. -/
def checkPromotions (seen : List String) : List Promotion → Except String Unit
  | [] => .ok ()
  | p :: rest =>
    match [p.left, p.right, p.result].find? (!seen.contains ·) with
    | some name =>
      .error ("numeric: promotion " ++ p.left ++ "+" ++ p.right ++ " mentions undeclared kind " ++ name)
    | none => checkPromotions seen rest

/-- Checks that kinds have distinct names and that only declared kinds are mentioned. -/
def validate (n : NumericTower) : Except String Unit := do
  if n.kinds.isEmpty then .error "numeric: no kinds declared"
  else
    let seen ← checkKinds [] n.kinds
    checkLiterals seen [n.intLiteral, n.floatLiteral]
    checkPromotions seen n.promotions

end NumericTower

end TypeFlow
