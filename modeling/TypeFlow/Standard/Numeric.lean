import TypeFlow.Inference.Program
import TypeFlow.Settings.Basic
import TypeFlow.Text.Basic

/-!
# Standard definitions: numbers and containers

Every numeric type gets the arithmetic operators with every other one, typed by the promotion rule of
the tower, the comparisons, and the conversions into every other one; a signed type gets its negation.
Pointers and arrays are indexed by the type of integer literals.
-/

namespace TypeFlow.Standard

/-- The arithmetic operators. -/
def arithmetic : List String :=
  ["+", "-", "*", "/"]

/-- The comparisons. -/
def comparisons : List String :=
  ["<", "<=", ">", ">="]

/-- Declares the numeric types; none of them may exist already. -/
def declareKinds : List NumericKind → Infer (List (String × TypeId))
  | [] => return []
  | k :: rest => do
    if ((← Flow.types).lookup? k.name).isSome then
      throw (.plain ("numeric kind " ++ k.name ++ " is already defined"))
    else
      let id ← Flow.onTypes (Table.definePrimitive k.name k.size Builtin.numeric
        (some { float := k.float, signed := k.signed }))
      return (k.name, id) :: (← declareKinds rest)

/-- The operations of one numeric type with another one. -/
def operations (n : NumericTower) (left right : String) : List Definition :=
  let other := [("other", TypeExpr.ofName right)]
  let result := TypeExpr.ofName (n.promote left right)
  arithmetic.map (fun op => .primitive op (some result) other) ++
    comparisons.map (fun op => .primitive op (some (TypeExpr.ofName "Bool")) other) ++
    [.primitive ("to_" ++ Text.lower right) (some (TypeExpr.ofName right)) []]

/-- All operations of a numeric type. -/
def operationsOf (n : NumericTower) (k : NumericKind) : List Definition :=
  n.kinds.flatMap (fun r => operations n k.name r.name) ++
    if k.signed then [.primitive "-" (some .self) []] else []

/-- Declares methods on a type. -/
def declareAll (owner : TypeId) : List Definition → Infer Unit
  | [] => return
  | d :: rest => do
    Infer.addMethod owner d
    declareAll owner rest

/-- Declares the operations of numeric types. -/
def declareOperations (n : NumericTower) (ids : List (String × TypeId)) : List NumericKind → Infer Unit
  | [] => return
  | k :: rest => do
    declareAll ((assoc? ids k.name).getD 0) (operationsOf n k)
    declareOperations n ids rest

/-- Declares the numeric tower. -/
def defineNumeric (n : NumericTower) : Infer Unit := do
  let ids ← declareKinds n.kinds
  match assoc? ids n.intLiteral with
  | none => throw (.plain ("integer literal kind " ++ n.intLiteral ++ " is not declared"))
  | some int =>
    match assoc? ids n.floatLiteral with
    | none => throw (.plain ("float literal kind " ++ n.floatLiteral ++ " is not declared"))
    | some float =>
      Infer.changeEnv fun e => { e with intLiteral := int, floatLiteral := float }
      declareOperations n ids n.kinds

/-- The methods of pointers. -/
def pointerMethods (size element : TypeExpr) : List Definition :=
  [.primitive "value" (some element) [],
   .primitive "value=" (some element) [("value", element)],
   .primitive "+" (some .self) [("offset", size)],
   .primitive "realloc" (some .self) [("size", size)],
   .primitive "[]" (some element) [("index", size)],
   .primitive "[]=" (some element) [("index", size), ("value", element)]]

/-- The methods of arrays. -/
def arrayMethods (size element : TypeExpr) : List Definition :=
  [.primitive "size" (some size) [],
   .primitive "[]" (some element) [("index", size)],
   .primitive "[]=" (some element) [("index", size), ("value", element)],
   .primitive "push" (some .self) [("value", element)],
   .primitive "<<" (some .self) [("value", element)]]

/-- Declares the methods of pointers and arrays, given the type of integer literals. -/
def defineContainers (int : String) : Infer Unit := do
  if ((← Flow.types).lookup? int).isNone then
    throw (.plain ("integer literal kind " ++ int ++ " is not declared"))
  else
    let size := TypeExpr.ofName int
    let element := TypeExpr.ofName "T"
    let pointers ← Flow.onTypes (Table.metaclassOf Builtin.pointer)
    Infer.addMethod pointers (.primitive "malloc" (some .self) [("size", size)])
    declareAll Builtin.pointer (pointerMethods size element)
    declareAll Builtin.array (arrayMethods size element)

end TypeFlow.Standard
