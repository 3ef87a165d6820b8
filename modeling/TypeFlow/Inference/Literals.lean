import TypeFlow.Inference.Engine

/-!
# Literals

The types of literals. A numeric literal has the type its suffix names, or else the one configured for
its sort. An array literal is an array of the join of its elements, or of the type written after it,
which every element then has to fit.
-/

namespace TypeFlow

namespace Infer

/-- The numeric properties of a type. -/
def numeric? (t : Table) (id : TypeId) : Option Numeric :=
  match t.get? id with
  | some (.primitive p) => p.numeric
  | _ => none

/-- The type of a numeric literal. -/
def numericLiteral (s : ScopeId) (suffix : String) (default : TypeId) (float : Bool) :
    Infer TypeId := do
  if suffix == "" then
    if default = 0 then throw (.plain "no numeric literal kinds are defined") else return default
  else
    let t ← Flow.types
    let found := (t.lookup? suffix).bind fun id => (numeric? t id).map fun n => (id, n)
    match found with
    | none => undefined s ("unknown numeric suffix " ++ suffix)
    | some (id, n) =>
      if float && !n.float then
        throw (.mismatch none ("invalid suffix " ++ suffix ++ " for a float literal"))
      else return id

end Infer

namespace Engine

variable (e : Engine)

/-- Types an integer literal. -/
def visitInt (s : ScopeId) (n : Placed) (suffix : String) : Infer Unit := do
  let t ← Infer.numericLiteral s suffix (← Infer.env).intLiteral false
  e.setType n t

/-- Types a float literal. -/
def visitFloat (s : ScopeId) (n : Placed) (suffix : String) : Infer Unit := do
  let t ← Infer.numericLiteral s suffix (← Infer.env).floatLiteral true
  e.setType n t

/-- Types a symbol literal. -/
def visitSymbol (n : Placed) (name : String) : Infer Unit := do
  Infer.addSymbol name
  e.setType n Builtin.symbol

/-- Checks the elements of an array literal against its element type. -/
def checkElements (element : NodeId) : List Placed → Infer Unit
  | [] => return
  | x :: rest => do
    let id ← Infer.nodeOf x
    Flow.locating x.loc (e.connect element [id])
    checkElements element rest

/-- Types an array literal with a written element type. -/
def visitArrayOf (s : ScopeId) (n : Placed) (elements : List Placed) (of : TypeExpr) :
    Infer Unit := do
  let of ← Infer.resolveType s of
  let array ← Infer.instantiateType Builtin.array [of]
  if !elements.isEmpty then
    let element ← Flow.newNode ("[] of " ++ (← Flow.types).name of)
    Flow.freeze element of
    e.checkElements element elements
  e.setType n array

/-- Types an array literal. -/
def visitArray (s : ScopeId) (n : Placed) (elements : List Placed) (of : Option TypeExpr) :
    Infer Unit := do
  e.visitAll s elements
  match of with
  | some of => e.visitArrayOf s n elements of
  | none =>
    if elements.isEmpty then
      throw (.malformed n.loc "for empty arrays use '[] of ElementType'")
    else
      let id ← Infer.nodeOf n
      Flow.changeGraph (·.setMapping id .array)
      e.connect id (← Infer.nodesOf elements)

end Engine

end TypeFlow
