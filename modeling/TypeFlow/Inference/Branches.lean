import TypeFlow.Inference.Edits
import TypeFlow.Inference.Engine

/-!
# Branches and loops

A condition narrows the variables it mentions in the branch where it holds: inside the branch each of
them is a narrowed view of itself. Views are dropped when the branch is left, also by a failure.
-/

namespace TypeFlow

/-- A filter for a variable. -/
structure Narrowing where
  name : String
  filter : Filter

namespace Infer

/-- What a condition implies where it holds. -/
def conditionFilters (s : ScopeId) (cond : Placed) : Infer (List Narrowing) := do
  match cond.form with
  | .localVar name _ => return [⟨name, .notNil⟩]
  | .assign (some target) _ =>
    match Placed.localName? target with
    | some name => return [⟨name, .notNil⟩]
    | none => return []
  | .isA (some obj) (some type) =>
    match Placed.localName? obj with
    | none => return []
    | some name =>
      let t ← resolveType s type
      return [⟨name, .isA t (TypeExpr.render type)⟩]
  | .respondsTo (some obj) method =>
    match Placed.localName? obj with
    | none => return []
    | some name => return [⟨name, .respondsTo method⟩]
  | _ => return []

/-- The types that the conditions of a clause list, with their written forms; none if one of them is
not a type. -/
def clauseTypes (s : ScopeId) : List Placed → Infer (Option (List (TypeId × String)))
  | [] => return some []
  | c :: rest => do
    match c.form with
    | .path names typeArgs =>
      let t ← lookupPath s (names.getD []) (typeArgs.getD [])
      match (← Flow.types).kind? t with
      | some .const | some .lib => return none
      | _ =>
        let label := String.intercalate "::" (names.getD [])
        return (← clauseTypes s rest).map ((t, label) :: ·)
    | _ => return none

/-- What a clause implies for a variable that is the subject of a case distinction. Clauses that
compare with values imply nothing. -/
def clauseFilters (s : ScopeId) (subject : Option Placed) (conds : List Placed) :
    Infer (List Narrowing) := do
  match subject.bind Placed.localName?, conds with
  | none, _ => return []
  | _, [] => return []
  | some name, conds =>
    match ← clauseTypes s conds with
    | none => return []
    | some targets =>
      let t ← Flow.onTypes (Table.unionOf (targets.map Prod.fst))
      return [⟨name, .isA t (String.intercalate " | " (targets.map Prod.snd))⟩]

end Infer

namespace Engine

variable (e : Engine)

/-- Narrowed views of variables; a name that stands for none has no view. -/
def views (s : ScopeId) : List Narrowing → Infer (List (String × NodeId))
  | [] => return []
  | n :: rest => do
    match (← Infer.env).lookupVar? s n.name with
    | none => views s rest
    | some var =>
      let id ← Flow.newNode (n.name ++ " " ++ n.filter.render)
      Flow.changeGraph (·.setFilter id n.filter)
      e.connect id [var]
      return (n.name, id) :: (← views s rest)

/-- Types a branch with narrowed views of variables. -/
def narrowing (s : ScopeId) (ns : List Narrowing) (branch : Option Placed) : Infer Unit := do
  let layer ← e.views s ns
  Infer.changeScope s fun sc => { sc with filters := layer :: sc.filters }
  let outcome ← Flow.attempt (e.visitOption s branch)
  Infer.changeScope s fun sc => { sc with filters := sc.filters.tail }
  match outcome with
  | .ok _ => return
  | .error f => throw f

/-- What an optional condition implies where it holds. -/
def filtersOf (s : ScopeId) : Option Placed → Infer (List Narrowing)
  | none => return []
  | some c => Infer.conditionFilters s c

/-- Types a condition, then the branch where it holds, then the other one. -/
def branches (s : ScopeId) (cond truthy falsy : Option Placed) : Infer Unit := do
  e.visitOption s cond
  let ns ← filtersOf s cond
  if truthy.isSome then e.narrowing s ns truthy
  e.visitOption s falsy

/-- Types a conditional; its value is that of a branch, nil if it is missing. -/
def visitIf (s : ScopeId) (n : Placed) (cond yes no : Option Placed) : Infer Unit := do
  e.branches s cond yes no
  let a ← Infer.nodeOrNil yes
  let b ← Infer.nodeOrNil no
  e.bind n [a, b]

/-- Types a negated conditional: the condition holds in the second branch. -/
def visitUnless (s : ScopeId) (n : Placed) (cond yes no : Option Placed) : Infer Unit := do
  e.branches s cond no yes
  let a ← Infer.nodeOrNil yes
  let b ← Infer.nodeOrNil no
  e.bind n [a, b]

/-- Types the clauses of a case distinction: the nodes of their values. -/
def clauses (s : ScopeId) (subject : Option Placed) : List (When Placed) → Infer (List NodeId)
  | [] => return []
  | w :: rest => do
    let conds := w.conds.getD []
    e.visitAll s conds
    let ns ← Infer.clauseFilters s subject conds
    e.narrowing s ns w.body
    let value ← Infer.nodeOrNil w.body
    return value :: (← clauses s subject rest)

/-- Types a case distinction. -/
def visitCase (s : ScopeId) (n : Placed) (subject : Option Placed) (whens : List (When Placed))
    (no : Option Placed) : Infer Unit := do
  e.visitOption s subject
  let values ← e.clauses s subject whens
  e.visitOption s no
  let last ← Infer.nodeOrNil no
  e.bind n (values ++ [last])

/-- Types the body of a loop, and says whether it is left by `break`. -/
def loopBody (s : ScopeId) (target : NodeId) (body : Option Placed) : Infer Bool := do
  Infer.changeScope s fun sc => { sc with loops := { target } :: sc.loops }
  let outcome ← Flow.attempt (e.visitOption s body)
  let broke := (((← Infer.scope s).loops.head?).map Loop.broke).getD false
  Infer.changeScope s fun sc => { sc with loops := sc.loops.tail }
  match outcome with
  | .ok _ => return broke
  | .error f => throw f

/-- Whether a condition is the literal true. -/
def isTrue (cond : Option Placed) : Bool :=
  match cond.map Tree.form with
  | some (.boolLiteral value) => value
  | _ => false

/-- Types a loop. One that cannot end has no value. -/
def visitWhile (s : ScopeId) (n : Placed) (cond body : Option Placed) : Infer Unit := do
  e.visitOption s cond
  let broke ← e.loopBody s (← Infer.nodeOf n) body
  if isTrue cond && !broke then e.setType n Builtin.noReturn
  else e.bind n [Infer.nilNode]

/-- Types a `return`: its value joins the result of the instance. -/
def visitReturn (s : ScopeId) (n : Placed) (value : Option Placed) : Infer Unit := do
  match (← Infer.scope s).inst with
  | none => throw (.malformed n.loc "can't return from the top level")
  | some i =>
    e.visitOption s value
    let inst ← Infer.instanceOf i
    e.connect inst.result [← Infer.nodeOrNil value]
    e.setType n Builtin.noReturn

/-- Notes that the innermost loop is left. -/
def noteBreak (s : ScopeId) : Infer Unit :=
  Infer.changeScope s fun sc =>
    match sc.loops with
    | [] => sc
    | l :: rest => { sc with loops := { l with broke := true } :: rest }

/-- Types a `break`: its value joins that of the loop or call that is left. -/
def visitBreak (s : ScopeId) (n : Placed) (value : Option Placed) : Infer Unit := do
  if (← Infer.scope s).loops.isEmpty then throw (.malformed n.loc "Invalid break")
  else
    e.visitOption s value
    noteBreak s
    match (← Infer.scope s).loops with
    | [] => return
    | l :: _ =>
      e.connect l.target [← Infer.nodeOrNil value]
      e.setType n Builtin.noReturn

end Engine

end TypeFlow
