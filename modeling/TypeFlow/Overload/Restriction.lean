import TypeFlow.TypeExpr.Basic
import TypeFlow.Types.Lookup
import TypeFlow.Types.Subtyping

/-!
# Restrictions

A parameter may be restricted by a written type. `Overload.resolve` gives the type that it stands for
when every name in it is known; `Overload.restrict` narrows an argument type to the part that it
admits. A name that is not known is a free type variable: its first occurrence binds it to the
argument type there, and every later one has to agree.
-/

namespace TypeFlow

/-- The types that free type variables are bound to. -/
abbrev Bindings := List (String × TypeId)

/-- The type that a free type variable is bound to. -/
def Bindings.get? (b : Bindings) (name : String) : Option TypeId :=
  (b.find? fun (n, _) => n == name).map Prod.snd

/-- Matching an argument type: it may add types and bind free type variables. -/
abbrev Matching := StateT Bindings TableM

namespace Overload

variable (r : Resolver)

mutual

/-- The type that a written type stands for inside `owner`; none if a name in it is unknown. A
generic name with an unknown argument stands for the generic class. -/
def resolve (owner : TypeId) : TypeExpr → TableM (Option TypeId)
  | .self => return some ((← get).selfType owner)
  | .union alternatives => do
    match ← resolveAll owner alternatives with
    | some members => return some (← Table.unionOf members)
    | none => return none
  | .named names args => do
    match r (← get) owner names with
    | none => return none
    | some t =>
      if args.isEmpty then return some t
      else
        match ← resolveAll owner args with
        | none => return some t
        | some given =>
          match ← Table.instantiate t given with
          | .ok id => return some id
          | .error _ => return none

/-- The types that several written types stand for; none as soon as one is unknown. -/
def resolveAll (owner : TypeId) : List TypeExpr → TableM (Option (List TypeId))
  | [] => return some []
  | e :: rest => do
    match ← resolve owner e with
    | none => return none
    | some t =>
      match ← resolveAll owner rest with
      | none => return none
      | some ts => return some (t :: ts)

end

/-- The type arguments of a type that is an instance of a generic class. -/
def instanceArgs (t : Table) (id template : TypeId) : List TypeId :=
  match t.get? id with
  | some (.pointer pointee) => if template = Builtin.pointer then [pointee] else []
  | some (.object o) => if o.generic = template then o.typeArgs else []
  | _ => []

/-- The free type variable that a path of names may be: a single name that is not empty. -/
def freeName? : List String → Option String
  | [name] => if name = "" then none else some name
  | _ => none

/-- The part of an argument type that a name without type arguments admits. -/
def restrictName (owner arg : TypeId) (names : List String) : Matching TypeId := do
  match (freeName? names).bind (← get).get? with
  | some bound => Table.restrict arg bound
  | none =>
    match r (← getThe Table) owner names, freeName? names with
    | some t, _ => Table.restrict arg t
    | none, some name =>
      modify ((name, arg) :: ·)
      return arg
    | none, none => return 0

mutual

/-- The part of an argument type that a written type admits as seen from `owner`; zero if it rejects
the argument altogether. -/
def restrict (owner arg : TypeId) : TypeExpr → Matching TypeId
  | .self => do Table.restrict arg ((← getThe Table).selfType owner)
  | .union alternatives => do
    let parts ← restrictEach owner arg alternatives
    Table.unionOf (parts.filter (· ≠ 0))
  | .named names args => do
    if args.isEmpty then restrictName r owner arg names
    else
      let t ← getThe Table
      match r t owner names with
      | none => return 0
      | some template =>
        let kept ← (t.members arg).filterM fun m => do
          let given := instanceArgs (← getThe Table) m template
          if given.length ≠ args.length then return false
          else agree owner given args
        Table.unionOf kept

/-- The parts of an argument type that several written types admit. -/
def restrictEach (owner arg : TypeId) : List TypeExpr → Matching (List TypeId)
  | [] => return []
  | e :: rest => return (← restrict owner arg e) :: (← restrictEach owner arg rest)

/-- Whether written types admit the given types whole, checked up to the first that does not. -/
def agree (owner : TypeId) (given : List TypeId) : List TypeExpr → Matching Bool
  | [] => return true
  | e :: rest => do
    match given with
    | [] => return true
    | t :: more =>
      if (← restrict owner t e) = t then agree owner more rest else return false

end

/-- The part of an argument type that a parameter admits. -/
def restrictParam (owner arg : TypeId) : Option TypeExpr → Matching TypeId
  | none => return arg
  | some e => restrict r owner arg e

end Overload

end TypeFlow
