import TypeFlow.Inference.Synthesis

/-!
# Finding the overloads of a call

The overload group that a call resolves against, and what to say when there is none or when none of
its candidates applies.
-/

namespace TypeFlow

/-- The written form of a method. -/
def Method.describe (t : Table) (m : Method) : String :=
  Overload.describe (qualifiedName t m.owner m.definition.name) m.signature

namespace Infer

/-- The key of the overload group that a call asks for. -/
def keyOf (site : Site) (args : List TypeId) : GroupKey :=
  { name := site.call.name, arity := args.length, yields := site.call.block.isSome }

/-- Whether a call without receiver falls back on the top level. -/
def fallsBack (site : Site) (recv : TypeId) : Bool :=
  site.obj = 0 && recv ≠ Builtin.program

/-- Whether a call makes an object of a class. -/
def isNew (t : Table) (name : String) (recv : TypeId) : Bool :=
  name == "new" &&
    match t.kind? recv with
    | some .metaclass => true
    | _ => false

/-- A name that does not resolve at a call. -/
def undefinedAt {α : Type} (site : Site) (text : String) : Infer α :=
  undefined site.scope text

/-- All overload groups of the name of a call, as far as its message mentions them: the keys that
they are filed under. -/
def alternatives (site : Site) (recv : TypeId) : Infer (List GroupKey) := do
  let name := site.call.name
  let own ← groupsNamed recv name
  let top ← if fallsBack site recv then groupsNamed Builtin.program name else pure []
  let t ← Flow.types
  let made ← if isNew t name recv then groupsNamed (t.selfType recv) "initialize" else pure []
  return (own ++ top ++ made).map Group.key

/-- The failure of a call of an unknown name. -/
def unknownName {α : Type} (site : Site) (recv : TypeId) (args : List TypeId) : Infer α := do
  let name := site.call.name
  if site.obj ≠ 0 then
    undefinedAt site ("undefined method '" ++ name ++ "' for " ++ (← Flow.types).name recv)
  else if args.isEmpty && !site.call.hasParens then
    undefinedAt site ("undefined local variable or method '" ++ name ++ "'")
  else undefinedAt site ("undefined method '" ++ name ++ "'")

/-- The failure of a call that finds no overload group. -/
def unknownCall {α : Type} (site : Site) (recv : TypeId) (args : List TypeId) : Infer α := do
  let name := site.call.name
  match ← alternatives site recv with
  | [] => unknownName site recv args
  | keys =>
    if keys.any (·.arity = args.length) then
      if site.call.block.isNone then
        throw (.overload none
          ("'" ++ name ++ "' is expected to be invoked with a block, but no block was given") [] [])
      else
        throw (.overload none
          ("'" ++ name ++ "' is not expected to be invoked with a block, but a block was given")
          [] [])
    else throw (.arity none name args.length (Table.sortedUnique (keys.map GroupKey.arity)))

/-- The overload group of a call of `super`. -/
def lookupSuper (site : Site) (declaring : TypeId) (name : String) (recv : TypeId)
    (args : List TypeId) : Infer (Group × TypeId) := do
  let e ← env
  let key := { keyOf site args with name }
  match ← Flow.onTypes (e.findSuperGroup? recv declaring key) with
  | some g => return (g, recv)
  | none => undefinedAt site ("undefined method 'super' for " ++ (← Flow.types).name recv)

/-- The overload group of a call that is declared. -/
def lookupDeclared? (site : Site) (recv : TypeId) (key : GroupKey) :
    Infer (Option (Group × TypeId)) := do
  let inherited (g : Group) : Infer Bool := do
    if isNew (← Flow.types) key.name recv && g.owner ≠ recv then isSynthetic g else return false
  let own ← findGroup? recv key
  let own ← match own with
    | some g => if ← inherited g then pure none else pure (some (g, recv))
    | none => pure none
  match own with
  | some found => return some found
  | none =>
    if fallsBack site recv then
      return (← findGroup? Builtin.program key).map fun g => (g, Builtin.program)
    else return none

/-- The overload group of a call that is made on demand. -/
def lookupMade? (site : Site) (recv : TypeId) (key : GroupKey) : Infer (Option Group) := do
  let loc := site.call.mark.loc
  let made ← if isNew (← Flow.types) key.name recv then defineNew recv key loc else pure none
  match made with
  | some g => return some g
  | none => defineMissing recv key loc

/-- The overload group that a call resolves against, and the receiver its instances belong to. -/
def lookup (site : Site) (recv : TypeId) (args : List TypeId) : Infer (Group × TypeId) := do
  match site.super with
  | some (declaring, name) => lookupSuper site declaring name recv args
  | none =>
    let key := keyOf site args
    match ← lookupDeclared? site recv key with
    | some found => return found
    | none =>
      match ← lookupMade? site recv key with
      | some g => return (g, recv)
      | none => unknownCall site recv args

/-! ### No candidate applies -/

/-- The first argument that a parameter rejects, counted from zero, with its type and the
restriction. -/
def firstRejected (owner : TypeId) :
    Nat → List TypeId → List (Option TypeExpr) → Infer (Option (Nat × TypeId × Option TypeExpr))
  | i, a :: as, p :: ps => do
    let (got, _) ← Flow.onTypes ((Overload.restrictParam Table.resolveType? owner a p).run [])
    if got = 0 then return some (i, a, p) else firstRejected owner (i + 1) as ps
  | _, _, _ => return none

/-- The failure of a call of a primitive with an argument that it rejects. -/
def rejectedArgument (owner : TypeId) (name : String) (i : Nat) (arg : TypeId)
    (restriction : Option TypeExpr) : Infer Failure := do
  let wanted ←
    match restriction with
    | none => pure none
    | some e => Flow.onTypes (Overload.resolve Table.resolveType? owner e)
  let t ← Flow.types
  let want :=
    match wanted with
    | some id => t.name id
    | none => "?"
  return .mismatch none ("argument #" ++ toString (i + 1) ++ " to " ++ qualifiedName t owner name ++
    " must be " ++ want ++ ", not " ++ t.name arg)

/-- The method of a group that is a single primitive. -/
def singlePrimitive? (g : Group) : Infer (Option Method) := do
  match g.candidates with
  | [c] =>
    let m ← method c.id
    match m.kind with
    | .primitive => return some m
    | _ => return none
  | _ => return none

/-- The failure of a call that no candidate accepts, with the candidates and the combinations that
are left out. -/
def noCandidate (g : Group) (owner : TypeId) (args : List TypeId) (cover : Option Cover) :
    Infer Failure := do
  let t ← Flow.types
  let ms := (← env).methods
  let name := qualifiedName t owner g.key.name
  let text := "no overload matches '" ++ name ++ "'" ++
    if args.isEmpty then "" else " with types " ++ t.nameList args
  let overloads := g.candidates.filterMap fun c => (ms[c.id]?).map (Method.describe t)
  let missing :=
    match cover with
    | none => []
    | some c => c.missing.map t.nameList
  return .overload none text overloads missing

/-- Why a call is not accepted by an overload group. A primitive without alternatives names the
argument that it rejects. -/
def noOverload {α : Type} (g : Group) (owner : TypeId) (args : List TypeId)
    (ms : Matches MethodId) : Infer α := do
  let primitive ← if ms.cover.isNone then singlePrimitive? g else pure none
  let rejected ←
    match primitive with
    | none => pure none
    | some m => firstRejected owner 0 args (m.definition.params.map (·.restriction))
  match rejected with
  | some (i, a, p) => throw (← rejectedArgument owner g.key.name i a p)
  | none => throw (← noCandidate g owner args ms.cover)

/-- The overload group of a call with its matches, which have to accept it. -/
def matchCall (site : Site) (recv : TypeId) (args : List TypeId) :
    Infer (TypeId × Matches MethodId) := do
  let (g, owner) ← lookup site recv args
  let ms ← Flow.onTypes (Overload.select Table.resolveType? g.candidates owner args)
  if ms.found then return (owner, ms)
  else noOverload g owner args ms

end Infer

end TypeFlow
