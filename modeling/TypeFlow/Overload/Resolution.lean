import TypeFlow.Overload.Candidates
import TypeFlow.Overload.Cover

/-!
# Overload resolution

`Overload.select` matches argument types against candidates. If every argument is a single class, the
first candidate that accepts them is the only match. If some argument stands for several classes, all
matches count, and a cover records which combinations they accept.
-/

namespace TypeFlow

/-- A candidate that accepts the arguments, as far as it narrows them. -/
structure Match (ι : Type) where
  candidate : Candidate ι
  argTypes : List TypeId
  free : Bindings

/-- The matches of a call. -/
structure Matches (ι : Type) where
  list : List (Match ι)
  /-- Given if some argument stands for several classes. -/
  cover : Option Cover

namespace Matches

variable {ι : Type}

/-- Whether the call is accepted: there is a match, and no combination is left out. -/
def found (m : Matches ι) : Bool :=
  !m.list.isEmpty &&
    match m.cover with
    | none => true
    | some c => c.all

/-- Whether the most specific match does not accept the arguments whole. -/
def branches (m : Matches ι) (args : List TypeId) : Bool :=
  match m.list with
  | [] => false
  | first :: _ => first.argTypes != args

end Matches

namespace Overload

variable (r : Resolver) {ι : Type}

/-- Narrows arguments by the restrictions across from them, up to the first that is rejected. -/
def restrictArgs (receiver : TypeId) :
    List TypeId → List (Option TypeExpr) → Matching (Option (List TypeId))
  | [], _ => return some []
  | _ :: _, [] => return none
  | a :: as, p :: ps => do
    let got ← restrictParam r receiver a p
    if got = 0 then return none
    else return (← restrictArgs receiver as ps).map (got :: ·)

/-- Matches arguments against a candidate. -/
def «match» (c : Candidate ι) (receiver : TypeId) (args : List TypeId) : TableM (Option (Match ι)) := do
  if c.signature.params.length < args.length then return none
  else
    let (got, free) ← (restrictArgs r receiver args (c.signature.params.map Prod.snd)).run []
    return got.map fun argTypes => { candidate := c, argTypes, free }

/-- Whether a type stands for several classes. -/
def isSeveral (t : Table) (id : TypeId) : Bool :=
  match t.kind? id with
  | some .union | some .hierarchy => true
  | _ => false

/-- All matches among the candidates, or only the first one. -/
def matching (onlyFirst : Bool) (receiver : TypeId) (args : List TypeId) :
    List (Candidate ι) → TableM (List (Match ι))
  | [] => return []
  | c :: rest => do
    match ← «match» r c receiver args with
    | none => matching onlyFirst receiver args rest
    | some m =>
      if onlyFirst then return [m] else return m :: (← matching onlyFirst receiver args rest)

/-- Matches the arguments of a call on `receiver` against the candidates. -/
def select (cs : List (Candidate ι)) (receiver : TypeId) (args : List TypeId) :
    TableM (Matches ι) := do
  let several := args.any (isSeveral (← get))
  let list ← matching r (!several) receiver args cs
  if several then
    let t ← get
    return { list, cover := some (list.foldl (fun c m => c.mark t m.argTypes) (.ofArgs t args)) }
  else return { list, cover := none }

end Overload

end TypeFlow
