import TypeFlow.Overload.Restriction

/-!
# Overload candidates

The methods of one name that a call may choose from, ordered so that a more specific one comes before
the ones it restricts; the others stay in the order of their declaration. Inserting a candidate with
the same restrictions as an earlier one replaces it.
-/

namespace TypeFlow

/-- What overload resolution knows of a method. -/
structure Signature where
  /-- The type that declares it, from which its restrictions are seen. -/
  owner : TypeId
  /-- The names of the parameters and their restrictions. -/
  params : List (String × Option TypeExpr)

/-- A signature of something. -/
structure Candidate (ι : Type) where
  id : ι
  signature : Signature

namespace Overload

/-- The written form of a restriction; empty if there is none. -/
def restrictionText : Option TypeExpr → String
  | none => ""
  | some e => TypeExpr.render e

/-- Whether two signatures have the same restrictions, as written. -/
def sameRestrictions (a b : Signature) : Bool :=
  a.params.map (fun (_, e) => restrictionText e) == b.params.map (fun (_, e) => restrictionText e)

/-- The written form of a signature. -/
def describe (name : String) (s : Signature) : String :=
  name ++ "(" ++ String.intercalate ", " (s.params.map fun (n, e) =>
    match e with
    | none => n
    | some e => n ++ " : " ++ TypeExpr.render e) ++ ")"

variable (r : Resolver)

/-- Whether a restriction is at least as specific as another one. -/
def isRestriction (ownerA ownerB : TypeId) : Option TypeExpr → Option TypeExpr → TableM Bool
  | _, none => return true
  | none, some _ => return false
  | some a, some b => do
    let ta ← resolve r ownerA a
    let tb ← resolve r ownerB b
    match ta, tb with
    | some x, some y => return (← get).implements x y
    | _, _ => return TypeExpr.render a == TypeExpr.render b

/-- Whether every parameter is at least as specific as the one across from it; parameters without
counterpart do not count. -/
def allRestrictions (ownerA ownerB : TypeId) :
    List (Option TypeExpr) → List (Option TypeExpr) → TableM Bool
  | a :: as, b :: bs => do
    if ← isRestriction r ownerA ownerB a b then allRestrictions ownerA ownerB as bs
    else return false
  | _, _ => return true

/-- Whether a signature is at least as specific as another one. -/
def isRestrictionOf (a b : Signature) : TableM Bool :=
  allRestrictions r a.owner b.owner (a.params.map Prod.snd) (b.params.map Prod.snd)

variable {ι : Type}

/-- Puts a candidate in the place of the first one with the same restrictions. -/
def replaceSame (c : Candidate ι) : List (Candidate ι) → Option (List (Candidate ι))
  | [] => none
  | d :: rest =>
    if sameRestrictions d.signature c.signature then some (c :: rest)
    else (replaceSame c rest).map (d :: ·)

/-- Inserts a candidate before the first one that it is strictly more specific than. -/
def insertBefore (c : Candidate ι) : List (Candidate ι) → TableM (List (Candidate ι))
  | [] => return [c]
  | d :: rest => do
    if ← isRestrictionOf r c.signature d.signature then
      if ← isRestrictionOf r d.signature c.signature then return d :: (← insertBefore c rest)
      else return c :: d :: rest
    else return d :: (← insertBefore c rest)

/-- Adds a candidate in its place. -/
def insert (cs : List (Candidate ι)) (c : Candidate ι) : TableM (List (Candidate ι)) :=
  match replaceSame c cs with
  | some out => return out
  | none => insertBefore r c cs

end Overload

end TypeFlow
