/-!
# Failures

Why typing a program fails. A failure is a cause, possibly inside the frames of the instantiations
and expansions that led to it. `Failure.message` words it.

A cause is often raised where no location is known. `Failure.locate` gives it the location of the
node being typed when the failure passes by: the first location stays, and a failure inside a frame
belongs to that frame. Lines and columns of a location start at one; the length says how far an underline
reaches. All three can be overridden by the tree itself, so they are integers.
-/

namespace TypeFlow

/-- A place in a named source text. -/
structure Location where
  file : String
  line : Int
  column : Int
  length : Int
  deriving DecidableEq, Repr, Inhabited

/-- The short form used in messages. -/
def Location.render (l : Location) : String :=
  l.file ++ ":" ++ toString l.line ++ ":" ++ toString l.column

/-- An attempt to give a node of fixed type another one. -/
structure Frozen where
  label : String
  declared : String
  got : String
  deriving DecidableEq, Repr

/-- The wording of such an attempt. -/
def Frozen.message (f : Frozen) : String :=
  "type of " ++ f.label ++ " is frozen as " ++ f.declared ++ ", can't change it to " ++ f.got

/-- Why typing a program fails. -/
inductive Failure where
  /-- Anything else. -/
  | plain (message : String)
  /-- Anything else, at a place. -/
  | located (loc : Location) (message : String)
  /-- A tree that makes no sense. -/
  | malformed (loc : Option Location) (message : String)
  /-- A name that does not resolve, in the body of `method` if there is one. -/
  | undefined (loc : Option Location) (text method : String)
  /-- A call whose number of arguments matches no overload. -/
  | arity (loc : Option Location) (name : String) (given : Nat) (expected : List Nat)
  /-- A call that no overload accepts, with the candidates and the combinations left out. -/
  | overload (loc : Option Location) (text : String) (overloads missing : List String)
  /-- A value of an incompatible type. -/
  | mismatch (loc : Option Location) (message : String)
  /-- An attempt to change a fixed type. -/
  | frozen (f : Frozen)
  /-- An attempt to change a fixed type, with the place if it is known. -/
  | frozenAt (loc : Option Location) (f : Frozen)
  /-- A failure while typing the body of a method for the call at `loc`. -/
  | instantiating (loc : Option Location) (signature : String) (cause : Failure)
  /-- A failure while expanding the macro call at `loc`; `expansion` is the written form of the
  expansion, empty if there is none. -/
  | expanding (loc : Option Location) (name expansion : String) (cause : Failure)
  /-- Typing was given up because it took more steps than it was allowed. -/
  | exhausted
  deriving Inhabited

namespace Failure

/-- Something is used that is not there. Nothing handles this: typing ends where it happens. -/
def absent : Failure :=
  .plain "runtime error: invalid memory address or nil pointer dereference"

/-- The written form of a list of accepted argument counts: a range if they are contiguous. -/
def arities : List Nat → String
  | [] => "0"
  | [n] => toString n
  | n :: ns =>
    if contiguous (n :: ns) then toString n ++ ".." ++ toString (ns.getLastD n)
    else String.intercalate ", " ((n :: ns).map toString)
where
  contiguous : List Nat → Bool
    | a :: b :: rest => b == a + 1 && contiguous (b :: rest)
    | _ => true

/-- A titled list below a message; nothing if it is empty. -/
def listing (title before after : String) (items : List String) : String :=
  if items.isEmpty then ""
  else "\n" ++ title ++ String.join (items.map fun i => "\n - " ++ before ++ i ++ after)

/-- The wording of a failure. -/
def message : Failure → String
  | .plain m => m
  | .located _ m => m
  | .malformed _ m => "syntax error: " ++ m
  | .undefined _ text method => if method == "" then text else text ++ " (in '" ++ method ++ "')"
  | .arity _ name given expected =>
    "wrong number of arguments for '" ++ name ++ "' (" ++ toString given ++ " for " ++
      arities expected ++ ")"
  | .overload _ text overloads missing =>
    text ++ listing "Overloads are:" "" "" overloads ++
      listing "No overload handles:" "(" ")" missing
  | .mismatch _ m => m
  | .frozen f => f.message
  | .frozenAt _ f => f.message
  | .instantiating _ signature cause =>
    cause.message ++ "\n  while instantiating '" ++ signature ++ "'"
  | .expanding _ name _ cause => cause.message ++ "\n  in expansion of macro '" ++ name ++ "'"
  | .exhausted => "typing takes too many steps"

/-- Where a failure points. -/
def loc? : Failure → Option Location
  | .plain _ => none
  | .located l _ => some l
  | .malformed l _ => l
  | .undefined l _ _ => l
  | .arity l _ _ _ => l
  | .overload l _ _ _ => l
  | .mismatch l _ => l
  | .frozen _ => none
  | .frozenAt l _ => l
  | .instantiating l _ _ => l
  | .expanding l _ _ _ => l
  | .exhausted => none

/-- Gives a failure a location if it has none. -/
def locate (loc : Option Location) : Failure → Failure
  | .plain m =>
    match loc with
    | some l => .located l m
    | none => .plain m
  | .located l m => .located l m
  | .malformed l m => .malformed l m
  | .undefined l t m => .undefined (l.or loc) t m
  | .arity l n g e => .arity (l.or loc) n g e
  | .overload l t o m => .overload (l.or loc) t o m
  | .mismatch l m => .mismatch (l.or loc) m
  | .frozen f => .frozenAt loc f
  | .frozenAt l f => .frozenAt (l.or loc) f
  | .instantiating l s c => .instantiating (l.or loc) s c
  | .expanding l n e c => .expanding (l.or loc) n e c
  | .exhausted => .exhausted

/-- The frames of a failure from the outermost inwards, the cause last. -/
def chain : Failure → List Failure
  | .instantiating l s c => .instantiating l s c :: c.chain
  | .expanding l n e c => .expanding l n e c :: c.chain
  | f => [f]

end Failure

end TypeFlow
