import TypeFlow.Inference.Engine

/-!
# Methods made on demand

A class gets a constructor `new` for every `initialize` when it is first called with that number of
arguments; a class without any `initialize` gets one without arguments. A type with `method_missing`
gets a method that forwards to it for every call that finds nothing else.
-/

namespace TypeFlow

namespace Synthesis

/-- A variable at a location. -/
def var (loc : Option Location) (name : String) : Source :=
  .node loc (.localVar name false)

/-- The variable that holds the new object in a constructor. -/
def newObject (loc : Option Location) : Source :=
  var loc "__new"

/-- The assignment that starts a constructor. -/
def allocation (loc : Option Location) : Source :=
  .node loc (.assign (some (newObject loc))
    (some (.node loc (.call none "allocate" none none false))))

/-- The call of `initialize` in a constructor. -/
def initialization (loc : Option Location) (params : List (Param Source)) : Source :=
  .node loc (.call (some (newObject loc)) "initialize"
    (some (params.map fun p => var loc p.name)) none true)

/-- A parameter as far as it restricts its argument. -/
def bare (p : Param Source) : Param Source :=
  { name := p.name, restriction := p.restriction, fallback := none, out := false }

/-- A constructor with the parameters of an `initialize`: it allocates an object, initializes it and
returns it. -/
def constructor (loc : Option Location) (params : List (Param Source)) : Definition :=
  { loc, name := "new", params := params.map bare,
    body := some (.node loc (.expressions (some
      [allocation loc, initialization loc params, newObject loc]))) }

/-- The constructor of a class without `initialize`. -/
def plainConstructor (loc : Option Location) : Definition :=
  { loc, name := "new",
    body := some (.node loc (.expressions (some [allocation loc, newObject loc]))) }

/-- The name of a forwarded argument. -/
def argName (i : Nat) : String :=
  "__arg" ++ toString i

/-- The array of forwarded arguments. -/
def argArray (loc : Option Location) (arity : Nat) : Source :=
  if arity = 0 then .node loc (.arrayLiteral none (some (TypeExpr.ofName "Nil")))
  else .node loc (.arrayLiteral (some ((List.range arity).map fun i => var loc (argName i))) none)

/-- A method that forwards its name and arguments to `method_missing`. -/
def forwarder (loc : Option Location) (key : GroupKey) : Definition :=
  { loc, name := key.name,
    params := (List.range key.arity).map fun i =>
      { name := argName i, restriction := none, fallback := none, out := false }
    body := some (.node loc (.call none "method_missing"
      (some [.node loc (.symbolLiteral key.name), argArray loc key.arity]) none true)) }

end Synthesis

namespace Infer

/-- Makes the constructors of a class that a call of `new` with a given key can choose from. None are
made for what is no class. -/
def defineNew (metaclass : TypeId) (key : GroupKey) (loc : Option Location) :
    Infer (Option Group) := do
  let t ← Flow.types
  let of := t.selfType metaclass
  match t.object? of with
  | none => return none
  | some o =>
    if o.isModule || key.yields then return none
    else if o.isTemplate then
      throw (.mismatch none ("can't create instance of generic class " ++ t.name of ++
        " without specifying its type vars"))
    else
      match ← findGroup? of { name := "initialize", arity := key.arity } with
      | none =>
        if key.arity ≠ 0 then return none
        else if !(← groupsNamed of "initialize").isEmpty then return none
        else
          addConstructor metaclass (Synthesis.plainConstructor loc)
          findGroup? metaclass key
      | some g =>
        for c in g.candidates do
          let params := (← method c.id).definition.params.take key.arity
          addConstructor metaclass (Synthesis.constructor loc params)
        findGroup? metaclass key

/-- Makes a method that forwards to `method_missing`, if the receiver has one. -/
def defineMissing (recv : TypeId) (key : GroupKey) (loc : Option Location) :
    Infer (Option Group) := do
  if key.yields then return none
  else
    match ← findGroup? recv { name := "method_missing", arity := 2 } with
    | none => return none
    | some _ =>
      addSymbol key.name
      addMethod recv (Synthesis.forwarder loc key)
      findGroup? recv key

/-- Whether every overload of a group is a constructor made from `initialize`. Those belong to one
class and are not inherited. -/
def isSynthetic (g : Group) : Infer Bool := do
  let ms := (← env).methods
  return !g.candidates.isEmpty &&
    g.candidates.all fun c => ((ms[c.id]?).map Method.synthetic).getD false

end Infer

end TypeFlow
