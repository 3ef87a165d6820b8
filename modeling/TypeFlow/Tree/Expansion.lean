import TypeFlow.Tree.Decode
import TypeFlow.Tree.Encode

/-!
# Expanding macro calls

A macro call is replaced by a tree. `Expansion.substitute` makes that tree in place: the body of the
macro with the arguments in the place of its parameters. They are put there all at once (`Tree.substitute`):
what is put in is not looked at again, and in a position that only a variable can take, a replacement that is no
variable is ignored. An `Expander` may instead be a server, which answers a `Request`.
-/

namespace TypeFlow

/-! ### Substitution -/

namespace Tree

variable {α : Type}

/-- The replacement of a name; of several the last one counts. -/
def replacement? (args : List (String × Tree α)) (name : String) : Option (Tree α) :=
  (args.reverse.find? fun (n, _) => n == name).map Prod.snd

/-- A variable in a position that only a variable can take. -/
def substituteVariable (args : List (String × Tree α)) (v : Variable α) : Variable α :=
  match replacement? args v.name with
  | some (.node m (.localVar name out)) => ⟨m, name, out⟩
  | _ => v

/-- The parameters of a block. -/
def substituteParams (args : List (String × Tree α)) (ps : Option (List (Variable α))) :
    Option (List (Variable α)) :=
  ps.map (List.map (substituteVariable args))

/-- One layer whose children are done. -/
def substituteLayer (args : List (String × Tree α)) (m : α) : Form α (Tree α) → Tree α
  | .localVar name out => (replacement? args name).getD (.node m (.localVar name out))
  | .block ps body => .node m (.block (substituteParams args ps) body)
  | .call obj name as b parens =>
    .node m (.call obj name as
      (b.map fun b => { b with params := substituteParams args b.params }) parens)
  | f => .node m f

/-- Replaces every variable that `args` names. -/
def substitute (args : List (String × Tree α)) : Tree α → Tree α :=
  fold (substituteLayer args)

end Tree

/-! ### Macro calls -/

/-- A macro call as it is put to a server, trees in written form. -/
structure Request where
  name : String
  params : Option (List String)
  args : List String
  body : Option String

/-- What a server answers. -/
inductive Answer where
  | source (text : String)
  | error (text : String)

/-- How macro calls are expanded. -/
inductive Expander where
  /-- Not at all. -/
  | none
  /-- By substitution. -/
  | substitute
  /-- By a server that gives these answers. -/
  | server (answers : Request → Answer)

namespace Expansion

/-- A macro call. -/
structure Call where
  name : String
  params : Option (List String)
  args : List Source
  body : Option Source

/-- The name under which the text of an expansion is reported. -/
def fileName (name : String) : String :=
  "<macro " ++ name ++ ">"

/-- The call as a request. -/
def Call.request (c : Call) : Request :=
  { name := c.name, params := c.params, args := c.args.map Tree.encode, body := c.body.map Tree.encode }

/-- The body with the arguments in the place of the parameters; without a body it is nil. -/
def substitute (c : Call) : Except String Source :=
  let params := c.params.getD []
  if c.args.length ≠ params.length then
    .error ("wrong number of arguments for macro '" ++ c.name ++ "' (" ++ toString c.args.length ++
      " for " ++ toString params.length ++ ")")
  else
    match c.body with
    | none => .ok (.node none .nilLiteral)
    | some body => .ok (body.substitute (params.zip c.args))

end Expansion

end TypeFlow
