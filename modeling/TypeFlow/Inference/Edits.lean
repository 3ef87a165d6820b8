import TypeFlow.Inference.Env

/-!
# Edited calls

Typing may change the arguments of a call: a call of `super` written without arguments passes on those
of the calling method, and a text given to a foreign function may be wrapped in a conversion. The
notes record these edits. `Env.shape` shows a node with them, and `Env.written` is the source tree
that a copy of a typed tree is made from.
-/

namespace TypeFlow

/-- The method that converts a text for a foreign function. -/
def conversionName : String :=
  "cstr"

/-- The arguments of a call with its edits. -/
def Note.edit {β : Type} (n : Note) (added : List β) (wrap : Mark → β → β) (args : List β) : List β :=
  (args ++ added).mapIdx fun i a =>
    match assoc? n.conversions i with
    | some m => wrap m a
    | none => a

/-- Whether a call was edited. -/
def Note.isEdited (n : Note) : Bool :=
  !n.added.isEmpty || !n.conversions.isEmpty

/-- An argument wrapped in a conversion. -/
def wrapped {α : Type} (mark : α) (arg : Tree α) : Tree α :=
  .node mark (.call (some arg) conversionName none none false)

namespace Env

/-- The layer of a node with the edits of a call. -/
def shape (e : Env) (t : Placed) : Form Mark Placed :=
  match t.form with
  | .call obj name args block parens =>
    let n := e.note t.mark.occ
    if n.isEdited then
      .call obj name (some (n.edit n.added wrapped (args.getD []))) block parens
    else .call obj name args block parens
  | f => f

/-- One layer of a source tree with the edits of a call. -/
def writtenLayer (e : Env) (m : Mark) (f : Form Mark Source) : Source :=
  let f' : Form Mark Source :=
    match f with
    | .call obj name args block parens =>
      let n := e.note m.occ
      if n.isEdited then
        let args := n.edit (n.added.map Placed.source) (fun m a => wrapped m.loc a) (args.getD [])
        .call obj name (some args) block parens
      else .call obj name args block parens
    | f => f
  .node m.loc (f'.mapMarks Mark.loc)

/-- The source tree of a typed tree, with its edits. -/
def written (e : Env) : Placed → Source :=
  Tree.fold e.writtenLayer

/-- The children of a node, with the edits of a call. -/
def childrenOf (e : Env) (t : Placed) : List Placed :=
  Tree.children (.node t.mark (e.shape t))

end Env

namespace Infer

/-- A fresh copy of a block. -/
def copyBlock (b : Block Mark Placed) : Infer (Block Mark Placed) := do
  let copy ← place ((← env).written (Tree.ofBlock b))
  match copy.form with
  | .block params body => return { mark := copy.mark, params, body }
  | _ => return b

end Infer

end TypeFlow
