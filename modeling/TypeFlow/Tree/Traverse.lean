import TypeFlow.Tree.Basic

/-!
# Traversals with effects

`Form.traverse` runs an effect at every mark and every child of one layer, in field order, and keeps
the shape. With `Tree.fold` it gives every traversal of a tree that needs state.
-/

namespace TypeFlow

variable {m : Type → Type} [Monad m] {α γ β δ : Type}

/-- Runs an effect at every element of an optional list. -/
def traverseMany (f : β → m δ) : Option (List β) → m (Option (List δ))
  | none => return none
  | some items => return some (← items.mapM f)

/-- Runs an effect at an optional value. -/
def traverseOption (f : β → m δ) : Option β → m (Option δ)
  | none => return none
  | some x => return some (← f x)

variable (mark : α → m γ) (child : β → m δ)

/-- Runs an effect at the mark of a variable. -/
def Variable.traverse (v : Variable α) : m (Variable γ) :=
  return { mark := ← mark v.mark, name := v.name, out := v.out }

/-- Runs an effect at the mark of a path. -/
def PathRef.traverse (p : PathRef α) : m (PathRef γ) :=
  return { mark := ← mark p.mark, names := p.names, typeArgs := p.typeArgs }

/-- Runs effects at the marks and the body of a block. -/
def Block.traverse (b : Block α β) : m (Block γ δ) := do
  let k ← mark b.mark
  let params ← traverseMany (Variable.traverse mark) b.params
  return { mark := k, params, body := ← traverseOption child b.body }

/-- Runs an effect at the fallback of a parameter. -/
def Param.traverse (p : Param β) : m (Param δ) :=
  return { name := p.name, restriction := p.restriction, fallback := ← traverseOption child p.fallback,
           out := p.out }

/-- Runs an effect at the children of a clause. -/
def When.traverse (w : When β) : m (When δ) := do
  let conds ← traverseMany child w.conds
  return { conds, body := ← traverseOption child w.body }

/-- Runs effects at the marks and the children of one layer, in field order. -/
def Form.traverse : Form α β → m (Form γ δ)
  | .nop => return .nop
  | .nilLiteral => return .nilLiteral
  | .boolLiteral v => return .boolLiteral v
  | .intLiteral v s => return .intLiteral v s
  | .floatLiteral v s => return .floatLiteral v s
  | .charLiteral v => return .charLiteral v
  | .stringLiteral v => return .stringLiteral v
  | .symbolLiteral v => return .symbolLiteral v
  | .arrayLiteral es of => return .arrayLiteral (← traverseMany child es) of
  | .localVar n o => return .localVar n o
  | .instanceVar n o => return .instanceVar n o
  | .classVar n => return .classVar n
  | .globalVar n => return .globalVar n
  | .selfRef => return .selfRef
  | .path ns ts => return .path ns ts
  | .assign t v => return .assign (← traverseOption child t) (← traverseOption child v)
  | .expressions b => return .expressions (← traverseMany child b)
  | .ifElse c t e =>
    return .ifElse (← traverseOption child c) (← traverseOption child t) (← traverseOption child e)
  | .unlessElse c t e =>
    return .unlessElse (← traverseOption child c) (← traverseOption child t) (← traverseOption child e)
  | .caseOf s ws e =>
    return .caseOf (← traverseOption child s) (← traverseMany (When.traverse child) ws)
      (← traverseOption child e)
  | .whileLoop c b => return .whileLoop (← traverseOption child c) (← traverseOption child b)
  | .call o n as b p =>
    return .call (← traverseOption child o) n (← traverseMany child as)
      (← traverseOption (Block.traverse mark child) b) p
  | .block ps b =>
    return .block (← traverseMany (Variable.traverse mark) ps) (← traverseOption child b)
  | .yieldTo as => return .yieldTo (← traverseMany child as)
  | .returnFrom v => return .returnFrom (← traverseOption child v)
  | .breakOut v => return .breakOut (← traverseOption child v)
  | .methodDef r n ps t b y =>
    return .methodDef r n (← traverseMany (Param.traverse child) ps) t (← traverseOption child b) y
  | .classDef n s ts b =>
    return .classDef n (← traverseOption (PathRef.traverse mark) s) ts (← traverseOption child b)
  | .moduleDef n b => return .moduleDef n (← traverseOption child b)
  | .includeModule p => return .includeModule (← traverseOption (PathRef.traverse mark) p)
  | .isA o t => return .isA (← traverseOption child o) t
  | .respondsTo o n => return .respondsTo (← traverseOption child o) n
  | .pointerOf t => return .pointerOf (← traverseOption child t)
  | .libDef n b => return .libDef n (← traverseMany child b)
  | .funDef n r ps t v => return .funDef n r (← traverseMany (Param.traverse child) ps) t v
  | .structDef n u ms => return .structDef n u (← traverseMany (Param.traverse child) ms)
  | .typeDef n t => return .typeDef n t
  | .macroDef n ps b => return .macroDef n ps (← traverseOption child b)
  | .primitive n => return .primitive n

/-- Runs an effect at every mark of a tree. -/
def Tree.traverseMarks (t : Tree α) : m (Tree γ) :=
  t.fold fun k (f : Form α (m (Tree γ))) => do
    let k ← mark k
    return .node k (← f.traverse mark id)

end TypeFlow
