import TypeFlow.TypeExpr.Basic
import TypeFlow.Tree.Kind

/-!
# Syntax trees

A tree is a node with a mark (a source location, an identity, or nothing) and a form. `Form α β` is
one layer: it has a constructor for every kind of node, with a `β` in every position that can hold
any node. Children that can only be a block, a path or a variable have types of their own and carry
their own mark.

`Tree.fold` is the one recursion over trees. Every other traversal (renumbering, substitution,
encoding, listing) is a non-recursive description of a single layer given to it.

A list that was not given is `none`, which differs from a list given as empty.
-/

namespace TypeFlow

/-- A variable in a position that only a variable can take. -/
structure Variable (α : Type) where
  mark : α
  name : String
  out : Bool

/-- A path in a position that only a path can take. -/
structure PathRef (α : Type) where
  mark : α
  names : Option (List String)
  typeArgs : Option (List TypeExpr)

/-- A parameter of a method, a foreign function or a foreign structure. -/
structure Param (β : Type) where
  name : String
  restriction : Option TypeExpr
  fallback : Option β
  out : Bool

/-- One clause of a case distinction. -/
structure When (β : Type) where
  conds : Option (List β)
  body : Option β

/-- The block given to a call. -/
structure Block (α β : Type) where
  mark : α
  params : Option (List (Variable α))
  body : Option β

/-- One layer of a tree. -/
inductive Form (α β : Type) where
  | nop
  | nilLiteral
  | boolLiteral (value : Bool)
  | intLiteral (value suffix : String)
  | floatLiteral (value suffix : String)
  | charLiteral (value : String)
  | stringLiteral (value : String)
  | symbolLiteral (value : String)
  | arrayLiteral (elements : Option (List β)) (of : Option TypeExpr)
  | localVar (name : String) (out : Bool)
  | instanceVar (name : String) (out : Bool)
  | classVar (name : String)
  | globalVar (name : String)
  | selfRef
  | path (names : Option (List String)) (typeArgs : Option (List TypeExpr))
  | assign (target value : Option β)
  | expressions (body : Option (List β))
  | ifElse (cond yes no : Option β)
  | unlessElse (cond yes no : Option β)
  | caseOf (subject : Option β) (whens : Option (List (When β))) (no : Option β)
  | whileLoop (cond body : Option β)
  | call (obj : Option β) (name : String) (args : Option (List β)) (block : Option (Block α β))
      (hasParens : Bool)
  | block (params : Option (List (Variable α))) (body : Option β)
  | yieldTo (args : Option (List β))
  | returnFrom (value : Option β)
  | breakOut (value : Option β)
  | methodDef (receiver name : String) (params : Option (List (Param β))) (result : Option TypeExpr)
      (body : Option β) (yields : Bool)
  | classDef (name : String) (superclass : Option (PathRef α)) (typeParams : Option (List String))
      (body : Option β)
  | moduleDef (name : String) (body : Option β)
  | includeModule (module : Option (PathRef α))
  | isA (obj : Option β) (type : Option TypeExpr)
  | respondsTo (obj : Option β) (name : String)
  | pointerOf (target : Option β)
  | libDef (name : String) (body : Option (List β))
  | funDef (name realName : String) (params : Option (List (Param β))) (result : Option TypeExpr)
      (varargs : Bool)
  | structDef (name : String) (isUnion : Bool) (members : Option (List (Param β)))
  | typeDef (name : String) (type : Option TypeExpr)
  | macroDef (name : String) (params : Option (List String)) (body : Option β)
  | primitive (name : String)

/-- A syntax tree with an `α` at every node. -/
inductive Tree (α : Type) where
  | node (mark : α) (form : Form α (Tree α))

/-- The kind of a layer. -/
def Form.kind {α β : Type} : Form α β → Kind
  | .nop => .nop
  | .nilLiteral => .nilLiteral
  | .boolLiteral .. => .boolLiteral
  | .intLiteral .. => .intLiteral
  | .floatLiteral .. => .floatLiteral
  | .charLiteral .. => .charLiteral
  | .stringLiteral .. => .stringLiteral
  | .symbolLiteral .. => .symbolLiteral
  | .arrayLiteral .. => .arrayLiteral
  | .localVar .. => .localVar
  | .instanceVar .. => .instanceVar
  | .classVar .. => .classVar
  | .globalVar .. => .globalVar
  | .selfRef => .selfRef
  | .path .. => .path
  | .assign .. => .assign
  | .expressions .. => .expressions
  | .ifElse .. => .ifElse
  | .unlessElse .. => .unlessElse
  | .caseOf .. => .caseOf
  | .whileLoop .. => .whileLoop
  | .call .. => .call
  | .block .. => .block
  | .yieldTo .. => .yieldTo
  | .returnFrom .. => .returnFrom
  | .breakOut .. => .breakOut
  | .methodDef .. => .methodDef
  | .classDef .. => .classDef
  | .moduleDef .. => .moduleDef
  | .includeModule .. => .includeModule
  | .isA .. => .isA
  | .respondsTo .. => .respondsTo
  | .pointerOf .. => .pointerOf
  | .libDef .. => .libDef
  | .funDef .. => .funDef
  | .structDef .. => .structDef
  | .typeDef .. => .typeDef
  | .macroDef .. => .macroDef
  | .primitive .. => .primitive

namespace Tree

variable {α β γ : Type}

/-- What a node carries. -/
def mark : Tree α → α
  | .node m _ => m

/-- The layer of a node. -/
def form : Tree α → Form α (Tree α)
  | .node _ f => f

/-- The kind of a node. -/
def kind (t : Tree α) : Kind :=
  t.form.kind

/-- A variable as a node. -/
def ofVariable (v : Variable α) : Tree α :=
  .node v.mark (.localVar v.name v.out)

/-- A path as a node. -/
def ofPath (p : PathRef α) : Tree α :=
  .node p.mark (.path p.names p.typeArgs)

/-- A block as a node. -/
def ofBlock (b : Block α (Tree α)) : Tree α :=
  .node b.mark (.block b.params b.body)

/-! ### The recursion over trees -/

section Fold

variable (layer : α → Form α β → β)

mutual

/-- Replaces every node, from the leaves up, by what `layer` makes of its mark and its layer. -/
def fold : Tree α → β
  | .node m f => layer m (foldForm f)

/-- Folds the children of one layer. -/
def foldForm : Form α (Tree α) → Form α β
  | .nop => .nop
  | .nilLiteral => .nilLiteral
  | .boolLiteral v => .boolLiteral v
  | .intLiteral v s => .intLiteral v s
  | .floatLiteral v s => .floatLiteral v s
  | .charLiteral v => .charLiteral v
  | .stringLiteral v => .stringLiteral v
  | .symbolLiteral v => .symbolLiteral v
  | .arrayLiteral es of => .arrayLiteral (foldMany es) of
  | .localVar n o => .localVar n o
  | .instanceVar n o => .instanceVar n o
  | .classVar n => .classVar n
  | .globalVar n => .globalVar n
  | .selfRef => .selfRef
  | .path ns ts => .path ns ts
  | .assign t v => .assign (foldOption t) (foldOption v)
  | .expressions b => .expressions (foldMany b)
  | .ifElse c t e => .ifElse (foldOption c) (foldOption t) (foldOption e)
  | .unlessElse c t e => .unlessElse (foldOption c) (foldOption t) (foldOption e)
  | .caseOf s ws e => .caseOf (foldOption s) (foldWhens ws) (foldOption e)
  | .whileLoop c b => .whileLoop (foldOption c) (foldOption b)
  | .call o n as b p => .call (foldOption o) n (foldMany as) (foldBlock b) p
  | .block ps b => .block ps (foldOption b)
  | .yieldTo as => .yieldTo (foldMany as)
  | .returnFrom v => .returnFrom (foldOption v)
  | .breakOut v => .breakOut (foldOption v)
  | .methodDef r n ps t b y => .methodDef r n (foldParams ps) t (foldOption b) y
  | .classDef n s ts b => .classDef n s ts (foldOption b)
  | .moduleDef n b => .moduleDef n (foldOption b)
  | .includeModule m => .includeModule m
  | .isA o t => .isA (foldOption o) t
  | .respondsTo o n => .respondsTo (foldOption o) n
  | .pointerOf t => .pointerOf (foldOption t)
  | .libDef n b => .libDef n (foldMany b)
  | .funDef n r ps t v => .funDef n r (foldParams ps) t v
  | .structDef n u ms => .structDef n u (foldParams ms)
  | .typeDef n t => .typeDef n t
  | .macroDef n ps b => .macroDef n ps (foldOption b)
  | .primitive n => .primitive n

/-- Folds an optional child. -/
def foldOption : Option (Tree α) → Option β
  | none => none
  | some t => some (fold t)

/-- Folds a list of children. -/
def foldList : List (Tree α) → List β
  | [] => []
  | t :: rest => fold t :: foldList rest

/-- Folds an optional list of children. -/
def foldMany : Option (List (Tree α)) → Option (List β)
  | none => none
  | some ts => some (foldList ts)

/-- Folds the block of a call. -/
def foldBlock : Option (Block α (Tree α)) → Option (Block α β)
  | none => none
  | some b => some (foldBlockBody b)

/-- Folds the body of a block. -/
def foldBlockBody : Block α (Tree α) → Block α β
  | ⟨m, ps, b⟩ => ⟨m, ps, foldOption b⟩

/-- Folds an optional list of parameters. -/
def foldParams : Option (List (Param (Tree α))) → Option (List (Param β))
  | none => none
  | some ps => some (foldParamList ps)

/-- Folds a list of parameters. -/
def foldParamList : List (Param (Tree α)) → List (Param β)
  | [] => []
  | p :: rest => foldParam p :: foldParamList rest

/-- Folds the fallback of a parameter. -/
def foldParam : Param (Tree α) → Param β
  | ⟨n, r, d, o⟩ => ⟨n, r, foldOption d, o⟩

/-- Folds an optional list of clauses. -/
def foldWhens : Option (List (When (Tree α))) → Option (List (When β))
  | none => none
  | some ws => some (foldWhenList ws)

/-- Folds a list of clauses. -/
def foldWhenList : List (When (Tree α)) → List (When β)
  | [] => []
  | w :: rest => foldWhen w :: foldWhenList rest

/-- Folds one clause. -/
def foldWhen : When (Tree α) → When β
  | ⟨cs, b⟩ => ⟨foldMany cs, foldOption b⟩

end

end Fold

/-- The fold of a node is what `layer` makes of its mark and its folded layer. -/
@[simp]
theorem fold_node (layer : α → Form α β → β) (m : α) (f : Form α (Tree α)) :
    fold layer (.node m f) = layer m (foldForm layer f) := by
  rw [fold]

end Tree

namespace Form

variable {α β γ : Type}

/-- Changes the marks that a layer holds itself: those of a block, its parameters and of paths. -/
def mapMarks (f : α → γ) : Form α β → Form γ β
  | .nop => .nop
  | .nilLiteral => .nilLiteral
  | .boolLiteral v => .boolLiteral v
  | .intLiteral v s => .intLiteral v s
  | .floatLiteral v s => .floatLiteral v s
  | .charLiteral v => .charLiteral v
  | .stringLiteral v => .stringLiteral v
  | .symbolLiteral v => .symbolLiteral v
  | .arrayLiteral es of => .arrayLiteral es of
  | .localVar n o => .localVar n o
  | .instanceVar n o => .instanceVar n o
  | .classVar n => .classVar n
  | .globalVar n => .globalVar n
  | .selfRef => .selfRef
  | .path ns ts => .path ns ts
  | .assign t v => .assign t v
  | .expressions b => .expressions b
  | .ifElse c t e => .ifElse c t e
  | .unlessElse c t e => .unlessElse c t e
  | .caseOf s ws e => .caseOf s ws e
  | .whileLoop c b => .whileLoop c b
  | .call o n as b p => .call o n as (b.map block') p
  | .block ps b => .block (ps.map (List.map variable')) b
  | .yieldTo as => .yieldTo as
  | .returnFrom v => .returnFrom v
  | .breakOut v => .breakOut v
  | .methodDef r n ps t b y => .methodDef r n ps t b y
  | .classDef n s ts b => .classDef n (s.map path') ts b
  | .moduleDef n b => .moduleDef n b
  | .includeModule m => .includeModule (m.map path')
  | .isA o t => .isA o t
  | .respondsTo o n => .respondsTo o n
  | .pointerOf t => .pointerOf t
  | .libDef n b => .libDef n b
  | .funDef n r ps t v => .funDef n r ps t v
  | .structDef n u ms => .structDef n u ms
  | .typeDef n t => .typeDef n t
  | .macroDef n ps b => .macroDef n ps b
  | .primitive n => .primitive n
where
  variable' (v : Variable α) : Variable γ := { v with mark := f v.mark }
  path' (p : PathRef α) : PathRef γ := { p with mark := f p.mark }
  block' (b : Block α β) : Block γ β :=
    { mark := f b.mark, params := b.params.map (List.map variable'), body := b.body }

end Form

namespace Tree

variable {α γ : Type}

/-- Changes every mark. -/
def map (f : α → γ) : Tree α → Tree γ :=
  fold fun m form => .node (f m) (form.mapMarks f)

end Tree

end TypeFlow
