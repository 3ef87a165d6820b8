import TypeFlow.Tree.Basic

/-!
# Fields of a node

The serialized form of a node lists its fields by name. `Form.fields` gives those of one layer in
their fixed order, leaving out the ones at their zero value: empty texts, false flags, absent
children and lists. `Kind.fieldNames` gives the names that a kind admits.

The children of a node are the nodes in its fields, in that order.
-/

namespace TypeFlow

/-- The value of a field. -/
inductive FieldValue (α β : Type) where
  | text (s : String)
  | flag (b : Bool)
  | texts (items : List String)
  | type (t : TypeExpr)
  | types (items : List TypeExpr)
  | child (c : β)
  | children (items : List β)
  | block (b : Block α β)
  | variables (items : List (Variable α))
  | path (p : PathRef α)
  | params (items : List (Param β))
  | whens (items : List (When β))

/-- Named values, in order. -/
abbrev Fields (α β : Type) := List (String × FieldValue α β)

namespace Fields

variable {α β : Type}

/-- A text field, left out when empty. -/
def text (name s : String) : Fields α β :=
  if s == "" then [] else [(name, .text s)]

/-- A flag, left out when false. -/
def flag (name : String) (b : Bool) : Fields α β :=
  if b then [(name, .flag true)] else []

/-- A field that is left out when absent. -/
def given {δ : Type} (name : String) (value : δ → FieldValue α β) (v : Option δ) : Fields α β :=
  match v with
  | some x => [(name, value x)]
  | none => []

end Fields

open Fields in
/-- The fields of a parameter. -/
def Param.fields {α β : Type} (p : Param β) : Fields α β :=
  text "name" p.name ++ given "restriction" .type p.restriction ++
    given "default" .child p.fallback ++ flag "out" p.out

open Fields in
/-- The fields of a clause. -/
def When.fields {α β : Type} (w : When β) : Fields α β :=
  given "conds" .children w.conds ++ given "body" .child w.body

open Fields in
/-- The fields of one layer. -/
def Form.fields {α β : Type} : Form α β → Fields α β
  | .nop => []
  | .nilLiteral => []
  | .boolLiteral v => flag "value" v
  | .intLiteral v s => text "value" v ++ text "suffix" s
  | .floatLiteral v s => text "value" v ++ text "suffix" s
  | .charLiteral v => text "value" v
  | .stringLiteral v => text "value" v
  | .symbolLiteral v => text "value" v
  | .arrayLiteral es of => given "elements" .children es ++ given "of" .type of
  | .localVar n o => text "name" n ++ flag "out" o
  | .instanceVar n o => text "name" n ++ flag "out" o
  | .classVar n => text "name" n
  | .globalVar n => text "name" n
  | .selfRef => []
  | .path ns ts => given "names" .texts ns ++ given "type_args" .types ts
  | .assign t v => given "target" .child t ++ given "value" .child v
  | .expressions b => given "body" .children b
  | .ifElse c t e => given "cond" .child c ++ given "then" .child t ++ given "else" .child e
  | .unlessElse c t e => given "cond" .child c ++ given "then" .child t ++ given "else" .child e
  | .caseOf s ws e => given "subject" .child s ++ given "whens" .whens ws ++ given "else" .child e
  | .whileLoop c b => given "cond" .child c ++ given "body" .child b
  | .call o n as b p =>
    given "obj" .child o ++ text "name" n ++ given "args" .children as ++
      given "block" .block b ++ flag "has_parens" p
  | .block ps b => given "params" .variables ps ++ given "body" .child b
  | .yieldTo as => given "args" .children as
  | .returnFrom v => given "value" .child v
  | .breakOut v => given "value" .child v
  | .methodDef r n ps t b y =>
    text "receiver" r ++ text "name" n ++ given "params" .params ps ++ given "return" .type t ++
      given "body" .child b ++ flag "yields" y
  | .classDef n s ts b =>
    text "name" n ++ given "superclass" .path s ++ given "type_params" .texts ts ++
      given "body" .child b
  | .moduleDef n b => text "name" n ++ given "body" .child b
  | .includeModule m => given "module" .path m
  | .isA o t => given "obj" .child o ++ given "type" .type t
  | .respondsTo o n => given "obj" .child o ++ text "name" n
  | .pointerOf t => given "target" .child t
  | .libDef n b => text "name" n ++ given "body" .children b
  | .funDef n r ps t v =>
    text "name" n ++ text "real_name" r ++ given "params" .params ps ++ given "return" .type t ++
      flag "varargs" v
  | .structDef n u ms => text "name" n ++ flag "union" u ++ given "fields" .params ms
  | .typeDef n t => text "name" n ++ given "type" .type t
  | .macroDef n ps b => text "name" n ++ given "params" .texts ps ++ given "body" .child b
  | .primitive n => text "name" n

/-- The names of the fields that a kind admits, in order. -/
def Kind.fieldNames : Kind → List String
  | .nop => []
  | .nilLiteral => []
  | .boolLiteral => ["value"]
  | .intLiteral => ["value", "suffix"]
  | .floatLiteral => ["value", "suffix"]
  | .charLiteral => ["value"]
  | .stringLiteral => ["value"]
  | .symbolLiteral => ["value"]
  | .arrayLiteral => ["elements", "of"]
  | .localVar => ["name", "out"]
  | .instanceVar => ["name", "out"]
  | .classVar => ["name"]
  | .globalVar => ["name"]
  | .selfRef => []
  | .path => ["names", "type_args"]
  | .assign => ["target", "value"]
  | .expressions => ["body"]
  | .ifElse => ["cond", "then", "else"]
  | .unlessElse => ["cond", "then", "else"]
  | .caseOf => ["subject", "whens", "else"]
  | .whileLoop => ["cond", "body"]
  | .call => ["obj", "name", "args", "block", "has_parens"]
  | .block => ["params", "body"]
  | .yieldTo => ["args"]
  | .returnFrom => ["value"]
  | .breakOut => ["value"]
  | .methodDef => ["receiver", "name", "params", "return", "body", "yields"]
  | .classDef => ["name", "superclass", "type_params", "body"]
  | .moduleDef => ["name", "body"]
  | .includeModule => ["module"]
  | .isA => ["obj", "type"]
  | .respondsTo => ["obj", "name"]
  | .pointerOf => ["target"]
  | .libDef => ["name", "body"]
  | .funDef => ["name", "real_name", "params", "return", "varargs"]
  | .structDef => ["name", "union", "fields"]
  | .typeDef => ["name", "type"]
  | .macroDef => ["name", "params", "body"]
  | .primitive => ["name"]

namespace Tree

variable {α : Type}

/-- The nodes held by a field that is not itself a record. -/
def nodesIn : FieldValue α (Tree α) → List (Tree α)
  | .child c => [c]
  | .children items => items
  | .block b => [ofBlock b]
  | .variables items => items.map ofVariable
  | .path p => [ofPath p]
  | .params items => items.filterMap (·.fallback)
  | .whens items => items.flatMap fun w => (w.conds.getD []) ++ w.body.toList
  | _ => []

/-- The children of a node, in field order. -/
def children (t : Tree α) : List (Tree α) :=
  t.form.fields.flatMap fun (_, v) => nodesIn v

/-- The kinds of a node and its descendants, each node before its children; the children of kinds
in `skip` are left out. -/
def kinds (skip : List Kind) : Tree α → List Kind :=
  fold fun _ (f : Form α (List Kind)) =>
    f.kind :: if skip.contains f.kind then [] else f.fields.flatMap fun (_, v) => within v
where
  within : FieldValue α (List Kind) → List Kind
    | .child c => c
    | .children items => items.flatten
    | .block b => blockKinds b
    | .variables items => items.map fun _ => .localVar
    | .path _ => [.path]
    | .params items => (items.filterMap (·.fallback)).flatten
    | .whens items => items.flatMap fun w => (w.conds.getD []).flatten ++ (w.body.getD [])
    | _ => []
  blockKinds (b : Block α (List Kind)) : List Kind :=
    .block :: if skip.contains .block then []
      else ((b.params.getD []).map fun _ => .localVar) ++ (b.body.getD [])

end Tree

end TypeFlow
