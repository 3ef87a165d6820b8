import TypeFlow.Tree.Fields
import TypeFlow.Document.Writer

/-!
# Writing trees

A node is written as a mapping with its kind under `kind` and its fields after it. Locations are not
written.
-/

namespace TypeFlow.Tree

open Document

/-- A text as a document node. -/
def textNode (s : String) : Node Unit :=
  .scalar () .quoted s

/-- A mapping of named values. -/
def record (fields : List (String × Node Unit)) : Node Unit :=
  .mapping () (fields.map fun (name, value) => (textNode name, value))

section Encode

variable {α : Type}

/-- A variable as a document node. -/
def variableNode (v : Variable α) : Node Unit :=
  record <| ("kind", textNode Kind.localVar.tag) ::
    ((if v.name == "" then [] else [("name", textNode v.name)]) ++
      if v.out then [("out", .scalar () .plain "true")] else [])

/-- A field without records in it as a document node. -/
def plainField : FieldValue α (Node Unit) → Node Unit
  | .text s => textNode s
  | .flag b => .scalar () .plain (if b then "true" else "false")
  | .texts items => .sequence () (items.map textNode)
  | .type t => textNode (TypeExpr.render t)
  | .types items => .sequence () (items.map fun t => textNode (TypeExpr.render t))
  | .child c => c
  | .children items => .sequence () items
  | .variables items => .sequence () (items.map variableNode)
  | .path p =>
    record <| ("kind", textNode Kind.path.tag) ::
      ((p.names.map fun ns => ("names", Node.sequence () (ns.map textNode))).toList ++
        (p.typeArgs.map fun ts =>
          ("type_args", Node.sequence () (ts.map fun t => textNode (TypeExpr.render t)))).toList)
  | .block _ | .params _ | .whens _ => .sequence () []

/-- Fields without records in them. -/
def plainFields (fs : Fields α (Node Unit)) : List (String × Node Unit) :=
  fs.map fun (name, v) => (name, plainField v)

/-- A field as a document node. -/
def fieldNode : FieldValue α (Node Unit) → Node Unit
  | .block b =>
    record <| ("kind", textNode Kind.block.tag) ::
      plainFields (Form.fields (.block b.params b.body : Form α (Node Unit)))
  | .params items => .sequence () (items.map fun p => record (plainFields (p.fields : Fields α (Node Unit))))
  | .whens items => .sequence () (items.map fun w => record (plainFields (w.fields : Fields α (Node Unit))))
  | v => plainField v

/-- One layer as a document node. -/
def encodeLayer (f : Form α (Node Unit)) : Node Unit :=
  record <| ("kind", textNode f.kind.tag) :: f.fields.map fun (name, v) => (name, fieldNode v)

/-- A tree as a document. -/
def toNode : Tree α → Node Unit :=
  fold fun _ f => encodeLayer f

/-- The written form of a tree, with a given writer of documents. -/
def encodeBy (write : Node Unit → String) (t : Tree α) : String :=
  write t.toNode

/-- The written form of a tree. -/
def encode (t : Tree α) : String :=
  encodeBy Document.write t

end Encode

end TypeFlow.Tree
