import TypeFlow.Failure
import TypeFlow.Text.Basic
import TypeFlow.TypeExpr.Parser
import TypeFlow.Tree.Fields
import TypeFlow.Document.Reader
import TypeFlow.Document.Scalar

/-!
# Reading trees

A node is a mapping with its kind under `kind` and its fields beside it; a sequence in the place of
a node is an `expressions` node. A node stands at the position of its mapping unless `line`,
`column` or `length` say otherwise; its length is that of its name.

Fields are read in the order of `Kind.fieldNames`, so of several faults the first in that order is
reported, and a name that the kind does not admit comes last. Where only a path, a variable or a
parameter can stand, a scalar is a short form of it.
-/

namespace TypeFlow

/-- A tree as it was read: every node has its location, and only the node of an empty text has
none. -/
abbrev Source := Tree (Option Location)

/-- A text that is no tree, and where. -/
structure Malformed where
  loc : Option Location
  message : String

namespace Decode

open Document

/-- Reading, with its first fault. -/
abbrev Reading (α : Type) := Except Malformed α

/-- A node of the document. -/
abbrev Item := Node Position

/-- The location of a document node in a named text. -/
def locate (file : String) (y : Item) (length : Nat) : Location :=
  ⟨file, y.mark.line, y.mark.column, length⟩

/-- A fault at a document node. -/
def fault {α : Type} (file : String) (y : Item) (message : String) : Reading α :=
  .error ⟨some (locate file y 1), message⟩

/-- The value of a key; of several equal keys the last one counts. -/
def lookup? (entries : List (Item × Item)) (name : String) : Option Item :=
  (entries.reverse.find? fun (k, _) => k.text == name).map Prod.snd

/-- The keys that every record admits. -/
def commonNames : List String := ["kind", "line", "column", "length"]

/-- Refuses the first key that `known` does not list. -/
def refuseUnknown (file : String) (entries : List (Item × Item)) (known : List String)
    (what : String) : Reading Unit :=
  match entries.find? fun (k, _) => !(commonNames ++ known).contains k.text with
  | none => .ok ()
  | some (k, v) =>
    fault file ((lookup? entries k.text).getD v)
      ("unknown field " ++ Text.quote k.text ++ " for " ++ what)

/-- Turns the failure to read a value into a fault at its node. -/
def value {α : Type} (file : String) (y : Item) (r : Except (List Unfit) α) (before : String) :
    Reading α :=
  match r with
  | .ok a => .ok a
  | .error problems => fault file y (before ++ unfitMessage problems)

/-- The fields of one record, read from the file `file`. -/
structure Reader where
  file : String
  entries : List (Item × Item)
  /-- Reads a node one level down. -/
  node : Item → Reading Source

namespace Reader

/-- Reads a field that may be missing. -/
def field {α : Type} (r : Reader) (name : String) (read : Item → Reading α) : Reading (Option α) :=
  match lookup? r.entries name with
  | none => .ok none
  | some y => some <$> read y

/-- A text. -/
def text (r : Reader) (name : String) : Reading String :=
  (·.getD "") <$> r.field name fun y =>
    match y with
    | .scalar _ _ s => .ok s
    | y => (·.getD "") <$> value r.file y (readText y) ""

/-- A truth value. -/
def flag (r : Reader) (name : String) : Reading Bool :=
  (·.getD false) <$> r.field name fun y => value r.file y (readBool y) ""

/-- A list of texts. -/
def texts (r : Reader) (name : String) : Reading (Option (List String)) :=
  (·.join) <$> r.field name fun y => value r.file y (readTexts y) ""

/-- A written type, given by a text at `y`. -/
def typeAt (r : Reader) (y : Item) (s : String) : Reading TypeExpr :=
  match TypeExpr.parse s with
  | .ok t => .ok t
  | .error message => fault r.file y message

/-- A written type. -/
def type (r : Reader) (name : String) : Reading (Option TypeExpr) :=
  r.field name fun y => r.typeAt y y.text

/-- The items of a list, each read by `read`. -/
def list {α : Type} (r : Reader) (name : String) (read : Item → Reading α) :
    Reading (Option (List α)) :=
  r.field name fun y =>
    match y with
    | .sequence _ items => items.mapM read
    | y => fault r.file y "expected a list"

/-- A list of written types. -/
def types (r : Reader) (name : String) : Reading (Option (List TypeExpr)) :=
  r.list name fun y => r.typeAt y y.text

/-- A node. -/
def child (r : Reader) (name : String) : Reading (Option Source) :=
  r.field name r.node

/-- A list of nodes. -/
def children (r : Reader) (name : String) : Reading (Option (List Source)) :=
  r.list name r.node

/-- A fault where only nodes of one kind can stand. -/
def expected {α : Type} (r : Reader) (y : Item) (wanted : Kind) (found : Source) : Reading α :=
  fault r.file y ("expected " ++ wanted.name ++ ", got " ++ found.kind.name)

/-- A block. -/
def block (r : Reader) (name : String) : Reading (Option (Block (Option Location) Source)) :=
  r.field name fun y => do
    match ← r.node y with
    | .node m (.block params body) => return ⟨m, params, body⟩
    | t => r.expected y .block t

/-- A variable, also by its name alone. -/
def variableAt (r : Reader) (y : Item) : Reading (Variable (Option Location)) :=
  match y with
  | .scalar _ _ s => .ok ⟨some (locate r.file y (Text.byteLength s)), s, false⟩
  | y => do
    match ← r.node y with
    | .node m (.localVar name out) => return ⟨m, name, out⟩
    | t => r.expected y .localVar t

/-- A path, also by its segments joined by `::`. -/
def pathAt (r : Reader) (y : Item) : Reading (PathRef (Option Location)) :=
  match y with
  | .scalar _ _ s => .ok ⟨some (locate r.file y (Text.byteLength s)), some (s.splitOn "::"), none⟩
  | y => do
    match ← r.node y with
    | .node m (.path names typeArgs) => return ⟨m, names, typeArgs⟩
    | t => r.expected y .path t

/-- The short form of a parameter: a name, `out` before it and a type after a colon. -/
def shortParam (r : Reader) (y : Item) (s : String) : Reading (Param Source) := do
  let (name, written) :=
    match Text.cut? ':' s with
    | some (name, written) => (Text.trim name, some written)
    | none => (Text.trim s, none)
  let (name, out) :=
    match Text.after? "out " name with
    | some rest => (Text.trim rest, true)
    | none => (name, false)
  let restriction ← written.mapM fun w => r.typeAt y (Text.trim w)
  return ⟨name, restriction, none, out⟩

/-- The fields of a mapping that stands at `y`. -/
def within (r : Reader) (y : Item) : Reading Reader :=
  match y with
  | .mapping _ entries => .ok { r with entries }
  | y => fault r.file y "expected a mapping"

/-- A parameter. -/
def paramAt (r : Reader) (y : Item) : Reading (Param Source) :=
  match y with
  | .scalar _ _ s => r.shortParam y s
  | y => do
    let r ← r.within y
    let name ← r.text "name"
    let restriction ← r.type "restriction"
    let fallback ← r.child "default"
    let out ← r.flag "out"
    refuseUnknown r.file r.entries ["name", "restriction", "default", "out"] "Param"
    return ⟨name, restriction, fallback, out⟩

/-- A clause. -/
def whenAt (r : Reader) (y : Item) : Reading (When Source) := do
  let r ← r.within y
  let conds ← r.children "conds"
  let body ← r.child "body"
  refuseUnknown r.file r.entries ["conds", "body"] "When"
  return ⟨conds, body⟩

/-- A list of parameters. -/
def params (r : Reader) (name : String) : Reading (Option (List (Param Source))) :=
  r.list name r.paramAt

/-- The layer of a node of a given kind. -/
def form (r : Reader) : Kind → Reading (Form (Option Location) Source)
  | .nop => return .nop
  | .nilLiteral => return .nilLiteral
  | .boolLiteral => return .boolLiteral (← r.flag "value")
  | .intLiteral => return .intLiteral (← r.text "value") (← r.text "suffix")
  | .floatLiteral => return .floatLiteral (← r.text "value") (← r.text "suffix")
  | .charLiteral => return .charLiteral (← r.text "value")
  | .stringLiteral => return .stringLiteral (← r.text "value")
  | .symbolLiteral => return .symbolLiteral (← r.text "value")
  | .arrayLiteral => return .arrayLiteral (← r.children "elements") (← r.type "of")
  | .localVar => return .localVar (← r.text "name") (← r.flag "out")
  | .instanceVar => return .instanceVar (← r.text "name") (← r.flag "out")
  | .classVar => return .classVar (← r.text "name")
  | .globalVar => return .globalVar (← r.text "name")
  | .selfRef => return .selfRef
  | .path => return .path (← r.texts "names") (← r.types "type_args")
  | .assign => return .assign (← r.child "target") (← r.child "value")
  | .expressions => return .expressions (← r.children "body")
  | .ifElse => return .ifElse (← r.child "cond") (← r.child "then") (← r.child "else")
  | .unlessElse => return .unlessElse (← r.child "cond") (← r.child "then") (← r.child "else")
  | .caseOf =>
    return .caseOf (← r.child "subject") (← r.list "whens" r.whenAt) (← r.child "else")
  | .whileLoop => return .whileLoop (← r.child "cond") (← r.child "body")
  | .call =>
    return .call (← r.child "obj") (← r.text "name") (← r.children "args") (← r.block "block")
      (← r.flag "has_parens")
  | .block => return .block (← r.list "params" r.variableAt) (← r.child "body")
  | .yieldTo => return .yieldTo (← r.children "args")
  | .returnFrom => return .returnFrom (← r.child "value")
  | .breakOut => return .breakOut (← r.child "value")
  | .methodDef =>
    return .methodDef (← r.text "receiver") (← r.text "name") (← r.params "params")
      (← r.type "return") (← r.child "body") (← r.flag "yields")
  | .classDef =>
    return .classDef (← r.text "name") (← r.field "superclass" r.pathAt) (← r.texts "type_params")
      (← r.child "body")
  | .moduleDef => return .moduleDef (← r.text "name") (← r.child "body")
  | .includeModule => return .includeModule (← r.field "module" r.pathAt)
  | .isA => return .isA (← r.child "obj") (← r.type "type")
  | .respondsTo => return .respondsTo (← r.child "obj") (← r.text "name")
  | .pointerOf => return .pointerOf (← r.child "target")
  | .libDef => return .libDef (← r.text "name") (← r.children "body")
  | .funDef =>
    return .funDef (← r.text "name") (← r.text "real_name") (← r.params "params")
      (← r.type "return") (← r.flag "varargs")
  | .structDef => return .structDef (← r.text "name") (← r.flag "union") (← r.params "fields")
  | .typeDef => return .typeDef (← r.text "name") (← r.type "type")
  | .macroDef => return .macroDef (← r.text "name") (← r.texts "params") (← r.child "body")
  | .primitive => return .primitive (← r.text "name")

/-- An integer that overrides part of a location. -/
def override (r : Reader) (name : String) (default : Int) : Reading Int :=
  (·.getD default) <$> r.field name fun y => value r.file y (readInt y) (name ++ ": ")

end Reader

/-- The default length of a node: that of its name. -/
def nameLength (entries : List (Item × Item)) : Nat :=
  match lookup? entries "name" with
  | some (.scalar _ _ s) => max 1 (Text.byteLength s)
  | _ => 1

/-- Reads a mapping as a node. -/
def mapping (r : Reader) (y : Item) : Reading Source := do
  let kindItem ← match lookup? r.entries "kind" with
    | some k => .ok k
    | none => fault r.file y "node is missing a kind"
  let kind ← match Kind.ofTag? kindItem.text with
    | some k => .ok k
    | none => fault r.file kindItem ("unknown node kind " ++ Text.quote kindItem.text)
  let line ← r.override "line" y.mark.line
  let column ← r.override "column" y.mark.column
  let length ← r.override "length" (nameLength r.entries)
  let form ← r.form kind
  refuseUnknown r.file r.entries kind.fieldNames kind.name
  return .node (some ⟨r.file, line, column, length⟩) form

/-- Reads a document node of at most the given depth. -/
def node (file : String) : Nat → Item → Reading Source
  | 0, y => fault file y "expected a node mapping, got \"\""
  | depth + 1, y =>
    match y with
    | .sequence _ items => do
      let body ← items.mapM (node file depth)
      return .node (some (locate file y 1)) (.expressions (if body.isEmpty then none else some body))
    | .mapping _ entries => mapping { file, entries, node := node file depth } y
    | .scalar _ _ s => fault file y ("expected a node mapping, got " ++ Text.quote s)

end Decode

/-- Reads a tree from a named text, with a given reader of documents. -/
def Source.decodeBy (read : String → Option (Option (Document.Node Document.Position))) (file text : String) :
    Except Malformed Source :=
  match read text with
  | none => .error ⟨some ⟨file, 1, 1, 1⟩, "yaml: the text is not a document"⟩
  | some none => .ok (.node none .nop)
  | some (some root) => Decode.node file root.depth root

/-- Reads a tree from a named text. -/
def Source.decode (file text : String) : Except Malformed Source :=
  Source.decodeBy Document.read file text

end TypeFlow
