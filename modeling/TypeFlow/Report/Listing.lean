import TypeFlow.Compilation
import TypeFlow.Text.Quoted

/-!
# Listings

A typed program as text: every top-level tree with the type of each node, then the body of every
method instance, then the table of instances.

A method table shows the instances and the result of unification as nested records. A record whose
fields are themselves composite stands on lines of its own, with the values of its fields aligned; every
other record stands on one line.
-/

namespace TypeFlow

namespace Listing

/-- What a listing shows of a node beside its kind. -/
def detail : Form Mark Placed → String
  | .boolLiteral v => if v then " true" else " false"
  | .intLiteral v s => " " ++ v ++ s
  | .floatLiteral v s => " " ++ v ++ s
  | .charLiteral v => " " ++ Text.quote v
  | .stringLiteral v => " " ++ Text.quote v
  | .symbolLiteral v => " :" ++ v
  | .localVar n _ => " " ++ n
  | .instanceVar n _ => " @" ++ n
  | .classVar n => " @@" ++ n
  | .globalVar n => " $" ++ n
  | .path ns _ => " " ++ String.intercalate "::" (ns.getD [])
  | .call _ n _ _ _ => " " ++ n
  | .methodDef _ n _ _ _ _ => " " ++ n
  | .classDef n _ _ _ => " " ++ n
  | .moduleDef n _ => " " ++ n
  | .macroDef n _ _ => " " ++ n
  | .libDef n _ => " " ++ n
  | .funDef n _ _ _ _ => " " ++ n
  | .structDef n _ _ => " " ++ n
  | .isA _ t => " " ++ (t.map TypeExpr.render).getD ""
  | .respondsTo _ n => " :" ++ n
  | _ => ""

/-- An indented line. -/
def line (depth : Nat) (text : String) : String :=
  String.ofList (List.replicate (2 * depth) ' ') ++ text ++ "\n"

/-- The type of a node, if it has a graph node. -/
def typeText (p : Program) (n : Note) : String :=
  if n.binding = 0 then "" else " : " ++ p.types.name (p.graph.typeOf n.binding)

/-- The instances that a call resolved to. -/
def targetText (p : Program) (n : Note) : String :=
  String.join <| n.targets.map fun
    | .inst i =>
      match p.env.instances[i]? with
      | some inst => " -> " ++ Program.mangled p inst
      | none => ""
    | .dispatch _ => ""

/-- The line of a node without its indentation. -/
def heading (p : Program) (t : Placed) : String :=
  let n := p.env.note t.mark.occ
  t.kind.tag ++ detail t.form ++ typeText p n ++ targetText p n

/-- Something left to list, at a depth. -/
inductive Item where
  | tree (depth : Nat) (t : Placed)
  | text (depth : Nat) (s : String)

/-- The expansion of a macro call. -/
def expansionItems (depth : Nat) (n : Note) : List Item :=
  match n.expansion with
  | none => []
  | some t => [.text (depth + 1) "expanded:", .tree (depth + 2) t]

/-- The subcalls of a dispatch. -/
def dispatchItems (p : Program) (depth : Nat) (n : Note) : List Item :=
  let dispatch? := n.targets.findSome? fun
    | .dispatch d => p.env.dispatches[d]?
    | .inst _ => none
  match dispatch? with
  | none => []
  | some d =>
    .text (depth + 1) ("dispatch " ++ d.name ++ " : " ++ p.types.name (p.graph.typeOf d.node)) ::
      d.subcalls.map (.tree (depth + 2))

/-- What is listed below a node. -/
def itemsBelow (p : Program) (depth : Nat) (t : Placed) : List Item :=
  match t.form with
  | .methodDef .. | .macroDef .. => []
  | _ =>
    let n := p.env.note t.mark.occ
    (p.env.childrenOf t).map (.tree (depth + 1)) ++ expansionItems depth n ++ dispatchItems p depth n

/-- Lists what is left, at most `fuel` items. -/
def list (p : Program) : Nat → List Item → List String
  | 0, _ => []
  | _, [] => []
  | fuel + 1, .text depth s :: rest => line depth s :: list p fuel rest
  | fuel + 1, .tree depth t :: rest =>
    line depth (heading p t) :: list p fuel (itemsBelow p depth t ++ rest)

/-- Trees, listed at a depth. -/
def trees (p : Program) (depth : Nat) (ts : List Placed) : String :=
  String.join (list p (3 * p.env.notes.size + 1) (ts.map (.tree depth)))

/-- An instance with its body. -/
def instanceText (p : Program) (l : Program.Listed) : String :=
  match l.inst.body with
  | none => ""
  | some b => line 1 l.mangled ++ trees p 2 [b]

/-- The listing of a program, of which `roots` are shown. -/
def render (p : Program) (roots : List Placed) : String :=
  let instances := Program.listed p
  "roots:\n" ++ trees p 1 roots ++
    "\ninstances:\n" ++ String.join (instances.map (instanceText p)) ++
    "\ntable:\n" ++ String.join (instances.map fun l => line 1 l.mangled)

end Listing

end TypeFlow

/-! ### The method table as a structure -/

namespace TypeFlow.MethodTable

open Text (quote)

/-- Fields on lines of their own, with their values aligned. -/
def alignedFields (indent : String) (fields : List (String × String)) : String :=
  let width := (fields.map (·.1.length)).foldl max 0
  String.join <| fields.map fun (name, value) =>
    indent ++ name ++ ":" ++ String.ofList (List.replicate (width + 1 - name.length) ' ') ++ value ++ ",\n"

/-- A list of texts on one line. -/
def textList : List String → String
  | [] => "nil"
  | texts => "\x7b" ++ String.intercalate ", " (texts.map quote) ++ "\x7d"

/-- Texts by name, on one line. -/
def textMap (entries : List (String × String)) : String :=
  "\x7b" ++ String.intercalate ", " (entries.map fun (k, v) => quote k ++ ":" ++ quote v) ++ "\x7d"

/-- An instance. -/
def instanceEntry (s : InstanceSummary) : String :=
  "        \x7b\n" ++
    alignedFields "            "
      [("Mangled", quote s.mangled), ("Signature", quote s.signature), ("Owner", quote s.owner),
       ("Args", textList s.args), ("Free", textMap s.free), ("Return", quote s.result),
       ("Reachable", toString s.reachable)] ++
    "        \x7d,\n"

/-- The result of unification; counts are left out if all of them are zero. -/
def stats (s : Unifier.Stats) : String :=
  let counts := [("Canonical", s.canonical), ("Folded", s.folded), ("Nodes", s.nodes),
    ("Instances", s.instances)]
  let shown := if counts.all (·.2 == 0) then [] else counts
  "unify.Stats\x7b" ++
    String.intercalate ", " (shown.map fun (name, n) => name ++ ":" ++ toString n) ++ "\x7d"

/-- The fields of the whole table. -/
def fields (instances : List InstanceSummary) (unified : Unifier.Stats) : String :=
  match instances with
  | [] => alignedFields "    " [("Instances", "nil"), ("Unified", stats unified)]
  | _ =>
    alignedFields "    "
        [("Instances", "\x7b\n" ++ String.join (instances.map instanceEntry) ++ "    \x7d")] ++
      alignedFields "    " [("Unified", stats unified)]

/-- The method table of a compiled program. -/
def render (c : Compiled) : String :=
  "main.rawResult\x7b\n" ++ fields (Program.summaries c.program) c.stats ++ "\x7d\n"

end TypeFlow.MethodTable
