import TypeFlow.Tree.Expansion
import TypeFlow.Tree.Traverse
import TypeFlow.Overload.Resolution
import TypeFlow.Flow.Propagation

/-!
# What typing a program accumulates

Methods, their instances and the calls that resolve to them, scopes, variables and macros. Everything
that others refer to has a number: its index in the array that holds it.

A call is typed at a *site*. Whenever the type of its receiver or of an argument changes, it is
resolved again. A call whose receiver or arguments stand for several classes becomes a *dispatch* with
a subcall for every combination that needs one.

In a *placed* tree every node knows its location and the number of its occurrence. The same source tree can be placed
several times (the body of a method once per instance), and what is found out about a node is recorded under the number
of its occurrence.
-/

namespace TypeFlow

/-! ### Placed trees -/

/-- What a node of a placed tree carries. -/
structure Mark where
  loc : Option Location
  /-- The number of the occurrence. -/
  occ : Nat
  deriving DecidableEq, Repr

/-- A tree that is being typed. -/
abbrev Placed := Tree Mark

namespace Placed

/-- The location of a node. -/
def loc (t : Placed) : Option Location :=
  t.mark.loc

/-- The name of the local variable that a node is. -/
def localName? (t : Placed) : Option String :=
  match t.form with
  | .localVar name _ => some name
  | _ => none

/-- How messages refer to the graph node of a tree node. -/
def label (t : Placed) : String :=
  let tag := t.kind.tag
  match t.form with
  | .localVar name _ => tag ++ " " ++ name
  | .call _ name _ _ _ => tag ++ " " ++ name
  | .instanceVar name _ => tag ++ " @" ++ name
  | _ => tag

/-- A tree without its places. -/
def source (t : Placed) : Source :=
  t.map Mark.loc

end Placed

/-- Numbers the nodes of a tree from `next` on; the state is the next free number. -/
def Source.place (t : Source) : StateM Nat Placed :=
  t.traverseMarks fun loc => modifyGet fun next => (⟨loc, next⟩, next + 1)

/-! ### Numbers -/

/-- The number of a method. -/
abbrev MethodId := Nat

/-- The number of an instance. -/
abbrev InstanceId := Nat

/-- The number of a scope. -/
abbrev ScopeId := Nat

/-! ### Slots -/

/-- A map from small numbers. -/
structure Slots (α : Type) where
  entries : Array (Option α) := #[]

namespace Slots

variable {α : Type}

/-- The value at a number. -/
def get? (s : Slots α) (i : Nat) : Option α :=
  s.entries[i]?.join

/-- Puts a value at a number. -/
def set (s : Slots α) (i : Nat) (a : α) : Slots α :=
  if i < s.entries.size then ⟨s.entries.setIfInBounds i (some a)⟩
  else ⟨(s.entries ++ Array.replicate (i - s.entries.size) none).push (some a)⟩

/-- Changes the value at a number, if there is one. -/
def modify (s : Slots α) (i : Nat) (f : α → α) : Slots α :=
  ⟨s.entries.modify i (·.map f)⟩

end Slots

/-! ### Methods -/

/-- A declared method. -/
structure Definition where
  loc : Option Location := none
  name : String
  params : List (Param Source) := []
  /-- The declared result type. -/
  result : Option TypeExpr := none
  body : Option Source := none
  /-- Whether it expects a block. -/
  yields : Bool := false

/-- How the instances of a method are typed. -/
inductive MethodKind where
  /-- By typing a copy of the body. -/
  | user
  /-- By the declared result type. -/
  | primitive
  /-- By the declaration of a foreign function. -/
  | external (varargs : Bool)
  /-- Reads a member of a foreign structure. -/
  | getter (type : TypeId)
  /-- Writes a member of a foreign structure. -/
  | setter (type : TypeId)

/-- A method with its instances. -/
structure Method where
  definition : Definition
  kind : MethodKind
  owner : TypeId
  /-- The instances made for calls without block, by receiver and argument types. -/
  memo : List (List TypeId × InstanceId) := []
  /-- The instance of a foreign function. -/
  external : Option InstanceId := none
  /-- Whether it is a constructor made from `initialize`. -/
  synthetic : Bool := false

/-- What tells overload groups of one type apart. -/
structure GroupKey where
  name : String
  arity : Nat
  yields : Bool := false
  deriving DecidableEq, Repr

/-- The overloads of one name, number of arguments and expectation of a block on a type. -/
structure Group where
  key : GroupKey
  owner : TypeId
  candidates : List (Candidate MethodId) := []

/-- A method typed for one receiver type and tuple of argument types. -/
structure Instance where
  method : MethodId
  owner : TypeId
  args : List TypeId
  free : Bindings
  /-- The typed copy of the body. -/
  body : Option Placed := none
  /-- The node of the result type. -/
  result : NodeId
  /-- The nodes of the parameters of a foreign function. -/
  params : List NodeId := []
  /-- How messages refer to it. -/
  signature : String

/-! ### Scopes -/

/-- What `break` leaves: a loop, or the call that a block was given to. -/
structure Loop where
  target : NodeId
  broke : Bool := false

/-- A method body, a class body, the top level, or a block inside one of these. -/
structure Scope where
  /-- The scope around a block, whose variables it sees. -/
  parent : Option ScopeId := none
  vars : List (String × NodeId) := []
  /-- Narrowed views of variables, the innermost first. -/
  filters : List (List (String × NodeId)) := []
  self : TypeId
  /-- The type in which declarations are made. -/
  home : TypeId
  /-- The instance whose body this is. -/
  inst : Option InstanceId := none
  /-- The block given to that instance. -/
  block : Option Nat := none
  loops : List Loop := []
  /-- The name of the method, for messages. -/
  method : String := ""

/-- The block that was given to an instance. Its scope and the nodes of its parameters are made when
the instance first yields. -/
structure BlockContext where
  block : Block Mark Placed
  caller : ScopeId
  call : NodeId
  scope : Option ScopeId := none
  params : List NodeId := []

/-! ### Calls -/

/-- The parts of a call. -/
structure CallParts where
  mark : Mark
  obj : Option Placed
  name : String
  args : List Placed
  block : Option (Block Mark Placed)
  hasParens : Bool

/-- A call that is resolved again whenever the type of its receiver or of an argument changes. -/
structure Site where
  call : CallParts
  scope : ScopeId
  node : NodeId
  /-- The node of the receiver; zero if there is none. -/
  obj : NodeId := 0
  args : List NodeId := []
  /-- The receiver and argument types that it was last resolved for. -/
  key : Option (List TypeId) := none
  /-- The nodes that its type depends on. -/
  targets : List NodeId := []
  /-- How often its block was typed. -/
  blocks : Nat := 0
  dispatch : Option Nat := none
  /-- For a call of `super`: the type that declared the calling method, and the method's name. -/
  super : Option (TypeId × String) := none
  /-- Whether the variables passed to out parameters are bound. -/
  outBound : Bool := false
  /-- The arguments that were wrapped in a conversion. -/
  converted : List Nat := []

/-- A call over several classes, as subcalls for single combinations. -/
structure Dispatch where
  name : String
  node : NodeId
  subcalls : List Placed := []
  /-- The combinations that have a subcall. -/
  shapes : List (List TypeId) := []

/-- What a call resolved to. -/
inductive Target where
  | inst (i : InstanceId)
  | dispatch (d : Nat)
  deriving DecidableEq, Repr

/-- What was found out about an occurrence of a node. An occurrence whose value is asked for, one that is
assigned to and one that is a parameter of a block are three different things: each has a graph node of its own
kind, and none of the other kinds. -/
structure Note where
  /-- The graph node of its value; zero as long as there is none. -/
  node : NodeId := 0
  /-- The graph node of the variable or constant that is assigned to here. -/
  assigned : NodeId := 0
  /-- The graph node of the parameter that is declared here. -/
  declared : NodeId := 0
  targets : List Target := []
  /-- The expansion of a macro call. -/
  expansion : Option Placed := none
  /-- Arguments added to a call of `super` that was written without any. -/
  added : List Placed := []
  /-- The arguments wrapped in a conversion, with the marks of the conversions. -/
  conversions : List (Nat × Mark) := []

/-- The graph node whose type is shown at an occurrence. -/
def Note.binding (n : Note) : NodeId :=
  if n.declared ≠ 0 then n.declared else if n.assigned ≠ 0 then n.assigned else n.node

/-- Notes up to a number of occurrences at least. -/
def openNotes (notes : Array Note) (size : Nat) : Array Note :=
  notes ++ Array.replicate (size - notes.size) ({} : Note)

/-! ### Macros -/

/-- A declared macro. -/
structure MacroDefinition where
  params : Option (List String)
  body : Option Source

/-- The expansion of a macro call; the locations of the tree point into the text. -/
structure Expanded where
  tree : Source
  text : String

/-! ### The whole -/

/-- What typing a program accumulates beside types and graph nodes. -/
structure Env where
  /-- The type of an integer literal without suffix; zero if there is none. -/
  intLiteral : TypeId := 0
  /-- The type of a float literal without suffix; zero if there is none. -/
  floatLiteral : TypeId := 0
  methods : Array Method := #[]
  groups : Array Group := #[]
  macros : List (String × MacroDefinition) := []
  /-- Foreign functions by library and name. -/
  funs : List ((TypeId × String) × MethodId) := []
  globals : List (String × NodeId) := []
  classVars : List ((TypeId × String) × NodeId) := []
  ivars : List ((TypeId × String) × NodeId) := []
  /-- The sites by graph node. -/
  sites : Slots Site := {}
  dispatches : Array Dispatch := #[]
  instances : Array Instance := #[]
  scopes : Array Scope := #[]
  blocks : Array BlockContext := #[]
  /-- The notes by occurrence. -/
  notes : Array Note := #[]
  /-- Symbols in the order of first appearance. -/
  symbols : List String := []
  /-- The trees typed at top level. -/
  roots : List Placed := []
  expander : Expander := .none
  /-- Macro expansions by name and written arguments. -/
  expansions : List (String × Expanded) := []
  /-- What the expander was asked. -/
  requests : List Request := []
  /-- How many bodies are being typed inside each other. -/
  depth : Nat := 0

namespace Env

/-- The note about an occurrence. -/
def note (e : Env) (occ : Nat) : Note :=
  (e.notes[occ]?).getD {}

/-- Changes the note about an occurrence, which is opened if there is none yet. -/
def changeNote (e : Env) (occ : Nat) (f : Note → Note) : Env :=
  { e with notes := (openNotes e.notes (occ + 1)).modify occ f }

end Env

/-- A program with all that is known about it. -/
abbrev Program := World Env

/-- A typing step. -/
abbrev Infer := Flow Env

/-- Looks up a key in an association list. -/
def assoc? {α β : Type} [BEq α] (l : List (α × β)) (key : α) : Option β :=
  (l.find? fun (k, _) => k == key).map Prod.snd

namespace Infer

/-- Reads the environment. -/
def env : Infer Env :=
  return (← get).env

/-- Changes the environment. -/
def changeEnv (f : Env → Env) : Infer Unit :=
  modify fun ⟨types, graph, env⟩ => ⟨types, graph, f env⟩

/-- The node whose type is nil. -/
def nilNode : NodeId :=
  1

/-- The place of a tree: numbers its nodes and opens their notes. -/
def place (t : Source) : Infer Placed := do
  let (placed, next) := t.place.run (← env).notes.size
  changeEnv fun e => { e with notes := openNotes e.notes next }
  return placed

/-- A mark for a node that is made while typing. -/
def freshMark (loc : Option Location) : Infer Mark := do
  let occ := (← env).notes.size
  changeEnv fun e => { e with notes := e.notes.push {} }
  return ⟨loc, occ⟩

/-- The note about an occurrence. -/
def note (occ : Nat) : Infer Note :=
  return ((← env).notes[occ]?).getD {}

/-- Changes the note about an occurrence. -/
def changeNote (occ : Nat) (f : Note → Note) : Infer Unit :=
  changeEnv (·.changeNote occ f)

/-- Records the graph node of the value of an occurrence. -/
def setNode (occ : Nat) (id : NodeId) : Infer Unit :=
  changeNote occ fun n => { n with node := id }

/-- Records the graph node that an occurrence assigns to. -/
def setAssigned (occ : Nat) (id : NodeId) : Infer Unit :=
  changeNote occ fun n => { n with assigned := id }

/-- Records the graph node that an occurrence declares. -/
def setDeclared (occ : Nat) (id : NodeId) : Infer Unit :=
  changeNote occ fun n => { n with declared := id }

/-- The graph node of a tree node, made at the first request. -/
def nodeOf (t : Placed) : Infer NodeId := do
  let n ← note t.mark.occ
  if n.node ≠ 0 then return n.node
  else
    let id ← Flow.newNode t.label
    setNode t.mark.occ id
    return id

/-- The graph nodes of several tree nodes. -/
def nodesOf : List Placed → Infer (List NodeId)
  | [] => return []
  | t :: rest => return (← nodeOf t) :: (← nodesOf rest)

/-- The graph node of an optional tree node, or the one whose type is nil. -/
def nodeOrNil : Option Placed → Infer NodeId
  | none => return nilNode
  | some t => nodeOf t

/-- Records a symbol. -/
def addSymbol (name : String) : Infer Unit :=
  changeEnv fun e =>
    if e.symbols.contains name then e else { e with symbols := e.symbols ++ [name] }

end Infer

end TypeFlow
