import TypeFlow.Inference.Program

/-!
# What a program reaches

`Program.walk` lists every typed node that the top-level trees reach: the trees themselves, macro
expansions, the subcalls of dispatches, and the bodies of the instances that calls resolved to, each
of them once. Definitions of methods and macros are listed without what is inside them.
-/

namespace TypeFlow

namespace Program

/-- Something to walk. -/
inductive Pending where
  | tree (t : Placed)
  /-- The body of an instance, unless it was walked already. -/
  | body (i : InstanceId)

/-- What was walked so far, the latest first. -/
structure Walked where
  nodes : List Placed := []
  /-- The instances whose bodies were walked. -/
  bodies : List InstanceId := []

/-- Whether a node is a definition that is not walked into. -/
def isDefinition (t : Placed) : Bool :=
  match t.form with
  | .methodDef .. | .macroDef .. => true
  | _ => false

/-- The note about a call; an empty one for any other node. -/
def callNote (p : Program) (t : Placed) : Note :=
  match t.form with
  | .call .. => p.env.note t.mark.occ
  | _ => {}

/-- The subcalls of a dispatch. -/
def subcallsOf (p : Program) (d : Nat) : List Placed :=
  ((p.env.dispatches[d]?).map Dispatch.subcalls).getD []

/-- The typed body of an instance. -/
def bodyOf? (p : Program) (i : InstanceId) : Option Placed :=
  (p.env.instances[i]?).bind Instance.body

/-- What a target leads to. -/
def pendingTarget (p : Program) : Target → List Pending
  | .inst i => [.body i]
  | .dispatch d => (p.subcallsOf d).map .tree

/-- What a node leads to: its expansion, what it resolved to, then its children. A definition leads to
nothing. -/
def pendingAfter (p : Program) (t : Placed) : List Pending :=
  if isDefinition t then []
  else
    let n := p.callNote t
    (n.expansion.map Pending.tree).toList ++ n.targets.flatMap p.pendingTarget ++
      (p.env.childrenOf t).map .tree

/-- Walks one thing and what it leads to, nesting at most `fuel` deep; `enter` says whether a node is
walked into. -/
def walkFrom (p : Program) (enter : Placed → Bool) : Nat → Walked → Pending → Walked
  | 0, w, _ => w
  | fuel + 1, w, .tree t =>
    let w := { w with nodes := t :: w.nodes }
    if enter t then (p.pendingAfter t).foldl (p.walkFrom enter fuel) w else w
  | fuel + 1, w, .body i =>
    match p.bodyOf? i with
    | none => w
    | some b =>
      if w.bodies.contains i then w
      else p.walkFrom enter fuel { w with bodies := i :: w.bodies } (.tree b)

/-- How deep a walk nests at most. No tree nests deeper than it has occurrences, of which each may be
wrapped in a conversion, and each body is entered once. -/
def walkDepth (p : Program) : Nat :=
  (p.env.instances.size + 1) * (2 * p.env.notes.size + 1)

/-- Every typed node that the top-level trees reach, in the order of the walk, where `enter` says
whether a node is walked into. -/
def walk (p : Program) (enter : Placed → Bool) : List Placed :=
  ((p.env.roots.map .tree).foldl (p.walkFrom enter p.walkDepth) {}).nodes.reverse

/-- The instances among the targets of a node. -/
def targetInstances (p : Program) (t : Placed) : List InstanceId :=
  (p.callNote t).targets.filterMap fun
    | .inst i => some i
    | .dispatch _ => none

/-- The numbers of the instances that some walked call resolved to. -/
def reached (p : Program) : List InstanceId :=
  ((p.walk fun _ => true).flatMap p.targetInstances).eraseDups

/-- The instances that some walked call resolved to, ordered by their names. -/
def reachable (p : Program) : List Listed :=
  let reached := p.reached
  p.listed.filter fun l => reached.contains l.id

end Program

end TypeFlow
