import TypeFlow.Inference.CallLookup
import TypeFlow.Inference.Edits
import TypeFlow.Inference.Engine

/-!
# Dispatch

A call over several classes is expanded into one subcall per combination of receiver and argument
types that needs one. A receiver whose most specific match accepts the arguments whole needs a single
subcall; any other one needs a subcall for every combination of argument classes. Combinations that
have a subcall already keep it. The type of the call joins those of its subcalls.
-/

namespace TypeFlow

namespace Infer

/-- The combinations that a call on one receiver class needs subcalls for. -/
def shapesFor (site : Site) (recv : TypeId) (args : List TypeId) : Infer (List (List TypeId)) := do
  let (_, ms) ← matchCall site recv args
  if ms.branches args then
    let t ← Flow.types
    return (Overload.product (args.map t.concrete)).map (recv :: ·)
  else return [recv :: args]

/-- The combinations that a call on several receiver classes needs subcalls for. -/
def shapesForAll (site : Site) (args : List TypeId) : List TypeId → Infer (List (List TypeId))
  | [] => return []
  | r :: rest => return (← shapesFor site r args) ++ (← shapesForAll site args rest)

/-- The dispatch of the call at a node, opened at the first request. -/
def openDispatch (node : NodeId) (name : String) : Infer Nat := do
  match ((← site? node).bind Site.dispatch) with
  | some d => return d
  | none =>
    let id := (← env).dispatches.size
    let target ← Flow.newNode ("dispatch " ++ name)
    changeEnv fun e => { e with dispatches := e.dispatches.push { name, node := target } }
    changeSite node fun s => { s with dispatch := some id }
    return id

/-- Changes a dispatch. -/
def changeDispatch (id : Nat) (f : Dispatch → Dispatch) : Infer Unit :=
  changeEnv fun e => { e with dispatches := e.dispatches.modify id f }

/-- Notes that a combination has a subcall, and says whether it is new. -/
def addShape (id : Nat) (shape : List TypeId) : Infer Bool := do
  match (← env).dispatches[id]? with
  | none => return false
  | some d =>
    if d.shapes.contains shape then return false
    else
      changeDispatch id fun d => { d with shapes := shape :: d.shapes }
      return true

/-- The node of a dispatch. -/
def dispatchNode (id : Nat) : Infer NodeId :=
  return (((← env).dispatches[id]?).map Dispatch.node).getD 0

end Infer

namespace Engine

variable (e : Engine)

/-- A variable that stands for a receiver or an argument of a given type. -/
def placeholder (name : String) (loc : Option Location) (t : TypeId) : Infer Placed := do
  let v : Placed := .node (← Infer.freshMark loc) (.localVar name false)
  e.setType v t
  return v

/-- Placeholders for the arguments of a subcall, counted from `i`. -/
def placeholders (loc : Option Location) : Nat → List TypeId → Infer (List Placed)
  | _, [] => return []
  | i, t :: rest => do
    let v ← e.placeholder ("%arg" ++ toString i) loc t
    return v :: (← placeholders loc (i + 1) rest)

/-- The placeholder for the receiver of a subcall. -/
def receiverPlaceholder (site : Site) (t : TypeId) : Infer (Option Placed) := do
  if site.obj = 0 then return none
  else return some (← e.placeholder "%recv" site.call.mark.loc t)

/-- A copy of the block of a call. -/
def blockCopy (site : Site) : Infer (Option (Block Mark Placed)) := do
  match site.call.block with
  | none => return none
  | some b => return some (← Infer.copyBlock b)

/-- The subcall for a combination, the receiver first. -/
def subcallFor (site : Site) (shape : List TypeId) : Infer CallParts := do
  let loc := site.call.mark.loc
  let mark ← Infer.freshMark loc
  let obj ← e.receiverPlaceholder site (shape.headD 0)
  let args ← e.placeholders loc 0 shape.tail
  let block ← blockCopy site
  return { mark, obj, name := site.call.name, args, block, hasParens := site.call.hasParens }

/-- Adds the subcall for a combination to a dispatch and resolves it. -/
def subcall (site : Site) (d : Nat) (shape : List TypeId) : Infer Unit := do
  let call ← e.subcallFor site shape
  Infer.changeDispatch d fun d => { d with subcalls := d.subcalls ++ [call.tree] }
  let node ← Infer.newSite call site.scope site.super
  e.recalculate node
  e.connect (← Infer.dispatchNode d) [node]

/-- Adds subcalls for those combinations that have none. -/
def subcalls (site : Site) (d : Nat) : List (List TypeId) → Infer Unit
  | [] => return
  | shape :: rest => do
    if ← Infer.addShape d shape then e.subcall site d shape
    subcalls site d rest

/-- Resolves a call over several classes: the nodes its type depends on, and its targets. -/
def dispatch (site : Site) (recvs args : List TypeId) : Infer (List NodeId × List Target) := do
  let shapes ← Infer.shapesForAll site args recvs
  let d ← Infer.openDispatch site.node site.call.name
  e.subcalls site d shapes
  return ([← Infer.dispatchNode d], [.dispatch d])

end Engine

end TypeFlow
