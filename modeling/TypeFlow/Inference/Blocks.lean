import TypeFlow.Inference.Edits
import TypeFlow.Inference.Engine

/-!
# Blocks

A `yield` binds the parameters of the block that was given to the method. The body of the block is
typed at the first `yield`, in a scope inside that of the call; later ones only widen the parameters.
-/

namespace TypeFlow

namespace Engine

variable (e : Engine)

/-- Binds the parameters of a block to values; those without a value are nil. -/
def bindBlockParams (params args : List NodeId) : Infer Unit := do
  match params, args with
  | [], _ => return
  | p :: ps, [] => do
    e.connect p [Infer.nilNode]
    bindBlockParams ps []
  | p :: ps, a :: as => do
    e.connect p [a]
    bindBlockParams ps as

/-- Declares the parameters of a block as nodes. -/
def blockParams : List (Variable Mark) → Infer (List (String × NodeId))
  | [] => return []
  | v :: rest => do
    let id ← Flow.newNode v.name
    Infer.setDeclared v.mark.occ id
    return (v.name, id) :: (← blockParams rest)

/-- Opens the scope of a block. -/
def openBlockScope (b : Nat) (bc : BlockContext) : Infer (ScopeId × List NodeId) := do
  let params ← blockParams (bc.block.params.getD [])
  let caller ← Infer.scope bc.caller
  let s ← Infer.newScope { caller.child bc.caller with
    vars := params.reverse, loops := [{ target := bc.call }] }
  let nodes := params.map Prod.snd
  Infer.changeEnv fun env =>
    { env with blocks := env.blocks.modify b fun bc => { bc with scope := some s, params := nodes } }
  return (s, nodes)

/-- Types the body of a block in its scope. -/
def typeBlock (s : ScopeId) (block : Block Mark Placed) : Infer Unit := do
  e.visitOption s block.body
  let id ← Infer.nodeOf (Tree.ofBlock block)
  Flow.locating block.mark.loc (e.connect id [← Infer.nodeOrNil block.body])

/-- Yields values to a block. Its body is typed the first time. -/
def yieldTo (b : Nat) (bc : BlockContext) (args : List NodeId) : Infer Unit := do
  match bc.scope with
  | some _ => e.bindBlockParams bc.params args
  | none =>
    let (s, params) ← openBlockScope b bc
    e.bindBlockParams params args
    let _ ← Infer.nodeOf (Tree.ofBlock bc.block)
    e.typeBlock s bc.block

/-- Types a `yield`. -/
def visitYield (s : ScopeId) (n : Placed) (args : List Placed) : Infer Unit := do
  let sc ← Infer.scope s
  match sc.block with
  | none =>
    throw (.malformed n.loc ("yield without a block (in '" ++ sc.method ++ "')"))
  | some b =>
    e.visitAll s args
    match (← Infer.env).blocks[b]? with
    | none => return
    | some bc =>
      e.yieldTo b bc (← Infer.nodesOf args)
      e.bind n [← Infer.nodeOf (Tree.ofBlock bc.block)]

end Engine

end TypeFlow
