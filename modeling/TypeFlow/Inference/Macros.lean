import TypeFlow.Inference.Edits
import TypeFlow.Inference.Engine

/-!
# Macro calls

A macro call is expanded into a tree, which is typed in its place. The tree is written and read back,
so its locations point into the text shown in messages. Calls of the same macro with the same
arguments share one expansion.
-/

namespace TypeFlow

namespace Infer

/-- What tells macro calls apart: the name and the written arguments. -/
def expansionKey (name : String) (args : List Source) : String :=
  args.foldl (fun k a => k ++ "\x00" ++ a.encode) name

/-- A failure to read a tree. -/
def malformed (m : Malformed) : Failure :=
  .malformed m.loc m.message

/-- Asks a server to expand a macro call. -/
def askServer (answers : Request → Answer) (c : Expansion.Call) : Infer (Except Failure Source) := do
  changeEnv fun e => { e with requests := e.requests ++ [c.request] }
  match answers c.request with
  | .source text => return (Source.decode (Expansion.fileName c.name) text).mapError malformed
  | .error text =>
    return .error (.plain ("expanding macro '" ++ c.name ++ "': [-32000] " ++ text))

/-- Expands a macro call. -/
def expandCall (c : Expansion.Call) : Infer (Except Failure Source) := do
  match (← env).expander with
  | .none => return .error (.plain "")
  | .substitute => return (Expansion.substitute c).mapError .plain
  | .server answers => askServer answers c

/-- Reads an expansion back from its written form. -/
def normalize (name : String) (tree : Source) : Except Failure Expanded :=
  let text := tree.encode
  match Source.decode (Expansion.fileName name) text with
  | .ok tree => .ok { tree, text }
  | .error m => .error (malformed m)

/-- The expansion of a macro call. -/
def expand (c : Expansion.Call) : Infer (Except Failure Expanded) := do
  let key := expansionKey c.name c.args
  match assoc? (← env).expansions key with
  | some x => return .ok x
  | none =>
    match (← expandCall c).bind (normalize c.name) with
    | .error f => return .error f
    | .ok x =>
      changeEnv fun e => { e with expansions := (key, x) :: e.expansions }
      return .ok x

/-- The expansion of a macro call at a location; a failure names the macro. -/
def expansionAt (loc : Option Location) (c : Expansion.Call) : Infer Expanded := do
  match (← env).expander with
  | .none =>
    throw (.plain ("can't expand macro '" ++ c.name ++ "': no macro expander configured"))
  | _ =>
    match ← expand c with
    | .ok x => return x
    | .error f => throw (.expanding loc c.name "" f)

end Infer

namespace Engine

variable (e : Engine)

/-- Types a macro call. -/
def visitMacro (s : ScopeId) (n : Placed) (call : CallParts) (d : MacroDefinition) : Infer Unit := do
  let env ← Infer.env
  let loc := call.mark.loc
  let x ← Infer.expansionAt loc
    { name := call.name, params := d.params, args := call.args.map env.written, body := d.body }
  let tree ← Infer.place x.tree
  Infer.changeNote call.mark.occ fun note => { note with expansion := some tree }
  match ← Flow.attempt (e.visit s tree) with
  | .error f => throw (.expanding loc call.name x.text f)
  | .ok _ => e.bind n [← Infer.nodeOf tree]

end Engine

end TypeFlow
