import TypeFlow.Report.Diagnostic
import TypeFlow.Report.Reachability
import TypeFlow.Standard.Load

/-!
# Compilation

A compilation types the standard definitions and one tree of user code, and then unifies the types.
-/

namespace TypeFlow

/-- A typed program. -/
structure Compiled where
  program : Program
  /-- The trees of user code. -/
  roots : List Placed
  stats : Unifier.Stats

/-- How to compile. -/
structure CompileOptions where
  numeric : NumericTower := .default
  /-- The further files of standard definitions. -/
  definitions : List Standard.TextFile := []
  expander : Expander := .substitute
  /-- Whether the result is no longer wanted, which is noticed at the end. -/
  cancelled : Bool := false

namespace Compilation

/-- Types the standard definitions, then a tree. -/
def typeAll (o : CompileOptions) (t : Source) : Infer Unit := do
  Standard.load o.numeric o.definitions
  Program.infer t

/-- Compiles a tree. The program is what was typed up to the end or up to the failure. -/
def compile (o : CompileOptions) (t : Source) : Except Failure Compiled × Program :=
  match Program.run (.initial o.expander) (typeAll o t) with
  | (.error f, p) => (.error f, p)
  | (.ok _, p) =>
    match Program.unify p with
    | none => (.error .exhausted, p)
    | some (stats, p) =>
      if o.cancelled then (.error (.plain "context canceled"), p)
      else (.ok { program := p, roots := p.env.roots.getLast?.toList, stats }, p)

/-- Compiles a text. -/
def compileText (o : CompileOptions) (name text : String) : Except Failure Compiled × Program :=
  match Source.decode name text with
  | .error m => (.error (Infer.malformed m), .initial o.expander)
  | .ok t => compile o t

end Compilation

/-! ### Summaries -/

/-- What is worth reporting of an instance. -/
structure InstanceSummary where
  mangled : String
  signature : String
  owner : String
  args : List String
  /-- Free type variables with their types, ordered by name. -/
  free : List (String × String)
  result : String
  reachable : Bool

/-- Summaries of all instances of a program, in order. -/
def Program.summaries (p : Program) : List InstanceSummary :=
  let reached := Program.reached p
  (Program.listed p).map fun l =>
    { mangled := l.mangled
      signature := l.inst.signature
      owner := if l.inst.owner = 0 then "" else p.types.name l.inst.owner
      args := l.inst.args.map p.types.name
      free := (l.inst.free.map fun (n, t) => (n, p.types.name t)).mergeSort fun a b =>
        Table.textLe a.1 b.1
      result := p.types.name (Program.resultOf p l.inst)
      reachable := reached.contains l.id }

end TypeFlow
