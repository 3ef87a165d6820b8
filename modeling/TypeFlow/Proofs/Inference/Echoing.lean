import TypeFlow.Inference.Program
import TypeFlow.Proofs.Flow.Run
import TypeFlow.Proofs.Inference.Lookup

/-!
# Engines that do the same

A typing step echoes another one if the other one does the same whenever it does not fail. The typing steps over one
engine echo those over another one if the engines do (`Engine.Echoes`). So an engine that gives up more often than
another one types every tree that it does not fail on as the other one does.
-/

namespace TypeFlow

variable {α β : Type}

/-- Whenever the first step does not fail, the second one does the same. -/
def Echoes (m m' : Infer α) : Prop :=
  ∀ ⦃p p' : Program⦄ ⦃a : α⦄, m.run.run p = (.ok a, p') → m'.run.run p = (.ok a, p')

namespace Echoes

variable {m m' : Infer α} {k k' : α → Infer β}

theorem same (m : Infer α) : Echoes m m :=
  fun _ _ _ h => h

theorem failing (hm : Failing m) (m' : Infer α) : Echoes m m' :=
  fun p p' a h => absurd h (hm p a p')

theorem bind (hm : Echoes m m') (hk : ∀ a, Echoes (k a) (k' a)) : Echoes (m >>= k) (m' >>= k') := by
  intro p p' b h
  obtain ⟨a, p₁, hfirst, hrest⟩ := Flow.exists_of_run_bind h
  rw [Flow.run_bind_of_ok (hm hfirst)]
  exact hk a hrest

/-- What follows the same step. -/
theorem after (hk : ∀ a, Echoes (k a) (k' a)) : Echoes (m >>= k) (m >>= k') :=
  (same m).bind hk

theorem locating (hm : Echoes m m') (loc : Option Location) : Echoes (Flow.locating loc m) (Flow.locating loc m') :=
  fun _ _ _ h => Flow.run_locating_of_ok loc (hm (Flow.run_of_locating h))

/-- A failure is kept back for a while. -/
theorem attempt {k k' : Except Failure α → Infer β} (hm : Echoes m m') (hok : ∀ a, Echoes (k (.ok a)) (k' (.ok a)))
    (herror : ∀ f, Failing (k (.error f))) : Echoes (Flow.attempt m >>= k) (Flow.attempt m' >>= k') := by
  intro p p' b h
  have hattempt : ∀ n : Infer α, (Flow.attempt n).run.run p = (.ok (n.run.run p).1, (n.run.run p).2) := fun _ => rfl
  rw [Flow.run_bind_of_ok (hattempt m)] at h
  rw [Flow.run_bind_of_ok (hattempt m')]
  rcases hfirst : m.run.run p with ⟨_ | a, p₁⟩
  · rw [hfirst] at h
    exact absurd h (herror _ _ _ _)
  · rw [hfirst] at h
    rw [hm hfirst]
    exact hok a h

end Echoes

/-! ### Propagation -/

namespace Flow

/-- Hooks of which the first do not fail unless the second do the same. -/
structure Echoing (h h' : Hooks Env) : Prop where
  recalc : ∀ x, Echoes (h.recalc x) (h'.recalc x)
  responds : h.responds = h'.responds
  budget : h.budget = h'.budget

namespace Echoing

variable {h h' : Hooks Env} (hh : Echoing h h')
include hh

theorem recompute (id : NodeId) : Echoes (recompute h id) (recompute h' id) := by
  refine .after fun p => ?_
  dsimp only
  split
  · exact .same _
  · split
    · exact .same _
    · refine .after fun t => ?_
      split
      · exact .same _
      · rw [Flow.mapped, Flow.mapped, hh.responds]
        exact .same _

theorem serve (o : Graph.Observer) : Echoes (serve h o) (serve h' o) := by
  unfold Flow.serve
  split
  · exact hh.recompute _
  · exact (hh.recalc _).bind fun _ => .same _

theorem serveAll (fuel : Nat) (queue : List Graph.Observer) :
    Echoes (serveAll h fuel queue) (serveAll h' fuel queue) := by
  induction fuel generalizing queue with
  | zero => cases queue <;> exact .same _
  | succ fuel ih =>
    cases queue with
    | nil => exact .same _
    | cons o queue =>
      refine .after fun _ => (hh.serve o).attempt (fun b => ?_) fun f => .after fun _ => .throw _
      cases b with
      | false => exact ih _
      | true => exact .after fun _ => ih _

theorem propagate (id : NodeId) : Echoes (propagate h id) (propagate h' id) := by
  rw [Flow.propagate, Flow.propagate, hh.budget]
  exact .after fun _ => hh.serveAll _ _

theorem setType (id : NodeId) (t : TypeId) : Echoes (setType h id t) (setType h' id t) := by
  refine .after fun p => ?_
  split
  · exact .same _
  · split
    · exact .same _
    · split
      · exact .same _
      · exact .after fun _ => hh.propagate id

theorem dependOn (id : NodeId) (deps : List NodeId) : Echoes (dependOn h id deps) (dependOn h' id deps) := by
  refine .after fun added => ?_
  split
  · refine (hh.recompute id).bind fun changed => ?_
    split
    · exact hh.propagate id
    · exact .same _
  · exact .same _

end Echoing

end Flow

/-! ### Engines -/

/-- Engines of which the first does not fail unless the second does the same. -/
structure Engine.Echoes (e e' : Engine) : Prop where
  visit : ∀ s n, TypeFlow.Echoes (e.visit s n) (e'.visit s n)
  recalculate : ∀ x, TypeFlow.Echoes (e.recalculate x) (e'.recalculate x)

namespace Engine

open Infer TypeFlow

namespace Echoes

variable {e e' : Engine} (h : e.Echoes e')
include h

theorem hooks : Flow.Echoing e.hooks e'.hooks :=
  ⟨h.recalculate, rfl, rfl⟩

theorem assign (id : NodeId) (t : TypeId) : TypeFlow.Echoes (e.assign id t) (e'.assign id t) :=
  h.hooks.setType id t

theorem connect (id : NodeId) (deps : List NodeId) : TypeFlow.Echoes (e.connect id deps) (e'.connect id deps) :=
  h.hooks.dependOn id deps

theorem setType (n : Placed) (t : TypeId) : TypeFlow.Echoes (e.setType n t) (e'.setType n t) :=
  .after fun _ => h.assign _ _

theorem bind (n : Placed) (deps : List NodeId) : TypeFlow.Echoes (e.bind n deps) (e'.bind n deps) :=
  .after fun _ => h.connect _ _

theorem visitOption (s : ScopeId) (n : Option Placed) : TypeFlow.Echoes (e.visitOption s n) (e'.visitOption s n) := by
  cases n with
  | none => exact .same _
  | some n => exact h.visit s n

theorem visitAll (s : ScopeId) (ns : List Placed) : TypeFlow.Echoes (e.visitAll s ns) (e'.visitAll s ns) := by
  induction ns with
  | nil => exact .same _
  | cons n ns ih => exact (h.visit s n).bind fun _ => ih

/-! ### Literals -/

theorem visitSymbol (n : Placed) (name : String) : TypeFlow.Echoes (e.visitSymbol n name) (e'.visitSymbol n name) :=
  .after fun _ => h.setType _ _

theorem visitInt (s : ScopeId) (n : Placed) (suffix : String) :
    TypeFlow.Echoes (e.visitInt s n suffix) (e'.visitInt s n suffix) :=
  .after fun _ => .after fun _ => h.setType _ _

theorem visitFloat (s : ScopeId) (n : Placed) (suffix : String) :
    TypeFlow.Echoes (e.visitFloat s n suffix) (e'.visitFloat s n suffix) :=
  .after fun _ => .after fun _ => h.setType _ _

theorem checkElements (element : NodeId) (xs : List Placed) :
    TypeFlow.Echoes (e.checkElements element xs) (e'.checkElements element xs) := by
  induction xs with
  | nil => exact .same _
  | cons x xs ih =>
    exact .after fun _ => ((h.connect _ _).locating _).bind fun _ => ih

theorem visitArrayOf (s : ScopeId) (n : Placed) (elements : List Placed) (of : TypeExpr) :
    TypeFlow.Echoes (e.visitArrayOf s n elements of) (e'.visitArrayOf s n elements of) := by
  refine .after fun of => .after fun array => ?_
  have hlast := h.setType n array
  simp only
  split
  · refine .after fun t => .after fun element => ?_
    refine .after fun _ => (h.checkElements _ _).bind fun _ => hlast
  · exact hlast

theorem visitArray (s : ScopeId) (n : Placed) (elements : List Placed) (of : Option TypeExpr) :
    TypeFlow.Echoes (e.visitArray s n elements of) (e'.visitArray s n elements of) := by
  refine (h.visitAll s elements).bind fun _ => ?_
  split
  · exact h.visitArrayOf _ _ _ _
  · split
    · exact .same _
    · refine .after fun id => ?_
      refine .after fun _ => ?_
      exact .after fun _ => h.connect _ _

/-! ### Variables -/

theorem initVar (id : NodeId) (read : Bool) : TypeFlow.Echoes (e.initVar id read) (e'.initVar id read) := by
  unfold Engine.initVar
  split
  · exact (h.connect _ _).bind fun _ => .same _
  · exact .same _

theorem ivarNode (owner : TypeId) (name : String) (read : Bool) :
    TypeFlow.Echoes (e.ivarNode owner name read) (e'.ivarNode owner name read) := by
  refine .after fun env => ?_
  split
  · exact .same _
  · refine .after fun t => .after fun id => ?_
    refine .after fun _ => .after fun _ => ?_
    exact .after fun _ => h.initVar _ _

theorem classVarNode (s : ScopeId) (name : String) (read : Bool) :
    TypeFlow.Echoes (e.classVarNode s name read) (e'.classVarNode s name read) := by
  refine .after fun sc => .after fun t => ?_
  split
  · exact .same _
  · refine .after fun env => ?_
    split
    · exact .same _
    · refine .after fun id => ?_
      exact .after fun _ => h.initVar _ _

theorem globalNode (name : String) (read : Bool) :
    TypeFlow.Echoes (e.globalNode name read) (e'.globalNode name read) := by
  refine .after fun env => ?_
  split
  · exact .same _
  · refine .after fun id => ?_
    exact .after fun _ => h.initVar _ _

theorem visitLocal (s : ScopeId) (n : Placed) (name : String) (out : Bool) :
    TypeFlow.Echoes (e.visitLocal s n name out) (e'.visitLocal s n name out) := by
  unfold Engine.visitLocal
  split
  · refine .after fun _ => .after fun var => ?_
    exact h.bind _ _
  · refine .after fun env => ?_
    split
    · exact h.bind _ _
    · exact .same _

theorem visitIVar (s : ScopeId) (n : Placed) (name : String) (out : Bool) :
    TypeFlow.Echoes (e.visitIVar s n name out) (e'.visitIVar s n name out) :=
  .after fun _ => (h.ivarNode _ _ _).bind fun _ => h.bind _ _

theorem visitClassVar (s : ScopeId) (n : Placed) (name : String) :
    TypeFlow.Echoes (e.visitClassVar s n name) (e'.visitClassVar s n name) :=
  (h.classVarNode _ _ _).bind fun _ => h.bind _ _

theorem visitGlobal (n : Placed) (name : String) : TypeFlow.Echoes (e.visitGlobal n name) (e'.visitGlobal n name) :=
  (h.globalNode _ _).bind fun _ => h.bind _ _

theorem visitPath (s : ScopeId) (n : Placed) (names : List String) (typeArgs : List TypeExpr) :
    TypeFlow.Echoes (e.visitPath s n names typeArgs) (e'.visitPath s n names typeArgs) := by
  refine .after fun id => .after fun t => ?_
  split
  · exact h.bind _ _
  · exact h.setType _ _
  · exact .after fun _ => h.setType _ _

theorem assignTarget (s : ScopeId) (target : Placed) (value : Option Placed) :
    TypeFlow.Echoes (e.assignTarget s target value) (e'.assignTarget s target value) := by
  unfold Engine.assignTarget
  split
  · refine (h.visitOption _ _).bind fun _ => .after fun _ => ?_
    exact .after fun _ => .same _
  · refine .after fun owner => (h.visitOption _ _).bind fun _ => ?_
    exact (h.ivarNode _ _ _).bind fun _ => .same _
  · refine ((h.classVarNode _ _ _).locating _).bind fun id => ?_
    exact (h.visitOption _ _).bind fun _ => .same _
  · exact (h.visitOption _ _).bind fun _ => (h.globalNode _ _).bind fun _ => .same _
  · exact .same _

theorem declareConst (s : ScopeId) (n target : Placed) (names : List String) (value : Option Placed) :
    TypeFlow.Echoes (e.declareConst s n target names value) (e'.declareConst s n target names value) := by
  unfold Engine.declareConst
  split
  · refine .after fun sc => .after fun t => ?_
    simp only
    split
    · exact .same _
    · refine .after fun inner => (h.visitOption _ _).bind fun _ => ?_
      refine .after fun id => ?_
      refine .after fun _ => ?_
      exact .after fun _ => h.bind _ _
  · exact .same _

theorem visitAssign (s : ScopeId) (n target : Placed) (value : Option Placed) :
    TypeFlow.Echoes (e.visitAssign s n target value) (e'.visitAssign s n target value) := by
  unfold Engine.visitAssign
  split
  · exact h.declareConst _ _ _ _ _
  · refine (h.assignTarget _ _ _).bind fun found => ?_
    split
    · exact .same _
    · refine .after fun _ => .after fun v => ?_
      exact ((h.connect _ _).locating _).bind fun _ => h.bind _ _

/-! ### Branches and loops -/

theorem views (s : ScopeId) (ns : List Narrowing) : TypeFlow.Echoes (e.views s ns) (e'.views s ns) := by
  induction ns with
  | nil => exact .same _
  | cons n ns ih =>
    refine .after fun env => ?_
    split
    · exact ih
    · refine .after fun id => ?_
      refine .after fun _ => ?_
      exact (h.connect _ _).bind fun _ => ih.bind fun _ => .same _

theorem narrowing (s : ScopeId) (ns : List Narrowing) (branch : Option Placed) :
    TypeFlow.Echoes (e.narrowing s ns branch) (e'.narrowing s ns branch) := by
  refine (h.views s ns).bind fun layer => .after fun _ => ?_
  exact (h.visitOption s branch).attempt (fun _ => .same _) fun f => .after fun _ => .throw _

theorem branches (s : ScopeId) (cond truthy falsy : Option Placed) :
    TypeFlow.Echoes (e.branches s cond truthy falsy) (e'.branches s cond truthy falsy) := by
  refine (h.visitOption _ _).bind fun _ => .after fun ns => ?_
  have hlast := h.visitOption s falsy
  simp only
  split
  · exact (h.narrowing _ _ _).bind fun _ => hlast
  · exact hlast

theorem visitIf (s : ScopeId) (n : Placed) (cond yes no : Option Placed) :
    TypeFlow.Echoes (e.visitIf s n cond yes no) (e'.visitIf s n cond yes no) :=
  (h.branches _ _ _ _).bind fun _ => .after fun _ =>
    .after fun _ => h.bind _ _

theorem visitUnless (s : ScopeId) (n : Placed) (cond yes no : Option Placed) :
    TypeFlow.Echoes (e.visitUnless s n cond yes no) (e'.visitUnless s n cond yes no) :=
  (h.branches _ _ _ _).bind fun _ => .after fun _ =>
    .after fun _ => h.bind _ _

theorem clauses (s : ScopeId) (subject : Option Placed) (whens : List (When Placed)) :
    TypeFlow.Echoes (e.clauses s subject whens) (e'.clauses s subject whens) := by
  induction whens with
  | nil => exact .same _
  | cons w whens ih =>
    refine (h.visitAll _ _).bind fun _ => .after fun ns => ?_
    refine (h.narrowing _ _ _).bind fun _ => .after fun value => ?_
    exact ih.bind fun _ => .same _

theorem visitCase (s : ScopeId) (n : Placed) (subject : Option Placed) (whens : List (When Placed))
    (no : Option Placed) :
    TypeFlow.Echoes (e.visitCase s n subject whens no) (e'.visitCase s n subject whens no) := by
  refine (h.visitOption _ _).bind fun _ => (h.clauses _ _ _).bind fun values => ?_
  exact (h.visitOption _ _).bind fun _ => .after fun _ => h.bind _ _

theorem loopBody (s : ScopeId) (target : NodeId) (body : Option Placed) :
    TypeFlow.Echoes (e.loopBody s target body) (e'.loopBody s target body) := by
  refine .after fun _ => (h.visitOption s body).attempt (fun _ => .same _) fun f => ?_
  exact .after fun _ => .after fun _ => .throw _

theorem visitWhile (s : ScopeId) (n : Placed) (cond body : Option Placed) :
    TypeFlow.Echoes (e.visitWhile s n cond body) (e'.visitWhile s n cond body) := by
  refine (h.visitOption _ _).bind fun _ => .after fun target => ?_
  refine (h.loopBody _ _ _).bind fun broke => ?_
  split
  · exact h.setType _ _
  · exact h.bind _ _

theorem visitReturn (s : ScopeId) (n : Placed) (value : Option Placed) :
    TypeFlow.Echoes (e.visitReturn s n value) (e'.visitReturn s n value) := by
  refine .after fun sc => ?_
  split
  · exact .same _
  · refine (h.visitOption _ _).bind fun _ => .after fun inst => ?_
    refine .after fun v => (h.connect _ _).bind fun _ => ?_
    exact h.setType _ _

theorem visitBreak (s : ScopeId) (n : Placed) (value : Option Placed) :
    TypeFlow.Echoes (e.visitBreak s n value) (e'.visitBreak s n value) := by
  refine .after fun sc => ?_
  split
  · exact .same _
  · refine (h.visitOption _ _).bind fun _ => .after fun _ => ?_
    refine .after fun sc => ?_
    split
    · exact .same _
    · refine .after fun v => (h.connect _ _).bind fun _ => ?_
      exact h.setType _ _

/-! ### Blocks and macros -/

theorem bindBlockParams (params args : List NodeId) :
    TypeFlow.Echoes (e.bindBlockParams params args) (e'.bindBlockParams params args) := by
  induction params generalizing args with
  | nil => exact .same _
  | cons p params ih =>
    cases args with
    | nil => exact (h.connect _ _).bind fun _ => ih []
    | cons a args => exact (h.connect _ _).bind fun _ => ih args

theorem typeBlock (s : ScopeId) (block : Block Mark Placed) :
    TypeFlow.Echoes (e.typeBlock s block) (e'.typeBlock s block) := by
  refine (h.visitOption _ _).bind fun _ => .after fun id => ?_
  exact .after fun _ => (h.connect _ _).locating _

theorem yieldTo (b : Nat) (bc : BlockContext) (args : List NodeId) :
    TypeFlow.Echoes (e.yieldTo b bc args) (e'.yieldTo b bc args) := by
  unfold Engine.yieldTo
  split
  · exact h.bindBlockParams _ _
  · refine .after fun opened => (h.bindBlockParams _ _).bind fun _ => ?_
    exact .after fun _ => h.typeBlock _ _

theorem visitYield (s : ScopeId) (n : Placed) (args : List Placed) :
    TypeFlow.Echoes (e.visitYield s n args) (e'.visitYield s n args) := by
  refine .after fun sc => ?_
  split
  · exact .same _
  · refine (h.visitAll _ _).bind fun _ => .after fun env => ?_
    split
    · exact .same _
    · refine .after fun nodes => (h.yieldTo _ _ _).bind fun _ => ?_
      exact .after fun _ => h.bind _ _

theorem visitMacro (s : ScopeId) (n : Placed) (call : CallParts) (d : MacroDefinition) :
    TypeFlow.Echoes (e.visitMacro s n call d) (e'.visitMacro s n call d) := by
  refine .after fun env => .after fun x => .after fun tree => .after fun _ => ?_
  refine (h.visit s tree).attempt (fun _ => ?_) fun f => .throw _
  exact .after fun _ => h.bind _ _

/-! ### Declarations -/

theorem visitMethodDef (s : ScopeId) (n : Placed) (receiver : String) (d : Definition) :
    TypeFlow.Echoes (e.visitMethodDef s n receiver d) (e'.visitMethodDef s n receiver d) := by
  refine .after fun owner => .after fun t => ?_
  split
  · exact .same _
  · exact .after fun _ => h.setType _ _

theorem visitBody (home : TypeId) (body : Option Placed) :
    TypeFlow.Echoes (e.visitBody home body) (e'.visitBody home body) :=
  .after fun _ => .after fun _ =>
    h.visitOption _ _

theorem visitClassDef (s : ScopeId) (n : Placed) (name : String) (superclass : Option (PathRef Mark))
    (typeParams : List String) (body : Option Placed) :
    TypeFlow.Echoes (e.visitClassDef s n name superclass typeParams body)
      (e'.visitClassDef s n name superclass typeParams body) := by
  refine .after fun super => .after fun id => ?_
  exact (h.visitBody _ _).bind fun _ => h.setType _ _

theorem visitModuleDef (s : ScopeId) (n : Placed) (name : String) (body : Option Placed) :
    TypeFlow.Echoes (e.visitModuleDef s n name body) (e'.visitModuleDef s n name body) :=
  .after fun _ => (h.visitBody _ _).bind fun _ => h.setType _ _

theorem visitInclude (s : ScopeId) (n : Placed) (names : List String) (typeArgs : List TypeExpr) :
    TypeFlow.Echoes (e.visitInclude s n names typeArgs) (e'.visitInclude s n names typeArgs) := by
  refine .after fun sc => .after fun t => ?_
  split
  · exact .same _
  · refine .after fun id => .after fun t => ?_
    split
    · exact .after fun _ => h.setType _ _
    · exact .same _

theorem visitMacroDef (n : Placed) (name : String) (params : Option (List String))
    (body : Option Placed) :
    TypeFlow.Echoes (e.visitMacroDef n name params body) (e'.visitMacroDef n name params body) := by
  unfold Engine.visitMacroDef
  split
  · exact .same _
  · exact .after fun _ => h.setType _ _

theorem visitLibDef (s : ScopeId) (n : Placed) (name : String) (body : List Placed) :
    TypeFlow.Echoes (e.visitLibDef s n name body) (e'.visitLibDef s n name body) := by
  refine .after fun sc => ?_
  simp only
  split
  · exact .after fun _ => .same _
  · refine .after fun lib => .after fun inner => ?_
    exact (h.visitAll _ _).bind fun _ => h.setType _ _

theorem visitFunDef (s : ScopeId) (n : Placed) (name : String) (params : List (Param Source))
    (result : Option TypeExpr) (varargs : Bool) :
    TypeFlow.Echoes (e.visitFunDef s n name params result varargs) (e'.visitFunDef s n name params result varargs) := by
  refine .after fun lib => .after fun _ => ?_
  dsimp only
  split
  · exact .after fun _ => .after fun _ => .after fun _ => h.setType _ _
  · exact .after fun _ => .after fun _ => h.setType _ _

theorem visitStructDef (s : ScopeId) (n : Placed) (name : String) (isUnion : Bool)
    (members : List (Param Source)) :
    TypeFlow.Echoes (e.visitStructDef s n name isUnion members) (e'.visitStructDef s n name isUnion members) := by
  refine .after fun lib => .after fun t => ?_
  simp only
  split
  · exact .same _
  · refine .after fun id => ?_
    refine .after fun _ => ?_
    refine .after fun self => .after fun _ => ?_
    refine .after fun t => .after fun _ => ?_
    exact h.setType _ _

theorem visitTypeDef (s : ScopeId) (n : Placed) (name : String) (type : Option TypeExpr) :
    TypeFlow.Echoes (e.visitTypeDef s n name type) (e'.visitTypeDef s n name type) := by
  refine .after fun lib => ?_
  split
  · exact .same _
  · refine .after fun t => .after fun types => ?_
    exact .after fun _ => h.setType _ _

/-! ### Foreign calls -/

theorem convert (x : NodeId) (i : Nat) : TypeFlow.Echoes (e.convert x i) (e'.convert x i) := by
  refine .after fun site => ?_
  split
  · exact .same _
  · split
    · exact .same _
    · refine .after fun _ => ?_
      split
      · exact .same _
      · refine .after fun mark => .after fun _ => ?_
        exact .after fun _ => h.recalculate _

theorem checkArgs (site : Site) (lib : TypeId) (i : Nat) (params : List NodeId) (args : List TypeId) :
    TypeFlow.Echoes (e.checkArgs site lib i params args) (e'.checkArgs site lib i params args) := by
  induction params generalizing i args with
  | nil => exact .same _
  | cons p params ih =>
    cases args with
    | nil => exact .same _
    | cons a args =>
      refine .after fun expected => .after fun t => ?_
      split
      · exact ih _ _
      · split
        · exact (h.convert _ _).bind fun _ => ih _ _
        · exact .after fun _ => .same _

theorem convertRest (site : Site) (i : Nat) (args : List TypeId) :
    TypeFlow.Echoes (e.convertRest site i args) (e'.convertRest site i args) := by
  induction args generalizing i with
  | nil => exact .same _
  | cons a args ih =>
    unfold Engine.convertRest
    simp only
    split
    · exact (h.convert _ _).bind fun _ => ih _
    · exact ih _

theorem callFun (site : Site) (lib : TypeId) (args : List TypeId) (id : MethodId) :
    TypeFlow.Echoes (e.callFun site lib args id) (e'.callFun site lib args id) := by
  refine .after fun m => ?_
  dsimp only
  split
  · exact .same _
  · refine .after fun i => .after fun inst => (h.checkArgs _ _ _ _ _).bind fun _ => ?_
    split
    · exact (h.convertRest _ _ _).bind fun _ => .same _
    · exact .same _

theorem funCall (site : Site) (lib : TypeId) (args : List TypeId) :
    TypeFlow.Echoes (e.funCall site lib args) (e'.funCall site lib args) := by
  refine .after fun found => ?_
  split
  · exact .same _
  · exact h.callFun _ _ _ _

theorem outTarget (site : Site) (arg : Placed) : TypeFlow.Echoes (e.outTarget site arg) (e'.outTarget site arg) := by
  unfold Engine.outTarget
  split
  · exact .same _
  · exact .after fun _ => h.ivarNode _ _ _
  · exact .same _

theorem bindOuts (site : Site) (lib : TypeId) (id : MethodId) (i : Nat) (params : List (Param Source))
    (args : List Placed) :
    TypeFlow.Echoes (e.bindOuts site lib id i params args) (e'.bindOuts site lib id i params args) := by
  induction params generalizing i args with
  | nil => exact .same (Pure.pure ())
  | cons p params ih =>
    cases args with
    | nil => exact .same (Pure.pure ())
    | cons arg args =>
      unfold Engine.bindOuts
      simp only
      split
      · refine (h.outTarget _ _).bind fun target => ?_
        split
        · refine .failing (.after fun _ => .after fun _ => ?_) _
          exact .throw _
        · exact .after fun _ => (h.connect _ _).bind fun _ => ih _ _
      · exact ih _ _

theorem bindOutArgs (site : Site) (lib : TypeId) :
    TypeFlow.Echoes (e.bindOutArgs site lib) (e'.bindOutArgs site lib) := by
  refine .after fun found => ?_
  split
  · exact .same _
  · exact .after fun _ => .after fun m => h.bindOuts _ _ _ _ _ _

/-! ### Instances -/

theorem typePrimitive (id : InstanceId) : TypeFlow.Echoes (e.typePrimitive id) (e'.typePrimitive id) := by
  refine .after fun inst => .after fun m => ?_
  extract_lets d k
  split
  · exact .after fun _ => .after fun _ => (h.setType _ _).bind fun _ => .same _
  · exact .after fun _ => .after fun _ => (h.setType _ _).bind fun _ => .same _

theorem bindParams (s : ScopeId) (params : List (Param Source × TypeId)) :
    TypeFlow.Echoes (e.bindParams s params) (e'.bindParams s params) := by
  induction params with
  | nil => exact .same _
  | cons p params ih =>
    refine .after fun t => .after fun arg => ?_
    refine (h.assign _ _).bind fun _ => .after fun var => ?_
    exact (h.connect _ _).bind fun _ => ih

theorem typeWritten (x : NodeId) (id : InstanceId) (inst : Instance) (d : Definition) (body : Placed) :
    TypeFlow.Echoes (e.typeWritten x id inst d body) (e'.typeWritten x id inst d body) := by
  refine .after fun s => (h.bindParams _ _).bind fun _ => .after fun _ => (h.visit _ _).bind fun _ => ?_
  exact .after fun _ => (h.connect _ _).locating _

theorem typeBody (x : NodeId) (id : InstanceId) : TypeFlow.Echoes (e.typeBody x id) (e'.typeBody x id) :=
  .after fun _ => .after fun _ => .after fun _ => h.typeWritten _ _ _ _ _

theorem typeNested (x : NodeId) (loc : Option Location) (id : InstanceId) :
    TypeFlow.Echoes (e.typeNested x loc id) (e'.typeNested x loc id) := by
  refine .after fun _ => (h.typeBody x id).attempt (fun _ => .same _) fun f => ?_
  exact .after fun _ => .after fun _ => .throw _

theorem typeInstance (site : Site) (id : InstanceId) (kind : MethodKind) :
    TypeFlow.Echoes (e.typeInstance site id kind) (e'.typeInstance site id kind) := by
  cases kind with
  | primitive => exact h.typePrimitive id
  | getter t => exact .same _
  | setter t => exact .same _
  | user => exact h.typeNested _ _ _
  | external varargs => exact h.typeNested _ _ _

/-- An instance is made of a method that is filed for the call, unless it is remembered. -/
theorem instantiate (site : Site) (owner : TypeId) (m : Match MethodId) :
    TypeFlow.Echoes (e.instantiate site owner m) (e'.instantiate site owner m) := by
  refine .after fun method => ?_
  dsimp only
  split
  · exact .same _
  · refine .after fun env => ?_
    split
    · exact .same _
    · refine .after fun i => ?_
      split
      · exact .after fun _ => (h.typeInstance _ _ _).bind fun _ => .same _
      · exact (h.typeInstance _ _ _).bind fun _ => .same _

/-! ### Dispatching and resolving calls -/

theorem placeholder (name : String) (loc : Option Location) (t : TypeId) :
    TypeFlow.Echoes (e.placeholder name loc t) (e'.placeholder name loc t) :=
  .after fun _ => (h.setType _ _).bind fun _ => .same _

theorem placeholders (loc : Option Location) (i : Nat) (ts : List TypeId) :
    TypeFlow.Echoes (e.placeholders loc i ts) (e'.placeholders loc i ts) := by
  induction ts generalizing i with
  | nil => exact .same _
  | cons t ts ih => exact (h.placeholder _ _ _).bind fun _ => (ih _).bind fun _ => .same _

theorem receiverPlaceholder (site : Site) (t : TypeId) :
    TypeFlow.Echoes (e.receiverPlaceholder site t) (e'.receiverPlaceholder site t) := by
  unfold Engine.receiverPlaceholder
  split
  · exact .same _
  · exact (h.placeholder _ _ _).bind fun _ => .same _

theorem subcallFor (site : Site) (shape : List TypeId) :
    TypeFlow.Echoes (e.subcallFor site shape) (e'.subcallFor site shape) := by
  refine .after fun mark => (h.receiverPlaceholder _ _).bind fun obj => ?_
  exact (h.placeholders _ _ _).bind fun args => .after fun _ => .same _

theorem subcall (site : Site) (d : Nat) (shape : List TypeId) :
    TypeFlow.Echoes (e.subcall site d shape) (e'.subcall site d shape) := by
  refine (h.subcallFor _ _).bind fun call =>
    .after fun _ => ?_
  refine .after fun node => (h.recalculate _).bind fun _ => ?_
  exact .after fun _ => h.connect _ _

theorem subcalls (site : Site) (d : Nat) (shapes : List (List TypeId)) :
    TypeFlow.Echoes (e.subcalls site d shapes) (e'.subcalls site d shapes) := by
  induction shapes with
  | nil => exact .same _
  | cons shape shapes ih =>
    refine .after fun added => ?_
    simp only
    split
    · exact (h.subcall _ _ _).bind fun _ => ih
    · exact ih

theorem dispatch (site : Site) (recvs args : List TypeId) :
    TypeFlow.Echoes (e.dispatch site recvs args) (e'.dispatch site recvs args) := by
  refine .after fun shapes => .after fun d => ?_
  exact (h.subcalls _ _ _).bind fun _ => .after fun _ => .same _

theorem resolveSingle (site : Site) (recv : TypeId) (args : List TypeId) :
    TypeFlow.Echoes (e.resolveSingle site recv args) (e'.resolveSingle site recv args) := by
  refine .after fun found => ?_
  dsimp only
  split
  · exact h.dispatch _ _ _
  · split
    · exact .same _
    · exact (h.instantiate _ _ _).bind fun _ => .same _

theorem resolveCall (site : Site) (recv : TypeId) (args : List TypeId) :
    TypeFlow.Echoes (e.resolveCall site recv args) (e'.resolveCall site recv args) := by
  refine .after fun t => ?_
  split
  · exact h.funCall _ _ _
  · split
    · exact h.resolveSingle _ _ _
    · exact h.dispatch _ _ _

theorem retarget (x : NodeId) (loc : Option Location) (occ : Nat) (nodes : List NodeId) (targets : List Target) :
    TypeFlow.Echoes (e.retarget x loc occ nodes targets) (e'.retarget x loc occ nodes targets) :=
  .after fun _ => .after fun _ => .after fun _ => .after fun _ => (h.connect _ _).locating _

theorem resolveFor (x : NodeId) (recv : TypeId) (args : List TypeId) :
    TypeFlow.Echoes (e.resolveFor x recv args) (e'.resolveFor x recv args) := by
  refine .after fun site => ?_
  split
  · exact .same _
  · simp only
    split
    · exact .same _
    · refine .after fun _ => ?_
      exact ((h.resolveCall _ _ _).locating _).bind fun _ => h.retarget _ _ _ _ _

theorem prepare (site : Site) (recv : TypeId) : TypeFlow.Echoes (e.prepare site recv) (e'.prepare site recv) := by
  refine .after fun t => ?_
  split
  · exact (h.bindOutArgs _ _).locating _
  · exact .same _

theorem resolveSite (x : NodeId) : TypeFlow.Echoes (e.resolveSite x) (e'.resolveSite x) := by
  refine .after fun site => ?_
  split
  · exact .same _
  · refine .after fun recv => ?_
    split
    · exact .same _
    · refine (h.prepare _ _).bind fun _ => .after fun args => ?_
      split
      · exact .same _
      · exact h.resolveFor _ _ _

theorem visitPlainCall (s : ScopeId) (call : CallParts) :
    TypeFlow.Echoes (e.visitPlainCall s call) (e'.visitPlainCall s call) := by
  refine (h.visitOption _ _).bind fun _ => (h.visitAll _ _).bind fun _ => ?_
  exact .after fun _ => h.recalculate _

theorem visitSuper (s : ScopeId) (call : CallParts) :
    TypeFlow.Echoes (e.visitSuper s call) (e'.visitSuper s call) := by
  refine .after fun found => ?_
  split
  · exact .same _
  · refine .after fun args => (h.visitAll _ _).bind fun _ => ?_
    exact .after fun _ => h.recalculate _

theorem visitCall (s : ScopeId) (n : Placed) (call : CallParts) :
    TypeFlow.Echoes (e.visitCall s n call) (e'.visitCall s n call) := by
  unfold Engine.visitCall
  split
  · exact h.visitPlainCall _ _
  · refine .after fun env => ?_
    split
    · exact h.visitMacro _ _ _ _
    · split
      · exact h.visitSuper _ _
      · exact h.visitPlainCall _ _

/-! ### Trees -/

theorem visitExpressions (s : ScopeId) (n : Placed) (body : List Placed) :
    TypeFlow.Echoes (e.visitExpressions s n body) (e'.visitExpressions s n body) := by
  unfold Engine.visitExpressions
  split
  · exact h.setType _ _
  · exact (h.visitAll _ _).bind fun _ => .after fun _ => h.bind _ _

theorem visitIsA (s : ScopeId) (n : Placed) (obj : Option Placed) (type : Option TypeExpr) :
    TypeFlow.Echoes (e.visitIsA s n obj type) (e'.visitIsA s n obj type) := by
  refine (h.visitOption _ _).bind fun _ => ?_
  split
  · refine .bind ?_ fun _ => h.setType _ _
    exact .after fun _ => .same _
  · exact .after fun _ => h.setType _ _

theorem visitRespondsTo (s : ScopeId) (n : Placed) (obj : Option Placed) :
    TypeFlow.Echoes (e.visitRespondsTo s n obj) (e'.visitRespondsTo s n obj) :=
  (h.visitOption _ _).bind fun _ => h.setType _ _

theorem visitPointerOf (s : ScopeId) (n : Placed) (target : Option Placed) :
    TypeFlow.Echoes (e.visitPointerOf s n target) (e'.visitPointerOf s n target) := by
  unfold Engine.visitPointerOf
  split
  · exact .same _
  · refine (h.visit _ _).bind fun _ => .after fun id => ?_
    refine .after fun _ => ?_
    exact .after fun _ => h.connect _ _

theorem visitSelf (s : ScopeId) (n : Placed) : TypeFlow.Echoes (e.visitSelf s n) (e'.visitSelf s n) :=
  .after fun _ => h.setType _ _

theorem visitDeclaration (s : ScopeId) (n : Placed) :
    TypeFlow.Echoes (e.visitDeclaration s n) (e'.visitDeclaration s n) := by
  unfold Engine.visitDeclaration
  split
  · exact h.visitMethodDef _ _ _ _
  · exact h.visitClassDef _ _ _ _ _ _
  · exact h.visitModuleDef _ _ _ _
  · exact h.visitInclude _ _ _ _
  · exact h.visitLibDef _ _ _ _
  · exact h.visitFunDef _ _ _ _ _ _
  · exact h.visitStructDef _ _ _ _ _
  · exact h.visitTypeDef _ _ _ _
  · exact h.visitMacroDef _ _ _ _
  · exact .same _
  · exact .same _

theorem visitControl (s : ScopeId) (n : Placed) : TypeFlow.Echoes (e.visitControl s n) (e'.visitControl s n) := by
  unfold Engine.visitControl
  split
  · exact h.visitIf _ _ _ _ _
  · exact h.visitUnless _ _ _ _ _
  · exact h.visitCase _ _ _ _ _
  · exact h.visitWhile _ _ _ _
  · exact h.visitReturn _ _ _
  · exact h.visitBreak _ _ _
  · exact h.visitDeclaration _ _

theorem visitForm (s : ScopeId) (n : Placed) : TypeFlow.Echoes (e.visitForm s n) (e'.visitForm s n) := by
  unfold Engine.visitForm
  split
  · exact h.setType _ _
  · exact h.setType _ _
  · exact h.setType _ _
  · exact h.visitInt _ _ _
  · exact h.visitFloat _ _ _
  · exact h.setType _ _
  · exact h.setType _ _
  · exact h.visitSymbol _ _
  · exact h.visitArray _ _ _ _
  · exact h.visitLocal _ _ _ _
  · exact h.visitIVar _ _ _ _
  · exact h.visitClassVar _ _ _
  · exact h.visitGlobal _ _
  · exact h.visitSelf _ _
  · exact h.visitPath _ _ _ _
  · exact h.visitAssign _ _ _ _
  · exact .same _
  · exact h.visitExpressions _ _ _
  · exact h.visitCall _ _ _
  · exact .same _
  · exact h.visitYield _ _ _
  · exact h.visitIsA _ _ _ _
  · exact h.visitRespondsTo _ _ _
  · exact h.visitPointerOf _ _ _
  · exact h.visitControl _ _

theorem visitNode (s : ScopeId) (n : Placed) : TypeFlow.Echoes (e.visitNode s n) (e'.visitNode s n) :=
  .after fun _ => (h.visitForm s n).locating _


end Echoes

end Engine

end TypeFlow
