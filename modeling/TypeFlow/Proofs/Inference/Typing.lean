import TypeFlow.Compilation
import TypeFlow.Proofs.Inference.Lookup

/-!
# Typing evolves a program

The typing steps are written against an engine, which types trees and resolves calls. Here each of them is
shown to be `Evolving` if the engine is (`Engine.Tame`): a step reaches other steps, propagation, or the
engine, and changes nothing else than `Program.Change` allows. The engine itself is closed by induction on
how deep it may nest (`engine_tame`), so every tree that is typed evolves the program
(`Program.evolving_infer`).
-/

namespace TypeFlow

/-- An engine whose steps evolve the program. -/
structure Engine.Tame (e : Engine) : Prop where
  visit : ∀ s n, Evolving (e.visit s n)
  recalculate : ∀ x, Evolving (e.recalculate x)

namespace Engine

open Infer

/-- Between putting a layer of views on a scope and taking it off again, a step is run, which may fail. -/
theorem run_inLayer (s : ScopeId) (layer : List (String × NodeId)) (m : Infer Unit) (p : Program) :
    (do
      Infer.changeScope s fun sc => { sc with filters := layer :: sc.filters }
      let outcome ← Flow.attempt m
      Infer.changeScope s fun sc => { sc with filters := sc.filters.tail }
      match outcome with
      | .ok _ => return
      | .error f => throw f : Infer Unit).run.run p =
    ((m.run.run (p.putLayer s layer)).1,
      Program.takeLayer (m.run.run (p.putLayer s layer)).2 s) := by
  have hrun : (do
      Infer.changeScope s fun sc => { sc with filters := layer :: sc.filters }
      let outcome ← Flow.attempt m
      Infer.changeScope s fun sc => { sc with filters := sc.filters.tail }
      match outcome with
      | .ok _ => return
      | .error f => throw f : Infer Unit).run.run p =
    (match (m.run.run (p.putLayer s layer)).1 with
      | .ok _ => Pure.pure ()
      | .error f => MonadExcept.throw f : Infer Unit).run.run
        (Program.takeLayer (m.run.run (p.putLayer s layer)).2 s) := rfl
  rw [hrun]
  cases (m.run.run (p.putLayer s layer)).1 <;> rfl

namespace Tame

variable {e : Engine} (h : e.Tame)
include h

theorem hooks : Flow.Tame e.hooks :=
  ⟨h.recalculate, fun env c name => env.widening_respondsTo c name⟩

theorem assign (id : NodeId) (t : TypeId) : Evolving (e.assign id t) :=
  h.hooks.setType id t

theorem connect (id : NodeId) (deps : List NodeId) : Evolving (e.connect id deps) :=
  h.hooks.dependOn id deps

theorem setType (n : Placed) (t : TypeId) : Evolving (e.setType n t) :=
  (evolving_nodeOf n).bind fun _ => h.assign _ _

theorem bind (n : Placed) (deps : List NodeId) : Evolving (e.bind n deps) :=
  (evolving_nodeOf n).bind fun _ => h.connect _ _

theorem visitOption (s : ScopeId) (n : Option Placed) : Evolving (e.visitOption s n) := by
  cases n with
  | none => exact .pure _
  | some n => exact h.visit s n

theorem visitAll (s : ScopeId) (ns : List Placed) : Evolving (e.visitAll s ns) := by
  induction ns with
  | nil => exact .pure _
  | cons n ns ih => exact (h.visit s n).bind fun _ => ih

/-! ### Literals -/

theorem visitSymbol (n : Placed) (name : String) : Evolving (e.visitSymbol n name) :=
  (evolving_addSymbol _).bind fun _ => h.setType _ _

theorem visitInt (s : ScopeId) (n : Placed) (suffix : String) : Evolving (e.visitInt s n suffix) :=
  evolving_env.bind fun _ => (evolving_numericLiteral _ _ _ _).bind fun _ => h.setType _ _

theorem visitFloat (s : ScopeId) (n : Placed) (suffix : String) : Evolving (e.visitFloat s n suffix) :=
  evolving_env.bind fun _ => (evolving_numericLiteral _ _ _ _).bind fun _ => h.setType _ _

theorem checkElements (element : NodeId) (xs : List Placed) : Evolving (e.checkElements element xs) := by
  induction xs with
  | nil => exact .pure _
  | cons x xs ih =>
    exact (evolving_nodeOf x).bind fun _ => ((h.connect _ _).locating _).bind fun _ => ih

theorem visitArrayOf (s : ScopeId) (n : Placed) (elements : List Placed) (of : TypeExpr) :
    Evolving (e.visitArrayOf s n elements of) := by
  refine (evolving_resolveType _ _).bind fun of => (evolving_instantiateType _ _).bind fun array => ?_
  have hlast := h.setType n array
  simp only
  split
  · refine Flow.evolving_types.bind fun t => (Flow.evolving_newNode _).bind fun element => ?_
    refine (Flow.evolving_freeze _ _).bind fun _ => (h.checkElements _ _).bind fun _ => hlast
  · exact hlast

theorem visitArray (s : ScopeId) (n : Placed) (elements : List Placed) (of : Option TypeExpr) :
    Evolving (e.visitArray s n elements of) := by
  refine (h.visitAll s elements).bind fun _ => ?_
  split
  · exact h.visitArrayOf _ _ _ _
  · split
    · exact .throw _
    · refine (evolving_nodeOf n).bind fun id => ?_
      refine .bind (.changeGraph fun g => .modify_beside g id fun _ => rfl) fun _ => ?_
      exact (evolving_nodesOf _).bind fun _ => h.connect _ _

/-! ### Variables -/

theorem initVar (id : NodeId) (read : Bool) : Evolving (e.initVar id read) := by
  unfold Engine.initVar
  split
  · exact (h.connect _ _).bind fun _ => .pure _
  · exact .pure _

theorem ivarNode (owner : TypeId) (name : String) (read : Bool) :
    Evolving (e.ivarNode owner name read) := by
  refine evolving_env.bind fun env => ?_
  split
  · exact .pure _
  · refine Flow.evolving_types.bind fun t => (Flow.evolving_newNode _).bind fun id => ?_
    refine .bind (.changeGraph fun g => .modify_beside g id fun _ => rfl) fun _ => ?_
    refine .bind (.onTypes (Table.widening_setIVar _ _ _)) fun _ => ?_
    exact .bind (.changeEnv (fun _ => rfl) (fun _ => rfl) (fun _ => rfl) fun _ => rfl) fun _ => h.initVar _ _

theorem classVarNode (s : ScopeId) (name : String) (read : Bool) :
    Evolving (e.classVarNode s name read) := by
  refine (evolving_scope s).bind fun sc => Flow.evolving_types.bind fun t => ?_
  split
  · exact evolving_undefined _ _
  · refine evolving_env.bind fun env => ?_
    split
    · exact .pure _
    · refine (Flow.evolving_newNode _).bind fun id => ?_
      exact .bind (.changeEnv (fun _ => rfl) (fun _ => rfl) (fun _ => rfl) fun _ => rfl) fun _ => h.initVar _ _

theorem globalNode (name : String) (read : Bool) : Evolving (e.globalNode name read) := by
  refine evolving_env.bind fun env => ?_
  split
  · exact .pure _
  · refine (Flow.evolving_newNode _).bind fun id => ?_
    exact .bind (.changeEnv (fun _ => rfl) (fun _ => rfl) (fun _ => rfl) fun _ => rfl) fun _ => h.initVar _ _

theorem visitLocal (s : ScopeId) (n : Placed) (name : String) (out : Bool) :
    Evolving (e.visitLocal s n name out) := by
  unfold Engine.visitLocal
  split
  · refine (evolving_dropViews _ _).bind fun _ => (evolving_declare _ _).bind fun var => ?_
    exact h.bind _ _
  · refine evolving_env.bind fun env => ?_
    split
    · exact h.bind _ _
    · exact evolving_undefined _ _

theorem visitIVar (s : ScopeId) (n : Placed) (name : String) (out : Bool) :
    Evolving (e.visitIVar s n name out) :=
  (evolving_ivarOwner s).bind fun _ => (h.ivarNode _ _ _).bind fun _ => h.bind _ _

theorem visitClassVar (s : ScopeId) (n : Placed) (name : String) : Evolving (e.visitClassVar s n name) :=
  (h.classVarNode _ _ _).bind fun _ => h.bind _ _

theorem visitGlobal (n : Placed) (name : String) : Evolving (e.visitGlobal n name) :=
  (h.globalNode _ _).bind fun _ => h.bind _ _

theorem visitPath (s : ScopeId) (n : Placed) (names : List String) (typeArgs : List TypeExpr) :
    Evolving (e.visitPath s n names typeArgs) := by
  refine (evolving_lookupPath _ _ _).bind fun id => Flow.evolving_types.bind fun t => ?_
  split
  · exact h.bind _ _
  · exact h.setType _ _
  · exact .bind (.onTypes (Table.widening_intern _)) fun _ => h.setType _ _

theorem assignTarget (s : ScopeId) (target : Placed) (value : Option Placed) :
    Evolving (e.assignTarget s target value) := by
  unfold Engine.assignTarget
  split
  · refine (h.visitOption _ _).bind fun _ => (evolving_dropViews _ _).bind fun _ => ?_
    exact (evolving_declare _ _).bind fun _ => .pure _
  · refine ((evolving_ivarOwner s).locating _).bind fun owner => (h.visitOption _ _).bind fun _ => ?_
    exact (h.ivarNode _ _ _).bind fun _ => .pure _
  · refine ((h.classVarNode _ _ _).locating _).bind fun id => ?_
    exact (h.visitOption _ _).bind fun _ => .pure _
  · exact (h.visitOption _ _).bind fun _ => (h.globalNode _ _).bind fun _ => .pure _
  · exact .pure _

theorem declareConst (s : ScopeId) (n target : Placed) (names : List String) (value : Option Placed) :
    Evolving (e.declareConst s n target names value) := by
  unfold Engine.declareConst
  split
  · refine (evolving_scope s).bind fun sc => Flow.evolving_types.bind fun t => ?_
    simp only
    split
    · exact evolving_undefined _ _
    · refine (evolving_newScope _).bind fun inner => (h.visitOption _ _).bind fun _ => ?_
      refine (evolving_nodeOrNil _).bind fun id => ?_
      refine .bind (.onTypes (Table.widening_defineConst _ _ _)) fun _ => ?_
      exact (evolving_changeNote _ _).bind fun _ => h.bind _ _
  · exact .throw _

theorem visitAssign (s : ScopeId) (n target : Placed) (value : Option Placed) :
    Evolving (e.visitAssign s n target value) := by
  unfold Engine.visitAssign
  split
  · exact h.declareConst _ _ _ _ _
  · refine (h.assignTarget _ _ _).bind fun found => ?_
    split
    · exact .throw _
    · refine (evolving_changeNote _ _).bind fun _ => (evolving_nodeOrNil _).bind fun v => ?_
      exact ((h.connect _ _).locating _).bind fun _ => h.bind _ _

/-! ### Branches and loops -/

theorem views (s : ScopeId) (ns : List Narrowing) : Evolving (e.views s ns) := by
  induction ns with
  | nil => exact .pure _
  | cons n ns ih =>
    refine evolving_env.bind fun env => ?_
    split
    · exact ih
    · refine (Flow.evolving_newNode _).bind fun id => ?_
      refine .bind (.changeGraph fun g => .modify_beside g id fun _ => rfl) fun _ => ?_
      exact (h.connect _ _).bind fun _ => ih.bind fun _ => .pure _

theorem narrowing (s : ScopeId) (ns : List Narrowing) (branch : Option Placed) :
    Evolving (e.narrowing s ns branch) := by
  refine (h.views s ns).bind fun layer p => ?_
  -- the layer is taken off again also when the branch fails
  have hbranch : Advances p
      (Program.takeLayer ((e.visitOption s branch).run.run (p.putLayer s layer)).2 s) :=
    .inLayer (h.visitOption s branch _)
  exact (run_inLayer s layer _ p).symm ▸ hbranch

theorem branches (s : ScopeId) (cond truthy falsy : Option Placed) :
    Evolving (e.branches s cond truthy falsy) := by
  refine (h.visitOption _ _).bind fun _ => (evolving_filtersOf _ _).bind fun ns => ?_
  have hlast := h.visitOption s falsy
  simp only
  split
  · exact (h.narrowing _ _ _).bind fun _ => hlast
  · exact hlast

theorem visitIf (s : ScopeId) (n : Placed) (cond yes no : Option Placed) :
    Evolving (e.visitIf s n cond yes no) :=
  (h.branches _ _ _ _).bind fun _ => (evolving_nodeOrNil _).bind fun _ =>
    (evolving_nodeOrNil _).bind fun _ => h.bind _ _

theorem visitUnless (s : ScopeId) (n : Placed) (cond yes no : Option Placed) :
    Evolving (e.visitUnless s n cond yes no) :=
  (h.branches _ _ _ _).bind fun _ => (evolving_nodeOrNil _).bind fun _ =>
    (evolving_nodeOrNil _).bind fun _ => h.bind _ _

theorem clauses (s : ScopeId) (subject : Option Placed) (whens : List (When Placed)) :
    Evolving (e.clauses s subject whens) := by
  induction whens with
  | nil => exact .pure _
  | cons w whens ih =>
    refine (h.visitAll _ _).bind fun _ => (evolving_clauseFilters _ _ _).bind fun ns => ?_
    refine (h.narrowing _ _ _).bind fun _ => (evolving_nodeOrNil _).bind fun value => ?_
    exact ih.bind fun _ => .pure _

theorem visitCase (s : ScopeId) (n : Placed) (subject : Option Placed) (whens : List (When Placed))
    (no : Option Placed) : Evolving (e.visitCase s n subject whens no) := by
  refine (h.visitOption _ _).bind fun _ => (h.clauses _ _ _).bind fun values => ?_
  exact (h.visitOption _ _).bind fun _ => (evolving_nodeOrNil _).bind fun _ => h.bind _ _

theorem loopBody (s : ScopeId) (target : NodeId) (body : Option Placed) :
    Evolving (e.loopBody s target body) := by
  have hloops : ∀ f : List Loop → List Loop,
      Evolving (changeScope s fun sc => { sc with loops := f sc.loops }) :=
    fun f => evolving_changeScope s fun _ => ⟨rfl, rfl, .of_filters rfl⟩
  refine (hloops ({ target } :: ·)).bind fun _ => (h.visitOption s body).attempt.bind fun outcome => ?_
  refine (evolving_scope s).bind fun sc => (hloops List.tail).bind fun _ => ?_
  split
  · exact .pure _
  · exact .throw _

theorem visitWhile (s : ScopeId) (n : Placed) (cond body : Option Placed) :
    Evolving (e.visitWhile s n cond body) := by
  refine (h.visitOption _ _).bind fun _ => (evolving_nodeOf n).bind fun target => ?_
  refine (h.loopBody _ _ _).bind fun broke => ?_
  split
  · exact h.setType _ _
  · exact h.bind _ _

theorem visitReturn (s : ScopeId) (n : Placed) (value : Option Placed) :
    Evolving (e.visitReturn s n value) := by
  refine (evolving_scope s).bind fun sc => ?_
  split
  · exact .throw _
  · refine (h.visitOption _ _).bind fun _ => (evolving_instanceOf _).bind fun inst => ?_
    refine (evolving_nodeOrNil _).bind fun v => (h.connect _ _).bind fun _ => ?_
    exact h.setType _ _

theorem visitBreak (s : ScopeId) (n : Placed) (value : Option Placed) :
    Evolving (e.visitBreak s n value) := by
  refine (evolving_scope s).bind fun sc => ?_
  split
  · exact .throw _
  · refine (h.visitOption _ _).bind fun _ => (evolving_noteBreak s).bind fun _ => ?_
    refine (evolving_scope s).bind fun sc => ?_
    split
    · exact .pure _
    · refine (evolving_nodeOrNil _).bind fun v => (h.connect _ _).bind fun _ => ?_
      exact h.setType _ _

/-! ### Blocks and macros -/

theorem bindBlockParams (params args : List NodeId) : Evolving (e.bindBlockParams params args) := by
  induction params generalizing args with
  | nil => exact .pure _
  | cons p params ih =>
    cases args with
    | nil => exact (h.connect _ _).bind fun _ => ih []
    | cons a args => exact (h.connect _ _).bind fun _ => ih args

theorem typeBlock (s : ScopeId) (block : Block Mark Placed) : Evolving (e.typeBlock s block) := by
  refine (h.visitOption _ _).bind fun _ => (evolving_nodeOf _).bind fun id => ?_
  exact (evolving_nodeOrNil _).bind fun _ => (h.connect _ _).locating _

theorem yieldTo (b : Nat) (bc : BlockContext) (args : List NodeId) :
    EvolvingFrom (·.env.blocks[b]? = some bc) (e.yieldTo b bc args) := by
  unfold Engine.yieldTo
  split
  · exact (h.bindBlockParams _ _).from _
  · rename_i hnone
    refine (evolving_openBlockScope b bc hnone).andThen (Q := fun _ _ => True)
      (fun _ _ _ _ _ => trivial) fun opened => Evolving.from ?_ _
    refine (h.bindBlockParams _ _).bind fun _ => ?_
    exact (evolving_nodeOf _).bind fun _ => h.typeBlock _ _

theorem visitYield (s : ScopeId) (n : Placed) (args : List Placed) : Evolving (e.visitYield s n args) := by
  refine (evolving_scope s).bind fun sc => ?_
  split
  · exact .throw _
  · rename_i b _
    refine (h.visitAll _ _).bind fun _ p => ?_
    rw [run_env_bind]
    split
    · exact .refl
    · rename_i bc hb
      -- looking up the nodes of the values leaves the block as it is
      refine ((evolving_nodesOf args).from (·.env.blocks[b]? = some bc)).andThen
        (Q := fun _ q => q.env.blocks[b]? = some bc) (fun p nodes p' hp hrun => ?_) (fun nodes => ?_) p hb
      · obtain ⟨-, -, hblocks⟩ := nodes_of_nodesOf hrun
        rw [hblocks, hp]
      · refine (h.yieldTo b bc nodes).andThen (Q := fun _ _ => True) (fun _ _ _ _ _ => trivial)
          fun _ => Evolving.from ?_ _
        exact (evolving_nodeOf _).bind fun _ => h.bind _ _

theorem visitMacro (s : ScopeId) (n : Placed) (call : CallParts) (d : MacroDefinition) :
    EvolvingFrom (fun p => assoc? p.env.macros call.name = some d) (e.visitMacro s n call d) := by
  refine (evolving_env.from _).andThen
    (Q := fun _ p => assoc? p.env.macros call.name = some d) ?_ fun env => ?_
  · intro p env p' hp hrun
    cases hrun
    exact hp
  have hexpand : EvolvingFrom (fun p => assoc? p.env.macros call.name = some d)
      (expansionAt call.mark.loc
        { name := call.name, params := d.params, args := call.args.map env.written, body := d.body }) :=
    fun p hp => evolving_expansionAt _ _ p hp
  refine hexpand.andThen (Q := fun _ _ => True) (fun _ _ _ _ _ => trivial) fun x => Evolving.from ?_ _
  refine (evolving_place _).bind fun tree => (evolving_changeNote _ _).bind fun _ => ?_
  refine (h.visit s tree).attempt.bind fun outcome => ?_
  split
  · exact .throw _
  · exact (evolving_nodeOf _).bind fun _ => h.bind _ _

/-! ### Declarations -/

theorem visitMethodDef (s : ScopeId) (n : Placed) (receiver : String) (d : Definition) :
    Evolving (e.visitMethodDef s n receiver d) := by
  refine (evolving_methodOwner _ _).bind fun owner => Flow.evolving_types.bind fun t => ?_
  split
  · exact .throw _
  · exact (evolving_addMethod _ _).bind fun _ => h.setType _ _

theorem visitBody (home : TypeId) (body : Option Placed) : Evolving (e.visitBody home body) :=
  .bind (.onTypes (Table.widening_intern _)) fun _ => (evolving_newScope _).bind fun _ =>
    h.visitOption _ _

theorem visitClassDef (s : ScopeId) (n : Placed) (name : String) (superclass : Option (PathRef Mark))
    (typeParams : List String) (body : Option Placed) :
    Evolving (e.visitClassDef s n name superclass typeParams body) := by
  refine (evolving_superclassOf _ _).bind fun super => (evolving_declareClass _ _ _ _).bind fun id => ?_
  exact (h.visitBody _ _).bind fun _ => h.setType _ _

theorem visitModuleDef (s : ScopeId) (n : Placed) (name : String) (body : Option Placed) :
    Evolving (e.visitModuleDef s n name body) :=
  (evolving_declareModule _ _).bind fun _ => (h.visitBody _ _).bind fun _ => h.setType _ _

theorem visitInclude (s : ScopeId) (n : Placed) (names : List String) (typeArgs : List TypeExpr) :
    Evolving (e.visitInclude s n names typeArgs) := by
  refine (evolving_scope s).bind fun sc => Flow.evolving_types.bind fun t => ?_
  split
  · exact .throw _
  · refine (evolving_lookupPath _ _ _).bind fun id => Flow.evolving_types.bind fun t => ?_
    split
    · exact .bind (.onTypes (Table.widening_include _ _)) fun _ => h.setType _ _
    · exact .throw _

theorem visitMacroDef (n : Placed) (name : String) (params : Option (List String))
    (body : Option Placed) : Evolving (e.visitMacroDef n name params body) := by
  unfold Engine.visitMacroDef
  split
  · exact .throw _
  · refine .bind (fun p => ?_) fun _ => h.setType _ _
    exact .beside (.change (.books rfl rfl) rfl) rfl rfl rfl (.of_remembers (.of_declared rfl) rfl)

theorem visitLibDef (s : ScopeId) (n : Placed) (name : String) (body : List Placed) :
    Evolving (e.visitLibDef s n name body) := by
  refine (evolving_scope s).bind fun sc => ?_
  simp only
  split
  · exact Flow.evolving_types.bind fun _ => .throw _
  · refine (evolving_declareLib _).bind fun lib => (evolving_newScope _).bind fun inner => ?_
    exact (h.visitAll _ _).bind fun _ => h.setType _ _

theorem visitFunDef (s : ScopeId) (n : Placed) (name : String) (params : List (Param Source))
    (result : Option TypeExpr) (varargs : Bool) :
    Evolving (e.visitFunDef s n name params result varargs) := by
  refine (evolving_currentLib _ _ _).bind fun lib => (evolving_checkFunParams _ _ _ _).bind fun _ => ?_
  extract_lets k
  have hk : ∀ u, Evolving (k u) := by
    intro u p
    let m : Method :=
      { definition := { loc := n.loc, name, params, result }, kind := .external varargs, owner := lib }
    -- the function is filed under the number that it was given
    have hmade : Advances p _ := .beside (.declare m rfl rfl) rfl rfl rfl (.of_named rfl)
    refine hmade.trans (.trans (.beside (.name (lib, name) ⟨m, ?_, rfl⟩) rfl rfl rfl (.of_named rfl))
      (h.setType n Builtin.nil _))
    exact Array.getElem?_push_size
  split
  · exact (evolving_resolveIn _ _).bind fun _ => hk ()
  · exact hk ()

theorem visitStructDef (s : ScopeId) (n : Placed) (name : String) (isUnion : Bool)
    (members : List (Param Source)) : Evolving (e.visitStructDef s n name isUnion members) := by
  refine (evolving_currentLib _ _ _).bind fun lib => Flow.evolving_types.bind fun t => ?_
  simp only
  split
  · exact .throw _
  · refine .bind (.onTypes (Table.widening_defineStruct _ _ _ _)) fun id => ?_
    refine (evolving_addMembers _ _ _ _ _).bind fun _ => ?_
    refine .bind (.onTypes (Table.widening_intern _)) fun self => (evolving_addMethod _ _).bind fun _ => ?_
    refine Flow.evolving_types.bind fun t => (evolving_addAccessors _ _ _).bind fun _ => ?_
    exact h.setType _ _

theorem visitTypeDef (s : ScopeId) (n : Placed) (name : String) (type : Option TypeExpr) :
    Evolving (e.visitTypeDef s n name type) := by
  refine (evolving_currentLib _ _ _).bind fun lib => ?_
  split
  · exact .throw _
  · refine (evolving_resolveIn _ _).bind fun t => Flow.evolving_types.bind fun types => ?_
    exact .bind (.onTypes (Table.widening_register _ _)) fun _ => h.setType _ _

/-! ### Foreign calls -/

theorem convert (x : NodeId) (i : Nat) : Evolving (e.convert x i) := by
  refine (evolving_site? x).bind fun site => ?_
  split
  · exact .pure _
  · split
    · exact .pure _
    · refine .bind (evolving_changeSite _ fun _ => rfl) fun _ => ?_
      split
      · exact .pure _
      · refine (evolving_freshMark _).bind fun mark => (evolving_changeNote _ _).bind fun _ => ?_
        exact (evolving_newSite _ _ _).bind fun _ => h.recalculate _

theorem checkArgs (site : Site) (lib : TypeId) (i : Nat) (params : List NodeId) (args : List TypeId) :
    Evolving (e.checkArgs site lib i params args) := by
  induction params generalizing i args with
  | nil => exact .pure _
  | cons p params ih =>
    cases args with
    | nil => exact .pure _
    | cons a args =>
      refine (Flow.evolving_typeOf _).bind fun expected => Flow.evolving_types.bind fun t => ?_
      split
      · exact ih _ _
      · split
        · exact (h.convert _ _).bind fun _ => ih _ _
        · exact (evolving_wrongArgument _ _ _ _ _).bind fun _ => .throw _

theorem convertRest (site : Site) (i : Nat) (args : List TypeId) :
    Evolving (e.convertRest site i args) := by
  induction args generalizing i with
  | nil => exact .pure _
  | cons a args ih =>
    unfold Engine.convertRest
    simp only
    split
    · exact (h.convert _ _).bind fun _ => ih _
    · exact ih _

theorem callFun (site : Site) (lib : TypeId) (args : List TypeId) (id : MethodId) :
    EvolvingFrom (·.Names id) (e.callFun site lib args id) := by
  have hlast := Program.lasting_names id
  refine .bind hlast ((evolving_method id).from _) fun m => ?_
  simp only
  split
  · exact (Flow.evolving_types.bind fun _ => .throw _).from _
  · refine .bind hlast (evolving_externalId id) fun i => Evolving.from ?_ _
    refine (evolving_instanceOf _).bind fun inst => (h.checkArgs _ _ _ _ _).bind fun _ => ?_
    split
    · exact (h.convertRest _ _ _).bind fun _ => .pure _
    · exact .pure _

theorem funCall (site : Site) (lib : TypeId) (args : List TypeId) :
    Evolving (e.funCall site lib args) :=
  evolving_fun?_bind (Flow.evolving_types.bind fun _ => .throw _) fun _ => h.callFun _ _ _ _

theorem outTarget (site : Site) (arg : Placed) : Evolving (e.outTarget site arg) := by
  unfold Engine.outTarget
  split
  · exact evolving_declare _ _
  · exact (evolving_scope _).bind fun _ => h.ivarNode _ _ _
  · exact .pure _

theorem bindOuts (site : Site) (lib : TypeId) (id : MethodId) (i : Nat) (params : List (Param Source))
    (args : List Placed) : EvolvingFrom (·.Names id) (e.bindOuts site lib id i params args) := by
  have hlast := Program.lasting_names id
  induction params generalizing i args with
  | nil => exact (Evolving.pure _).from _
  | cons p params ih =>
    cases args with
    | nil => exact (Evolving.pure _).from _
    | cons arg args =>
      unfold Engine.bindOuts
      simp only
      split
      · refine .bind hlast ((h.outTarget _ _).from _) fun target => ?_
        split
        · refine Evolving.from ?_ _
          exact Flow.evolving_types.bind fun _ => (evolving_method _).bind fun _ => .throw _
        · refine .bind hlast (evolving_external id) fun _ => ?_
          exact .bind hlast ((h.connect _ _).from _) fun _ => ih _ _
      · exact ih _ _

theorem bindOutArgs (site : Site) (lib : TypeId) : Evolving (e.bindOutArgs site lib) := by
  refine evolving_fun?_bind (.pure _) fun id => ?_
  have hlast := Program.lasting_names id
  have hsite : Evolving (changeSite site.node fun s => { s with outBound := true }) :=
    evolving_changeSite _ fun _ => rfl
  refine .bind hlast (hsite.from _) fun _ => ?_
  exact .bind hlast ((evolving_method id).from _) fun m => h.bindOuts _ _ _ _ _ _

/-! ### Instances -/

theorem typePrimitive (id : InstanceId) : EvolvingFrom (Unwritten id) (e.typePrimitive id) := by
  refine evolvingFrom_unwritten_bind (evolving_instanceOf id) (fun _ => rfl) fun inst => ?_
  refine evolvingFrom_unwritten_bind (evolving_method _) (fun _ => rfl) fun m => ?_
  extract_lets d k
  have hk : ∀ result, EvolvingFrom (Unwritten id) (k result) := by
    refine fun result => (evolving_write id _).andThen (Q := fun _ _ => True) (fun _ _ _ _ _ => trivial) fun body => ?_
    exact ((h.setType _ _).bind fun _ => Flow.evolving_freeze _ _).from _
  split
  · exact evolvingFrom_unwritten_bind (.pure _) (.pure _) hk
  · exact evolvingFrom_unwritten_bind ((evolving_resolveDeclared _ _).locating _)
      ((detached_resolveDeclared _ _).locating _) hk

theorem bindParams (s : ScopeId) (params : List (Param Source × TypeId)) :
    Evolving (e.bindParams s params) := by
  induction params with
  | nil => exact .pure _
  | cons p params ih =>
    refine Flow.evolving_types.bind fun t => (Flow.evolving_newNode _).bind fun arg => ?_
    refine (h.assign _ _).bind fun _ => (evolving_declare _ _).bind fun var => ?_
    exact (h.connect _ _).bind fun _ => ih

theorem typeWritten (x : NodeId) (id : InstanceId) (inst : Instance) (d : Definition) (body : Placed) :
    Evolving (e.typeWritten x id inst d body) := by
  refine (evolving_openBody _ _ _ _).bind fun s => (h.bindParams _ _).bind fun _ => ?_
  refine (evolving_freezeResult _ _).bind fun _ => (h.visit _ _).bind fun _ => ?_
  exact (evolving_nodeOf _).bind fun _ => (h.connect _ _).locating _

theorem typeBody (x : NodeId) (id : InstanceId) : EvolvingFrom (Unwritten id) (e.typeBody x id) := by
  refine evolvingFrom_unwritten_bind (evolving_instanceOf id) (fun _ => rfl) fun inst => ?_
  refine evolvingFrom_unwritten_bind (evolving_method _) (fun _ => rfl) fun m => ?_
  refine (evolving_writeBody id _ _).andThen (Q := fun _ _ => True) (fun _ _ _ _ _ => trivial) fun body => ?_
  exact (h.typeWritten _ _ _ _ _).from _

theorem typeNested (x : NodeId) (loc : Option Location) (id : InstanceId) :
    EvolvingFrom (Unwritten id) (e.typeNested x loc id) := by
  have hdepth : ∀ f : Nat → Nat, Evolving (changeEnv fun env => { env with depth := f env.depth }) :=
    fun f => .changeEnv (fun _ => rfl) (fun _ => rfl) (fun _ => rfl) fun _ => rfl
  refine ((hdepth (· + 1)).from _).andThen (Q := fun _ => Unwritten id) ?_ fun _ => ?_
  · intro p _ p' hp hrun
    cases hrun
    exact hp
  refine (h.typeBody x id).attempt.andThen (Q := fun _ _ => True) (fun _ _ _ _ _ => trivial) fun outcome => ?_
  refine Evolving.from ((hdepth (· - 1)).bind fun _ => ?_) _
  split
  · exact .pure _
  · exact (evolving_instanceOf _).bind fun _ => .throw _

theorem typeInstance (site : Site) (id : InstanceId) (kind : MethodKind) :
    EvolvingFrom (Unwritten id) (e.typeInstance site id kind) := by
  cases kind with
  | primitive => exact h.typePrimitive id
  | getter t => exact (evolving_typeMember _ _ _).from _
  | setter t => exact (evolving_typeMember _ _ _).from _
  | user => exact h.typeNested _ _ _
  | external varargs => exact h.typeNested _ _ _

/-- An instance is made of a method that is filed for the call, unless it is remembered. -/
theorem instantiate (site : Site) (owner : TypeId) (m : Match MethodId) :
    EvolvingFrom (·.Offers m.candidate.id site.call.block.isSome) (e.instantiate site owner m) := by
  refine evolvingFrom_method_bind fun method => ?_
  simp only
  split
  · exact (Evolving.pure _).from _
  rename_i hknown
  rintro p ⟨hoffers, hmethod⟩
  rw [run_env_bind]
  split
  · exact (Flow.evolving_types.bind fun _ => Evolving.throw _) p
  let a := created m.candidate.id owner m.argTypes m.free p
  have htyped : EvolvingFrom (Unwritten p.env.instances.size) (do
      e.typeInstance site p.env.instances.size method.kind
      return p.env.instances.size) :=
    (h.typeInstance _ _ _).andThen (Q := fun _ _ => True) (fun _ _ _ _ _ => trivial) fun _ => (Evolving.pure _).from _
  rw [Flow.run_bind_of_ok (run_newInstance _ _ _ _ p)]
  have hnode : Advances p { p with graph := (p.graph.add a.signature).2 } :=
    .graph (.add p.graph a.signature)
  split
  · rename_i hblock
    rw [Option.isNone_iff_eq_none.mp hblock] at hoffers
    rw [if_pos hblock] at hknown
    -- the instance and the entry that remembers it are one act
    have hmade := hnode.trans
      (.beside (.memoised a hoffers fun m' hm' => hmethod m' hm' ▸ hknown) rfl rfl rfl (.of_named rfl))
    exact hmade.trans (htyped _ (unwritten_of_push rfl rfl))
  · rename_i hblock
    have hsome : site.call.block.isSome = true := by
      rw [Option.isSome_iff_ne_none]
      exact fun hnone => hblock (Option.isNone_iff_eq_none.mpr hnone)
    have hmade := hnode.trans (.beside (.yielding a (hsome ▸ hoffers)) rfl rfl rfl (.of_named rfl))
    exact hmade.trans (htyped _ (unwritten_of_push rfl rfl))

/-! ### Dispatching and resolving calls -/

theorem placeholder (name : String) (loc : Option Location) (t : TypeId) :
    Evolving (e.placeholder name loc t) :=
  (evolving_freshMark loc).bind fun _ => (h.setType _ _).bind fun _ => .pure _

theorem placeholders (loc : Option Location) (i : Nat) (ts : List TypeId) :
    Evolving (e.placeholders loc i ts) := by
  induction ts generalizing i with
  | nil => exact .pure _
  | cons t ts ih => exact (h.placeholder _ _ _).bind fun _ => (ih _).bind fun _ => .pure _

theorem receiverPlaceholder (site : Site) (t : TypeId) : Evolving (e.receiverPlaceholder site t) := by
  unfold Engine.receiverPlaceholder
  split
  · exact .pure _
  · exact (h.placeholder _ _ _).bind fun _ => .pure _

theorem subcallFor (site : Site) (shape : List TypeId) : Evolving (e.subcallFor site shape) := by
  refine (evolving_freshMark _).bind fun mark => (h.receiverPlaceholder _ _).bind fun obj => ?_
  exact (h.placeholders _ _ _).bind fun args => (evolving_blockCopy _).bind fun _ => .pure _

theorem subcall (site : Site) (d : Nat) (shape : List TypeId) : Evolving (e.subcall site d shape) := by
  refine (h.subcallFor _ _).bind fun call =>
    .bind (fun _ => .beside (.change (.subcall d call.tree) rfl) rfl rfl rfl (.of_named rfl)) fun _ => ?_
  refine (evolving_newSite _ _ _).bind fun node => (h.recalculate _).bind fun _ => ?_
  exact (evolving_dispatchNode _).bind fun _ => h.connect _ _

theorem subcalls (site : Site) (d : Nat) (shapes : List (List TypeId)) :
    Evolving (e.subcalls site d shapes) := by
  induction shapes with
  | nil => exact .pure _
  | cons shape shapes ih =>
    refine (evolving_addShape _ _).bind fun added => ?_
    simp only
    split
    · exact (h.subcall _ _ _).bind fun _ => ih
    · exact ih

theorem dispatch (site : Site) (recvs args : List TypeId) : Evolving (e.dispatch site recvs args) := by
  refine (evolving_shapesForAll _ _ _).bind fun shapes => (evolving_openDispatch _ _).bind fun d => ?_
  exact (h.subcalls _ _ _).bind fun _ => (evolving_dispatchNode _).bind fun _ => .pure _

theorem resolveSingle (site : Site) (recv : TypeId) (args : List TypeId) :
    Evolving (e.resolveSingle site recv args) := by
  intro p
  refine (((evolving_matchCall site recv args).from fun _ => True).andThen
    (Q := fun found p => ∀ m ∈ found.2.list, p.Offers m.candidate.id site.call.block.isSome) ?_
    fun found => ?_) p trivial
  · intro p found p' _ hrun m hm
    exact offers_of_matchCall hrun hm
  simp only
  split
  · exact (h.dispatch _ _ _).from _
  · split
    · exact (Evolving.pure _).from _
    · rename_i m rest heq
      intro q hq
      refine ((h.instantiate site found.1 m).andThen (Q := fun _ _ => True)
        (fun _ _ _ _ _ => trivial) fun i => Evolving.from ?_ _) q (hq m (heq ▸ List.mem_cons_self))
      exact (evolving_instanceOf _).bind fun _ => .pure _

theorem resolveCall (site : Site) (recv : TypeId) (args : List TypeId) :
    Evolving (e.resolveCall site recv args) := by
  refine Flow.evolving_types.bind fun t => ?_
  split
  · exact h.funCall _ _ _
  · split
    · exact h.resolveSingle _ _ _
    · exact h.dispatch _ _ _

theorem retarget (x : NodeId) (loc : Option Location) (occ : Nat) (nodes : List NodeId)
    (targets : List Target) : Evolving (e.retarget x loc occ nodes targets) := by
  have hrest : Evolving (do
      Infer.changeSite x fun s => { s with targets := nodes }
      Infer.changeNote occ fun n => { n with targets }
      Flow.locating loc (e.connect x nodes)) := by
    refine .bind (evolving_changeSite _ fun _ => rfl) fun _ => (evolving_changeNote _ _).bind fun _ => ?_
    exact (h.connect _ _).locating _
  intro p
  let old := ((p.env.sites.get? x).map Site.targets).getD []
  have hdrop : Advances p { p with graph := p.graph.dropDeps x old } :=
    .single (.change (.graph _) rfl) (.of_dropDeps p fun hnone => by simp [old, hnone]) (.of_named rfl)
  exact hdrop.trans (hrest _)

theorem resolveFor (x : NodeId) (recv : TypeId) (args : List TypeId) :
    Evolving (e.resolveFor x recv args) := by
  refine (evolving_site? x).bind fun site => ?_
  split
  · exact .pure _
  · simp only
    split
    · exact .pure _
    · refine .bind (evolving_changeSite _ fun _ => rfl) fun _ => ?_
      exact ((h.resolveCall _ _ _).locating _).bind fun _ => h.retarget _ _ _ _ _

theorem prepare (site : Site) (recv : TypeId) : Evolving (e.prepare site recv) := by
  refine Flow.evolving_types.bind fun t => ?_
  split
  · exact (h.bindOutArgs _ _).locating _
  · exact .pure _

theorem resolveSite (x : NodeId) : Evolving (e.resolveSite x) := by
  refine (evolving_site? x).bind fun site => ?_
  split
  · exact .pure _
  · refine (evolving_receiverType _).bind fun recv => ?_
    split
    · exact .pure _
    · refine (h.prepare _ _).bind fun _ => (evolving_typesOf? _).bind fun args => ?_
      split
      · exact .pure _
      · exact h.resolveFor _ _ _

theorem visitPlainCall (s : ScopeId) (call : CallParts) : Evolving (e.visitPlainCall s call) := by
  refine (h.visitOption _ _).bind fun _ => (h.visitAll _ _).bind fun _ => ?_
  exact (evolving_newSite _ _ _).bind fun _ => h.recalculate _

theorem visitSuper (s : ScopeId) (call : CallParts) : Evolving (e.visitSuper s call) := by
  refine (evolving_callingMethod? s).bind fun found => ?_
  split
  · exact .throw _
  · refine (evolving_superArgs _ _).bind fun args => (h.visitAll _ _).bind fun _ => ?_
    exact (evolving_newSite _ _ _).bind fun _ => h.recalculate _

theorem visitCall (s : ScopeId) (n : Placed) (call : CallParts) : Evolving (e.visitCall s n call) := by
  unfold Engine.visitCall
  split
  · exact h.visitPlainCall _ _
  · intro p
    rw [run_env_bind]
    split
    · rename_i d hd
      exact h.visitMacro s n call d p hd
    · split
      · exact h.visitSuper _ _ _
      · exact h.visitPlainCall _ _ _

/-! ### Trees -/

theorem visitExpressions (s : ScopeId) (n : Placed) (body : List Placed) :
    Evolving (e.visitExpressions s n body) := by
  unfold Engine.visitExpressions
  split
  · exact h.setType _ _
  · exact (h.visitAll _ _).bind fun _ => (evolving_nodeOf _).bind fun _ => h.bind _ _

theorem visitIsA (s : ScopeId) (n : Placed) (obj : Option Placed) (type : Option TypeExpr) :
    Evolving (e.visitIsA s n obj type) := by
  refine (h.visitOption _ _).bind fun _ => ?_
  split
  · refine .bind ?_ fun _ => h.setType _ _
    exact (evolving_resolveType _ _).bind fun _ => .pure _
  · exact (evolving_undefined _ _).bind fun _ => h.setType _ _

theorem visitRespondsTo (s : ScopeId) (n : Placed) (obj : Option Placed) :
    Evolving (e.visitRespondsTo s n obj) :=
  (h.visitOption _ _).bind fun _ => h.setType _ _

theorem visitPointerOf (s : ScopeId) (n : Placed) (target : Option Placed) :
    Evolving (e.visitPointerOf s n target) := by
  unfold Engine.visitPointerOf
  split
  · exact .throw _
  · refine (h.visit _ _).bind fun _ => (evolving_nodeOf _).bind fun id => ?_
    refine .bind (.changeGraph fun g => .modify_beside g id fun _ => rfl) fun _ => ?_
    exact (evolving_nodeOf _).bind fun _ => h.connect _ _

theorem visitSelf (s : ScopeId) (n : Placed) : Evolving (e.visitSelf s n) :=
  (evolving_scope s).bind fun _ => h.setType _ _

theorem visitDeclaration (s : ScopeId) (n : Placed) : Evolving (e.visitDeclaration s n) := by
  unfold Engine.visitDeclaration
  split
  · exact h.visitMethodDef _ _ _ _
  · exact h.visitClassDef _ _ _ _ _ _
  · exact h.visitModuleDef _ _ _ _
  · exact h.visitInclude _ _ _ _
  · exact h.visitLibDef _ _ _ _
  · exact h.visitFunDef _ _ _ _ _ _
  · exact h.visitStructDef _ _ _ _ _
  · exact h.visitTypeDef _ _ _ _
  · exact h.visitMacroDef _ _ _ _
  · exact .throw _
  · exact .pure _

theorem visitControl (s : ScopeId) (n : Placed) : Evolving (e.visitControl s n) := by
  unfold Engine.visitControl
  split
  · exact h.visitIf _ _ _ _ _
  · exact h.visitUnless _ _ _ _ _
  · exact h.visitCase _ _ _ _ _
  · exact h.visitWhile _ _ _ _
  · exact h.visitReturn _ _ _
  · exact h.visitBreak _ _ _
  · exact h.visitDeclaration _ _

theorem visitForm (s : ScopeId) (n : Placed) : Evolving (e.visitForm s n) := by
  unfold Engine.visitForm
  split
  · exact h.setType _ _
  · exact h.setType _ _
  · exact h.setType _ _
  · exact h.visitInt _ _ _
  · exact h.visitFloat _ _ _
  · exact h.setType _ _
  · exact h.setType _ _
  · exact h.visitSymbol _ _
  · exact h.visitArray _ _ _ _
  · exact h.visitLocal _ _ _ _
  · exact h.visitIVar _ _ _ _
  · exact h.visitClassVar _ _ _
  · exact h.visitGlobal _ _
  · exact h.visitSelf _ _
  · exact h.visitPath _ _ _ _
  · exact h.visitAssign _ _ _ _
  · exact .throw _
  · exact h.visitExpressions _ _ _
  · exact h.visitCall _ _ _
  · exact .throw _
  · exact h.visitYield _ _ _
  · exact h.visitIsA _ _ _ _
  · exact h.visitRespondsTo _ _ _
  · exact h.visitPointerOf _ _ _
  · exact h.visitControl _ _

theorem visitNode (s : ScopeId) (n : Placed) : Evolving (e.visitNode s n) :=
  (evolving_nodeOf n).bind fun _ => (h.visitForm s n).locating _

end Tame

end Engine

/-! ### The engine -/

/-- **Typing a tree and resolving a call evolve the program**, however deep they nest. -/
theorem engine_tame (fuel : Nat) : (engine fuel).Tame := by
  -- an engine is made of the steps over the one that nests one level less
  induction fuel with
  | zero => exact ⟨fun _ _ => .throw _, fun _ => .throw _⟩
  | succ fuel ih => exact ⟨fun s n => ih.visitNode s n, fun x => ih.resolveSite x⟩

theorem Program.evolving_infer (t : Source) : Evolving (infer t) := by
  refine (Infer.evolving_place t).bind fun root => ?_
  refine .bind (.changeEnv (fun _ => rfl) (fun _ => rfl) (fun _ => rfl) fun _ => rfl) fun _ => ?_
  exact (Infer.evolving_newScope _).bind fun s => (engine_tame nesting).visit s root

/-! ### Compilations -/

namespace Standard

theorem evolving_declareKinds (ks : List NumericKind) : Evolving (declareKinds ks) := by
  induction ks with
  | nil => exact .pure _
  | cons k ks ih =>
    refine Flow.evolving_types.bind fun t => ?_
    split
    · exact .throw _
    · refine .bind (.onTypes (Table.widening_definePrimitive _ _ _ _)) fun id => ?_
      exact ih.bind fun _ => .pure _

theorem evolving_declareAll (owner : TypeId) (ds : List Definition) :
    Evolving (declareAll owner ds) := by
  induction ds with
  | nil => exact .pure _
  | cons d ds ih => exact (Infer.evolving_addMethod _ _).bind fun _ => ih

theorem evolving_declareOperations (n : NumericTower) (ids : List (String × TypeId))
    (ks : List NumericKind) : Evolving (declareOperations n ids ks) := by
  induction ks with
  | nil => exact .pure _
  | cons k ks ih => exact (evolving_declareAll _ _).bind fun _ => ih

theorem evolving_defineNumeric (n : NumericTower) : Evolving (defineNumeric n) := by
  refine (evolving_declareKinds _).bind fun ids => ?_
  split
  · exact .throw _
  · split
    · exact .throw _
    · refine .bind (.changeEnv (fun _ => rfl) (fun _ => rfl) (fun _ => rfl) fun _ => rfl) fun _ => ?_
      exact evolving_declareOperations _ _ _

theorem evolving_defineContainers (int : String) : Evolving (defineContainers int) := by
  refine Flow.evolving_types.bind fun t => ?_
  split
  · exact .throw _
  · refine .bind (.onTypes (Table.widening_intern _)) fun pointers => ?_
    refine (Infer.evolving_addMethod _ _).bind fun _ => (evolving_declareAll _ _).bind fun _ => ?_
    exact evolving_declareAll _ _

end Standard

/-! ### Sessions -/

theorem Program.evolving_setUp : Evolving setUp := by
  refine (Flow.evolving_newNode _).bind fun id => (Flow.evolving_freeze _ _).bind fun _ => ?_
  exact .bind (.onTypes (Table.widening_intern _)) fun _ => Infer.evolving_addMethod _ _

/-- The states of a program that is used from its start on: numbers, containers and methods are declared,
and trees are typed, in any order. What fails leaves the program in a state, too. -/
inductive Session (x : Expander) : Program → Prop
  | initial : Session x (.initial x)
  | numbers {p : Program} (h : Session x p) (n : NumericTower) :
    Session x (p.run (Standard.defineNumeric n)).2
  | containers {p : Program} (h : Session x p) (int : String) :
    Session x (p.run (Standard.defineContainers int)).2
  | method {p : Program} (h : Session x p) (owner : TypeId) (d : Definition) :
    Session x (p.run (Infer.addMethod owner d)).2
  | tree {p : Program} (h : Session x p) (t : Source) : Session x (p.run (Program.infer t)).2

theorem Session.advances {x : Expander} {p : Program} (h : Session x p) :
    Advances (.initial x) p := by
  induction h with
  | initial => exact .refl
  | numbers _ n ih => exact ih.trans (Standard.evolving_defineNumeric n _)
  | containers _ int ih => exact ih.trans (Standard.evolving_defineContainers int _)
  | method _ owner d ih => exact ih.trans (Infer.evolving_addMethod owner d _)
  | tree _ t ih => exact ih.trans (Program.evolving_infer t _)

theorem Session.proceeds {x : Expander} {p : Program} (h : Session x p) : Proceeds (.initial x) p :=
  h.advances.toProceeds

theorem Session.acts {x : Expander} {p : Program} (h : Session x p) : Acts (.initial x) p :=
  h.proceeds.acts

end TypeFlow
