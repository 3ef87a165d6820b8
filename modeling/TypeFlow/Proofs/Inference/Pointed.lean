import TypeFlow.Proofs.Inference.Parameters
import TypeFlow.Proofs.Inference.Steps
import TypeFlow.Proofs.Inference.Tracking

/-!
# Typing points at the source

Typing keeps what is there to be typed located, and what it fails with can be located (`Engine.Fair`). Each function
of the engine does so if the engine that it is given for the parts does; `TypeFlow.Proofs.Inference.Failures` closes
the recursion. Three places need more than that:

* A failure in the body of an instance gets no location on its way out of the body, since the frame of the instance
  hides it. So it has to point at the source already. It does because the body is located, and because parameters are
  bound without a failure.
* The same holds of an expansion, which is located or empty. An empty one has no location, but nothing in it fails.
* A variable that is assigned to may have no location. What it fails with gets that of the assignment.
-/

namespace TypeFlow

open Failure (Points Locatable)

variable {x : Expander} {F : Failure → Prop}

/-- An engine that tracks locations. What it fails with can be located, and points at the source already if the tree
that it types is located; an empty tree that has no node yet need not be. -/
structure Engine.Fair (x : Expander) (e : Engine) : Prop where
  visit : ∀ s n, n.Fits Mark.loc → Tracks x (Locatable x) (e.visit s n)
  located : ∀ s n, n.Located Mark.loc → Tracks x (Points x) (e.visit s n)
  empty : ∀ s m,
    TracksFrom (fun p => (p.env.note m.occ).node = 0) x (Points x) (fun _ => True) (e.visit s (.node m .nop))
  recalculate : ∀ id, Tracks x (Locatable x) (e.recalculate id)

/-! ### Propagation -/

namespace Flow

variable {h : Hooks Env} (hh : ∀ id, Tracks x (Locatable x) (h.recalc id))

include hh

theorem tracks_serve (o : Graph.Observer) : Tracks x (Locatable x) (serve h o) := by
  unfold serve
  split
  · exact tracks_recompute _ _
  · exact (hh _).bind fun _ => .pure _

theorem tracks_serveAll (fuel : Nat) (queue : List Graph.Observer) :
    Tracks x (Locatable x) (serveAll h fuel queue) := by
  induction fuel generalizing queue with
  | zero =>
    cases queue with
    | nil => exact .pure _
    | cons o queue => exact (Tracks.changeGraph _).bind fun _ => .throw Failure.locatable_exhausted
  | succ fuel ih =>
    cases queue with
    | nil => exact .pure _
    | cons o queue =>
      refine (Tracks.changeGraph _).bind fun _ => (tracks_serve hh o).attempt.bind fun r hr => ?_
      split
      · exact (Tracks.changeGraph _).bind fun _ => .throw hr
      · exact ih queue
      · exact (Tracks.onGraph _).bind fun more => ih _

theorem tracks_propagate (id : NodeId) : Tracks x (Locatable x) (propagate h id) :=
  (Tracks.onGraph _).bind fun _ => tracks_serveAll hh _ _

theorem tracks_setType (id : NodeId) (t : TypeId) : Tracks x (Locatable x) (setType h id t) := by
  refine tracks_get.bind fun p => ?_
  split
  · exact .pure _
  · split
    · exact .pure _
    · split
      · exact (tracksTo_frozenFailure _ _).bind fun f hf => .throw hf
      · exact (tracks_assign _ _ _).bind fun _ => tracks_propagate hh id

theorem tracks_dependOn (id : NodeId) (deps : List NodeId) : Tracks x (Locatable x) (dependOn h id deps) := by
  refine (Tracks.onGraph _).bind fun added => ?_
  split
  · refine (tracks_recompute _ _).bind fun changed => ?_
    split
    · exact tracks_propagate hh id
    · exact .pure _
  · exact .pure _

end Flow

namespace Engine

open Infer

namespace Fair

variable {e : Engine} (h : e.Fair x)
include h

theorem assign (id : NodeId) (t : TypeId) : Tracks x (Locatable x) (e.assign id t) :=
  Flow.tracks_setType (h := e.hooks) h.recalculate id t

theorem connect (id : NodeId) (deps : List NodeId) : Tracks x (Locatable x) (e.connect id deps) :=
  Flow.tracks_dependOn (h := e.hooks) h.recalculate id deps

theorem setType (n : Placed) (t : TypeId) : Tracks x (Locatable x) (e.setType n t) :=
  (tracks_nodeOf n).bind fun _ => h.assign _ _

theorem bind (n : Placed) (deps : List NodeId) : Tracks x (Locatable x) (e.bind n deps) :=
  (tracks_nodeOf n).bind fun _ => h.connect _ _

theorem visitValue {n : Option Placed} (hn : ∀ t ∈ n, t.Fits Mark.loc) (s : ScopeId) :
    Tracks x (Locatable x) (e.visitOption s n) := by
  cases n with
  | none => exact .pure _
  | some n => exact h.visit s n (hn n rfl)

theorem visitOption {n : Option Placed} (hn : ∀ t ∈ n, t.Located Mark.loc) (s : ScopeId) :
    Tracks x (Locatable x) (e.visitOption s n) :=
  h.visitValue (fun t ht => .inl (hn t ht)) s

theorem visitAll {ns : List Placed} (hns : ∀ t ∈ ns, t.Located Mark.loc) (s : ScopeId) :
    Tracks x (Locatable x) (e.visitAll s ns) := by
  induction ns with
  | nil => exact .pure _
  | cons n ns ih =>
    obtain ⟨hn, hns⟩ := List.forall_mem_cons.mp hns
    exact (h.visit s n (.inl hn)).bind fun _ => ih hns

/-! ### Literals -/

theorem visitSymbol (n : Placed) (name : String) : Tracks x (Locatable x) (e.visitSymbol n name) :=
  (tracks_addSymbol _).bind fun _ => h.setType _ _

theorem visitInt (s : ScopeId) (n : Placed) (suffix : String) : Tracks x (Locatable x) (e.visitInt s n suffix) :=
  tracks_env.bind fun _ => (tracks_numericLiteral _ _ _ _).bind fun _ => h.setType _ _

theorem visitFloat (s : ScopeId) (n : Placed) (suffix : String) : Tracks x (Locatable x) (e.visitFloat s n suffix) :=
  tracks_env.bind fun _ => (tracks_numericLiteral _ _ _ _).bind fun _ => h.setType _ _

theorem checkElements (element : NodeId) (xs : List Placed) : Tracks x (Locatable x) (e.checkElements element xs) := by
  induction xs with
  | nil => exact .pure _
  | cons y ys ih => exact (tracks_nodeOf y).bind fun _ => ((h.connect _ _).locating _).bind fun _ => ih

theorem visitArrayOf (s : ScopeId) (n : Placed) (elements : List Placed) (of : TypeExpr) :
    Tracks x (Locatable x) (e.visitArrayOf s n elements of) := by
  refine (tracks_resolveType _ _).bind fun of => (tracks_instantiateType _ _).bind fun array => ?_
  have hlast := h.setType n array
  simp only
  split
  · refine Flow.tracks_types.bind fun t => (Flow.tracks_newNode _).bind fun element => ?_
    exact (Flow.tracks_freeze _ _).bind fun _ => (h.checkElements _ _).bind fun _ => hlast
  · exact hlast

theorem visitArray {n : Placed} (hn : n.loc.isSome) {elements : List Placed}
    (helements : ∀ t ∈ elements, t.Located Mark.loc) (s : ScopeId) (of : Option TypeExpr) :
    Tracks x (Locatable x) (e.visitArray s n elements of) := by
  refine (h.visitAll helements s).bind fun _ => ?_
  split
  · exact h.visitArrayOf _ _ _ _
  · split
    · exact .throw (Failure.locatable_malformed hn)
    · refine (tracks_nodeOf n).bind fun id => (Tracks.changeGraph _).bind fun _ => ?_
      exact (tracks_nodesOf _).bind fun _ => h.connect _ _

/-! ### Variables -/

theorem initVar (id : NodeId) (read : Bool) : Tracks x (Locatable x) (e.initVar id read) := by
  unfold Engine.initVar
  split
  · exact (h.connect _ _).bind fun _ => .pure _
  · exact .pure _

theorem ivarNode (owner : TypeId) (name : String) (read : Bool) :
    Tracks x (Locatable x) (e.ivarNode owner name read) := by
  refine tracks_env.bind fun env => ?_
  split
  · exact .pure _
  · refine Flow.tracks_types.bind fun t => (Flow.tracks_newNode _).bind fun id => ?_
    refine (Tracks.changeGraph _).bind fun _ => (Tracks.onTypes _).bind fun _ => ?_
    exact .bind (.changeBeside fun _ => rfl) fun _ => h.initVar _ _

theorem classVarNode (s : ScopeId) (name : String) (read : Bool) :
    Tracks x (Locatable x) (e.classVarNode s name read) := by
  refine (tracks_scope s).bind fun sc => Flow.tracks_types.bind fun t => ?_
  split
  · exact tracks_undefined _ _
  · refine tracks_env.bind fun env => ?_
    split
    · exact .pure _
    · refine (Flow.tracks_newNode _).bind fun id => ?_
      exact .bind (.changeBeside fun _ => rfl) fun _ => h.initVar _ _

theorem globalNode (name : String) (read : Bool) : Tracks x (Locatable x) (e.globalNode name read) := by
  refine tracks_env.bind fun env => ?_
  split
  · exact .pure _
  · refine (Flow.tracks_newNode _).bind fun id => ?_
    exact .bind (.changeBeside fun _ => rfl) fun _ => h.initVar _ _

theorem visitLocal (s : ScopeId) (n : Placed) (name : String) (out : Bool) :
    Tracks x (Locatable x) (e.visitLocal s n name out) := by
  unfold Engine.visitLocal
  split
  · exact (tracks_dropViews _ _).bind fun _ => (tracks_declare _ _).bind fun _ => h.bind _ _
  · refine tracks_env.bind fun env => ?_
    split
    · exact h.bind _ _
    · exact tracks_undefined _ _

theorem visitIVar (s : ScopeId) (n : Placed) (name : String) (out : Bool) :
    Tracks x (Locatable x) (e.visitIVar s n name out) :=
  (tracks_ivarOwner s).bind fun _ => (h.ivarNode _ _ _).bind fun _ => h.bind _ _

theorem visitClassVar (s : ScopeId) (n : Placed) (name : String) : Tracks x (Locatable x) (e.visitClassVar s n name) :=
  (h.classVarNode _ _ _).bind fun _ => h.bind _ _

theorem visitGlobal (n : Placed) (name : String) : Tracks x (Locatable x) (e.visitGlobal n name) :=
  (h.globalNode _ _).bind fun _ => h.bind _ _

theorem visitPath (s : ScopeId) (n : Placed) (names : List String) (typeArgs : List TypeExpr) :
    Tracks x (Locatable x) (e.visitPath s n names typeArgs) := by
  refine (tracks_lookupPath _ _ _).bind fun id => Flow.tracks_types.bind fun t => ?_
  split
  · exact h.bind _ _
  · exact h.setType _ _
  · exact (Tracks.onTypes _).bind fun _ => h.setType _ _

section

variable {value : Option Placed} (hvalue : ∀ t ∈ value, t.Fits Mark.loc)
include hvalue

theorem assignTarget (s : ScopeId) (target : Placed) : Tracks x (Locatable x) (e.assignTarget s target value) := by
  have hvalue := h.visitValue hvalue s
  unfold Engine.assignTarget
  split
  · exact hvalue.bind fun _ => (tracks_dropViews _ _).bind fun _ => (tracks_declare _ _).bind fun _ => .pure _
  · refine ((tracks_ivarOwner s).locating _).bind fun owner => hvalue.bind fun _ => ?_
    exact (h.ivarNode _ _ _).bind fun _ => .pure _
  · exact ((h.classVarNode _ _ _).locating _).bind fun id => hvalue.bind fun _ => .pure _
  · exact hvalue.bind fun _ => (h.globalNode _ _).bind fun _ => .pure _
  · exact .pure _

theorem declareConst {target : Placed} (htarget : target.loc.isSome) (s : ScopeId) (n : Placed) (names : List String) :
    Tracks x (Locatable x) (e.declareConst s n target names value) := by
  unfold Engine.declareConst
  split
  · refine (tracks_scope s).bind fun sc => Flow.tracks_types.bind fun t => ?_
    simp only
    split
    · exact tracks_undefined _ _
    · refine (tracks_newScope _).bind fun inner => (h.visitValue hvalue _).bind fun _ => ?_
      refine (tracks_nodeOrNil _).bind fun id => (Tracks.onTypes _).bind fun _ => ?_
      exact (tracks_setAssigned _ _).bind fun _ => h.bind _ _
  · exact .throw (Failure.locatable_malformed htarget)

theorem visitAssign {n target : Placed} (hn : n.loc.isSome) (htarget : target.Fits Mark.loc) (s : ScopeId) :
    Tracks x (Locatable x) (e.visitAssign s n target value) := by
  unfold Engine.visitAssign
  split
  · rename_i names typeArgs hform
    -- a path is no variable, so it is located
    have hlocated : target.Located Mark.loc := htarget.resolve_right (by simp [Tree.kind, hform, Form.kind])
    exact h.declareConst hvalue hlocated.isSome _ _ _
  · refine (h.assignTarget hvalue _ _).bind fun found => ?_
    split
    · exact .throw (Failure.locatable_malformed hn)
    · refine (tracks_setAssigned _ _).bind fun _ => (tracks_nodeOrNil _).bind fun v => ?_
      exact ((h.connect _ _).locating _).bind fun _ => h.bind _ _

end

/-! ### Branches and loops -/

theorem views (s : ScopeId) (ns : List Narrowing) : Tracks x (Locatable x) (e.views s ns) := by
  induction ns with
  | nil => exact .pure _
  | cons n ns ih =>
    refine tracks_env.bind fun env => ?_
    split
    · exact ih
    · refine (Flow.tracks_newNode _).bind fun id => (Tracks.changeGraph _).bind fun _ => ?_
      exact (h.connect _ _).bind fun _ => ih.bind fun _ => .pure _

theorem narrowing {branch : Option Placed} (hbranch : ∀ t ∈ branch, t.Located Mark.loc) (s : ScopeId)
    (ns : List Narrowing) : Tracks x (Locatable x) (e.narrowing s ns branch) := by
  refine (h.views s ns).bind fun layer => (tracks_changeScope _ _).bind fun _ => ?_
  refine (h.visitOption hbranch s).attempt.bind fun outcome houtcome => (tracks_changeScope _ _).bind fun _ => ?_
  split
  · exact .pure _
  · exact .throw houtcome

theorem branches {cond truthy falsy : Option Placed} (hcond : ∀ t ∈ cond, t.Located Mark.loc)
    (htruthy : ∀ t ∈ truthy, t.Located Mark.loc) (hfalsy : ∀ t ∈ falsy, t.Located Mark.loc) (s : ScopeId) :
    Tracks x (Locatable x) (e.branches s cond truthy falsy) := by
  refine (h.visitOption hcond s).bind fun _ => (tracks_filtersOf _ _).bind fun ns => ?_
  have hlast := h.visitOption hfalsy s
  simp only
  split
  · exact (h.narrowing htruthy _ _).bind fun _ => hlast
  · exact hlast

section

variable {cond yes no : Option Placed} (hcond : ∀ t ∈ cond, t.Located Mark.loc)
  (hyes : ∀ t ∈ yes, t.Located Mark.loc) (hno : ∀ t ∈ no, t.Located Mark.loc)
include hcond hyes hno

theorem visitIf (s : ScopeId) (n : Placed) : Tracks x (Locatable x) (e.visitIf s n cond yes no) :=
  (h.branches hcond hyes hno s).bind fun _ => (tracks_nodeOrNil _).bind fun _ =>
    (tracks_nodeOrNil _).bind fun _ => h.bind _ _

theorem visitUnless (s : ScopeId) (n : Placed) : Tracks x (Locatable x) (e.visitUnless s n cond yes no) :=
  (h.branches hcond hno hyes s).bind fun _ => (tracks_nodeOrNil _).bind fun _ =>
    (tracks_nodeOrNil _).bind fun _ => h.bind _ _

end

theorem clauses {whens : List (When Placed)}
    (hwhens : ∀ w ∈ whens, (∀ t ∈ w.conds.getD [], t.Located Mark.loc) ∧ ∀ t ∈ w.body, t.Located Mark.loc) (s : ScopeId)
    (subject : Option Placed) : Tracks x (Locatable x) (e.clauses s subject whens) := by
  induction whens with
  | nil => exact .pure _
  | cons w whens ih =>
    obtain ⟨⟨hconds, hbody⟩, hwhens⟩ := List.forall_mem_cons.mp hwhens
    refine (h.visitAll hconds s).bind fun _ => (tracks_clauseFilters _ _ _).bind fun ns => ?_
    refine (h.narrowing hbody _ _).bind fun _ => ?_
    exact (tracks_nodeOrNil _).bind fun value => (ih hwhens).bind fun _ => .pure _

theorem visitCase {subject no : Option Placed} {whens : List (When Placed)}
    (hsubject : ∀ t ∈ subject, t.Located Mark.loc)
    (hwhens : ∀ w ∈ whens, (∀ t ∈ w.conds.getD [], t.Located Mark.loc) ∧ ∀ t ∈ w.body, t.Located Mark.loc)
    (hno : ∀ t ∈ no, t.Located Mark.loc) (s : ScopeId) (n : Placed) :
    Tracks x (Locatable x) (e.visitCase s n subject whens no) := by
  refine (h.visitOption hsubject s).bind fun _ => (h.clauses hwhens _ _).bind fun values => ?_
  exact (h.visitOption hno s).bind fun _ => (tracks_nodeOrNil _).bind fun _ => h.bind _ _

theorem loopBody {body : Option Placed} (hbody : ∀ t ∈ body, t.Located Mark.loc) (s : ScopeId) (target : NodeId) :
    Tracks x (Locatable x) (e.loopBody s target body) := by
  refine (tracks_changeScope _ _).bind fun _ => (h.visitOption hbody s).attempt.bind fun outcome houtcome => ?_
  refine (tracks_scope s).bind fun sc => (tracks_changeScope _ _).bind fun _ => ?_
  split
  · exact .pure _
  · exact .throw houtcome

theorem visitWhile {cond body : Option Placed} (hcond : ∀ t ∈ cond, t.Located Mark.loc)
    (hbody : ∀ t ∈ body, t.Located Mark.loc) (s : ScopeId) (n : Placed) :
    Tracks x (Locatable x) (e.visitWhile s n cond body) := by
  refine (h.visitOption hcond s).bind fun _ => (tracks_nodeOf n).bind fun target => ?_
  refine (h.loopBody hbody _ _).bind fun broke => ?_
  split
  · exact h.setType _ _
  · exact h.bind _ _

section

variable {n : Placed} (hn : n.loc.isSome) {value : Option Placed} (hvalue : ∀ t ∈ value, t.Located Mark.loc)
include hn hvalue

theorem visitReturn (s : ScopeId) : Tracks x (Locatable x) (e.visitReturn s n value) := by
  refine (tracks_scope s).bind fun sc => ?_
  split
  · exact .throw (Failure.locatable_malformed hn)
  · refine (h.visitOption hvalue s).bind fun _ => (tracks_instanceOf _).bind fun inst => ?_
    exact (tracks_nodeOrNil _).bind fun v => (h.connect _ _).bind fun _ => h.setType _ _

theorem visitBreak (s : ScopeId) : Tracks x (Locatable x) (e.visitBreak s n value) := by
  refine (tracks_scope s).bind fun sc => ?_
  split
  · exact .throw (Failure.locatable_malformed hn)
  · refine (h.visitOption hvalue s).bind fun _ => (tracks_noteBreak s).bind fun _ => ?_
    refine (tracks_scope s).bind fun sc => ?_
    split
    · exact .pure _
    · exact (tracks_nodeOrNil _).bind fun v => (h.connect _ _).bind fun _ => h.setType _ _

end

/-! ### Blocks -/

theorem bindBlockParams (params args : List NodeId) : Tracks x (Locatable x) (e.bindBlockParams params args) := by
  induction params generalizing args with
  | nil => exact .pure _
  | cons p params ih =>
    cases args with
    | nil => exact (h.connect _ _).bind fun _ => ih []
    | cons a args => exact (h.connect _ _).bind fun _ => ih args

theorem typeBlock {block : Block Mark Placed} (hblock : ∀ t ∈ block.body, t.Located Mark.loc) (s : ScopeId) :
    Tracks x (Locatable x) (e.typeBlock s block) := by
  refine (h.visitOption hblock s).bind fun _ => (tracks_nodeOf _).bind fun id => ?_
  exact (tracks_nodeOrNil _).bind fun _ => (h.connect _ _).locating _

theorem yieldTo {bc : BlockContext} (hblock : ∀ t ∈ bc.block.body, t.Located Mark.loc) (b : Nat) (args : List NodeId) :
    Tracks x (Locatable x) (e.yieldTo b bc args) := by
  unfold Engine.yieldTo
  split
  · exact h.bindBlockParams _ _
  · refine (tracks_openBlockScope _ _).bind fun opened => (h.bindBlockParams _ _).bind fun _ => ?_
    exact (tracks_nodeOf _).bind fun _ => h.typeBlock hblock _

theorem visitYield {n : Placed} (hn : n.loc.isSome) {args : List Placed} (hargs : ∀ t ∈ args, t.Located Mark.loc)
    (s : ScopeId) : Tracks x (Locatable x) (e.visitYield s n args) := by
  refine (tracks_scope s).bind fun sc => ?_
  split
  · exact .throw (Failure.locatable_malformed hn)
  · refine (h.visitAll hargs s).bind fun _ => tracksTo_env.bind fun env henv => ?_
    split
    · exact Tracks.pure _
    · rename_i bc hbc
      refine (tracks_nodesOf _).bind fun nodes => ?_
      refine (h.yieldTo (henv.blocks bc (Array.mem_of_getElem? hbc)) _ _).bind fun _ => ?_
      exact (tracks_nodeOf _).bind fun _ => h.bind _ _

/-! ### Macros -/

/-- An expansion is typed in the place of its call, whose failure says what was expanded. -/
theorem typeExpansion {P : Program → Prop} {s : ScopeId} {tree : Placed}
    (htree : TracksFrom P x (Points x) (fun _ => True) (e.visit s tree)) (n : Placed) {loc : Option Location}
    (hloc : loc.isSome) (name text : String) : TracksFrom P x (Locatable x) (fun _ => True) (do
      match ← Flow.attempt (e.visit s tree) with
      | .error f => throw (.expanding loc name text f)
      | .ok _ => e.bind n [← nodeOf tree]) := by
  refine htree.attempt.bind fun outcome houtcome => ?_
  split
  · exact .throw (Failure.Points.locatable ⟨hloc, .inl houtcome⟩)
  · exact (tracks_nodeOf _).bind fun _ => h.bind _ _

theorem visitMacro {call : CallParts} (hcall : call.mark.loc.isSome) (s : ScopeId) (n : Placed) (d : MacroDefinition) :
    Tracks x (Locatable x) (e.visitMacro s n call d) := by
  refine tracks_env.bind fun env => (tracksTo_expansionAt _ _).bind fun y hy => ?_
  let f (tree : Placed) (note : Note) : Note := { note with expansion := some tree }
  have hnote : ∀ tree, Tracks x (Locatable x) (changeNote call.mark.occ (f tree)) :=
    fun tree => tracks_changeNote _ fun _ hn => ⟨hn.added, hn.conversions⟩
  rcases hy with hempty | hlocated
  · -- the tree of an empty expansion is new, and has no node before it is typed
    intro p hp
    let tree : Placed := .node ⟨none, p.env.notes.size⟩ .nop
    have hplace : (place y.tree).run.run p = (.ok tree, p.opened 1) := hempty ▸ run_place_nop p
    rw [Flow.Ends, Flow.run_bind_of_ok hplace]
    obtain ⟨hq, -⟩ := hnote tree (p.opened 1) (hp.opened 1)
    have hnode := (node_modify (p.opened 1).env call.mark.occ p.env.notes.size (f := f tree) fun _ => rfl).trans
      (node_opened p)
    exact h.typeExpansion (h.empty s ⟨none, p.env.notes.size⟩) n hcall _ _ _ hnode hq
  · refine (tracksTo_place_located hlocated).bind fun tree htree => (hnote tree).bind fun _ => ?_
    exact fun p => h.typeExpansion ((h.located s tree htree).from fun _ => True) n hcall _ _ p True.intro

/-! ### Declarations -/

section

variable {n : Placed} (hn : n.loc.isSome)
include hn

theorem visitMethodDef {d : Definition} (hd : d.Located) (s : ScopeId) (receiver : String) :
    Tracks x (Locatable x) (e.visitMethodDef s n receiver d) := by
  refine (tracks_methodOwner _ _).bind fun owner => Flow.tracks_types.bind fun t => ?_
  split
  · exact .throw (Failure.locatable_malformed hn)
  · exact (tracks_addMethod _ fun _ => hd).bind fun _ => h.setType _ _

omit hn in
theorem visitBody {body : Option Placed} (hbody : ∀ t ∈ body, t.Located Mark.loc) (home : TypeId) :
    Tracks x (Locatable x) (e.visitBody home body) :=
  (Tracks.onTypes _).bind fun _ => (tracks_newScope _).bind fun _ => h.visitOption hbody _

omit hn in
theorem visitClassDef {body : Option Placed} (hbody : ∀ t ∈ body, t.Located Mark.loc) (s : ScopeId) (n : Placed)
    (name : String) (superclass : Option (PathRef Mark)) (typeParams : List String) :
    Tracks x (Locatable x) (e.visitClassDef s n name superclass typeParams body) := by
  refine (tracks_superclassOf _ _).bind fun super => (tracks_declareClass _ _ _ _).bind fun id => ?_
  exact (h.visitBody hbody _).bind fun _ => h.setType _ _

omit hn in
theorem visitModuleDef {body : Option Placed} (hbody : ∀ t ∈ body, t.Located Mark.loc) (s : ScopeId) (n : Placed)
    (name : String) : Tracks x (Locatable x) (e.visitModuleDef s n name body) :=
  (tracks_declareModule _ _).bind fun _ => (h.visitBody hbody _).bind fun _ => h.setType _ _

theorem visitInclude (s : ScopeId) (names : List String) (typeArgs : List TypeExpr) :
    Tracks x (Locatable x) (e.visitInclude s n names typeArgs) := by
  refine (tracks_scope s).bind fun sc => Flow.tracks_types.bind fun t => ?_
  split
  · exact .throw (Failure.locatable_malformed hn)
  · refine (tracks_lookupPath _ _ _).bind fun id => Flow.tracks_types.bind fun t => ?_
    split
    · exact (Tracks.onTypes _).bind fun _ => h.setType _ _
    · exact .throw (Failure.locatable_mismatch _)

theorem visitMacroDef (name : String) (params : Option (List String)) (body : Option Placed) :
    Tracks x (Locatable x) (e.visitMacroDef n name params body) := by
  unfold Engine.visitMacroDef
  split
  · exact .throw (Failure.locatable_malformed hn)
  · exact .bind (.changeBeside fun _ => rfl) fun _ => h.setType _ _

theorem visitLibDef {body : List Placed} (hbody : ∀ t ∈ body, t.Located Mark.loc) (s : ScopeId) (name : String) :
    Tracks x (Locatable x) (e.visitLibDef s n name body) := by
  refine (tracks_scope s).bind fun sc => ?_
  simp only
  split
  · exact Flow.tracks_types.bind fun _ => .throw (Failure.locatable_malformed hn)
  · refine (tracks_declareLib _).bind fun lib => (tracks_newScope _).bind fun inner => ?_
    exact (h.visitAll hbody _).bind fun _ => h.setType _ _

theorem visitFunDef {params : List (Param Source)} (hparams : ∀ p ∈ params, ∀ c ∈ p.fallback, c.Located id)
    (s : ScopeId) (name : String) (result : Option TypeExpr) (varargs : Bool) :
    Tracks x (Locatable x) (e.visitFunDef s n name params result varargs) := by
  refine (tracks_currentLib _ _ hn).bind fun lib => (tracks_checkFunParams _ _ hn _).bind fun _ => ?_
  extract_lets k
  have hk : ∀ u, Tracks x (Locatable x) (k u) := by
    intro u
    refine (tracks_newMethod fun _ => ⟨hn, fun b hb => absurd hb (Option.not_mem_none b), hparams⟩).bind fun id => ?_
    exact .bind (.changeBeside fun _ => rfl) fun _ => h.setType _ _
  split
  · exact (tracks_resolveIn _ _).bind fun _ => hk ()
  · exact hk ()

theorem visitStructDef (s : ScopeId) (name : String) (isUnion : Bool) (members : List (Param Source)) :
    Tracks x (Locatable x) (e.visitStructDef s n name isUnion members) := by
  refine (tracks_currentLib _ _ hn).bind fun lib => Flow.tracks_types.bind fun t => ?_
  simp only
  split
  · exact .throw (Failure.locatable_mismatch _)
  · refine (Tracks.onTypes _).bind fun id => (tracks_addMembers _ _ _ hn _).bind fun _ => ?_
    refine (Tracks.onTypes _).bind fun self => (tracks_addMethod _ False.elim).bind fun _ => ?_
    exact Flow.tracks_types.bind fun t => (tracks_addAccessors _ _ _).bind fun _ => h.setType _ _

theorem visitTypeDef (s : ScopeId) (name : String) (type : Option TypeExpr) :
    Tracks x (Locatable x) (e.visitTypeDef s n name type) := by
  refine (tracks_currentLib _ _ hn).bind fun lib => ?_
  split
  · exact .throw (Failure.locatable_malformed hn)
  · refine (tracks_resolveIn _ _).bind fun t => Flow.tracks_types.bind fun types => ?_
    exact (Tracks.onTypes _).bind fun _ => h.setType _ _

end

/-! ### Foreign calls -/

theorem convert (node : NodeId) (i : Nat) : Tracks x (Locatable x) (e.convert node i) := by
  refine (tracksTo_site? node).bind fun site hsite => ?_
  split
  · exact Tracks.pure _
  · rename_i site
    split
    · exact Tracks.pure _
    · refine Tracks.bind (tracks_changeSite _ fun _ => rfl) fun _ => ?_
      split
      · exact .pure _
      · rename_i arg harg
        -- the conversion has the location of the argument
        have hloc : arg.loc.isSome := (hsite site rfl).args arg (List.mem_of_getElem? harg)
        refine (tracksTo_freshMark _).bind fun mark hmark => ?_
        have hmark : mark.loc.isSome := hmark ▸ hloc
        refine Tracks.bind (tracks_changeNote _ fun n hn => ⟨hn.added, ?_⟩) fun _ => ?_
        · exact List.forall_mem_append.mpr ⟨hn.conversions, List.forall_mem_singleton.mpr hmark⟩
        · refine (tracks_newSite ⟨hmark, List.forall_mem_nil _, fun b hb => ?_⟩ _ _).bind fun _ => h.recalculate _
          exact absurd hb (Option.not_mem_none b)

theorem checkArgs (site : Site) (lib : TypeId) (i : Nat) (params : List NodeId) (args : List TypeId) :
    Tracks x (Locatable x) (e.checkArgs site lib i params args) := by
  induction params generalizing i args with
  | nil => exact .pure _
  | cons p params ih =>
    cases args with
    | nil => exact .pure _
    | cons a args =>
      refine (Flow.tracks_typeOf _).bind fun expected => Flow.tracks_types.bind fun t => ?_
      split
      · exact ih _ _
      · split
        · exact (h.convert _ _).bind fun _ => ih _ _
        · exact (tracksTo_wrongArgument _ _ _ _ _).bind fun f hf => .throw hf

theorem convertRest (site : Site) (i : Nat) (args : List TypeId) :
    Tracks x (Locatable x) (e.convertRest site i args) := by
  induction args generalizing i with
  | nil => exact .pure _
  | cons a args ih =>
    unfold Engine.convertRest
    simp only
    split
    · exact (h.convert _ _).bind fun _ => ih _
    · exact ih _

theorem callFun (site : Site) (lib : TypeId) (args : List TypeId) (id : MethodId) :
    Tracks x (Locatable x) (e.callFun site lib args id) := by
  refine (tracks_method id).bind fun m => ?_
  simp only
  split
  · exact Flow.tracks_types.bind fun _ => .throw (Failure.locatable_arity _ _ _)
  · refine (tracks_externalId id).bind fun i => (tracks_instanceOf _).bind fun inst => ?_
    refine (h.checkArgs _ _ _ _ _).bind fun _ => ?_
    split
    · exact (h.convertRest _ _ _).bind fun _ => .pure _
    · exact .pure _

theorem funCall (site : Site) (lib : TypeId) (args : List TypeId) :
    Tracks x (Locatable x) (e.funCall site lib args) := by
  refine (tracks_fun? _ _).bind fun found => ?_
  split
  · exact Flow.tracks_types.bind fun _ => .throw (Failure.locatable_undefined _ _)
  · exact h.callFun _ _ _ _

theorem outTarget (site : Site) (arg : Placed) : Tracks x (Locatable x) (e.outTarget site arg) := by
  unfold Engine.outTarget
  split
  · exact tracks_declare _ _
  · exact (tracks_scope _).bind fun _ => h.ivarNode _ _ _
  · exact .pure _

theorem bindOuts (site : Site) (lib : TypeId) (id : MethodId) (i : Nat) (params : List (Param Source))
    (args : List Placed) : Tracks x (Locatable x) (e.bindOuts site lib id i params args) := by
  induction params generalizing i args with
  | nil => exact .pure _
  | cons p params ih =>
    cases args with
    | nil => exact .pure _
    | cons arg args =>
      unfold Engine.bindOuts
      simp only
      split
      · refine (h.outTarget _ _).bind fun target => ?_
        split
        · exact Flow.tracks_types.bind fun _ => (tracks_method _).bind fun _ => .throw (Failure.locatable_mismatch _)
        · exact (tracks_external id).bind fun _ => (h.connect _ _).bind fun _ => ih _ _
      · exact ih _ _

theorem bindOutArgs (site : Site) (lib : TypeId) : Tracks x (Locatable x) (e.bindOutArgs site lib) := by
  refine (tracks_fun? _ _).bind fun found => ?_
  split
  · exact .pure _
  · refine .bind (tracks_changeSite _ fun _ => rfl) fun _ => (tracks_method _).bind fun m => ?_
    exact h.bindOuts _ _ _ _ _ _

/-! ### Instances -/

theorem typePrimitive (id : InstanceId) : Tracks x (Locatable x) (e.typePrimitive id) := by
  refine (tracks_instanceOf id).bind fun inst => (tracks_method _).bind fun m => ?_
  extract_lets d k
  have hk : ∀ result, Tracks x (Locatable x) (k result) := by
    refine fun result => (tracksTo_write id _).tracks.bind fun body => ?_
    exact (h.setType _ _).bind fun _ => Flow.tracks_freeze _ _
  split
  · exact (Tracks.pure _).bind hk
  · exact ((tracks_resolveDeclared _ _).locating _).bind hk

theorem bindParams (s : ScopeId) (params : List (Param Source × TypeId)) :
    TracksFrom (fun p => ∃ sc, Program.Opens p s sc) x F (fun _ => True) (e.bindParams s params) := by
  have htracks : ∀ params, Tracks x (Locatable x) (e.bindParams s params) := by
    intro params
    induction params with
    | nil => exact .pure _
    | cons q params ih =>
      refine Flow.tracks_types.bind fun t => (Flow.tracks_newNode _).bind fun arg => (h.assign _ _).bind fun _ => ?_
      exact (tracks_declare _ _).bind fun var => (h.connect _ _).bind fun _ => ih
  rintro p ⟨sc, hs⟩ hp
  -- the parameters are bound, so what a failure would look like does not matter
  obtain ⟨p', hrun⟩ := e.run_bindParams hs params
  have hlocated := ((htracks params).of_run hp hrun).1
  rw [Flow.Ends, hrun]
  exact ⟨hlocated, True.intro⟩

theorem typeBody (node : NodeId) (id : InstanceId) :
    TracksFrom (·.env.Bodied id) x (Points x) (fun _ => True) (e.typeBody node id) := by
  rintro p ⟨inst, m, hinst, hm, hkind⟩ hp
  have hd : m.definition.Located := hp.methods m (Array.mem_of_getElem? hm) hkind
  have hinstance : (instanceOf id).run.run p = (.ok inst, p) := by
    rw [show (instanceOf id).run.run p = (.ok ((p.env.instances[id]?).getD _), p) from rfl, hinst]
    rfl
  rw [Flow.Ends, Engine.typeBody, Flow.run_bind_of_ok hinstance, Flow.run_bind_of_ok (run_method hm)]
  refine (tracksTo_writeBody id hd _).bind (fun body hbody => ?_) p hp
  intro q hq
  refine ((tracks_openBody _ _ _ _).from fun _ => True).andThen (S := fun s p => ∃ sc, p.Opens s sc)
    (fun p s p' _ hrun => run_openBody hrun) (fun s _ => ?_) q True.intro hq
  refine (h.bindParams s _).bind fun _ _ => (tracks_freezeResult inst hd.loc).bind fun _ => ?_
  exact (h.located s body hbody).bind fun _ => (tracks_nodeOf body).bind fun _ => (h.connect _ _).located hd.loc

theorem typeNested (node : NodeId) {loc : Option Location} (hloc : loc.isSome) (id : InstanceId) :
    TracksFrom (·.env.Bodied id) x (Locatable x) (fun _ => True) (e.typeNested node loc id) := by
  have hdepth : ∀ f : Nat → Nat, Tracks x (Locatable x) (changeEnv fun env => { env with depth := f env.depth }) :=
    fun f => .changeBeside fun _ => rfl
  refine ((hdepth (· + 1)).from _).andThen (S := fun _ p => p.env.Bodied id) ?_ fun _ _ => ?_
  · rintro p _ p' hbodied hrun
    cases hrun
    exact hbodied
  refine (h.typeBody node id).attempt.bind fun outcome houtcome => (hdepth (· - 1)).bind fun _ => ?_
  split
  · exact .pure _
  · exact (tracks_instanceOf _).bind fun _ => .throw (Failure.Points.locatable ⟨hloc, houtcome⟩)

theorem typeInstance {site : Site} (hsite : site.call.Located) (id : InstanceId) (kind : MethodKind) :
    TracksFrom (fun p => kind.HasBody → p.env.Bodied id) x (Locatable x) (fun _ => True)
      (e.typeInstance site id kind) := by
  cases kind with
  | primitive => exact (h.typePrimitive id).from _
  | getter t => exact (tracks_typeMember _ _ _).from _
  | setter t => exact (tracks_typeMember _ _ _).from _
  | user => exact fun p hp => h.typeNested _ hsite.mark id p (hp True.intro)
  | external varargs => exact fun p hp => h.typeNested _ hsite.mark id p (hp True.intro)

theorem instantiate {site : Site} (hsite : site.call.Located) (owner : TypeId) (m : Match MethodId) :
    Tracks x (Locatable x) (e.instantiate site owner m) := by
  intro p hp
  -- a method whose bodies are typed is there, before and after its instance is made
  let Known (method : Method) (p : Program) : Prop :=
    method.kind.HasBody → p.env.methods[m.candidate.id]? = some method
  let Made (method : Method) (inst : InstanceId) (p : Program) : Prop := method.kind.HasBody → p.env.Bodied inst
  refine ((tracks_method m.candidate.id).from fun _ => True).andThen (S := Known) ?_ (fun method _ => ?_)
    p True.intro hp
  · rintro p _ p' - ⟨⟩ hkind
    cases hm : p.env.methods[m.candidate.id]? with
    | none =>
      rw [hm] at hkind
      exact hkind.elim
    | some method => rfl
  simp only
  split
  · exact (Tracks.pure _).from _
  · refine (tracks_env.from _).andThen (S := fun _ => Known method) ?_ fun env _ => ?_
    · rintro p _ p' hknown ⟨⟩
      exact hknown
    split
    · exact (Flow.tracks_types.bind fun _ => Tracks.throw (Failure.locatable_plain _)).from _
    · refine ((tracks_newInstance _ _ _ _).from _).andThen (S := Made method) ?_ fun inst _ => ?_
      · intro p _ p' hknown hrun hkind
        rw [run_newInstance] at hrun
        cases hrun
        exact ⟨_, method, Array.getElem?_push_size, hknown hkind, hkind⟩
      have hlast : TracksFrom (Made method inst) x (Locatable x) (fun _ => True) (do
          e.typeInstance site inst method.kind
          return inst) :=
        (h.typeInstance hsite inst method.kind).bind fun _ _ => Tracks.pure _
      split
      · refine .andThen (S := fun _ => Made method inst) ((tracks_changeMethod _ ?_ ?_).from _) ?_ fun _ _ => hlast
        · exact fun _ => rfl
        · exact fun _ => rfl
        rintro p _ p' hmade ⟨⟩ hkind
        exact (hmade hkind).modifyMethod _ fun _ => rfl
      · exact hlast

/-! ### Dispatches -/

theorem placeholder {loc : Option Location} (hloc : loc.isSome) (name : String) (t : TypeId) :
    TracksTo x (Locatable x) (fun v : Placed => v.loc.isSome) (e.placeholder name loc t) := by
  refine (tracksTo_freshMark loc).bind fun mark hmark => (h.setType _ t).bindTo fun _ => .pure ?_
  have hv : mark.loc.isSome := hmark ▸ hloc
  exact hv

theorem placeholders {loc : Option Location} (hloc : loc.isSome) (i : Nat) (ts : List TypeId) :
    TracksTo x (Locatable x) (fun vs : List Placed => ∀ v ∈ vs, v.loc.isSome) (e.placeholders loc i ts) := by
  induction ts generalizing i with
  | nil => exact .pure (List.forall_mem_nil _)
  | cons t ts ih =>
    refine (h.placeholder hloc _ t).bind fun v hv => (ih (i + 1)).bind fun vs hvs => .pure ?_
    exact List.forall_mem_cons.mpr ⟨hv, hvs⟩

section

variable {site : Site} (hsite : site.call.Located)
include hsite

theorem receiverPlaceholder (t : TypeId) : Tracks x (Locatable x) (e.receiverPlaceholder site t) := by
  unfold Engine.receiverPlaceholder
  split
  · exact .pure _
  · exact (h.placeholder hsite.mark _ t).bind fun _ _ => Tracks.pure _

/-- A subcall is at the call that it is one of. -/
theorem subcallFor (shape : List TypeId) :
    TracksTo x (Locatable x) CallParts.Located (e.subcallFor site shape) := by
  refine (tracksTo_freshMark _).bind fun mark hmark => (h.receiverPlaceholder hsite _).bindTo fun obj => ?_
  refine (h.placeholders hsite.mark 0 _).bind fun args hargs => (tracksTo_blockCopy hsite).bind fun block hblock => ?_
  exact .pure ⟨hmark ▸ hsite.mark, hargs, hblock⟩

theorem subcall (d : Nat) (shape : List TypeId) : Tracks x (Locatable x) (e.subcall site d shape) := by
  refine (h.subcallFor hsite shape).bind fun call hcall => (tracks_changeDispatch _ _).bind fun _ => ?_
  refine (tracks_newSite hcall _ _).bind fun node => (h.recalculate node).bind fun _ => ?_
  exact (tracks_dispatchNode d).bind fun _ => h.connect _ _

theorem subcalls (d : Nat) (shapes : List (List TypeId)) : Tracks x (Locatable x) (e.subcalls site d shapes) := by
  induction shapes with
  | nil => exact .pure _
  | cons shape shapes ih =>
    refine (tracks_addShape d shape).bind fun new => ?_
    split
    · exact (h.subcall hsite d shape).bind fun _ => ih
    · exact ih

theorem dispatch (recvs args : List TypeId) : Tracks x (Locatable x) (e.dispatch site recvs args) := by
  refine (tracks_shapesForAll hsite.mark _ _).bind fun shapes => (tracks_openDispatch _ _).bind fun d => ?_
  exact (h.subcalls hsite d shapes).bind fun _ => (tracks_dispatchNode d).bind fun _ => .pure _

/-! ### Resolving calls -/

theorem resolveSingle (recv : TypeId) (args : List TypeId) :
    Tracks x (Locatable x) (e.resolveSingle site recv args) := by
  refine (tracks_matchCall hsite.mark _ _).bind fun ⟨owner, ms⟩ => ?_
  simp only
  split
  · exact h.dispatch hsite _ _
  · split
    · exact .pure _
    · exact (h.instantiate hsite _ _).bind fun i => (tracks_instanceOf i).bind fun _ => .pure _

theorem resolveCall (recv : TypeId) (args : List TypeId) : Tracks x (Locatable x) (e.resolveCall site recv args) := by
  refine Flow.tracks_types.bind fun t => ?_
  split
  · exact h.funCall _ _ _
  · split
    · exact h.resolveSingle hsite _ _
    · exact h.dispatch hsite _ _

omit hsite in
theorem prepare (site : Site) (recv : TypeId) : Tracks x (Locatable x) (e.prepare site recv) := by
  refine Flow.tracks_types.bind fun t => ?_
  split
  · exact (h.bindOutArgs site recv).locating _
  · exact .pure _

end

theorem retarget (node : NodeId) (loc : Option Location) (occ : Nat) (nodes : List NodeId) (targets : List Target) :
    Tracks x (Locatable x) (e.retarget node loc occ nodes targets) := by
  refine (tracks_site? node).bind fun site => (Tracks.changeGraph _).bind fun _ => ?_
  refine .bind (tracks_changeSite node fun _ => rfl) fun _ => ?_
  exact .bind (tracks_changeNote occ fun _ hn => ⟨hn.added, hn.conversions⟩) fun _ => (h.connect _ _).locating _

theorem resolveFor (node : NodeId) (recv : TypeId) (args : List TypeId) :
    Tracks x (Locatable x) (e.resolveFor node recv args) := by
  refine (tracksTo_site? node).bind fun site? hsite => ?_
  split
  · exact Tracks.pure _
  · rename_i site
    simp only
    split
    · exact Tracks.pure _
    · refine Tracks.bind (tracks_changeSite node fun _ => rfl) fun _ => ?_
      exact ((h.resolveCall (hsite site rfl) recv args).locating _).bind fun _ => h.retarget _ _ _ _ _

theorem resolveSite (node : NodeId) : Tracks x (Locatable x) (e.resolveSite node) := by
  refine (tracks_site? node).bind fun site => ?_
  split
  · exact .pure _
  · refine (tracks_receiverType _).bind fun recv => ?_
    split
    · exact .pure _
    · refine (h.prepare _ _).bind fun _ => (tracks_typesOf? _).bind fun args => ?_
      split
      · exact .pure _
      · exact h.resolveFor _ _ _

/-! ### Calls -/

section

variable {call : CallParts} (hcall : call.Located)
include hcall

theorem visitPlainCall (hobj : ∀ t ∈ call.obj, t.Located Mark.loc) (hargs : ∀ t ∈ call.args, t.Located Mark.loc)
    (s : ScopeId) : Tracks x (Locatable x) (e.visitPlainCall s call) := by
  refine (h.visitOption hobj s).bind fun _ => (h.visitAll hargs s).bind fun _ => ?_
  exact (tracks_newSite hcall _ _).bind fun node => h.recalculate node

theorem visitSuper (hargs : ∀ t ∈ call.args, t.Located Mark.loc) (s : ScopeId) :
    Tracks x (Locatable x) (e.visitSuper s call) := by
  refine (tracks_callingMethod? s).bind fun m => ?_
  split
  · exact .throw (Failure.locatable_malformed hcall.mark)
  · refine (tracksTo_superArgs hcall hargs _).bind fun args hargs => (h.visitAll hargs s).bind fun _ => ?_
    have hsite : { call with args }.Located := ⟨hcall.mark, fun a ha => (hargs a ha).isSome, hcall.block⟩
    exact (tracks_newSite hsite _ _).bind fun node => h.recalculate node

theorem visitCall (hobj : ∀ t ∈ call.obj, t.Located Mark.loc) (hargs : ∀ t ∈ call.args, t.Located Mark.loc)
    (s : ScopeId) (n : Placed) : Tracks x (Locatable x) (e.visitCall s n call) := by
  unfold Engine.visitCall
  split
  · exact h.visitPlainCall hcall hobj hargs s
  · refine tracks_env.bind fun env => ?_
    split
    · exact h.visitMacro hcall.mark _ _ _
    · split
      · exact h.visitSuper hcall hargs s
      · exact h.visitPlainCall hcall hobj hargs s

end

/-! ### Trees -/

theorem visitExpressions {body : List Placed} (hbody : ∀ t ∈ body, t.Located Mark.loc) (s : ScopeId) (n : Placed) :
    Tracks x (Locatable x) (e.visitExpressions s n body) := by
  unfold Engine.visitExpressions
  split
  · exact h.setType _ _
  · exact (h.visitAll hbody s).bind fun _ => (tracks_nodeOf _).bind fun _ => h.bind _ _

theorem visitIsA {obj : Option Placed} (hobj : ∀ t ∈ obj, t.Located Mark.loc) (s : ScopeId) (n : Placed)
    (type : Option TypeExpr) : Tracks x (Locatable x) (e.visitIsA s n obj type) := by
  refine (h.visitOption hobj s).bind fun _ => ?_
  simp only
  split
  · exact .bind (.bind (tracks_resolveType s _) fun _ => .pure _) fun _ => h.setType _ _
  · exact (tracks_undefined _ _).bind fun _ => h.setType _ _

theorem visitRespondsTo {obj : Option Placed} (hobj : ∀ t ∈ obj, t.Located Mark.loc) (s : ScopeId) (n : Placed) :
    Tracks x (Locatable x) (e.visitRespondsTo s n obj) :=
  (h.visitOption hobj s).bind fun _ => h.setType _ _

theorem visitPointerOf {n : Placed} (hn : n.loc.isSome) {target : Option Placed}
    (htarget : ∀ t ∈ target, t.Located Mark.loc) (s : ScopeId) :
    Tracks x (Locatable x) (e.visitPointerOf s n target) := by
  unfold Engine.visitPointerOf
  split
  · exact .throw (Failure.locatable_malformed hn)
  · rename_i target' hfilter
    have hlocated := htarget target' (Option.filter_eq_some_iff.mp hfilter).1
    refine (h.visit s _ (.inl hlocated)).bind fun _ => (tracks_nodeOf n).bind fun id => ?_
    exact (Tracks.changeGraph _).bind fun _ => (tracks_nodeOf _).bind fun _ => h.connect _ _

/-- **Typing a located node** tracks locations if typing its parts does. -/
theorem visitForm {n : Placed} (hn : n.Located Mark.loc) (s : ScopeId) : Tracks x (Locatable x) (e.visitForm s n) := by
  have hloc : n.loc.isSome := hn.isSome
  have hfits := hn.fits
  have hnodes := hn.nodes
  obtain ⟨m, f⟩ := n
  cases f
  all_goals
    simp only [Tree.kind, Tree.form, Form.kind, ne_eq, reduceCtorEq, not_true, not_false_eq_true, forall_const,
      Form.fields, List.forall_mem_append, Fields.forall_mem_given, Fields.forall_mem_text, Fields.forall_mem_flag,
      FieldValue.nodes, List.forall_mem_singleton, List.forall_mem_flatMap, Option.mem_toList, List.not_mem_nil,
      false_imp_iff, implies_true, true_and, and_true] at hnodes hfits
  case nop | nilLiteral | boolLiteral | charLiteral | stringLiteral => exact h.setType _ _
  case intLiteral => exact h.visitInt _ _ _
  case floatLiteral => exact h.visitFloat _ _ _
  case symbolLiteral => exact h.visitSymbol _ _
  case arrayLiteral => exact h.visitArray hloc (forall_mem_items hnodes) _ _
  case localVar => exact h.visitLocal _ _ _ _
  case instanceVar => exact h.visitIVar _ _ _ _
  case classVar => exact h.visitClassVar _ _ _
  case globalVar => exact h.visitGlobal _ _
  case selfRef => exact (tracks_scope s).bind fun _ => h.setType _ _
  case path => exact h.visitPath _ _ _ _
  case assign target value =>
    cases target with
    | none => exact .throw (Failure.locatable_malformed hloc)
    | some target => exact h.visitAssign hfits.2 hloc (hfits.1 target rfl) _
  case expressions => exact h.visitExpressions (forall_mem_items hnodes) _ _
  case ifElse => exact h.visitIf hnodes.1.1 hnodes.1.2 hnodes.2 _ _
  case unlessElse => exact h.visitUnless hnodes.1.1 hnodes.1.2 hnodes.2 _ _
  case caseOf => exact h.visitCase hnodes.1.1 (forall_mem_items hnodes.1.2) hnodes.2 _ _
  case whileLoop => exact h.visitWhile hnodes.1 hnodes.2 _ _
  case call obj name args block hasParens =>
    have hargs := forall_mem_items hnodes.1.2
    exact h.visitCall ⟨hloc, fun a ha => (hargs a ha).isSome, hnodes.2⟩ hnodes.1.1 hargs _ _
  case block => exact .throw (Failure.locatable_plain _)
  case yieldTo => exact h.visitYield hloc (forall_mem_items hnodes) _
  case returnFrom => exact h.visitReturn hloc hnodes _
  case breakOut => exact h.visitBreak hloc hnodes _
  case methodDef =>
    refine h.visitMethodDef hloc ⟨hloc, fun b hb => ?_, located_sourceParams (forall_mem_items hnodes.1)⟩ _ _
    obtain ⟨t, ht, rfl⟩ := Option.map_eq_some_iff.mp hb
    exact Placed.located_source.mpr (hnodes.2 t ht)
  case classDef => exact h.visitClassDef hnodes _ _ _ _ _
  case moduleDef => exact h.visitModuleDef hnodes _ _ _
  case includeModule => exact h.visitInclude hloc _ _ _
  case isA => exact h.visitIsA hnodes _ _ _
  case respondsTo => exact h.visitRespondsTo hnodes _ _
  case pointerOf => exact h.visitPointerOf hloc hnodes _
  case libDef => exact h.visitLibDef hloc (forall_mem_items hnodes) _ _
  case funDef => exact h.visitFunDef hloc (located_sourceParams (forall_mem_items hnodes)) _ _ _ _
  case structDef => exact h.visitStructDef hloc _ _ _ _
  case typeDef => exact h.visitTypeDef hloc _ _ _
  case macroDef => exact h.visitMacroDef hloc _ _ _
  case primitive => exact .throw (Failure.locatable_malformed hloc)

theorem visitNode {n : Placed} (hn : n.Fits Mark.loc) (s : ScopeId) : Tracks x (Locatable x) (e.visitNode s n) := by
  refine (tracks_nodeOf n).bind fun _ => .locating ?_ _
  rcases hn with hlocated | hvar
  · exact h.visitForm hlocated s
  · obtain ⟨m, f⟩ := n
    cases f <;> cases hvar
    exact h.visitLocal _ _ _ _

theorem visitNode_located {n : Placed} (hn : n.Located Mark.loc) (s : ScopeId) :
    Tracks x (Points x) (e.visitNode s n) :=
  Tracks.bind (tracks_nodeOf n) fun _ => (h.visitForm hn s).located hn.isSome

end Fair

end Engine

end TypeFlow
