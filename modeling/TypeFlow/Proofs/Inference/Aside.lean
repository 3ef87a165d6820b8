import TypeFlow.Inference.Calls
import TypeFlow.Inference.Blocks
import TypeFlow.Inference.Branches
import TypeFlow.Inference.Declarations
import TypeFlow.Inference.Literals
import TypeFlow.Inference.Macros
import TypeFlow.Proofs.Flow.Run
import TypeFlow.Standard.Numeric

/-!
# Steps that leave calls alone

Much of typing looks things up, declares and resolves names, and touches nothing that has to do with trees
and calls: not the trees that were typed, not what is noted about them, and not the calls, blocks and
instances in them. Such steps are `Aside`. A method may be added then, but none that knows an instance
already.
-/

namespace TypeFlow

/-- The trees that are typed, what is noted about them, and the calls, blocks and instances in them. -/
def Env.outline (e : Env) : List Placed × Array Note × Slots Site × Array Dispatch × Array BlockContext ×
    Array Instance :=
  (e.roots, e.notes, e.sites, e.dispatches, e.blocks, e.instances)

/-- A method remembers an instance, made for some types or for a foreign function. -/
def Method.Remembers (m : Method) (i : InstanceId) : Prop :=
  (∃ key, (key, i) ∈ m.memo) ∨ m.external = some i

/-- Some method remembers an instance. -/
def Env.Remembers (e : Env) (i : InstanceId) : Prop :=
  ∃ m ∈ e.methods, m.Remembers i

/-- A later environment has the same outline, and no method remembers any more. -/
structure Env.Beside (e e' : Env) : Prop where
  outline : e'.outline = e.outline
  remembers : ∀ i, e'.Remembers i → e.Remembers i

namespace Env.Beside

variable {e e' e'' : Env}

theorem refl (e : Env) : e.Beside e :=
  ⟨rfl, fun _ h => h⟩

theorem trans (h : e.Beside e') (h' : e'.Beside e'') : e.Beside e'' :=
  ⟨h'.outline.trans h.outline, fun i hi => h.remembers i (h'.remembers i hi)⟩

theorem of_methods (houtline : e'.outline = e.outline) (hmethods : e'.methods = e.methods) : e.Beside e' :=
  ⟨houtline, fun _ ⟨m, hm, hi⟩ => ⟨m, hmethods ▸ hm, hi⟩⟩

/-- A method that is new remembers nothing. -/
theorem push {m : Method} (hmemo : m.memo = []) (hext : m.external = none) :
    e.Beside { e with methods := e.methods.push m } := by
  refine ⟨rfl, fun i ⟨m', hm', hi⟩ => ?_⟩
  rcases Array.mem_push.mp hm' with hold | rfl
  · exact ⟨m', hold, hi⟩
  · simp [Method.Remembers, hmemo, hext] at hi

end Env.Beside

/-- A typing step leaves trees and calls alone, also when it fails. -/
def Aside {α : Type} (m : Infer α) : Prop :=
  ∀ p : Program, p.env.Beside (m.run.run p).2.env

namespace Aside

variable {α β γ : Type}

theorem of_run {m : Infer α} (hm : Aside m) {p p' : Program} {r : Except Failure α}
    (h : m.run.run p = (r, p')) : p.env.Beside p'.env := by
  have hp := hm p
  rwa [h] at hp

@[grind ←]
theorem pure (a : α) : Aside (pure a : Infer α) :=
  fun p => .refl p.env

@[grind ←]
theorem throw (f : Failure) : Aside (throw f : Infer α) :=
  fun p => .refl p.env

theorem bind {m : Infer α} {k : α → Infer β} (hm : Aside m) (hk : ∀ a, Aside (k a)) : Aside (m >>= k) := by
  intro p
  refine Flow.Ends.bind (Q := fun _ p' => p.env.Beside p'.env) (fun a p' hrun => ?_) fun f p' hrun => ?_
  · exact (hm.of_run hrun).trans (hk a p')
  · exact hm.of_run hrun

theorem locating {m : Infer α} (hm : Aside m) (loc : Option Location) : Aside (Flow.locating loc m) :=
  fun p => Flow.Ends.locating (R := fun _ p' => p.env.Beside p'.env) (fun _ _ h => hm.of_run h)
    fun _ _ h => hm.of_run h

theorem forIn {l : List γ} {f : γ → PUnit → Infer (ForInStep PUnit)} (hf : ∀ x, Aside (f x ⟨⟩)) :
    Aside (forIn l ⟨⟩ f) := by
  induction l with
  | nil => exact pure _
  | cons x l ih =>
    rw [List.forIn_cons]
    refine (hf x).bind fun r => ?_
    split
    · exact pure _
    · exact ih

@[grind ←]
theorem onTypes (c : TableM α) : Aside (Flow.onTypes c : Infer α) :=
  fun p => .refl p.env

@[grind ←]
theorem onGraph (c : Graph → α × Graph) : Aside (Flow.onGraph c : Infer α) :=
  fun p => .refl p.env

@[grind ←]
theorem changeGraph (f : Graph → Graph) : Aside (Flow.changeGraph f : Infer Unit) :=
  fun p => .refl p.env

theorem changeEnv {f : Env → Env} (houtline : ∀ e, (f e).outline = e.outline)
    (hmethods : ∀ e, (f e).methods = e.methods) : Aside (Infer.changeEnv f) :=
  fun p => .of_methods (houtline p.env) (hmethods p.env)

end Aside

-- only here are steps taken apart to see that they are aside
attribute [local grind ←] Aside.bind Aside.locating Aside.forIn

namespace Flow

@[grind ←]
theorem aside_types : Aside (types : Infer Table) :=
  fun p => .refl p.env

@[grind ←]
theorem aside_typeOf (id : NodeId) : Aside (typeOf id : Infer TypeId) :=
  fun p => .refl p.env

@[grind ←]
theorem aside_newNode (label : String) : Aside (newNode label : Infer NodeId) :=
  .onGraph _

@[grind ←]
theorem aside_freeze (id : NodeId) (t : TypeId) : Aside (freeze id t : Infer Unit) :=
  .changeGraph _

@[grind ←]
theorem aside_get : Aside (get : Infer Program) :=
  fun p => .refl p.env

@[grind ←]
theorem aside_frozenFailure (n : Graph.Node) (t : TypeId) : Aside (frozenFailure n t : Infer Failure) := by
  grind [frozenFailure]

@[grind ←]
theorem aside_mapped (h : Hooks Env) (n : Graph.Node) (t : TypeId) : Aside (mapped h n t) := by
  grind [mapped]

@[grind ←]
theorem aside_assign (id : NodeId) (n : Graph.Node) (t : TypeId) : Aside (assign id n t : Infer Unit) := by
  grind [assign]

@[grind ←]
theorem aside_settle (id : NodeId) (n : Graph.Node) (t : TypeId) : Aside (settle id n t : Infer Bool) := by
  grind [settle]

@[grind ←]
theorem aside_recompute (h : Hooks Env) (id : NodeId) : Aside (recompute h id) := by
  grind [recompute]

end Flow

namespace Infer

/-! ### Scopes and symbols -/

@[grind ←]
theorem aside_env : Aside env :=
  fun p => .refl p.env

@[grind ←]
theorem aside_addSymbol (name : String) : Aside (addSymbol name) := by
  refine .changeEnv (fun e => ?_) fun e => ?_ <;> split <;> rfl

@[grind ←]
theorem aside_scope (s : ScopeId) : Aside (scope s) :=
  fun p => .refl p.env

@[grind ←]
theorem aside_newScope (s : Scope) : Aside (newScope s) :=
  fun _ => .of_methods rfl rfl

@[grind ←]
theorem aside_changeScope (s : ScopeId) (f : Scope → Scope) : Aside (changeScope s f) :=
  .changeEnv (fun _ => rfl) fun _ => rfl

@[grind ←]
theorem aside_declare (s : ScopeId) (name : String) : Aside (declare s name) := by
  grind [declare]

@[grind ←]
theorem aside_dropViews (s : ScopeId) (name : String) : Aside (dropViews s name) := by
  grind [dropViews]

@[grind ←]
theorem aside_undefined {α : Type} (s : ScopeId) (text : String) : Aside (undefined s text : Infer α) := by
  grind [undefined]

@[grind ←]
theorem aside_freeIn (s : ScopeId) : Aside (freeIn s) := by
  grind [freeIn]

/-! ### Methods -/

@[grind ←]
theorem aside_method (id : MethodId) : Aside (method id) :=
  fun p => .refl p.env

@[grind ←]
theorem aside_newMethod {m : Method} (hmemo : m.memo = []) (hext : m.external = none) : Aside (newMethod m) :=
  fun _ => .push hmemo hext

@[grind ←]
theorem aside_fileUnder (id : MethodId) (m : Method) (key : GroupKey) : Aside (fileUnder id m key) := by
  refine aside_env.bind fun e => ?_
  split
  · exact .changeEnv (fun _ => rfl) fun _ => rfl
  · exact .bind (.onTypes _) fun _ => .changeEnv (fun _ => rfl) fun _ => rfl

@[grind ←]
theorem aside_register {m : Method} (hmemo : m.memo = []) (hext : m.external = none) : Aside (register m) := by
  grind [register]

@[grind ←]
theorem aside_addMethod (owner : TypeId) (d : Definition) : Aside (addMethod owner d) := by
  grind [addMethod]

@[grind ←]
theorem aside_addConstructor (owner : TypeId) (d : Definition) : Aside (addConstructor owner d) := by
  grind [addConstructor]

@[grind ←]
theorem aside_findGroup? (owner : TypeId) (key : GroupKey) : Aside (findGroup? owner key) := by
  grind [findGroup?]

@[grind ←]
theorem aside_groupsNamed (owner : TypeId) (name : String) : Aside (groupsNamed owner name) := by
  grind [groupsNamed]

@[grind ←]
theorem aside_instanceOf (id : InstanceId) : Aside (instanceOf id) :=
  fun p => .refl p.env

/-! ### Written types -/

@[grind ←]
theorem aside_resolveType (s : ScopeId) (t : TypeExpr) : Aside (resolveType s t) := by
  grind [resolveType]

@[grind ←]
theorem aside_resolveTypes (s : ScopeId) (ts : List TypeExpr) : Aside (resolveTypes s ts) := by
  induction ts <;> grind [resolveTypes]

@[grind ←]
theorem aside_instantiateType (template : TypeId) (args : List TypeId) :
    Aside (instantiateType template args) := by
  grind [instantiateType]

@[grind ←]
theorem aside_lookupPath (s : ScopeId) (names : List String) (typeArgs : List TypeExpr) :
    Aside (lookupPath s names typeArgs) := by
  refine (aside_scope s).bind fun sc => ?_
  -- `k` is what follows, for a name bound in scope or none
  extract_lets k
  have hk : ∀ bound, Aside (k bound) := by
    intro bound
    unfold k
    split
    · exact .pure _
    · grind
  split
  · exact (aside_freeIn s).bind fun _ => (Aside.pure _).bind hk
  · exact (Aside.pure _).bind hk

/-! ### Methods made on demand -/

@[grind ←]
theorem aside_defineNew (metaclass : TypeId) (key : GroupKey) (loc : Option Location) :
    Aside (defineNew metaclass key loc) := by
  refine Flow.aside_types.bind fun t => ?_
  simp only
  split
  · exact .pure _
  · split
    · exact .pure _
    · split
      · exact .throw _
      · refine (aside_findGroup? _ _).bind fun group => ?_
        grind

@[grind ←]
theorem aside_defineMissing (recv : TypeId) (key : GroupKey) (loc : Option Location) :
    Aside (defineMissing recv key loc) := by
  grind [defineMissing]

@[grind ←]
theorem aside_isSynthetic (g : Group) : Aside (isSynthetic g) := by
  grind [isSynthetic]

/-! ### Finding the overloads of a call -/

@[grind ←]
theorem aside_undefinedAt {α : Type} (site : Site) (text : String) : Aside (undefinedAt site text : Infer α) :=
  aside_undefined _ _

@[grind ←]
theorem aside_alternatives (site : Site) (recv : TypeId) : Aside (alternatives site recv) := by
  grind [alternatives]

@[grind ←]
theorem aside_unknownName {α : Type} (site : Site) (recv : TypeId) (args : List TypeId) :
    Aside (unknownName site recv args : Infer α) := by
  grind [unknownName]

@[grind ←]
theorem aside_unknownCall {α : Type} (site : Site) (recv : TypeId) (args : List TypeId) :
    Aside (unknownCall site recv args : Infer α) := by
  grind [unknownCall]

@[grind ←]
theorem aside_lookupSuper (site : Site) (declaring : TypeId) (name : String) (recv : TypeId) (args : List TypeId) :
    Aside (lookupSuper site declaring name recv args) := by
  grind [lookupSuper]

@[grind ←]
theorem aside_lookupDeclared? (site : Site) (recv : TypeId) (key : GroupKey) :
    Aside (lookupDeclared? site recv key) := by
  grind [lookupDeclared?]

@[grind ←]
theorem aside_lookupMade? (site : Site) (recv : TypeId) (key : GroupKey) : Aside (lookupMade? site recv key) := by
  grind [lookupMade?]

@[grind ←]
theorem aside_lookup (site : Site) (recv : TypeId) (args : List TypeId) : Aside (lookup site recv args) := by
  grind [lookup]

@[grind ←]
theorem aside_firstRejected (owner : TypeId) (i : Nat) (args : List TypeId) (params : List (Option TypeExpr)) :
    Aside (firstRejected owner i args params) := by
  fun_induction firstRejected owner i args params <;> grind

@[grind ←]
theorem aside_rejectedArgument (owner : TypeId) (name : String) (i : Nat) (arg : TypeId) (restriction : Option TypeExpr) :
    Aside (rejectedArgument owner name i arg restriction) := by
  cases restriction <;> grind [rejectedArgument]

@[grind ←]
theorem aside_singlePrimitive? (g : Group) : Aside (singlePrimitive? g) := by
  grind [singlePrimitive?]

@[grind ←]
theorem aside_noCandidate (g : Group) (owner : TypeId) (args : List TypeId) (cover : Option Cover) :
    Aside (noCandidate g owner args cover) := by
  grind [noCandidate]

@[grind ←]
theorem aside_noOverload {α : Type} (g : Group) (owner : TypeId) (args : List TypeId) (ms : Matches MethodId) :
    Aside (noOverload g owner args ms : Infer α) := by
  unfold noOverload
  extract_lets l k
  have hl : ∀ rejected, Aside (l rejected) := by
    intro rejected
    unfold l
    split <;> grind
  have hk : ∀ primitive, Aside (k primitive) := by
    intro primitive
    unfold k
    split
    · exact (Aside.pure _).bind hl
    · exact (aside_firstRejected _ _ _ _).bind hl
  split
  · exact (aside_singlePrimitive? g).bind hk
  · exact (Aside.pure _).bind hk

@[grind ←]
theorem aside_matchCall (site : Site) (recv : TypeId) (args : List TypeId) : Aside (matchCall site recv args) := by
  grind [matchCall]

@[grind ←]
theorem aside_shapesFor (site : Site) (recv : TypeId) (args : List TypeId) : Aside (shapesFor site recv args) := by
  grind [shapesFor]

@[grind ←]
theorem aside_shapesForAll (site : Site) (args recvs : List TypeId) : Aside (shapesForAll site args recvs) := by
  induction recvs <;> grind [shapesForAll]

@[grind ←]
theorem aside_dispatchNode (d : Nat) : Aside (dispatchNode d) :=
  fun p => .refl p.env

/-! ### Sites -/

@[grind ←]
theorem aside_site? (x : NodeId) : Aside (site? x) :=
  fun p => .refl p.env

@[grind ←]
theorem aside_receiverType (site : Site) : Aside (receiverType site) := by
  grind [receiverType]

@[grind ←]
theorem aside_typesOf? (ids : List NodeId) : Aside (typesOf? ids) := by
  induction ids <;> grind [typesOf?]

/-! ### Typing by name and kind -/

@[grind ←]
theorem aside_resolveDeclared (inst : Instance) (t : TypeExpr) : Aside (resolveDeclared inst t) := by
  grind [resolveDeclared]

@[grind ←]
theorem aside_numericLiteral (s : ScopeId) (suffix : String) (default : TypeId) (float : Bool) :
    Aside (numericLiteral s suffix default float) := by
  grind [numericLiteral]

@[grind ←]
theorem aside_ivarOwner (s : ScopeId) : Aside (ivarOwner s) := by
  grind [ivarOwner]

@[grind ←]
theorem aside_conditionFilters (s : ScopeId) (cond : Placed) : Aside (conditionFilters s cond) := by
  grind [conditionFilters]

@[grind ←]
theorem aside_clauseTypes (s : ScopeId) (conds : List Placed) : Aside (clauseTypes s conds) := by
  induction conds <;> grind [clauseTypes]

@[grind ←]
theorem aside_clauseFilters (s : ScopeId) (subject : Option Placed) (conds : List Placed) :
    Aside (clauseFilters s subject conds) := by
  unfold clauseFilters
  grind

/-! ### Macros -/

@[grind ←]
theorem aside_askServer (answers : Request → Answer) (c : Expansion.Call) : Aside (askServer answers c) := by
  refine .bind (.changeEnv (fun _ => rfl) fun _ => rfl) fun _ => ?_
  split <;> exact .pure _

@[grind ←]
theorem aside_expandCall (c : Expansion.Call) : Aside (expandCall c) := by
  grind [expandCall]

@[grind ←]
theorem aside_expand (c : Expansion.Call) : Aside (expand c) := by
  refine aside_env.bind fun e => ?_
  split
  · exact .pure _
  · refine (aside_expandCall c).bind fun tree => ?_
    split
    · exact .pure _
    · exact .bind (.changeEnv (fun _ => rfl) fun _ => rfl) fun _ => .pure _

@[grind ←]
theorem aside_expansionAt (loc : Option Location) (c : Expansion.Call) : Aside (expansionAt loc c) := by
  grind [expansionAt]

/-! ### Declarations -/

@[grind ←]
theorem aside_resolveIn (lib : TypeId) (t : TypeExpr) : Aside (resolveIn lib t) := by
  grind [resolveIn]

@[grind ←]
theorem aside_paramTypes (lib : TypeId) (params : List (Param Source)) : Aside (paramTypes lib params) := by
  induction params <;> grind [paramTypes]

@[grind ←]
theorem aside_paramNodes (params : List (String × TypeId)) : Aside (paramNodes params) := by
  induction params <;> grind [paramNodes]

@[grind ←]
theorem aside_fun? (lib : TypeId) (name : String) : Aside (fun? lib name) :=
  fun p => .refl p.env

@[grind ←]
theorem aside_wrongArgument (site : Site) (lib : TypeId) (i : Nat) (expected got : TypeId) :
    Aside (wrongArgument site lib i expected got) := by
  grind [wrongArgument]

@[grind ←]
theorem aside_methodOwner (s : ScopeId) (receiver : String) : Aside (methodOwner s receiver) := by
  grind [methodOwner]

@[grind ←]
theorem aside_superclassOf (s : ScopeId) (superclass : Option (PathRef Mark)) :
    Aside (superclassOf s superclass) := by
  cases superclass <;> grind [superclassOf]

@[grind ←]
theorem aside_checkSuperclass (t : Table) (name : String) (super actual : TypeId) :
    Aside (checkSuperclass t name super actual) := by
  grind [checkSuperclass]

@[grind ←]
theorem aside_checkReopened (name : String) (super id : TypeId) : Aside (checkReopened name super id) := by
  grind [checkReopened]

@[grind ←]
theorem aside_declareClass (s : ScopeId) (name : String) (super : TypeId) (typeParams : List String) :
    Aside (declareClass s name super typeParams) := by
  grind [declareClass]

@[grind ←]
theorem aside_declareModule (s : ScopeId) (name : String) : Aside (declareModule s name) := by
  grind [declareModule]

@[grind ←]
theorem aside_currentLib (s : ScopeId) (what : String) (loc : Option Location) :
    Aside (currentLib s what loc) := by
  grind [currentLib]

@[grind ←]
theorem aside_declareLib (name : String) : Aside (declareLib name) := by
  grind [declareLib]

@[grind ←]
theorem aside_checkFunParams (lib : TypeId) (name : String) (loc : Option Location) (params : List (Param Source)) :
    Aside (checkFunParams lib name loc params) := by
  induction params <;> grind [checkFunParams]

@[grind ←]
theorem aside_addMembers (lib id : TypeId) (name : String) (loc : Option Location) (members : List (Param Source)) :
    Aside (addMembers lib id name loc members) := by
  induction members <;> grind [addMembers]

@[grind ←]
theorem aside_addAccessors (id : TypeId) (loc : Option Location) (members : List (String × TypeId)) :
    Aside (addAccessors id loc members) := by
  induction members <;> grind [addAccessors]

end Infer

namespace Engine

open Infer

@[grind ←]
theorem aside_callingMethod? (s : ScopeId) : Aside (callingMethod? s) := by
  grind [callingMethod?]

@[grind ←]
theorem aside_filtersOf (s : ScopeId) (cond : Option Placed) : Aside (filtersOf s cond) := by
  cases cond <;> grind [filtersOf]

@[grind ←]
theorem aside_noteBreak (s : ScopeId) : Aside (noteBreak s) := by
  grind [noteBreak]

@[grind ←]
theorem aside_typeMember (id : InstanceId) (type : TypeId) (writes : Bool) :
    Aside (typeMember id type writes) := by
  grind [typeMember]

@[grind ←]
theorem aside_freezeResult (inst : Instance) (d : Definition) : Aside (freezeResult inst d) := by
  grind [freezeResult]

end Engine

/-! ### Standard definitions -/

theorem Program.aside_setUp : Aside setUp := by
  grind [setUp]

namespace Standard

theorem aside_declareKinds (ks : List NumericKind) : Aside (declareKinds ks) := by
  induction ks <;> grind [declareKinds]

theorem aside_declareAll (owner : TypeId) (ds : List Definition) : Aside (declareAll owner ds) := by
  induction ds <;> grind [declareAll]

theorem aside_declareOperations (n : NumericTower) (ids : List (String × TypeId)) (ks : List NumericKind) :
    Aside (declareOperations n ids ks) := by
  have hdeclare := aside_declareAll
  induction ks <;> grind [declareOperations]

theorem aside_defineNumeric (n : NumericTower) : Aside (defineNumeric n) := by
  refine (aside_declareKinds _).bind fun ids => ?_
  split
  · exact .throw _
  · split
    · exact .throw _
    · exact .bind (.changeEnv (fun _ => rfl) fun _ => rfl) fun _ => aside_declareOperations _ _ _

theorem aside_defineContainers (int : String) : Aside (defineContainers int) := by
  have hdeclare := aside_declareAll
  grind [defineContainers]

end Standard

end TypeFlow
