import TypeFlow.Proofs.Inference.Aside
import TypeFlow.Proofs.Inference.Pointing
import TypeFlow.Standard.Load

/-!
# Steps that track locations

The steps that type no tree and resolve no call keep what is there to be typed located, and what they fail with can
be located. So do the standard definitions. `TypeFlow.Proofs.Inference.Pointed` goes on to the engine.
-/

namespace TypeFlow

open Failure (Points Locatable)

-- only here are steps taken apart to see that they track locations
attribute [local grind ←] Tracks.bind Tracks.locating Tracks.forIn

variable {x : Expander} {F : Failure → Prop}

namespace Flow

@[grind ←]
theorem tracks_types : Tracks x F (types : Infer Table) :=
  fun _ hp => ⟨hp, True.intro⟩

@[grind ←]
theorem tracks_typeOf (id : NodeId) : Tracks x F (typeOf id : Infer TypeId) :=
  fun _ hp => ⟨hp, True.intro⟩

@[grind ←]
theorem tracks_newNode (label : String) : Tracks x F (newNode label : Infer NodeId) :=
  .onGraph _

@[grind ←]
theorem tracks_freeze (id : NodeId) (t : TypeId) : Tracks x F (freeze id t : Infer Unit) :=
  .changeGraph _

@[grind ←]
theorem tracks_get : Tracks x F (get : Infer Program) :=
  fun _ hp => ⟨hp, True.intro⟩

@[grind ←]
theorem tracksTo_frozenFailure (n : Graph.Node) (t : TypeId) :
    TracksTo x F (Locatable x) (frozenFailure n t : Infer Failure) :=
  tracks_types.bindTo fun _ => .pure (Failure.locatable_frozen _)

@[grind ←]
theorem tracks_mapped (h : Hooks Env) (n : Graph.Node) (t : TypeId) : Tracks x F (mapped h n t) := by
  grind [mapped]

@[grind ←]
theorem tracks_assign (id : NodeId) (n : Graph.Node) (t : TypeId) : Tracks x F (assign id n t : Infer Unit) := by
  grind [assign]

@[grind ←]
theorem tracks_settle (id : NodeId) (n : Graph.Node) (t : TypeId) :
    Tracks x (Locatable x) (settle id n t : Infer Bool) := by
  unfold settle
  split
  · exact .pure _
  · split
    · refine tracks_types.bind fun _ => ?_
      split
      · exact .pure _
      · exact (tracksTo_frozenFailure n t).bind fun f hf => .throw hf
    · exact (tracks_assign id n t).bind fun _ => .pure _

@[grind ←]
theorem tracks_recompute (h : Hooks Env) (id : NodeId) : Tracks x (Locatable x) (recompute h id) := by
  grind [recompute]

end Flow

namespace Infer

/-! ### Scopes and symbols -/

@[grind ←]
theorem tracks_env : Tracks x F env :=
  fun _ hp => ⟨hp, True.intro⟩

theorem tracksTo_env : TracksTo x F (Env.Located x) env :=
  fun _ hp => ⟨hp, hp⟩

@[grind ←]
theorem tracks_addSymbol (name : String) : Tracks x F (addSymbol name) := by
  refine .changeBeside fun e => ?_
  split <;> rfl

@[grind ←]
theorem tracks_scope (s : ScopeId) : Tracks x F (scope s) :=
  fun _ hp => ⟨hp, True.intro⟩

@[grind ←]
theorem tracks_newScope (s : Scope) : Tracks x F (newScope s) :=
  tracks_env.bind fun _ => .bind (.changeBeside fun _ => rfl) fun _ => .pure _

@[grind ←]
theorem tracks_changeScope (s : ScopeId) (f : Scope → Scope) : Tracks x F (changeScope s f) :=
  .changeBeside fun _ => rfl

@[grind ←]
theorem tracks_declare (s : ScopeId) (name : String) : Tracks x F (declare s name) := by
  grind [declare]

@[grind ←]
theorem tracks_dropViews (s : ScopeId) (name : String) : Tracks x F (dropViews s name) := by
  grind [dropViews]

@[grind ←]
theorem tracks_undefined {α : Type} (s : ScopeId) (text : String) :
    Tracks x (Locatable x) (undefined s text : Infer α) := by
  grind [undefined]

@[grind ←]
theorem tracks_freeIn (s : ScopeId) : Tracks x F (freeIn s) := by
  grind [freeIn]

/-! ### Methods -/

@[grind ←]
theorem tracks_method (id : MethodId) : Tracks x F (method id) :=
  fun _ hp => ⟨hp, True.intro⟩

@[grind ←]
theorem tracks_newMethod {m : Method} (hm : m.Located) : Tracks x F (newMethod m) :=
  tracks_env.bind fun _ => .bind (.changeEnv fun _ he => he.pushMethod hm) fun _ => .pure _

@[grind ←]
theorem tracks_fileUnder (id : MethodId) (m : Method) (key : GroupKey) : Tracks x F (fileUnder id m key) := by
  refine tracks_env.bind fun e => ?_
  split
  · exact .changeBeside fun _ => rfl
  · exact .bind (.onTypes _) fun _ => .changeBeside fun _ => rfl

@[grind ←]
theorem tracks_register {m : Method} (hm : m.Located) : Tracks x F (register m) := by
  grind [register]

@[grind ←]
theorem tracks_addMethod (owner : TypeId) {d : Definition} (hd : (kindOf d).HasBody → d.Located) :
    Tracks x F (addMethod owner d) :=
  (tracks_register (m := { definition := d, kind := kindOf d, owner }) hd).bind fun _ => .pure _

@[grind ←]
theorem tracks_addConstructor (owner : TypeId) {d : Definition} (hd : d.Located) :
    Tracks x F (addConstructor owner d) :=
  (tracks_register fun _ => hd).bind fun _ => .pure _

@[grind ←]
theorem tracks_findGroup? (owner : TypeId) (key : GroupKey) : Tracks x F (findGroup? owner key) := by
  grind [findGroup?]

@[grind ←]
theorem tracks_groupsNamed (owner : TypeId) (name : String) : Tracks x F (groupsNamed owner name) := by
  grind [groupsNamed]

@[grind ←]
theorem tracks_instanceOf (id : InstanceId) : Tracks x F (instanceOf id) :=
  fun _ hp => ⟨hp, True.intro⟩

/-! ### Written types -/

@[grind ←]
theorem tracks_resolveType (s : ScopeId) (t : TypeExpr) : Tracks x (Locatable x) (resolveType s t) := by
  grind [resolveType]

@[grind ←]
theorem tracks_resolveTypes (s : ScopeId) (ts : List TypeExpr) : Tracks x (Locatable x) (resolveTypes s ts) := by
  induction ts <;> grind [resolveTypes]

@[grind ←]
theorem tracks_instantiateType (template : TypeId) (args : List TypeId) :
    Tracks x (Locatable x) (instantiateType template args) := by
  grind [instantiateType]

@[grind ←]
theorem tracks_lookupPath (s : ScopeId) (names : List String) (typeArgs : List TypeExpr) :
    Tracks x (Locatable x) (lookupPath s names typeArgs) := by
  refine (tracks_scope s).bind fun sc => ?_
  -- `k` is what follows, for a name bound in scope or none
  extract_lets k
  have hk : ∀ bound, Tracks x (Locatable x) (k bound) := by
    intro bound
    unfold k
    split
    · exact .pure _
    · grind
  split
  · exact (tracks_freeIn s).bind fun _ => (Tracks.pure _).bind hk
  · exact (Tracks.pure _).bind hk

/-! ### Methods made on demand -/

@[grind ←]
theorem tracks_defineNew (metaclass : TypeId) (key : GroupKey) {loc : Option Location} (h : loc.isSome) :
    Tracks x (Locatable x) (defineNew metaclass key loc) := by
  have hplain := Synthesis.located_plainConstructor h
  have hconstructor := Synthesis.located_constructor h
  refine Flow.tracks_types.bind fun t => ?_
  simp only
  split
  · exact .pure _
  · split
    · exact .pure _
    · split
      · exact .throw (Failure.locatable_mismatch _)
      · refine (tracks_findGroup? _ _).bind fun group => ?_
        grind

@[grind ←]
theorem tracks_defineMissing (recv : TypeId) (key : GroupKey) {loc : Option Location} (h : loc.isSome) :
    Tracks x F (defineMissing recv key loc) := by
  have hforwarder := Synthesis.located_forwarder h key
  grind [defineMissing]

@[grind ←]
theorem tracks_isSynthetic (g : Group) : Tracks x F (isSynthetic g) := by
  grind [isSynthetic]

/-! ### Finding the overloads of a call -/

@[grind ←]
theorem tracks_undefinedAt {α : Type} (site : Site) (text : String) :
    Tracks x (Locatable x) (undefinedAt site text : Infer α) :=
  tracks_undefined _ _

@[grind ←]
theorem tracks_alternatives (site : Site) (recv : TypeId) : Tracks x F (alternatives site recv) := by
  grind [alternatives]

@[grind ←]
theorem tracks_unknownName {α : Type} (site : Site) (recv : TypeId) (args : List TypeId) :
    Tracks x (Locatable x) (unknownName site recv args : Infer α) := by
  grind [unknownName]

@[grind ←]
theorem tracks_unknownCall {α : Type} (site : Site) (recv : TypeId) (args : List TypeId) :
    Tracks x (Locatable x) (unknownCall site recv args : Infer α) := by
  grind [unknownCall]

@[grind ←]
theorem tracks_lookupSuper (site : Site) (declaring : TypeId) (name : String) (recv : TypeId) (args : List TypeId) :
    Tracks x (Locatable x) (lookupSuper site declaring name recv args) := by
  grind [lookupSuper]

@[grind ←]
theorem tracks_lookupDeclared? (site : Site) (recv : TypeId) (key : GroupKey) :
    Tracks x F (lookupDeclared? site recv key) := by
  grind [lookupDeclared?]

@[grind ←]
theorem tracks_lookupMade? {site : Site} (h : site.call.mark.loc.isSome) (recv : TypeId) (key : GroupKey) :
    Tracks x (Locatable x) (lookupMade? site recv key) := by
  grind [lookupMade?]

@[grind ←]
theorem tracks_lookup {site : Site} (h : site.call.mark.loc.isSome) (recv : TypeId) (args : List TypeId) :
    Tracks x (Locatable x) (lookup site recv args) := by
  grind [lookup]

@[grind ←]
theorem tracks_firstRejected (owner : TypeId) (i : Nat) (args : List TypeId) (params : List (Option TypeExpr)) :
    Tracks x F (firstRejected owner i args params) := by
  fun_induction firstRejected owner i args params <;> grind

@[grind ←]
theorem tracksTo_rejectedArgument (owner : TypeId) (name : String) (i : Nat) (arg : TypeId)
    (restriction : Option TypeExpr) :
    TracksTo x F (Locatable x) (rejectedArgument owner name i arg restriction) := by
  unfold rejectedArgument
  extract_lets l
  have hl : ∀ wanted, TracksTo x F (Locatable x) (l wanted) :=
    fun wanted => Flow.tracks_types.bindTo fun t => .pure (Failure.locatable_mismatch _)
  cases restriction with
  | none => exact (Tracks.pure _).bindTo hl
  | some t => exact (Tracks.onTypes _).bindTo hl

@[grind ←]
theorem tracks_singlePrimitive? (g : Group) : Tracks x F (singlePrimitive? g) := by
  grind [singlePrimitive?]

@[grind ←]
theorem tracksTo_noCandidate (g : Group) (owner : TypeId) (args : List TypeId) (cover : Option Cover) :
    TracksTo x F (Locatable x) (noCandidate g owner args cover) :=
  Flow.tracks_types.bindTo fun _ => tracks_env.bindTo fun _ => .pure (Failure.locatable_overload _ _ _)

@[grind ←]
theorem tracks_noOverload {α : Type} (g : Group) (owner : TypeId) (args : List TypeId) (ms : Matches MethodId) :
    Tracks x (Locatable x) (noOverload g owner args ms : Infer α) := by
  unfold noOverload
  extract_lets l k
  have hl : ∀ rejected, Tracks x (Locatable x) (l rejected) := by
    intro rejected
    unfold l
    split
    · exact (tracksTo_rejectedArgument _ _ _ _ _).bind fun f hf => .throw hf
    · exact (tracksTo_noCandidate _ _ _ _).bind fun f hf => .throw hf
  have hk : ∀ primitive, Tracks x (Locatable x) (k primitive) := by
    intro primitive
    unfold k
    split
    · exact (Tracks.pure _).bind hl
    · exact (tracks_firstRejected _ _ _ _).bind hl
  split
  · exact (tracks_singlePrimitive? g).bind hk
  · exact (Tracks.pure _).bind hk

@[grind ←]
theorem tracks_matchCall {site : Site} (h : site.call.mark.loc.isSome) (recv : TypeId) (args : List TypeId) :
    Tracks x (Locatable x) (matchCall site recv args) := by
  grind [matchCall]

@[grind ←]
theorem tracks_shapesFor {site : Site} (h : site.call.mark.loc.isSome) (recv : TypeId) (args : List TypeId) :
    Tracks x (Locatable x) (shapesFor site recv args) := by
  grind [shapesFor]

@[grind ←]
theorem tracks_shapesForAll {site : Site} (h : site.call.mark.loc.isSome) (args recvs : List TypeId) :
    Tracks x (Locatable x) (shapesForAll site args recvs) := by
  induction recvs <;> grind [shapesForAll]

@[grind ←]
theorem tracks_dispatchNode (d : Nat) : Tracks x F (dispatchNode d) :=
  fun _ hp => ⟨hp, True.intro⟩

/-! ### Sites -/

@[grind ←]
theorem tracks_site? (node : NodeId) : Tracks x F (site? node) :=
  fun _ hp => ⟨hp, True.intro⟩

theorem tracksTo_site? (node : NodeId) : TracksTo x F (fun site => ∀ s ∈ site, s.call.Located) (site? node) :=
  fun _ hp => ⟨hp, hp.sites node⟩

@[grind ←]
theorem tracks_receiverType (site : Site) : Tracks x F (receiverType site) := by
  grind [receiverType]

@[grind ←]
theorem tracks_typesOf? (ids : List NodeId) : Tracks x F (typesOf? ids) := by
  induction ids <;> grind [typesOf?]

@[grind ←]
theorem tracks_changeSite (node : NodeId) {f : Site → Site} (hf : ∀ s, (f s).call = s.call) :
    Tracks x F (changeSite node f) :=
  .changeEnv fun _ he => he.modifySite node hf

/-! ### Trees and notes -/

@[grind ←]
theorem tracks_note (occ : Nat) : Tracks x F (note occ) :=
  fun _ hp => ⟨hp, True.intro⟩

theorem tracks_changeNote (occ : Nat) {f : Note → Note} (hf : ∀ n : Note, n.Located → (f n).Located) :
    Tracks x F (changeNote occ f) :=
  .changeEnv fun _ he => he.modifyNote occ hf

@[grind ←]
theorem tracks_setNode (occ : Nat) (id : NodeId) : Tracks x F (setNode occ id) :=
  tracks_changeNote occ fun _ hn => ⟨hn.added, hn.conversions⟩

@[grind ←]
theorem tracks_setAssigned (occ : Nat) (id : NodeId) : Tracks x F (setAssigned occ id) :=
  tracks_changeNote occ fun _ hn => ⟨hn.added, hn.conversions⟩

@[grind ←]
theorem tracks_setDeclared (occ : Nat) (id : NodeId) : Tracks x F (setDeclared occ id) :=
  tracks_changeNote occ fun _ hn => ⟨hn.added, hn.conversions⟩

@[grind ←]
theorem tracks_nodeOf (t : Placed) : Tracks x F (nodeOf t) := by
  grind [nodeOf]

@[grind ←]
theorem tracks_nodesOf (ts : List Placed) : Tracks x F (nodesOf ts) := by
  induction ts <;> grind [nodesOf]

@[grind ←]
theorem tracks_nodeOrNil (t : Option Placed) : Tracks x F (nodeOrNil t) := by
  cases t <;> grind [nodeOrNil]

@[grind ←]
theorem tracks_receiverNode (t : Option Placed) : Tracks x F (receiverNode t) := by
  cases t <;> grind [receiverNode]

/-- What is placed is the tree that it is made from. -/
theorem tracksTo_place (t : Source) : TracksTo x F (fun t' => Placed.source t' = t) (place t) :=
  fun p hp => ⟨hp.opened _, t.shows_place p.env.notes.size⟩

theorem tracksTo_place_located {t : Source} (ht : t.Located id) :
    TracksTo x F (fun t' => t'.Located Mark.loc) (place t) :=
  fun p hp => ⟨hp.opened _, Source.located_place ht p.env.notes.size⟩

theorem tracksTo_freshMark (loc : Option Location) : TracksTo x F (fun m => m.loc = loc) (freshMark loc) := by
  intro p hp
  rw [Flow.Ends, run_freshMark]
  exact ⟨hp.opened 1, rfl⟩

theorem tracks_newSite {call : CallParts} (hc : call.Located) (s : ScopeId) (super : Option (TypeId × String)) :
    Tracks x F (newSite call s super) := by
  refine (tracks_nodeOf _).bind fun node => (tracks_receiverNode _).bind fun obj => ?_
  refine (tracks_nodesOf _).bind fun args => .bind (.changeEnv fun _ he => he.setSite hc) fun _ => ?_
  exact (Tracks.changeGraph _).bind fun _ => .pure _

/-- The copy of a located block is located. -/
theorem tracksTo_copyBlock {b : Block Mark Placed} (hb : ∀ t ∈ b.body, t.Located Mark.loc) :
    TracksTo x F (fun b => ∀ t ∈ b.body, t.Located Mark.loc) (copyBlock b) := by
  refine tracksTo_env.bind fun e he => (tracksTo_place _).bind fun copy hcopy => ?_
  split
  · rename_i params body hform
    refine .pure fun t ht => ?_
    obtain ⟨m, f⟩ := copy
    obtain rfl : f = _ := hform
    -- the body of the copy shows what is written of that of the block
    have hbody : body.map Placed.source = b.body.map e.written := by
      have hwritten : e.written (Tree.ofBlock b) =
          .node b.mark.loc
            (.block (b.params.map (List.map (Form.mapMarks.variable' Mark.loc))) (b.body.map e.written)) := by
        cases b with
        | mk _ _ body => cases body <;> rfl
      rw [Placed.source_node, hwritten] at hcopy
      injection hcopy with _ hform
      injection hform with _ hbody
    have hsource : some (Placed.source t) = b.body.map e.written := by
      rw [← hbody, show body = some t from ht]
      rfl
    obtain ⟨t₀, ht₀, heq⟩ := Option.map_eq_some_iff.mp hsource.symm
    exact Placed.located_source.mp (heq ▸ he.written (hb t₀ ht₀))
  · exact .pure hb

/-! ### Instances and dispatches -/

@[grind ←]
theorem tracks_changeInstance (id : InstanceId) (f : Instance → Instance) : Tracks x F (changeInstance id f) :=
  .changeBeside fun _ => rfl

/-- The body of an instance is the tree that it is written from. -/
theorem tracksTo_write (id : InstanceId) (t : Source) : TracksTo x F (fun t' => Placed.source t' = t) (write id t) :=
  (tracksTo_place t).bind fun _ hplaced => (tracks_changeInstance id _).bindTo fun _ => .pure hplaced

/-- The body of a located definition is written located, and where it cannot be, the failure has a location. -/
theorem tracksTo_writeBody (id : InstanceId) {d : Definition} (hd : d.Located) (given : Nat) :
    TracksTo x (Points x) (fun t => t.Located Mark.loc) (writeBody id d given) := by
  obtain ⟨l, hl⟩ := Option.isSome_iff_exists.mp hd.loc
  unfold writeBody
  split
  · rw [hl]
    exact .throw rfl
  · rename_i source hsource
    exact (tracksTo_place_located (hd.bodyFor? hsource)).bind fun _ hplaced =>
      (tracks_changeInstance id _).bindTo fun _ => .pure hplaced

@[grind ←]
theorem tracks_changeDispatch (id : Nat) (f : Dispatch → Dispatch) : Tracks x F (changeDispatch id f) :=
  .changeBeside fun _ => rfl

@[grind ←]
theorem tracks_changeMethod (id : MethodId) {f : Method → Method} (hdef : ∀ m, (f m).definition = m.definition)
    (hkind : ∀ m, (f m).kind = m.kind) : Tracks x F (changeMethod id f) :=
  .changeEnv fun _ he => he.modifyMethod id hdef hkind

@[grind ←]
theorem tracks_newInstance (m : MethodId) (owner : TypeId) (args : List TypeId) (free : Bindings) :
    Tracks x F (newInstance m owner args free) := by
  refine Flow.tracks_types.bind fun _ => (tracks_method m).bind fun _ => tracks_env.bind fun _ => ?_
  exact (Flow.tracks_newNode _).bind fun _ => .bind (.changeBeside fun _ => rfl) fun _ => .pure _

@[grind ←]
theorem tracks_openDispatch (node : NodeId) (name : String) : Tracks x F (openDispatch node name) := by
  refine (tracks_site? node).bind fun site => ?_
  split
  · exact .pure _
  · refine tracks_env.bind fun _ => (Flow.tracks_newNode _).bind fun _ => ?_
    refine .bind (.changeBeside fun _ => rfl) fun _ => ?_
    exact .bind (tracks_changeSite _ fun _ => rfl) fun _ => .pure _

@[grind ←]
theorem tracks_addShape (id : Nat) (shape : List TypeId) : Tracks x F (addShape id shape) := by
  grind [addShape]

/-! ### Typing by name and kind -/

@[grind ←]
theorem tracks_resolveDeclared (inst : Instance) (t : TypeExpr) : Tracks x (Locatable x) (resolveDeclared inst t) := by
  grind [resolveDeclared]

@[grind ←]
theorem tracks_numericLiteral (s : ScopeId) (suffix : String) (default : TypeId) (float : Bool) :
    Tracks x (Locatable x) (numericLiteral s suffix default float) := by
  grind [numericLiteral]

@[grind ←]
theorem tracks_ivarOwner (s : ScopeId) : Tracks x (Locatable x) (ivarOwner s) := by
  grind [ivarOwner]

@[grind ←]
theorem tracks_conditionFilters (s : ScopeId) (cond : Placed) : Tracks x (Locatable x) (conditionFilters s cond) := by
  grind [conditionFilters]

@[grind ←]
theorem tracks_clauseTypes (s : ScopeId) (conds : List Placed) : Tracks x (Locatable x) (clauseTypes s conds) := by
  induction conds <;> grind [clauseTypes]

@[grind ←]
theorem tracks_clauseFilters (s : ScopeId) (subject : Option Placed) (conds : List Placed) :
    Tracks x (Locatable x) (clauseFilters s subject conds) := by
  unfold clauseFilters
  grind

/-! ### Macros -/

/-- Why a call of a macro is not expanded: what it expands to is no tree, or the expander refuses it. -/
def Unexpanded (x : Expander) (name : String) (f : Failure) : Prop :=
  f.Points x ∨ ∃ message, f = .plain message ∧ x.Refuses name message

theorem Unexpanded.locatable {name : String} {f : Failure} (h : Unexpanded x name f) (loc : Option Location) :
    (Failure.expanding loc name "" f).Locatable x :=
  fun _ => ⟨Option.isSome_or.trans (Bool.or_true _), h.imp_right fun hf => ⟨rfl, hf⟩⟩

/-- The outcome of an expansion: a tree that `Q` holds of, or a reason why there is none. -/
abbrev Expands {α : Type} (x : Expander) (name : String) (Q : α → Prop) : Except Failure α → Prop :=
  Answers (Unexpanded x name) Q

theorem points_malformed {file text : String} {m : Malformed} (h : Source.decode file text = .error m) :
    (malformed m).Points x :=
  Source.isSome_of_decode h

theorem tracksTo_askServer {answers : Request → Answer} (hx : x = .server answers) (c : Expansion.Call) :
    TracksTo x F (Expands x c.name fun _ => True) (askServer answers c) := by
  subst hx
  refine Tracks.bindTo (.changeBeside fun _ => rfl) fun _ => ?_
  split
  · rename_i text _
    refine .pure ?_
    cases htree : Source.decode (Expansion.fileName c.name) text with
    | ok t => exact True.intro
    | error m => exact .inl (points_malformed htree)
  · rename_i text htext
    exact .pure (.inr ⟨_, rfl, .server htext⟩)

theorem tracksTo_expandCall (hx : x ≠ .none) (c : Expansion.Call) :
    TracksTo x F (Expands x c.name fun _ => True) (expandCall c) := by
  refine tracksTo_env.bind fun e he => ?_
  have hexpander := he.expander
  split
  · rename_i hnone
    exact absurd (hexpander.symm.trans hnone) hx
  · rename_i hsubstitute
    obtain rfl := hexpander.symm.trans hsubstitute
    refine .pure ?_
    cases hres : Expansion.substitute c with
    | ok t => exact True.intro
    | error message => exact .inr ⟨message, rfl, .substitute hres⟩
  · rename_i answers hserver
    exact tracksTo_askServer (hexpander.symm.trans hserver) c

/-- The tree of an expansion is located, unless the expansion is empty. -/
def Expands.Tree (y : Expanded) : Prop :=
  y.tree = .node none .nop ∨ y.tree.Located id

theorem expands_normalize {name : String} {r : Except Failure Source} (hr : Expands x name (fun _ => True) r) :
    Expands x name Expands.Tree (r.bind (normalize name)) := by
  cases r with
  | ok t =>
    unfold Except.bind normalize
    simp only
    split
    · rename_i t ht
      exact Source.located_of_decode ht
    · rename_i m hm
      exact .inl (points_malformed hm)
  | error f => exact hr

theorem tracksTo_expand (hx : x ≠ .none) (c : Expansion.Call) :
    TracksTo x F (Expands x c.name Expands.Tree) (expand c) := by
  refine tracksTo_env.bind fun e he => ?_
  split
  · rename_i y hy
    exact .pure (he.expansions _ (mem_of_assoc? hy))
  · refine (tracksTo_expandCall hx c).bind fun r hr => ?_
    have hread := expands_normalize hr
    split
    · rename_i f hf
      rw [hf] at hread
      exact .pure hread
    · rename_i y hy
      rw [hy] at hread
      exact Tracks.bindTo (.changeEnv fun _ he => he.remember hread) fun _ => .pure hread

theorem tracksTo_expansionAt (loc : Option Location) (c : Expansion.Call) :
    TracksTo x (Locatable x) Expands.Tree (expansionAt loc c) := by
  refine tracksTo_env.bind fun e he => ?_
  have hexpander := he.expander
  split
  · exact .throw (Failure.locatable_plain _)
  · rename_i hsome
    refine (tracksTo_expand (fun hnone => hsome (hexpander.trans hnone)) c).bind fun r hr => ?_
    split
    · exact .pure hr
    · exact .throw (Unexpanded.locatable hr loc)

theorem run_place_nop (p : Program) :
    (place (.node none .nop)).run.run p = (.ok (.node ⟨none, p.env.notes.size⟩ .nop), p.opened 1) := by
  have hcount : p.env.notes.size + 1 - p.env.notes.size = 1 := Nat.add_sub_cancel_left _ _
  rw [Program.opened, ← hcount]
  rfl

/-- An occurrence that was just opened has no node. -/
theorem node_opened (p : Program) : ((p.opened 1).env.note p.env.notes.size).node = 0 := by
  have hnew : (p.opened 1).env.notes[p.env.notes.size]? = some {} := by
    rw [Program.opened, Array.getElem?_append_right (Nat.le_refl _), Nat.sub_self]
    rfl
  rw [Env.note, hnew]
  rfl

/-- What a note is changed to has the same node if only the rest of the note is changed. -/
theorem node_modify (e : Env) (occ occ' : Nat) {f : Note → Note} (hf : ∀ n, (f n).node = n.node) :
    ((e.changeNote occ f).note occ').node = (e.note occ').node := by
  rw [Env.note_changeNote]
  split
  · rename_i ho
    exact ho ▸ hf _
  · rfl

/-! ### Declarations -/

/-- What holds of the items of a list holds if there is no list. -/
theorem forall_mem_items {α : Type} {P : α → Prop} {items : Option (List α)} (h : ∀ l ∈ items, ∀ a ∈ l, P a) :
    ∀ a ∈ items.getD [], P a := by
  cases items with
  | none => exact List.forall_mem_nil _
  | some l => exact h l rfl

/-- The defaults of placed parameters are located as sources as well. -/
theorem located_sourceParams {params : Option (List (Param Placed))}
    (h : ∀ p ∈ params.getD [], ∀ c ∈ p.fallback, c.Located Mark.loc) :
    ∀ p ∈ sourceParams params, ∀ c ∈ p.fallback, c.Located id := by
  intro p hp c hc
  obtain ⟨q, hq, rfl⟩ := List.mem_map.mp hp
  obtain ⟨t, ht, rfl⟩ := Option.map_eq_some_iff.mp hc
  exact Placed.located_source.mpr (h q hq t ht)

@[grind ←]
theorem tracks_resolveIn (lib : TypeId) (t : TypeExpr) : Tracks x (Locatable x) (resolveIn lib t) := by
  grind [resolveIn]

@[grind ←]
theorem tracks_paramTypes (lib : TypeId) (params : List (Param Source)) :
    Tracks x (Locatable x) (paramTypes lib params) := by
  induction params <;> grind [paramTypes]

@[grind ←]
theorem tracks_paramNodes (params : List (String × TypeId)) : Tracks x F (paramNodes params) := by
  induction params <;> grind [paramNodes]

@[grind ←]
theorem tracks_newExternal (id : MethodId) (m : Method) : Tracks x (Locatable x) (newExternal id m) := by
  have hremember : ∀ i, Tracks x (Locatable x) (changeMethod id fun m => { m with external := some i }) :=
    fun i => tracks_changeMethod id (fun _ => rfl) fun _ => rfl
  refine (tracks_paramTypes _ _).bind fun args => ?_
  extract_lets k
  have hk : ∀ result, Tracks x (Locatable x) (k result) := by
    refine fun result => (tracks_newInstance _ _ _ _).bind fun i => (tracks_paramNodes _).bind fun params => ?_
    refine (tracks_changeInstance _ _).bind fun _ => (tracks_instanceOf _).bind fun inst => ?_
    exact (Flow.tracks_freeze _ _).bind fun _ => (hremember _).bind fun _ => .pure _
  split
  · exact (Tracks.pure _).bind hk
  · exact (tracks_resolveIn _ _).bind hk

@[grind ←]
theorem tracks_external (id : MethodId) : Tracks x (Locatable x) (external id) := by
  grind [external]

@[grind ←]
theorem tracks_externalId (id : MethodId) : Tracks x (Locatable x) (externalId id) := by
  grind [externalId]

@[grind ←]
theorem tracks_fun? (lib : TypeId) (name : String) : Tracks x F (fun? lib name) :=
  fun _ hp => ⟨hp, True.intro⟩

theorem tracksTo_wrongArgument (site : Site) (lib : TypeId) (i : Nat) (expected got : TypeId) :
    TracksTo x F (Locatable x) (wrongArgument site lib i expected got) :=
  Flow.tracks_types.bindTo fun _ => .pure (Failure.locatable_mismatch _)

@[grind ←]
theorem tracks_methodOwner (s : ScopeId) (receiver : String) : Tracks x (Locatable x) (methodOwner s receiver) := by
  grind [methodOwner]

@[grind ←]
theorem tracks_superclassOf (s : ScopeId) (superclass : Option (PathRef Mark)) :
    Tracks x (Locatable x) (superclassOf s superclass) := by
  cases superclass <;> grind [superclassOf]

@[grind ←]
theorem tracks_checkSuperclass (t : Table) (name : String) (super actual : TypeId) :
    Tracks x (Locatable x) (checkSuperclass t name super actual) := by
  grind [checkSuperclass]

@[grind ←]
theorem tracks_checkReopened (name : String) (super id : TypeId) :
    Tracks x (Locatable x) (checkReopened name super id) := by
  grind [checkReopened]

@[grind ←]
theorem tracks_declareClass (s : ScopeId) (name : String) (super : TypeId) (typeParams : List String) :
    Tracks x (Locatable x) (declareClass s name super typeParams) := by
  grind [declareClass]

@[grind ←]
theorem tracks_declareModule (s : ScopeId) (name : String) : Tracks x (Locatable x) (declareModule s name) := by
  grind [declareModule]

@[grind ←]
theorem tracks_currentLib (s : ScopeId) (what : String) {loc : Option Location} (h : loc.isSome) :
    Tracks x (Locatable x) (currentLib s what loc) := by
  grind [currentLib]

@[grind ←]
theorem tracks_declareLib (name : String) : Tracks x (Locatable x) (declareLib name) := by
  grind [declareLib]

@[grind ←]
theorem tracks_checkFunParams (lib : TypeId) (name : String) {loc : Option Location} (h : loc.isSome)
    (params : List (Param Source)) :
    Tracks x (Locatable x) (checkFunParams lib name loc params) := by
  induction params <;> grind [checkFunParams]

@[grind ←]
theorem tracks_addMembers (lib id : TypeId) (name : String) {loc : Option Location} (h : loc.isSome)
    (members : List (Param Source)) :
    Tracks x (Locatable x) (addMembers lib id name loc members) := by
  induction members <;> grind [addMembers]

@[grind ←]
theorem tracks_addAccessors (id : TypeId) (loc : Option Location) (members : List (String × TypeId)) :
    Tracks x F (addAccessors id loc members) := by
  induction members with
  | nil => exact .pure _
  | cons q members ih =>
    have haccessor : ∀ (d : Definition) (kind : MethodKind), ¬kind.HasBody →
        Tracks x F (register { definition := d, kind, owner := id }) :=
      fun d kind hkind => tracks_register fun h => absurd h hkind
    refine (haccessor _ (.getter q.2) not_false).bind fun _ => ?_
    exact (haccessor _ (.setter q.2) not_false).bind fun _ => ih

end Infer

namespace Engine

open Infer

@[grind ←]
theorem tracks_callingMethod? (s : ScopeId) : Tracks x F (callingMethod? s) := by
  grind [callingMethod?]

@[grind ←]
theorem tracks_filtersOf (s : ScopeId) (cond : Option Placed) : Tracks x (Locatable x) (filtersOf s cond) := by
  cases cond <;> grind [filtersOf]

theorem tracks_blockParams (vs : List (Variable Mark)) : Tracks x F (blockParams vs) := by
  induction vs <;> grind [blockParams]

theorem tracks_openBlockScope (b : Nat) (bc : BlockContext) : Tracks x F (openBlockScope b bc) := by
  refine (tracks_blockParams _).bind fun params => (tracks_scope _).bind fun caller => ?_
  refine (tracks_newScope _).bind fun s => .bind (.changeEnv fun _ he => ?_) fun _ => .pure _
  exact he.modifyBlock b fun _ => rfl

@[grind ←]
theorem tracks_noteBreak (s : ScopeId) : Tracks x F (noteBreak s) := by
  grind [noteBreak]

@[grind ←]
theorem tracks_typeMember (id : InstanceId) (type : TypeId) (writes : Bool) :
    Tracks x (Locatable x) (typeMember id type writes) := by
  grind [typeMember]

theorem tracks_openBlock (node : NodeId) : Tracks x F (openBlock node) := by
  refine TracksTo.bind tracksTo_env fun e he => ?_
  split
  · exact Tracks.pure _
  · rename_i site hsite
    split
    · exact Tracks.pure _
    · rename_i block hblock
      have hbody := (he.sites node site hsite).block block hblock
      -- the block itself or a copy of it
      extract_lets k
      have hk : ∀ b : Block Mark Placed, (∀ t ∈ b.body, t.Located Mark.loc) → Tracks x F (k b) := by
        refine fun b hb => tracks_env.bind fun env => .bind (.changeEnv fun _ he => ?_) fun _ => .pure _
        have hopened := he.modifySite node (f := fun s => { s with blocks := s.blocks + 1 }) fun _ => rfl
        exact hopened.pushBlock (b := { block := b, caller := site.scope, call := node }) hb
      split
      · exact (tracksTo_copyBlock hbody).bind hk
      · exact (TracksTo.pure hbody).bind hk

theorem tracks_openBody (node : NodeId) (id : InstanceId) (inst : Instance) (name : String) :
    Tracks x F (openBody node id inst name) :=
  (tracks_openBlock node).bind fun _ => Flow.tracks_types.bind fun _ => tracks_newScope _

theorem tracks_freezeResult (inst : Instance) {d : Definition} (hd : d.loc.isSome) :
    Tracks x (Points x) (freezeResult inst d) := by
  unfold freezeResult
  split
  · exact .pure _
  · exact ((tracks_resolveDeclared _ _).located hd).bind fun _ => Flow.tracks_freeze _ _

theorem tracksTo_blockCopy {site : Site} (hsite : site.call.Located) :
    TracksTo x F (fun block => ∀ b ∈ block, ∀ t ∈ b.body, t.Located Mark.loc) (blockCopy site) := by
  unfold blockCopy
  split
  · exact .pure fun b hb => absurd hb (Option.not_mem_none b)
  · rename_i b hb
    refine (tracksTo_copyBlock (hsite.block b hb)).bind fun copy hcopy => .pure ?_
    rintro b ⟨⟩
    exact hcopy

/-- The parameters that are passed on are variables at the call. -/
theorem tracksTo_passOn {loc : Option Location} (hloc : loc.isSome) (ps : List (Param Source)) :
    TracksTo x F (fun vs => ∀ v ∈ vs, v.Located Mark.loc) (passOn loc ps) := by
  induction ps with
  | nil => exact .pure (List.forall_mem_nil _)
  | cons p ps ih =>
    refine (tracksTo_freshMark loc).bind fun mark hmark => ih.bind fun vs hvs => .pure ?_
    have hmark : mark.loc.isSome := hmark ▸ hloc
    exact List.forall_mem_cons.mpr
      ⟨.of_nodes hmark (by simp [Form.fields, Fields.text, Fields.flag, FieldValue.nodes]), hvs⟩

theorem tracksTo_superArgs {call : CallParts} (hcall : call.Located) (hargs : ∀ t ∈ call.args, t.Located Mark.loc)
    (m : Method) : TracksTo x F (fun vs => ∀ v ∈ vs, v.Located Mark.loc) (superArgs call m) := by
  unfold superArgs
  split
  · refine (tracksTo_passOn hcall.mark _).bind fun vs hvs => ?_
    exact Tracks.bindTo (tracks_changeNote _ fun n hn => ⟨hvs, hn.conversions⟩) fun _ => .pure hvs
  · exact .pure hargs

end Engine

/-! ### Standard definitions -/

theorem Program.tracks_setUp : Tracks x F setUp := by
  refine (Flow.tracks_newNode _).bind fun _ => (Flow.tracks_freeze _ _).bind fun _ => ?_
  exact (Tracks.onTypes _).bind fun _ => Infer.tracks_addMethod _ False.elim

namespace Standard

@[grind ←]
theorem tracks_declareKinds (ks : List NumericKind) : Tracks x (Locatable x) (declareKinds ks) := by
  induction ks <;> grind [declareKinds]

theorem tracks_declareAll (owner : TypeId) {ds : List Definition} (hds : ∀ d ∈ ds, ¬(Infer.kindOf d).HasBody) :
    Tracks x F (declareAll owner ds) := by
  induction ds with
  | nil => exact .pure _
  | cons d ds ih =>
    refine (Infer.tracks_addMethod owner fun h => absurd h (hds d List.mem_cons_self)).bind fun _ => ?_
    exact ih fun d' hd' => hds d' (List.mem_cons_of_mem d hd')

theorem primitive_of_mem_operationsOf {n : NumericTower} {k : NumericKind} {d : Definition}
    (hd : d ∈ operationsOf n k) : ¬(Infer.kindOf d).HasBody := by
  have hprimitive : ∃ name result params, d = .primitive name result params := by
    simp only [operationsOf, operations, List.mem_append, List.mem_flatMap, List.mem_map, List.mem_singleton] at hd
    rcases hd with ⟨_, _, (⟨_, _, rfl⟩ | ⟨_, _, rfl⟩) | rfl⟩ | hd
    · exact ⟨_, _, _, rfl⟩
    · exact ⟨_, _, _, rfl⟩
    · exact ⟨_, _, _, rfl⟩
    · split at hd
      · exact ⟨_, _, _, List.mem_singleton.mp hd⟩
      · cases hd
  obtain ⟨name, result, params, rfl⟩ := hprimitive
  exact id

theorem tracks_declareOperations (n : NumericTower) (ids : List (String × TypeId)) (ks : List NumericKind) :
    Tracks x F (declareOperations n ids ks) := by
  induction ks with
  | nil => exact .pure _
  | cons k ks ih => exact (tracks_declareAll _ fun d hd => primitive_of_mem_operationsOf hd).bind fun _ => ih

theorem tracks_defineNumeric (n : NumericTower) : Tracks x (Locatable x) (defineNumeric n) := by
  refine (tracks_declareKinds _).bind fun ids => ?_
  split
  · exact .throw (Failure.locatable_plain _)
  · split
    · exact .throw (Failure.locatable_plain _)
    · exact .bind (.changeBeside fun _ => rfl) fun _ => tracks_declareOperations _ _ _

theorem tracks_defineContainers (int : String) : Tracks x (Locatable x) (defineContainers int) := by
  refine Flow.tracks_types.bind fun t => ?_
  split
  · exact .throw (Failure.locatable_plain _)
  · refine (Tracks.onTypes _).bind fun pointers => (Infer.tracks_addMethod _ False.elim).bind fun _ => ?_
    refine (tracks_declareAll _ ?_).bind fun _ => tracks_declareAll _ ?_
    · simp [pointerMethods, Infer.kindOf, Definition.primitive, Tree.form, MethodKind.HasBody]
    · simp [arrayMethods, Infer.kindOf, Definition.primitive, Tree.form, MethodKind.HasBody]

end Standard

end TypeFlow
