import TypeFlow.Inference.Calls
import TypeFlow.Inference.Blocks
import TypeFlow.Inference.Branches
import TypeFlow.Inference.Declarations
import TypeFlow.Inference.Literals
import TypeFlow.Inference.Macros
import TypeFlow.Proofs.Inference.Aside
import TypeFlow.Proofs.Inference.Attention
import TypeFlow.Standard.Numeric

/-!
# Steps that change no type that a call watches

The steps of typing that reach neither the engine nor propagation keep a program attentive, as far as they touch
what matters to calls at all. They add nodes, which no call watches yet, and fix the types of nodes that no call
ever watches. The nodes that they answer may be given to a call.
-/

namespace TypeFlow

variable {w : Prop} {c : List Fact}

namespace Heeds

variable {α : Type}

/-- A step that only reads. -/
theorem read {m : Infer α} (h : ∀ p, (m.run.run p).2 = p) : Heeds w c m := by
  refine .rests fun _ p p' a hrun _ _ => ⟨?_, List.forall_mem_nil _⟩
  obtain rfl : p = p' := (h p).symm.trans (congrArg Prod.snd hrun)
  exact .refl p

/-- A change of the graph that concerns neither types nor queues nor the calls that observe nodes. -/
theorem changeGraph {f : Graph → Graph} (hf : ∀ g : Graph, g.Rests (f g)) :
    Heeds w c (Flow.changeGraph f : Infer Unit) := by
  refine .rests fun _ p p' a hrun _ _ => ⟨?_, List.forall_mem_nil _⟩
  cases hrun
  exact .beside (.refl _) (hf _) rfl

/-- A change of what does not matter to calls. -/
theorem changeEnv {f : Env → Env} (hf : ∀ e, (f e).sight = e.sight) : Heeds w c (Infer.changeEnv f) := by
  refine .rests fun _ p p' a hrun _ _ => ⟨?_, List.forall_mem_nil _⟩
  cases hrun
  exact .beside (.refl _) (.refl _) (hf _)

end Heeds

attribute [local grind ←] Heeds.bind Heeds.locating Heeds.forIn Heeds.onTypes

-- what computations on types do to the table
attribute [grind ←] Table.widening_addMember Table.widening_defineClass Table.widening_defineConst
  Table.widening_defineLib Table.widening_defineModule Table.widening_definePrimitive Table.widening_include
  Table.widening_instantiate Table.widening_intern Table.widening_merge Table.widening_register
  Table.widening_unionOf Overload.widening_resolve Overload.widening_select Overload.widening_restrictParam
  Table.widening_metaclassOf Env.widening_findGroup? Env.widening_findSuperGroup? Env.widening_groupsNamed

namespace Flow

@[grind ←]
theorem heeds_types : Heeds w c (types : Infer Table) :=
  .read fun _ => rfl

@[grind ←]
theorem heeds_typeOf (id : NodeId) : Heeds w c (typeOf id : Infer TypeId) :=
  .read fun _ => rfl

/-- A new node may be given to a call. -/
theorem heedsTo_newNode (label : String) : HeedsTo w c (fun id => [.node id]) (newNode label : Infer NodeId) := by
  refine .rests fun _ p p' id hrun hp _ => ?_
  cases hrun
  refine ⟨.beside (.refl _) (.add _ _) rfl, fun f hf => ?_⟩
  obtain rfl := List.mem_singleton.mp hf
  exact ⟨(Graph.size_add _ _).symm ▸ Nat.lt_succ_self _, fun _ a ha => Nat.ne_of_lt (hp.made a ha)⟩

@[grind ←]
theorem heeds_newNode (label : String) : Heeds w c (newNode label : Infer NodeId) :=
  (heedsTo_newNode label).heeds

/-- The type of a result is fixed. -/
theorem heeds_freeze {id : NodeId} (t : TypeId) (hid : .result id ∈ c) : Heeds w c (freeze id t : Infer Unit) := by
  refine .rests fun _ p p' a hrun _ hc => ⟨?_, List.forall_mem_nil _⟩
  cases hrun
  refine .fix p (.refl _) t fun u hu h0 heq => ?_
  rcases hc _ hid with rfl | ⟨a, ha, hres⟩
  · exact h0 heq
  · exact hu.2 h0 a ha (hres.trans heq.symm)

/-- A node is made whose type is fixed. -/
theorem heeds_frozen {α : Type} (label : String) (t : TypeId) {k : NodeId → Infer α} (hk : ∀ id, Heeds w c (k id)) :
    Heeds w c (newNode label >>= fun id => freeze id t >>= fun _ => k id) := by
  have hmake : Heeds w c (newNode label >>= fun id => freeze id t >>= fun _ => Pure.pure id : Infer NodeId) := by
    refine .rests fun _ p p' a hrun _ _ => ⟨?_, List.forall_mem_nil _⟩
    cases hrun
    exact .fix p (.add _ _) t fun u hu _ => Nat.ne_of_lt hu.1
  exact hmake.bind hk

end Flow

namespace Infer

/-! ### Notes, nodes and scopes -/

@[grind ←]
theorem heeds_env : Heeds w c env :=
  .read fun _ => rfl

@[grind ←]
theorem heeds_scope (s : ScopeId) : Heeds w c (scope s) :=
  .read fun _ => rfl

@[grind ←]
theorem heeds_addSymbol (name : String) : Heeds w c (addSymbol name) := by
  refine .changeEnv fun e => ?_
  split <;> rfl

/-- Notes are opened. -/
theorem heeds_openNotes (k : Nat) : Heeds w c (changeEnv fun e => { e with notes := openNotes e.notes k }) := by
  refine .rests fun _ p p' a hrun _ _ => ⟨?_, List.forall_mem_nil _⟩
  cases hrun
  exact .openNotes p k

@[grind ←]
theorem heeds_place (t : Source) : Heeds w c (place t) :=
  heeds_env.bind fun _ => (heeds_openNotes _).bind fun _ => .pure _

@[grind ←]
theorem heeds_freshMark (loc : Option Location) : Heeds w c (freshMark loc) := by
  refine heeds_env.bind fun _ => .bind ?_ fun _ => .pure _
  refine .rests fun _ p p' a hrun _ _ => ⟨?_, List.forall_mem_nil _⟩
  cases hrun
  -- one note more is what opening up to the next number gives
  have hopen : openNotes p.env.notes (p.env.notes.size + 1) = p.env.notes.push {} := by
    simp [openNotes]
  have hrests := Program.Rests.openNotes p (p.env.notes.size + 1)
  rwa [hopen] at hrests

/-- A note changes beside its node and its targets. -/
theorem heeds_changeNote (occ : Nat) {f : Note → Note} (hf : ∀ n, (f n).node = n.node ∧ (f n).targets = n.targets) :
    Heeds w c (changeNote occ f) := by
  refine .rests fun _ p p' a hrun _ _ => ⟨?_, List.forall_mem_nil _⟩
  cases hrun
  exact .changeNote p occ hf

@[grind ←]
theorem heeds_setAssigned (occ : Nat) (id : NodeId) : Heeds w c (setAssigned occ id) :=
  heeds_changeNote occ fun _ => ⟨rfl, rfl⟩

@[grind ←]
theorem heeds_setDeclared (occ : Nat) (id : NodeId) : Heeds w c (setDeclared occ id) :=
  heeds_changeNote occ fun _ => ⟨rfl, rfl⟩

/-- An occurrence keeps its node, or gets a new one, which may be given to a call. -/
theorem heedsTo_nodeOf (t : Placed) : HeedsTo w c (fun id => [.node id, .stands t.mark.occ id]) (nodeOf t) := by
  refine .rests fun _ p p' id hrun hp _ => ?_
  obtain ⟨n, p₁, hnote, hrun⟩ := Flow.exists_of_run_bind hrun
  cases hnote
  split at hrun
  · rename_i hne
    cases hrun
    refine ⟨.refl p, fun f hf => ?_⟩
    rcases List.mem_pair.mp hf with rfl | rfl
    · exact hp.held _ (.note t.mark.occ)
    · exact ⟨hne, rfl⟩
  · rename_i hnone
    cases hrun
    refine ⟨.setNode p _ _ (not_not.mp hnone) hp.made, fun f hf => ?_⟩
    rcases List.mem_pair.mp hf with rfl | rfl
    · exact ⟨(Graph.size_add _ _).symm ▸ Nat.lt_succ_self _, fun _ a ha => Nat.ne_of_lt (hp.made a ha)⟩
    · refine ⟨Nat.succ_ne_zero _, ?_⟩
      show ((p.env.changeNote t.mark.occ _).note t.mark.occ).node = _
      rw [Env.note_changeNote, if_pos rfl]

@[grind ←]
theorem heeds_nodeOf (t : Placed) : Heeds w c (nodeOf t) :=
  (heedsTo_nodeOf t).heeds

@[grind ←]
theorem heeds_nodesOf (ts : List Placed) : Heeds w c (nodesOf ts) := by
  induction ts <;> grind [nodesOf]

theorem heedsTo_nodeOrNil (t : Option Placed) : HeedsTo w c (fun id => [.node id]) (nodeOrNil t) := by
  cases t with
  | none =>
    refine .rests fun _ p p' n hrun hp _ => ?_
    cases hrun
    exact ⟨.refl p, fun f hf => List.mem_singleton.mp hf ▸ hp.held _ .nil⟩
  | some t => exact (heedsTo_nodeOf t).weaken fun _ _ hf => by simp_all

@[grind ←]
theorem heeds_nodeOrNil (t : Option Placed) : Heeds w c (nodeOrNil t) :=
  (heedsTo_nodeOrNil t).heeds

/-- A scope is there once it is opened. -/
theorem heedsTo_newScope {sc : Scope} (hvars : ∀ x ∈ sc.vars, .node x.2 ∈ c) :
    HeedsTo w c (fun s => [.scope s]) (newScope sc) := by
  refine .rests fun _ p p' n hrun _ hc => ?_
  cases hrun
  refine ⟨.push p fun x hx => hc _ (hvars x hx), fun f hf => ?_⟩
  obtain rfl := List.mem_singleton.mp hf
  show _ < (p.env.scopes.push sc).size
  exact Array.size_push _ ▸ Nat.lt_succ_self _

/-- A scope changes neither its own type nor its variables, except that it gets one that may be given to a call. -/
theorem heeds_modifyScope (s : ScopeId) {f : Scope → Scope} (hself : ∀ sc, (f sc).self = sc.self)
    (hvars : ∀ sc, ∀ x ∈ (f sc).vars, x ∈ sc.vars ∨ .node x.2 ∈ c) : Heeds w c (changeScope s f) := by
  refine .rests fun _ p p' n hrun _ hc => ⟨?_, List.forall_mem_nil _⟩
  cases hrun
  exact .scope p s hself fun sc x hx => (hvars sc x hx).imp_right (hc _)

theorem heeds_changeScope (s : ScopeId) {f : Scope → Scope} (hself : ∀ sc, (f sc).self = sc.self)
    (hvars : ∀ sc, (f sc).vars = sc.vars) : Heeds w c (changeScope s f) :=
  heeds_modifyScope s hself fun sc _ hx => .inl (hvars sc ▸ hx)

/-- The node of a variable may be given to a call. -/
theorem heedsTo_declare (s : ScopeId) (name : String) : HeedsTo w c (fun id => [.node id]) (declare s name) := by
  intro G p p' id hrun hp hc
  rw [declare, run_env_bind] at hrun
  split at hrun
  · rename_i id' hfound
    cases hrun
    refine ⟨hp.leads, fun f hf => List.mem_singleton.mp hf ▸ hp.held _ ?_⟩
    obtain ⟨⟨i, sc⟩, hsc, hvar⟩ := List.exists_of_findSome?_eq_some hfound
    exact .var (Array.mem_of_getElem? (Env.mem_scopesUpTo hsc)) (mem_of_assoc? hvar)
  · have hnew : HeedsTo w c (fun id => [.node id]) (do
        let id ← Flow.newNode name
        changeScope s fun sc => { sc with vars := (name, id) :: sc.vars }
        return id) := by
      refine (Flow.heedsTo_newNode name).andThen fun id => ?_
      have hvar : Heeds w (.node id :: c) (changeScope s fun sc => { sc with vars := (name, id) :: sc.vars }) :=
        heeds_modifyScope s (fun _ => rfl) fun sc x hx =>
          (List.mem_cons.mp hx).symm.imp_right fun (heq : x = (name, id)) => heq ▸ List.mem_cons_self
      exact hvar.andThen fun _ => .pure fun f hf => List.mem_append_left _ hf
    exact hnew hrun hp hc

@[grind ←]
theorem heeds_declare (s : ScopeId) (name : String) : Heeds w c (declare s name) :=
  (heedsTo_declare s name).heeds

@[grind ←]
theorem heeds_dropViews (s : ScopeId) (name : String) : Heeds w c (dropViews s name) := by
  have hdrop : ∀ id, Heeds w c (changeScope id (·.dropViews name)) :=
    fun id => heeds_changeScope id (fun _ => rfl) fun _ => rfl
  grind [dropViews]

@[grind ←]
theorem heeds_undefined {α : Type} (s : ScopeId) (text : String) : Heeds w c (undefined s text : Infer α) := by
  grind [undefined]

@[grind ←]
theorem heeds_freeIn (s : ScopeId) : Heeds w c (freeIn s) := by
  grind [freeIn]

/-! ### Methods and instances -/

/-- What a method remembers was made for what is asked for. -/
theorem heedsTo_method (id : MethodId) :
    HeedsTo w c (fun m => m.memo.map fun x => .made x.2 x.1) (method id) := by
  refine .rests fun _ p p' m hrun hp _ => ?_
  cases hrun
  refine ⟨.refl p, fun f hf => ?_⟩
  obtain ⟨x, hx, rfl⟩ := List.mem_map.mp hf
  cases hm : p.env.methods[id]? with
  | none =>
    rw [hm] at hx
    exact absurd hx List.not_mem_nil
  | some m =>
    rw [hm] at hx
    exact hp.filed x.1 x.2 ⟨m, Array.mem_of_getElem? hm, hx⟩

@[grind ←]
theorem heeds_method (id : MethodId) : Heeds w c (method id) :=
  (heedsTo_method id).heeds

/-- Methods change, and remember at most instances that were made for what is asked for. -/
theorem heeds_methods {f : Array Method → Array Method}
    (hf : ∀ ms, ∀ m ∈ f ms, ∀ x ∈ m.memo, (∃ m₀ ∈ ms, x ∈ m₀.memo) ∨ .made x.2 x.1 ∈ c) :
    Heeds w c (changeEnv fun e => { e with methods := f e.methods }) := by
  refine .rests fun _ p p' a hrun _ hc => ⟨?_, List.forall_mem_nil _⟩
  cases hrun
  exact .methods p fun m hm x hx => (hf _ m hm x hx).imp_right fun hmade => hc (.made x.2 x.1) hmade

theorem heeds_changeMethod (id : MethodId) {f : Method → Method}
    (hf : ∀ m, ∀ x ∈ (f m).memo, x ∈ m.memo ∨ .made x.2 x.1 ∈ c) : Heeds w c (changeMethod id f) := by
  refine heeds_methods (f := fun ms => ms.modify id f) fun ms m hm x hx => ?_
  obtain ⟨i, hi⟩ := Array.mem_iff_getElem?.mp hm
  rw [Array.getElem?_modify] at hi
  split at hi
  · obtain ⟨m₀, hm₀, rfl⟩ := Option.map_eq_some_iff.mp hi
    exact (hf m₀ x hx).imp_left fun hold => ⟨m₀, Array.mem_of_getElem? hm₀, hold⟩
  · exact .inl ⟨m, Array.mem_of_getElem? hi, hx⟩

/-- A new method remembers nothing. -/
theorem heeds_newMethod {m : Method} (hm : m.memo = []) : Heeds w c (newMethod m) := by
  refine heeds_env.bind fun _ => .bind (heeds_methods (f := (·.push m)) fun ms m' hm' x hx => ?_) fun _ => .pure _
  rcases Array.mem_push.mp hm' with hold | rfl
  · exact .inl ⟨m', hold, hx⟩
  · rw [hm] at hx
    exact absurd hx List.not_mem_nil

@[grind ←]
theorem heeds_fileUnder (id : MethodId) (m : Method) (key : GroupKey) : Heeds w c (fileUnder id m key) := by
  refine heeds_env.bind fun e => ?_
  split
  · exact .changeEnv fun _ => rfl
  · exact (Heeds.onTypes (Overload.widening_insert _ _ _)).bind fun _ => .changeEnv fun _ => rfl

theorem heeds_register {m : Method} (hm : m.memo = []) : Heeds w c (register m) := by
  refine (heeds_newMethod hm).bind fun id => ?_
  grind

@[grind ←]
theorem heeds_addMethod (owner : TypeId) (d : Definition) : Heeds w c (addMethod owner d) :=
  (heeds_register rfl).bind fun _ => .pure _

@[grind ←]
theorem heeds_addConstructor (owner : TypeId) (d : Definition) : Heeds w c (addConstructor owner d) :=
  (heeds_register rfl).bind fun _ => .pure _

@[grind ←]
theorem heeds_findGroup? (owner : TypeId) (key : GroupKey) : Heeds w c (findGroup? owner key) := by
  grind [findGroup?]

@[grind ←]
theorem heeds_groupsNamed (owner : TypeId) (name : String) : Heeds w c (groupsNamed owner name) := by
  grind [groupsNamed]

theorem heedsTo_instanceOf (id : InstanceId) : HeedsTo w c (fun a => [.result a.result]) (instanceOf id) := by
  refine .rests fun _ p p' a hrun _ _ => ?_
  cases hrun
  refine ⟨.refl p, fun f hf => ?_⟩
  obtain rfl := List.mem_singleton.mp hf
  cases h : p.env.instances[id]? with
  | none => exact .inl rfl
  | some a => exact .inr ⟨a, Array.mem_of_getElem? h, rfl⟩

@[grind ←]
theorem heeds_instanceOf (id : InstanceId) : Heeds w c (instanceOf id) :=
  (heedsTo_instanceOf id).heeds

theorem heeds_changeInstance (id : InstanceId) {f : Instance → Instance}
    (hf : ∀ a, (f a).result = a.result ∧ (f a).purpose = a.purpose) : Heeds w c (changeInstance id f) := by
  refine .rests fun _ p p' a hrun _ _ => ⟨?_, List.forall_mem_nil _⟩
  cases hrun
  exact .inst p id hf

theorem heeds_write (id : InstanceId) (source : Source) : Heeds w c (write id source) :=
  (heeds_place source).bind fun _ => .bind (heeds_changeInstance id fun _ => ⟨rfl, rfl⟩) fun _ => .pure _

theorem heeds_writeBody (id : InstanceId) (d : Definition) (given : Nat) : Heeds w c (writeBody id d given) := by
  unfold writeBody
  split
  · exact .throw _
  · exact heeds_write id _

/-- An instance is made for a receiver type and argument types. -/
theorem heedsTo_newInstance (m : MethodId) (owner : TypeId) (args : List TypeId) (free : Bindings) :
    HeedsTo w c (fun i => [.made i (owner :: args)]) (newInstance m owner args free) := by
  refine .rests fun _ p p' i hrun _ _ => ?_
  rw [run_newInstance] at hrun
  cases hrun
  refine ⟨.make p _ rfl, fun f hf => ?_⟩
  obtain rfl := List.mem_singleton.mp hf
  exact ⟨_, Array.getElem?_push_size, rfl⟩

@[grind ←]
theorem heeds_newInstance (m : MethodId) (owner : TypeId) (args : List TypeId) (free : Bindings) :
    Heeds w c (newInstance m owner args free) :=
  (heedsTo_newInstance m owner args free).heeds

/-! ### Written types -/

@[grind ←]
theorem heeds_resolveType (s : ScopeId) (t : TypeExpr) : Heeds w c (resolveType s t) := by
  grind [resolveType]

@[grind ←]
theorem heeds_resolveTypes (s : ScopeId) (ts : List TypeExpr) : Heeds w c (resolveTypes s ts) := by
  induction ts <;> grind [resolveTypes]

@[grind ←]
theorem heeds_instantiateType (template : TypeId) (args : List TypeId) :
    Heeds w c (instantiateType template args) := by
  grind [instantiateType]

@[grind ←]
theorem heeds_lookupPath (s : ScopeId) (names : List String) (typeArgs : List TypeExpr) :
    Heeds w c (lookupPath s names typeArgs) := by
  refine (heeds_scope s).bind fun sc => ?_
  -- `k` is what follows, for a name bound in scope or none
  extract_lets k
  have hk : ∀ bound, Heeds w c (k bound) := by
    intro bound
    unfold k
    split
    · exact .pure _
    · grind
  split
  · exact (heeds_freeIn s).bind fun _ => (Heeds.pure _).bind hk
  · exact (Heeds.pure _).bind hk

/-! ### Methods made on demand -/

@[grind ←]
theorem heeds_defineNew (metaclass : TypeId) (key : GroupKey) (loc : Option Location) :
    Heeds w c (defineNew metaclass key loc) := by
  refine Flow.heeds_types.bind fun t => ?_
  simp only
  split
  · exact .pure _
  · split
    · exact .pure _
    · split
      · exact .throw _
      · refine (heeds_findGroup? _ _).bind fun group => ?_
        grind

@[grind ←]
theorem heeds_defineMissing (recv : TypeId) (key : GroupKey) (loc : Option Location) :
    Heeds w c (defineMissing recv key loc) := by
  grind [defineMissing]

@[grind ←]
theorem heeds_isSynthetic (g : Group) : Heeds w c (isSynthetic g) := by
  grind [isSynthetic]

/-! ### Finding the overloads of a call -/

@[grind ←]
theorem heeds_undefinedAt {α : Type} (site : Site) (text : String) : Heeds w c (undefinedAt site text : Infer α) :=
  heeds_undefined _ _

@[grind ←]
theorem heeds_alternatives (site : Site) (recv : TypeId) : Heeds w c (alternatives site recv) := by
  grind [alternatives]

@[grind ←]
theorem heeds_unknownName {α : Type} (site : Site) (recv : TypeId) (args : List TypeId) :
    Heeds w c (unknownName site recv args : Infer α) := by
  grind [unknownName]

@[grind ←]
theorem heeds_unknownCall {α : Type} (site : Site) (recv : TypeId) (args : List TypeId) :
    Heeds w c (unknownCall site recv args : Infer α) := by
  grind [unknownCall]

@[grind ←]
theorem heeds_lookupSuper (site : Site) (declaring : TypeId) (name : String) (recv : TypeId) (args : List TypeId) :
    Heeds w c (lookupSuper site declaring name recv args) := by
  grind [lookupSuper]

@[grind ←]
theorem heeds_lookupDeclared? (site : Site) (recv : TypeId) (key : GroupKey) :
    Heeds w c (lookupDeclared? site recv key) := by
  grind [lookupDeclared?]

@[grind ←]
theorem heeds_lookupMade? (site : Site) (recv : TypeId) (key : GroupKey) : Heeds w c (lookupMade? site recv key) := by
  grind [lookupMade?]

@[grind ←]
theorem heeds_lookup (site : Site) (recv : TypeId) (args : List TypeId) : Heeds w c (lookup site recv args) := by
  grind [lookup]

theorem heeds_noOverload {α : Type} (g : Group) (owner : TypeId) (args : List TypeId) (ms : Matches MethodId) :
    Heeds w c (noOverload g owner args ms : Infer α) :=
  .failing (failing_noOverload _ _ _ _)

@[grind ←]
theorem heeds_matchCall (site : Site) (recv : TypeId) (args : List TypeId) : Heeds w c (matchCall site recv args) := by
  grind [matchCall, heeds_noOverload]

@[grind ←]
theorem heeds_shapesFor (site : Site) (recv : TypeId) (args : List TypeId) : Heeds w c (shapesFor site recv args) := by
  grind [shapesFor]

@[grind ←]
theorem heeds_shapesForAll (site : Site) (args recvs : List TypeId) : Heeds w c (shapesForAll site args recvs) := by
  induction recvs <;> grind [shapesForAll]

/-! ### Sites, dispatches and blocks -/

@[grind ←]
theorem heeds_site? (x : NodeId) : Heeds w c (site? x) :=
  .read fun _ => rfl

theorem heeds_changeSite (x : NodeId) {f : Site → Site} (hf : ∀ s, (f s).pose = s.pose) :
    Heeds w c (changeSite x f) := by
  refine .rests fun _ p p' a hrun _ _ => ⟨?_, List.forall_mem_nil _⟩
  cases hrun
  exact .site p x hf

@[grind ←]
theorem heeds_openDispatch (x : NodeId) (name : String) : Heeds w c (openDispatch x name) := by
  refine (heeds_site? x).bind fun site => ?_
  split
  · exact .pure _
  · refine heeds_env.bind fun e => (Flow.heeds_newNode _).bind fun target => ?_
    exact .bind (.changeEnv fun _ => rfl) fun _ => .bind (heeds_changeSite x fun _ => rfl) fun _ => .pure _

@[grind ←]
theorem heeds_changeDispatch (d : Nat) (f : Dispatch → Dispatch) : Heeds w c (changeDispatch d f) :=
  .changeEnv fun _ => rfl

@[grind ←]
theorem heeds_addShape (d : Nat) (shape : List TypeId) : Heeds w c (addShape d shape) := by
  grind [addShape]

@[grind ←]
theorem heeds_dispatchNode (d : Nat) : Heeds w c (dispatchNode d) :=
  .read fun _ => rfl

@[grind ←]
theorem heeds_copyBlock (b : Block Mark Placed) : Heeds w c (copyBlock b) := by
  grind [copyBlock]

/-! ### Typing by name and kind -/

@[grind ←]
theorem heeds_resolveDeclared (inst : Instance) (t : TypeExpr) : Heeds w c (resolveDeclared inst t) := by
  grind [resolveDeclared]

@[grind ←]
theorem heeds_numericLiteral (s : ScopeId) (suffix : String) (default : TypeId) (float : Bool) :
    Heeds w c (numericLiteral s suffix default float) := by
  grind [numericLiteral]

@[grind ←]
theorem heeds_ivarOwner (s : ScopeId) : Heeds w c (ivarOwner s) := by
  grind [ivarOwner]

@[grind ←]
theorem heeds_conditionFilters (s : ScopeId) (cond : Placed) : Heeds w c (conditionFilters s cond) := by
  grind [conditionFilters]

@[grind ←]
theorem heeds_clauseTypes (s : ScopeId) (conds : List Placed) : Heeds w c (clauseTypes s conds) := by
  induction conds <;> grind [clauseTypes]

@[grind ←]
theorem heeds_clauseFilters (s : ScopeId) (subject : Option Placed) (conds : List Placed) :
    Heeds w c (clauseFilters s subject conds) := by
  unfold clauseFilters
  grind

/-! ### Macros -/

@[grind ←]
theorem heeds_expandCall (x : Expansion.Call) : Heeds w c (expandCall x) := by
  have hserver : ∀ answers, Heeds w c (askServer answers x) := by
    refine fun answers => .bind (.changeEnv fun _ => rfl) fun _ => ?_
    split <;> exact .pure _
  grind [expandCall]

@[grind ←]
theorem heeds_expand (x : Expansion.Call) : Heeds w c (expand x) := by
  refine heeds_env.bind fun e => ?_
  split
  · exact .pure _
  · refine (heeds_expandCall x).bind fun tree => ?_
    split
    · exact .pure _
    · exact .bind (.changeEnv fun _ => rfl) fun _ => .pure _

@[grind ←]
theorem heeds_expansionAt (loc : Option Location) (x : Expansion.Call) : Heeds w c (expansionAt loc x) := by
  grind [expansionAt]

/-! ### Declarations -/

@[grind ←]
theorem heeds_resolveIn (lib : TypeId) (t : TypeExpr) : Heeds w c (resolveIn lib t) := by
  grind [resolveIn]

@[grind ←]
theorem heeds_paramTypes (lib : TypeId) (params : List (Param Source)) : Heeds w c (paramTypes lib params) := by
  induction params <;> grind [paramTypes]

@[grind ←]
theorem heeds_paramNodes (params : List (String × TypeId)) : Heeds w c (paramNodes params) := by
  induction params with
  | nil => exact .pure _
  | cons x params ih => exact Flow.heeds_types.bind fun _ => Flow.heeds_frozen _ _ fun _ => ih.bind fun _ => .pure _

@[grind ←]
theorem heeds_newExternal (id : MethodId) (m : Method) : Heeds w c (newExternal id m) := by
  rw [newExternal_eq]
  have htypes : Heeds w c (declaredTypes m) := by
    refine (heeds_paramTypes _ _).bind fun args => ?_
    split
    · exact .pure _
    · exact (heeds_resolveIn _ _).bind fun _ => .pure _
  refine htypes.bind fun types => (heeds_newInstance _ _ _ _).bind fun inst => (heeds_paramNodes _).bind fun params => ?_
  refine .bind (heeds_changeInstance inst fun _ => ⟨rfl, rfl⟩) fun _ => (heedsTo_instanceOf inst).andThen fun a => ?_
  refine (Flow.heeds_freeze types.2 List.mem_cons_self).bind fun _ => ?_
  exact .bind (heeds_changeMethod _ fun m x hx => .inl hx) fun _ => .pure _

@[grind ←]
theorem heeds_external (id : MethodId) : Heeds w c (external id) := by
  grind [external]

@[grind ←]
theorem heeds_externalId (id : MethodId) : Heeds w c (externalId id) := by
  grind [externalId]

@[grind ←]
theorem heeds_fun? (lib : TypeId) (name : String) : Heeds w c (fun? lib name) :=
  .read fun _ => rfl

@[grind ←]
theorem heeds_wrongArgument (site : Site) (lib : TypeId) (i : Nat) (expected got : TypeId) :
    Heeds w c (wrongArgument site lib i expected got) := by
  grind [wrongArgument]

@[grind ←]
theorem heeds_methodOwner (s : ScopeId) (receiver : String) : Heeds w c (methodOwner s receiver) := by
  grind [methodOwner]

@[grind ←]
theorem heeds_superclassOf (s : ScopeId) (superclass : Option (PathRef Mark)) :
    Heeds w c (superclassOf s superclass) := by
  cases superclass <;> grind [superclassOf]

@[grind ←]
theorem heeds_checkReopened (name : String) (super id : TypeId) : Heeds w c (checkReopened name super id) := by
  grind [checkReopened, checkSuperclass]

@[grind ←]
theorem heeds_declareClass (s : ScopeId) (name : String) (super : TypeId) (typeParams : List String) :
    Heeds w c (declareClass s name super typeParams) := by
  grind [declareClass]

@[grind ←]
theorem heeds_declareModule (s : ScopeId) (name : String) : Heeds w c (declareModule s name) := by
  grind [declareModule]

@[grind ←]
theorem heeds_currentLib (s : ScopeId) (what : String) (loc : Option Location) :
    Heeds w c (currentLib s what loc) := by
  grind [currentLib]

@[grind ←]
theorem heeds_declareLib (name : String) : Heeds w c (declareLib name) := by
  grind [declareLib]

@[grind ←]
theorem heeds_checkFunParams (lib : TypeId) (name : String) (loc : Option Location) (params : List (Param Source)) :
    Heeds w c (checkFunParams lib name loc params) := by
  induction params <;> grind [checkFunParams]

@[grind ←]
theorem heeds_addMembers (lib id : TypeId) (name : String) (loc : Option Location) (members : List (Param Source)) :
    Heeds w c (addMembers lib id name loc members) := by
  induction members <;> grind [addMembers]

@[grind ←]
theorem heeds_addAccessors (id : TypeId) (loc : Option Location) (members : List (String × TypeId)) :
    Heeds w c (addAccessors id loc members) := by
  induction members with
  | nil => exact .pure _
  | cons x members ih => exact (heeds_register rfl).bind fun _ => (heeds_register rfl).bind fun _ => ih

end Infer

namespace Engine

open Infer

@[grind ←]
theorem heeds_callingMethod? (s : ScopeId) : Heeds w c (callingMethod? s) := by
  grind [callingMethod?]

@[grind ←]
theorem heeds_superArgs (call : CallParts) (m : Method) : Heeds w c (superArgs call m) := by
  have hpassOn : ∀ loc params, Heeds w c (passOn loc params) := by
    intro loc params
    induction params <;> grind [passOn]
  unfold superArgs
  split
  · exact (hpassOn _ _).bind fun added => .bind (heeds_changeNote _ fun _ => ⟨rfl, rfl⟩) fun _ => .pure _
  · exact .pure _

@[grind ←]
theorem heeds_filtersOf (s : ScopeId) (cond : Option Placed) : Heeds w c (filtersOf s cond) := by
  cases cond <;> grind [filtersOf]

@[grind ←]
theorem heeds_noteBreak (s : ScopeId) : Heeds w c (noteBreak s) := by
  refine heeds_changeScope s (fun sc => ?_) fun sc => ?_ <;> split <;> rfl

@[grind ←]
theorem heeds_blockCopy (site : Site) : Heeds w c (blockCopy site) := by
  grind [blockCopy]

@[grind ←]
theorem heeds_openBlock (x : NodeId) : Heeds w c (openBlock x) := by
  refine heeds_env.bind fun e => ?_
  split
  · exact .pure _
  · split
    · exact .pure _
    · rename_i site _ _ _ _
      have hk : ∀ block, Heeds w c (do
          let id := (← Infer.env).blocks.size
          Infer.changeEnv fun env =>
            { env with
              sites := env.sites.modify x fun s => { s with blocks := s.blocks + 1 }
              blocks := env.blocks.push { block, caller := site.scope, call := x } }
          return some id) := by
        refine fun block => heeds_env.bind fun e => .bind ?_ fun _ => .pure _
        refine .rests fun _ p p' a hrun _ _ => ⟨?_, List.forall_mem_nil _⟩
        cases hrun
        exact (Program.Rests.site p x (f := fun s => { s with blocks := s.blocks + 1 }) fun _ => rfl).trans
          (.beside (.refl _) (.refl _) rfl)
      split
      · exact (heeds_copyBlock _).bind hk
      · exact (Heeds.pure _).bind hk

/-- The nodes of the parameters of a block may be given to calls. -/
theorem heedsTo_blockParams (vs : List (Variable Mark)) :
    HeedsTo w c (fun params => params.map (.node ·.2)) (blockParams vs) := by
  induction vs generalizing c with
  | nil => exact .pure (List.forall_mem_nil _)
  | cons v vs ih =>
    refine (Flow.heedsTo_newNode _).andThen fun id => (heeds_setDeclared _ _).andThen fun _ => ?_
    refine ih.andThen fun params => .pure fun f hf => ?_
    rcases List.mem_cons.mp hf with rfl | hf
    · exact List.mem_append_right _ List.mem_cons_self
    · exact List.mem_append_left _ hf

/-- The scope of a block is there once it is opened. -/
theorem heedsTo_openBlockScope (b : Nat) (bc : BlockContext) :
    HeedsTo w c (fun opened => [.scope opened.1]) (openBlockScope b bc) := by
  refine (heedsTo_blockParams _).andThen fun params => (heeds_scope _).andThen fun caller => ?_
  refine (heedsTo_newScope fun x hx => List.mem_append_left _ ?_).andThen fun s => ?_
  · exact List.mem_map_of_mem (List.mem_reverse.mp hx)
  · exact Heeds.andThen (.changeEnv fun _ => rfl) fun _ => .pure fun f hf => List.mem_append_left _ hf

/-- The scope of a body is there once it is opened. -/
theorem heedsTo_openBody (x : NodeId) (id : InstanceId) (inst : Instance) (name : String) :
    HeedsTo w c (fun s => [.scope s]) (openBody x id inst name) :=
  (heeds_openBlock x).andThen fun _ => Flow.heeds_types.andThen fun _ => heedsTo_newScope (List.forall_mem_nil _)

@[grind ←]
theorem heeds_typeMember (id : InstanceId) (type : TypeId) (writes : Bool) : Heeds w c (typeMember id type writes) := by
  refine (heedsTo_instanceOf id).andThen fun inst => Flow.heeds_types.bind fun t => ?_
  simp only
  split
  · exact (heeds_method _).bind fun _ => .throw _
  · exact Flow.heeds_freeze _ List.mem_cons_self

theorem heeds_freezeResult {inst : Instance} (d : Definition) (hinst : .result inst.result ∈ c) :
    Heeds w c (freezeResult inst d) := by
  unfold freezeResult
  split
  · exact .pure _
  · exact ((heeds_resolveDeclared _ _).locating _).bind fun _ => Flow.heeds_freeze _ hinst

end Engine

/-! ### Standard definitions -/

namespace Standard

theorem heeds_declareKinds (ks : List NumericKind) : Heeds w c (declareKinds ks) := by
  induction ks <;> grind [declareKinds]

theorem heeds_declareAll (owner : TypeId) (ds : List Definition) : Heeds w c (declareAll owner ds) := by
  induction ds <;> grind [declareAll]

theorem heeds_defineNumeric (n : NumericTower) : Heeds w c (defineNumeric n) := by
  have hoperations : ∀ ids ks, Heeds w c (declareOperations n ids ks) := by
    intro ids ks
    induction ks <;> grind [declareOperations, heeds_declareAll]
  refine (heeds_declareKinds _).bind fun ids => ?_
  split
  · exact .throw _
  · split
    · exact .throw _
    · exact .bind (.changeEnv fun _ => rfl) fun _ => hoperations _ _

theorem heeds_defineContainers (int : String) : Heeds w c (defineContainers int) := by
  grind [defineContainers, heeds_declareAll]

end Standard

end TypeFlow
