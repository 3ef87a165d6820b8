import TypeFlow.Inference.Calls
import TypeFlow.Inference.Blocks
import TypeFlow.Inference.Branches
import TypeFlow.Inference.Declarations
import TypeFlow.Inference.Literals
import TypeFlow.Inference.Macros
import TypeFlow.Proofs.Inference.Filing

/-!
# Steps that resolve no call

The steps of typing that reach neither the engine nor propagation: those that keep the notes, scopes, methods
and instances, resolve names and written types, declare, find overloads, and open sites and dispatches. Each
of them evolves the program, by the rules for what it is made of.
-/

namespace TypeFlow

namespace Infer

/-! ### Notes, nodes and scopes -/

theorem evolving_env : Evolving env :=
  fun _ => .refl

theorem evolving_place (t : Source) : Evolving (place t) := by
  refine evolving_env.bind fun e => ?_
  exact .bind (.changeEnv (fun _ => rfl) (fun _ => rfl) (fun _ => rfl) fun _ => rfl) fun _ => .pure _

theorem evolving_freshMark (loc : Option Location) : Evolving (freshMark loc) := by
  refine evolving_env.bind fun e => ?_
  exact .bind (.changeEnv (fun _ => rfl) (fun _ => rfl) (fun _ => rfl) fun _ => rfl) fun _ => .pure _

theorem evolving_note (occ : Nat) : Evolving (note occ) :=
  fun _ => .refl

theorem evolving_changeNote (occ : Nat) (f : Note → Note) : Evolving (changeNote occ f) :=
  .changeEnv (fun _ => rfl) (fun _ => rfl) (fun _ => rfl) fun _ => rfl

theorem evolving_nodeOf (t : Placed) : Evolving (nodeOf t) := by
  refine (evolving_note _).bind fun n => ?_
  split
  · exact .pure _
  · refine (Flow.evolving_newNode _).bind fun id => ?_
    exact (evolving_changeNote _ _).bind fun _ => .pure _

theorem evolving_nodesOf (ts : List Placed) : Evolving (nodesOf ts) := by
  induction ts with
  | nil => exact .pure _
  | cons t ts ih => exact (evolving_nodeOf t).bind fun _ => ih.bind fun _ => .pure _

/-- To look up a node may add one, and touches nothing beside the notes. -/
theorem run_nodeOf (t : Placed) (p : Program) : ∃ id g notes, id ≠ 0 ∧
    (nodeOf t).run.run p = (.ok id, { p with graph := g, env := { p.env with notes } }) := by
  have hrun : (nodeOf t).run.run p = (do
      let n := (p.env.notes[t.mark.occ]?).getD {}
      if n.node ≠ 0 then return n.node
      else
        let id ← Flow.newNode t.label
        setNode t.mark.occ id
        return id : Infer NodeId).run.run p := rfl
  rw [hrun]
  simp only
  split
  · rename_i hnode
    exact ⟨_, p.graph, p.env.notes, hnode, rfl⟩
  · exact ⟨_, _, _, Nat.succ_ne_zero _, rfl⟩

/-- Every tree has a node, and to look them up leaves the blocks of calls alone. -/
theorem nodes_of_nodesOf {ts : List Placed} {ids : List NodeId} {p p' : Program}
    (h : (nodesOf ts).run.run p = (.ok ids, p')) :
    ids.length = ts.length ∧ 0 ∉ ids ∧ p'.env.blocks = p.env.blocks := by
  induction ts generalizing p ids with
  | nil =>
    cases h
    exact ⟨rfl, List.not_mem_nil, rfl⟩
  | cons t ts ih =>
    obtain ⟨id, p₁, hfirst, h⟩ := Flow.exists_of_run_bind h
    obtain ⟨rest, p₂, hrest, hlast⟩ := Flow.exists_of_run_bind h
    cases hlast
    obtain ⟨id', g, notes, hid, hrun⟩ := run_nodeOf t p
    rw [hrun] at hfirst
    cases hfirst
    obtain ⟨hlen, hzero, hblocks⟩ := ih hrest
    refine ⟨congrArg Nat.succ hlen, fun h => ?_, hblocks⟩
    exact (List.mem_cons.mp h).elim (fun h => hid h.symm) hzero

theorem evolving_nodeOrNil (t : Option Placed) : Evolving (nodeOrNil t) := by
  cases t with
  | none => exact .pure _
  | some t => exact evolving_nodeOf t

theorem evolving_addSymbol (name : String) : Evolving (addSymbol name) := by
  refine .changeEnv (fun e => ?_) (fun e => ?_) (fun e => ?_) fun e => ?_
  · split <;> rfl
  · split <;> rfl
  · split <;> rfl
  · split <;> rfl

theorem evolving_copyBlock (b : Block Mark Placed) : Evolving (copyBlock b) := by
  refine evolving_env.bind fun e => (evolving_place _).bind fun copy => ?_
  split <;> exact .pure _

theorem evolving_scope (s : ScopeId) : Evolving (scope s) :=
  fun _ => .refl

theorem evolving_newScope (s : Scope) : Evolving (newScope s) :=
  fun _ => .beside (.change (.books rfl rfl) rfl) rfl rfl rfl (.of_push rfl rfl)

/-- A scope changes, but neither its parent nor its variables, and its views are dropped or stay. -/
theorem evolving_changeScope (s : ScopeId) {f : Scope → Scope}
    (hf : ∀ sc, (f sc).parent = sc.parent ∧ (f sc).vars = sc.vars ∧ sc.Drops (f sc)) :
    Evolving (changeScope s f) :=
  fun _ => .beside (.change (.books rfl rfl) rfl) rfl rfl rfl (.of_modify rfl hf rfl)

theorem evolving_declare (s : ScopeId) (name : String) : Evolving (declare s name) := by
  intro p
  rw [declare, run_env_bind]
  split
  · exact .refl
  · rename_i hnone
    refine .trans (.graph (.add p.graph name)) ?_
    exact .beside (.change (.books rfl rfl) rfl) rfl rfl rfl (.of_declare hnone rfl rfl)

theorem evolving_dropViews (s : ScopeId) (name : String) : Evolving (dropViews s name) := by
  refine evolving_env.bind fun e => .bind (.forIn fun x => ?_) fun _ => .pure _
  exact (evolving_changeScope x.1 (f := (·.dropViews name)) fun sc => ⟨rfl, rfl, .dropViews sc name⟩).bind fun _ => .pure _

theorem evolving_undefined {α : Type} (s : ScopeId) (text : String) :
    Evolving (undefined s text : Infer α) :=
  (evolving_scope s).bind fun _ => .throw _

theorem evolving_freeIn (s : ScopeId) : Evolving (freeIn s) := by
  refine (evolving_scope s).bind fun sc => ?_
  split
  · exact .pure _
  · refine evolving_env.bind fun e => ?_
    split <;> exact .pure _

/-! ### Methods and instances -/

theorem evolving_method (id : MethodId) : Evolving (method id) :=
  fun _ => .refl

theorem run_method {id : MethodId} {m : Method} {p : Program} (h : p.env.methods[id]? = some m) :
    (method id).run.run p = (.ok m, p) := by
  have hrun : (method id).run.run p = (.ok ((p.env.methods[id]?).getD
    { definition := { name := "" }, kind := .primitive, owner := 0 }), p) := rfl
  rw [hrun, h]
  rfl

/-- What is done with a method may rely on its being that of the number. -/
theorem evolvingFrom_method_bind {α : Type} {P : Program → Prop} {id : MethodId} {k : Method → Infer α}
    (hk : ∀ m, EvolvingFrom (fun p => P p ∧ ∀ m', p.env.methods[id]? = some m' → m' = m) (k m)) :
    EvolvingFrom P (method id >>= k) := by
  refine ((evolving_method id).from P).andThen (fun p m p' hp hrun => ?_) hk
  obtain rfl : p = p' := congrArg Prod.snd hrun
  refine ⟨hp, fun m' hm' => ?_⟩
  rw [run_method hm'] at hrun
  cases hrun
  rfl

theorem evolving_findGroup? (owner : TypeId) (key : GroupKey) : Evolving (findGroup? owner key) :=
  evolving_env.bind fun e => .onTypes (e.widening_findGroup? owner key)

theorem evolving_groupsNamed (owner : TypeId) (name : String) : Evolving (groupsNamed owner name) :=
  evolving_env.bind fun e => .onTypes (e.widening_groupsNamed owner name)

theorem evolving_instanceOf (id : InstanceId) : Evolving (instanceOf id) :=
  fun _ => .refl

/-- An instance has no body yet. -/
def Unwritten (id : InstanceId) (p : Program) : Prop :=
  ∀ a, p.env.instances[id]? = some a → a.body = none

/-- A new instance has none. -/
theorem unwritten_of_push {p q : Program} {a : Instance} (hq : q.env.instances = p.env.instances.push a)
    (ha : a.body = none) : Unwritten p.env.instances.size q := by
  intro b hb
  rw [hq, Array.getElem?_push_size] at hb
  exact Option.some.inj hb ▸ ha

/-- A step that concerns types and nodes only gives no instance a body. -/
theorem evolvingFrom_unwritten_bind {α β : Type} {id : InstanceId} {m : Infer α} {k : α → Infer β} (hm : Evolving m)
    (hbeside : Detached m) (hk : ∀ a, EvolvingFrom (Unwritten id) (k a)) : EvolvingFrom (Unwritten id) (m >>= k) := by
  refine (hm.from _).andThen (fun p a p' hp hrun => ?_) hk
  rw [Unwritten, hbeside.of_run hrun]
  exact hp

/-- An instance that has no body yet gets one. -/
theorem evolving_write (id : InstanceId) (source : Source) : EvolvingFrom (Unwritten id) (write id source) := by
  refine ((evolving_place source).from _).andThen (Q := fun _ => Unwritten id) ?_ fun body p hp => ?_
  · intro p body p' hp hrun
    cases hrun
    exact hp
  · exact .beside (.edit id fun a ha => .written (hp a ha) body) rfl rfl rfl (.of_named rfl)

theorem evolving_writeBody (id : InstanceId) (d : Definition) (given : Nat) :
    EvolvingFrom (Unwritten id) (writeBody id d given) := by
  unfold writeBody
  split
  · exact (Evolving.throw _).from _
  · exact evolving_write id _

/-- A new instance, as it is when it is made. -/
def created (m : MethodId) (owner : TypeId) (args : List TypeId) (free : Bindings) (p : Program) :
    Instance :=
  let d := ((p.env.methods[m]?).getD
    { definition := { name := "" }, kind := .primitive, owner := 0 }).definition
  let signature := describeCall p.types owner d.name args
  { method := m, owner, args, free, result := (p.graph.add signature).1, signature }

theorem run_newInstance (m : MethodId) (owner : TypeId) (args : List TypeId) (free : Bindings)
    (p : Program) :
    let a := created m owner args free p
    (newInstance m owner args free).run.run p = (.ok p.env.instances.size,
      { p with
        graph := (p.graph.add a.signature).2
        env := { p.env with instances := p.env.instances.push a } }) :=
  rfl

/-! ### Written types -/

theorem evolving_resolveType (s : ScopeId) (t : TypeExpr) : Evolving (resolveType s t) := by
  refine (evolving_freeIn s).bind fun free => ?_
  split
  · exact .pure _
  · refine (evolving_scope s).bind fun sc => ?_
    refine .bind (.onTypes (Overload.widening_resolve _ _ _)) fun found => ?_
    split
    · exact .pure _
    · exact evolving_undefined _ _

theorem evolving_resolveTypes (s : ScopeId) (ts : List TypeExpr) : Evolving (resolveTypes s ts) := by
  induction ts with
  | nil => exact .pure _
  | cons t ts ih => exact (evolving_resolveType s t).bind fun _ => ih.bind fun _ => .pure _

theorem evolving_instantiateType (template : TypeId) (args : List TypeId) :
    Evolving (instantiateType template args) := by
  refine .bind (.onTypes (Table.widening_instantiate _ _)) fun result => ?_
  split
  · exact .pure _
  · exact .throw _

theorem evolving_lookupPath (s : ScopeId) (names : List String) (typeArgs : List TypeExpr) :
    Evolving (lookupPath s names typeArgs) := by
  refine (evolving_scope s).bind fun sc => ?_
  -- `k` is what follows, for a name bound in scope or none
  extract_lets k
  have hk : ∀ bound, Evolving (k bound) := by
    intro bound
    unfold k
    split
    · exact .pure _
    · refine Flow.evolving_types.bind fun t => ?_
      split
      · exact evolving_undefined _ _
      · split
        · exact .pure _
        · exact (evolving_resolveTypes s typeArgs).bind fun _ => evolving_instantiateType _ _
  split
  · exact (evolving_freeIn s).bind fun _ => (Evolving.pure _).bind hk
  · exact (Evolving.pure _).bind hk

/-! ### Methods made on demand -/

theorem evolving_defineNew (metaclass : TypeId) (key : GroupKey) (loc : Option Location) :
    Evolving (defineNew metaclass key loc) := by
  refine Flow.evolving_types.bind fun t => ?_
  simp only
  split
  · exact .pure _
  · split
    · exact .pure _
    · split
      · exact .throw _
      · refine (evolving_findGroup? _ _).bind fun group => ?_
        split
        · split
          · exact .pure _
          · refine (evolving_groupsNamed _ _).bind fun groups => ?_
            split
            · exact .pure _
            · exact (evolving_addConstructor _ _).bind fun _ => evolving_findGroup? _ _
        · refine .bind (.forIn fun c => ?_) fun _ => evolving_findGroup? _ _
          refine (evolving_method _).bind fun m => ?_
          exact (evolving_addConstructor _ _).bind fun _ => .pure _

theorem evolving_defineMissing (recv : TypeId) (key : GroupKey) (loc : Option Location) :
    Evolving (defineMissing recv key loc) := by
  unfold defineMissing
  split
  · exact .pure _
  · refine (evolving_findGroup? _ _).bind fun group => ?_
    split
    · exact .pure _
    · refine (evolving_addSymbol _).bind fun _ => (evolving_addMethod _ _).bind fun _ => ?_
      exact evolving_findGroup? _ _

theorem evolving_isSynthetic (g : Group) : Evolving (isSynthetic g) :=
  evolving_env.bind fun _ => .pure _

/-! ### Finding the overloads of a call -/

theorem evolving_alternatives (site : Site) (recv : TypeId) : Evolving (alternatives site recv) := by
  refine (evolving_groupsNamed _ _).bind fun own => ?_
  extract_lets k
  have hk : ∀ top, Evolving (k top) := by
    refine fun top => Flow.evolving_types.bind fun t => ?_
    simp only
    split
    · exact (evolving_groupsNamed _ _).bind fun _ => .pure _
    · exact .pure _
  split
  · exact (evolving_groupsNamed _ _).bind hk
  · exact (Evolving.pure _).bind hk

theorem evolving_unknownName {α : Type} (site : Site) (recv : TypeId) (args : List TypeId) :
    Evolving (unknownName site recv args : Infer α) := by
  unfold unknownName
  simp only
  split
  · exact Flow.evolving_types.bind fun _ => evolving_undefined _ _
  · split <;> exact evolving_undefined _ _

theorem evolving_unknownCall {α : Type} (site : Site) (recv : TypeId) (args : List TypeId) :
    Evolving (unknownCall site recv args : Infer α) := by
  refine (evolving_alternatives site recv).bind fun keys => ?_
  split
  · exact evolving_unknownName _ _ _
  · split
    · split <;> exact .throw _
    · exact .throw _

theorem evolving_lookupSuper (site : Site) (declaring : TypeId) (name : String) (recv : TypeId)
    (args : List TypeId) : Evolving (lookupSuper site declaring name recv args) := by
  refine evolving_env.bind fun e => ?_
  refine .bind (.onTypes (e.widening_findSuperGroup? _ _ _)) fun group => ?_
  split
  · exact .pure _
  · exact Flow.evolving_types.bind fun _ => evolving_undefined _ _

theorem evolving_lookupDeclared? (site : Site) (recv : TypeId) (key : GroupKey) :
    Evolving (lookupDeclared? site recv key) := by
  refine (evolving_findGroup? _ _).bind fun group => ?_
  extract_lets k
  have hk : ∀ own, Evolving (k own) := by
    intro own
    unfold k
    split
    · exact .pure _
    · split
      · exact (evolving_findGroup? _ _).bind fun _ => .pure _
      · exact .pure _
  split
  · refine .bind ?_ fun inherited => ?_
    · refine Flow.evolving_types.bind fun t => ?_
      split
      · exact evolving_isSynthetic _
      · exact .pure _
    · split <;> exact (Evolving.pure _).bind hk
  · exact (Evolving.pure _).bind hk

theorem evolving_lookupMade? (site : Site) (recv : TypeId) (key : GroupKey) :
    Evolving (lookupMade? site recv key) := by
  refine Flow.evolving_types.bind fun t => ?_
  extract_lets k
  have hk : ∀ made, Evolving (k made) := by
    intro made
    unfold k
    split
    · exact .pure _
    · exact evolving_defineMissing _ _ _
  split
  · exact (evolving_defineNew _ _ _).bind hk
  · exact (Evolving.pure _).bind hk

theorem evolving_lookup (site : Site) (recv : TypeId) (args : List TypeId) :
    Evolving (lookup site recv args) := by
  unfold lookup
  split
  · exact evolving_lookupSuper _ _ _ _ _
  · refine (evolving_lookupDeclared? _ _ _).bind fun declared => ?_
    split
    · exact .pure _
    · refine (evolving_lookupMade? _ _ _).bind fun made => ?_
      split
      · exact .pure _
      · exact evolving_unknownCall _ _ _

theorem evolving_firstRejected (owner : TypeId) (i : Nat) (args : List TypeId)
    (params : List (Option TypeExpr)) : Evolving (firstRejected owner i args params) := by
  induction args generalizing i params with
  | nil => exact .pure _
  | cons a args ih =>
    cases params with
    | nil => exact .pure _
    | cons p params =>
      refine .bind (.onTypes (Overload.widening_restrictParam _ _ _ _ [])) fun got => ?_
      simp only
      split
      · exact .pure _
      · exact ih _ _

theorem evolving_rejectedArgument (owner : TypeId) (name : String) (i : Nat) (arg : TypeId)
    (restriction : Option TypeExpr) : Evolving (rejectedArgument owner name i arg restriction) := by
  unfold rejectedArgument
  extract_lets k
  have hk : ∀ wanted, Evolving (k wanted) :=
    fun _ => Flow.evolving_types.bind fun _ => .pure _
  split
  · exact (Evolving.pure _).bind hk
  · exact (Evolving.onTypes (Overload.widening_resolve _ _ _)).bind hk

theorem evolving_singlePrimitive? (g : Group) : Evolving (singlePrimitive? g) := by
  unfold singlePrimitive?
  split
  · refine (evolving_method _).bind fun m => ?_
    split <;> exact .pure _
  · exact .pure _

theorem evolving_noCandidate (g : Group) (owner : TypeId) (args : List TypeId)
    (cover : Option Cover) : Evolving (noCandidate g owner args cover) :=
  Flow.evolving_types.bind fun _ => evolving_env.bind fun _ => .pure _

theorem evolving_noOverload {α : Type} (g : Group) (owner : TypeId) (args : List TypeId)
    (ms : Matches MethodId) : Evolving (noOverload g owner args ms : Infer α) := by
  unfold noOverload
  extract_lets l k
  have hl : ∀ rejected, Evolving (l rejected) := by
    intro rejected
    unfold l
    split
    · exact (evolving_rejectedArgument _ _ _ _ _).bind fun _ => .throw _
    · exact (evolving_noCandidate _ _ _ _).bind fun _ => .throw _
  have hk : ∀ primitive, Evolving (k primitive) := by
    intro primitive
    unfold k
    split
    · exact (Evolving.pure _).bind hl
    · exact (evolving_firstRejected _ _ _ _).bind hl
  split
  · exact (evolving_singlePrimitive? g).bind hk
  · exact (Evolving.pure _).bind hk

theorem evolving_matchCall (site : Site) (recv : TypeId) (args : List TypeId) :
    Evolving (matchCall site recv args) := by
  refine (evolving_lookup site recv args).bind fun found => ?_
  refine .bind (.onTypes (Overload.widening_select _ _ _ _)) fun ms => ?_
  split
  · exact .pure _
  · exact evolving_noOverload _ _ _ _

/-! ### Sites -/

theorem evolving_site? (x : NodeId) : Evolving (site? x) :=
  fun _ => .refl

/-- A change of a site that leaves its dispatch alone. -/
theorem evolving_changeSite (x : NodeId) {f : Site → Site} (hf : ∀ s, (f s).dispatch = s.dispatch) :
    Evolving (changeSite x f) := by
  intro p
  refine .single (.change (.sites fun y s hs => .inr ?_) rfl) (.of_sites rfl (fun y hy => ?_) rfl)
    (.of_named rfl)
  · rw [Slots.get?_modify] at hs
    split at hs
    · obtain ⟨z, hz, rfl⟩ := Option.map_eq_some_iff.mp hs
      exact ⟨z, hz, (hf z).symm⟩
    · exact ⟨s, hs, rfl⟩
  · exact Slots.get?_modify_eq_none_iff.mp hy

theorem evolving_receiverNode (obj : Option Placed) : Evolving (receiverNode obj) := by
  cases obj with
  | none => exact .pure _
  | some t => exact evolving_nodeOf t

theorem evolving_newSite (call : CallParts) (s : ScopeId) (super : Option (TypeId × String)) :
    Evolving (newSite call s super) := by
  refine (evolving_nodeOf _).bind fun node => (evolving_receiverNode _).bind fun obj => ?_
  refine (evolving_nodesOf _).bind fun args =>
    .bind (fun p => .single (.change (.sites fun y z hz => ?_) rfl) (.of_sites rfl (fun y hy => ?_) rfl)
      (.of_named rfl)) fun _ => .bind (.changeGraph fun g => .watch g _ _) fun _ => .pure _
  · rw [Slots.get?_set] at hz
    -- a new site has no dispatch, all others are as before
    split at hz
    · obtain rfl := Option.some.inj hz
      exact .inl rfl
    · exact .inr ⟨z, hz, rfl⟩
  · exact Slots.get?_of_set_eq_none hy

theorem evolving_receiverType (site : Site) : Evolving (receiverType site) := by
  unfold receiverType
  split
  · exact (evolving_scope _).bind fun _ => .pure _
  · exact Flow.evolving_typeOf _

theorem evolving_typesOf? (ids : List NodeId) : Evolving (typesOf? ids) := by
  induction ids with
  | nil => exact .pure _
  | cons id ids ih =>
    refine (Flow.evolving_typeOf id).bind fun t => ?_
    split
    · exact .pure _
    · exact ih.bind fun _ => .pure _

/-! ### Typing by name and kind -/

theorem evolving_resolveDeclared (inst : Instance) (t : TypeExpr) :
    Evolving (resolveDeclared inst t) := by
  unfold resolveDeclared
  split
  · exact .pure _
  · refine .bind (.onTypes (Overload.widening_resolve _ _ _)) fun found => ?_
    split
    · exact .pure _
    · exact .throw _

theorem detached_resolveDeclared (inst : Instance) (t : TypeExpr) : Detached (resolveDeclared inst t) := by
  unfold resolveDeclared
  split
  · exact .pure _
  · refine .bind (.onTypes _) fun found => ?_
    split
    · exact .pure _
    · exact .throw _

theorem evolving_numericLiteral (s : ScopeId) (suffix : String) (default : TypeId) (float : Bool) :
    Evolving (numericLiteral s suffix default float) := by
  unfold numericLiteral
  split
  · split
    · exact .throw _
    · exact .pure _
  · refine Flow.evolving_types.bind fun t => ?_
    simp only
    split
    · exact evolving_undefined _ _
    · split
      · exact .throw _
      · exact .pure _

theorem evolving_ivarOwner (s : ScopeId) : Evolving (ivarOwner s) := by
  refine (evolving_scope s).bind fun sc => Flow.evolving_types.bind fun t => ?_
  split
  · exact evolving_undefined _ _
  · split
    · exact evolving_undefined _ _
    · split
      · exact evolving_undefined _ _
      · exact .pure _
    · exact evolving_undefined _ _

/-! ### Conditions -/

theorem evolving_conditionFilters (s : ScopeId) (cond : Placed) :
    Evolving (conditionFilters s cond) := by
  unfold conditionFilters
  split
  · exact .pure _
  · split <;> exact .pure _
  · split
    · exact .pure _
    · exact (evolving_resolveType _ _).bind fun _ => .pure _
  · split <;> exact .pure _
  · exact .pure _

theorem evolving_clauseTypes (s : ScopeId) (conds : List Placed) : Evolving (clauseTypes s conds) := by
  induction conds with
  | nil => exact .pure _
  | cons c conds ih =>
    unfold clauseTypes
    split
    · refine (evolving_lookupPath _ _ _).bind fun t => Flow.evolving_types.bind fun types => ?_
      split
      · exact .pure _
      · exact .pure _
      · exact ih.bind fun _ => .pure _
    · exact .pure _

theorem evolving_clauseFilters (s : ScopeId) (subject : Option Placed) (conds : List Placed) :
    Evolving (clauseFilters s subject conds) := by
  unfold clauseFilters
  split
  · exact .pure _
  · exact .pure _
  · refine (evolving_clauseTypes _ _).bind fun targets => ?_
    split
    · exact .pure _
    · exact .bind (.onTypes (Table.widening_unionOf _)) fun _ => .pure _

/-! ### Macros -/

theorem evolving_askServer (answers : Request → Answer) (c : Expansion.Call) : Evolving (askServer answers c) := by
  refine .bind (.changeEnv (fun _ => rfl) (fun _ => rfl) (fun _ => rfl) fun _ => rfl) fun _ => ?_
  split <;> exact .pure _

theorem evolving_expandCall (c : Expansion.Call) : Evolving (expandCall c) := by
  refine evolving_env.bind fun e => ?_
  split
  · exact .pure _
  · exact .pure _
  · exact evolving_askServer _ _

/-- Whatever is asked of an expander, macros and expansions stay as they are. -/
theorem books_of_expandCall {c : Expansion.Call} {p p' : Program} {r : Except Failure Source}
    (h : (expandCall c).run.run p = (.ok r, p')) :
    p'.env.books = p.env.books ∧
      (p.env.expander = .substitute → r = (Expansion.substitute c).mapError .plain) := by
  unfold expandCall at h
  rw [run_env_bind] at h
  split at h
  · rename_i hnone
    cases h
    exact ⟨rfl, fun hsub => by rw [hnone] at hsub; cases hsub⟩
  · cases h
    exact ⟨rfl, fun _ => rfl⟩
  · rename_i answers hserver
    obtain ⟨_, q, hasked, h⟩ := Flow.exists_of_run_bind h
    cases hasked
    refine ⟨?_, fun hsub => by rw [hserver] at hsub; cases hsub⟩
    split at h <;> cases h <;> rfl

/-- An expansion is remembered if there was none for its key. -/
theorem evolving_expand (c : Expansion.Call) : EvolvingFrom (·.env.Latest c) (expand c) := by
  intro p hp
  unfold expand
  rw [run_env_bind]
  split
  · exact .refl
  rename_i hnone
  refine ((evolving_expandCall c).from (· = p)).andThen (Q := fun r q => q.env.books = p.env.books ∧
    (p.env.expander = .substitute → r = (Expansion.substitute c).mapError .plain)) ?_ (fun r => ?_) p rfl
  · rintro q r q' rfl h
    exact books_of_expandCall h
  rintro q ⟨hbooks, hr⟩
  simp only [Env.books, Prod.mk.injEq] at hbooks
  obtain ⟨hmacros, hexpander, hexpansions, -⟩ := hbooks
  split
  · exact .refl
  · rename_i x hx
    refine .beside (.change (.books rfl rfl) rfl) rfl rfl rfl (.of_remembers ?_ rfl)
    refine .of_expansion (hexpansions ▸ hnone) ⟨c, q.env.macros, List.suffix_refl _, hmacros ▸ hp, rfl, ?_⟩ rfl
    intro hsub
    rw [Expansion.fresh, ← hr (hexpander ▸ hsub), hx]

theorem evolving_expansionAt (loc : Option Location) (c : Expansion.Call) :
    EvolvingFrom (·.env.Latest c) (expansionAt loc c) := by
  intro p hp
  unfold expansionAt
  rw [run_env_bind]
  split
  · exact .refl
  · refine ((evolving_expand c).andThen (Q := fun _ _ => True) (fun _ _ _ _ _ => trivial) fun result => ?_) p hp
    refine Evolving.from ?_ _
    split
    · exact .pure _
    · exact .throw _

/-! ### Declarations -/

theorem evolving_resolveIn (lib : TypeId) (e : TypeExpr) : Evolving (resolveIn lib e) := by
  refine .bind (.onTypes (Overload.widening_resolve _ _ _)) fun found => ?_
  split
  · exact .pure _
  · exact .throw _

theorem evolving_methodOwner (s : ScopeId) (receiver : String) : Evolving (methodOwner s receiver) := by
  refine (evolving_scope s).bind fun sc => ?_
  simp only
  split
  · exact .pure _
  · split
    · exact .onTypes (Table.widening_intern _)
    · refine Flow.evolving_types.bind fun t => ?_
      split
      · exact evolving_undefined _ _
      · exact .onTypes (Table.widening_intern _)

theorem evolving_superclassOf (s : ScopeId) (p : Option (PathRef Mark)) :
    Evolving (superclassOf s p) := by
  cases p with
  | none => exact .pure _
  | some p =>
    refine ((evolving_lookupPath _ _ _).locating _).bind fun id => Flow.evolving_types.bind fun t => ?_
    split
    · split
      · exact .throw _
      · exact .pure _
    · exact .throw _

theorem evolving_checkSuperclass (t : Table) (name : String) (super actual : TypeId) :
    Evolving (checkSuperclass t name super actual) := by
  unfold checkSuperclass
  split
  · exact .throw _
  · exact .pure _

theorem evolving_checkReopened (name : String) (super id : TypeId) :
    Evolving (checkReopened name super id) := by
  refine Flow.evolving_types.bind fun t => ?_
  split
  · exact evolving_checkSuperclass _ _ _ _
  · split
    · exact .throw _
    · exact evolving_checkSuperclass _ _ _ _
  · exact .throw _

theorem evolving_declareClass (s : ScopeId) (name : String) (super : TypeId)
    (typeParams : List String) : Evolving (declareClass s name super typeParams) := by
  refine Flow.evolving_types.bind fun t => (evolving_scope s).bind fun sc => ?_
  simp only
  split
  · exact (evolving_checkReopened _ _ _).bind fun _ => .pure _
  · exact .onTypes (Table.widening_defineClass _ _ _)

theorem evolving_declareModule (s : ScopeId) (name : String) : Evolving (declareModule s name) := by
  refine Flow.evolving_types.bind fun t => (evolving_scope s).bind fun sc => ?_
  simp only
  split
  · split
    · exact .pure _
    · exact .throw _
  · exact .onTypes (Table.widening_defineModule _)

theorem evolving_currentLib (s : ScopeId) (what : String) (loc : Option Location) :
    Evolving (currentLib s what loc) := by
  refine (evolving_scope s).bind fun sc => Flow.evolving_types.bind fun t => ?_
  split
  · exact .pure _
  · exact .throw _

theorem evolving_declareLib (name : String) : Evolving (declareLib name) := by
  refine Flow.evolving_types.bind fun t => ?_
  split
  · exact .onTypes (Table.widening_defineLib _)
  · split
    · exact .pure _
    · exact .throw _

theorem evolving_checkFunParams (lib : TypeId) (name : String) (loc : Option Location)
    (params : List (Param Source)) : Evolving (checkFunParams lib name loc params) := by
  induction params with
  | nil => exact .pure _
  | cons p params ih =>
    unfold checkFunParams
    split
    · exact .throw _
    · exact (evolving_resolveIn _ _).bind fun _ => ih

theorem evolving_addMembers (lib id : TypeId) (name : String) (loc : Option Location)
    (members : List (Param Source)) : Evolving (addMembers lib id name loc members) := by
  induction members with
  | nil => exact .pure _
  | cons p members ih =>
    unfold addMembers
    split
    · exact .throw _
    · refine (evolving_resolveIn _ _).bind fun type => ?_
      exact .bind (.onTypes (Table.widening_addMember _ _ _)) fun _ => ih

theorem evolving_addAccessors (id : TypeId) (loc : Option Location)
    (members : List (String × TypeId)) : Evolving (addAccessors id loc members) := by
  induction members with
  | nil => exact .pure _
  | cons m members ih =>
    exact (evolving_register rfl rfl rfl).bind fun _ => (evolving_register rfl rfl rfl).bind fun _ => ih

/-! ### Foreign functions -/

theorem evolving_paramTypes (lib : TypeId) (params : List (Param Source)) :
    Evolving (paramTypes lib params) := by
  induction params with
  | nil => exact .pure _
  | cons p params ih =>
    unfold paramTypes
    simp only
    split
    · exact ih.bind fun _ => .pure _
    · exact (evolving_resolveIn _ _).bind fun _ => ih.bind fun _ => .pure _

/-- Nodes for parameters are all that is made for them. -/
theorem run_paramNodes (params : List (String × TypeId)) (p : Program) :
    ∃ ids g, (paramNodes params).run.run p = (.ok ids, { p with graph := g }) ∧ p.graph.Keeps g := by
  induction params generalizing p with
  | nil => exact ⟨[], p.graph, rfl, .refl _⟩
  | cons x params ih =>
    obtain ⟨name, t⟩ := x
    let added := p.graph.add (name ++ " : " ++ p.types.name t)
    obtain ⟨ids, g, hrest, hkeeps⟩ := ih { p with graph := added.2.freeze added.1 t }
    have hadded : p.graph.Keeps (added.2.freeze added.1 t) :=
      (Graph.Keeps.add _ _).trans (.modify_beside _ _ fun _ => rfl)
    exact ⟨added.1 :: ids, g, Flow.run_bind_of_ok hrest fun ids => Pure.pure (added.1 :: ids),
      hadded.trans hkeeps⟩

theorem detached_resolveIn (lib : TypeId) (e : TypeExpr) : Detached (resolveIn lib e) := by
  refine .bind (.onTypes _) fun found => ?_
  split
  · exact .pure _
  · exact .throw _

theorem detached_paramTypes (lib : TypeId) (params : List (Param Source)) :
    Detached (paramTypes lib params) := by
  induction params with
  | nil => exact .pure _
  | cons p params ih =>
    unfold paramTypes
    simp only
    split
    · exact ih.bind fun _ => .pure _
    · exact (detached_resolveIn _ _).bind fun _ => ih.bind fun _ => .pure _

/-- The types of the parameters and of the result that a foreign function declares. -/
def declaredTypes (m : Method) : Infer (List TypeId × TypeId) := do
  let args ← paramTypes m.owner m.definition.params
  match m.definition.result with
  | none => return (args, Builtin.void)
  | some e => return (args, ← resolveIn m.owner e)

/-- Makes the instance of a foreign function whose types are known. -/
def installExternal (id : MethodId) (m : Method) (args : List TypeId) (result : TypeId) :
    Infer InstanceId := do
  let inst ← newInstance id m.owner args []
  let params ← paramNodes ((m.definition.params.map (·.name)).zip args)
  changeInstance inst fun i => { i with params }
  Flow.freeze (← instanceOf inst).result result
  changeMethod id fun m => { m with external := some inst }
  return inst

theorem newExternal_eq (id : MethodId) (m : Method) :
    newExternal id m = declaredTypes m >>= fun types => installExternal id m types.1 types.2 := by
  unfold newExternal declaredTypes
  rw [bind_assoc]
  funext args
  cases m.definition.result with
  | none => simp only [pure_bind, installExternal]
  | some e => simp only [bind_assoc, pure_bind, installExternal]

theorem evolving_declaredTypes (m : Method) : Evolving (declaredTypes m) := by
  refine (evolving_paramTypes _ _).bind fun args => ?_
  split
  · exact .pure _
  · exact (evolving_resolveIn _ _).bind fun _ => .pure _

theorem detached_declaredTypes (m : Method) : Detached (declaredTypes m) := by
  refine (detached_paramTypes _ _).bind fun args => ?_
  split
  · exact .pure _
  · exact (detached_resolveIn _ _).bind fun _ => .pure _

/-- The instance of a foreign function is made and recorded; beside that there are its nodes. -/
theorem run_installExternal (id : MethodId) (m : Method) (args : List TypeId) (result : TypeId)
    (p : Program) : ∃ params g, (installExternal id m args result).run.run p =
      (.ok p.env.instances.size, { p with
        graph := g
        env := { p.env with
          instances := (p.env.instances.push (created id m.owner args [] p)).modify
            p.env.instances.size fun i => { i with params }
          methods := p.env.methods.modify id fun m =>
            { m with external := some p.env.instances.size } } }) ∧ p.graph.Keeps g := by
  obtain ⟨params, g, hnodes, hkeeps⟩ := run_paramNodes ((m.definition.params.map (·.name)).zip args)
    ((newInstance id m.owner args []).run.run p).2
  refine ⟨params, _, Flow.run_bind_of_ok hnodes _, ?_⟩
  exact ((Graph.Keeps.add _ _).trans hkeeps).trans (.modify_beside _ _ fun _ => rfl)

/-- A foreign function is filed and has no instance yet. -/
def Unmade (id : MethodId) (p : Program) : Prop :=
  p.Names id ∧ ∀ m, p.env.methods[id]? = some m → m.external = none

theorem evolving_newExternal (id : MethodId) (m : Method) :
    EvolvingFrom (Unmade id) (newExternal id m) := by
  rw [newExternal_eq]
  refine ((evolving_declaredTypes m).from _).andThen (Q := fun _ => Unmade id) ?_ fun types => ?_
  · intro p types p' hp hrun
    rw [Unmade, Program.Names, (detached_declaredTypes m).of_run hrun]
    exact hp
  · rintro p ⟨hnames, hnone⟩
    obtain ⟨params, g, hrun, hkeeps⟩ := run_installExternal id m types.1 types.2 p
    rw [hrun]
    -- the nodes first, then the instance with its entry, then its parameters
    have hgraph : Acts p { p with graph := g } := .single (.change (.graph g) rfl)
    have hmade := hgraph.tail (.foreign (created id m.owner types.1 [] p) hnames hnone)
    have hedited := hmade.tail
      (.edit p.env.instances.size (f := fun i => { i with params }) fun _ _ => ⟨rfl, rfl, fun _ h => h⟩)
    exact ⟨⟨hedited, .of_graph hkeeps rfl rfl⟩, .of_named rfl⟩

theorem evolving_external (id : MethodId) : EvolvingFrom (·.Names id) (external id) := by
  refine evolvingFrom_method_bind fun m => ?_
  split
  · exact (evolving_instanceOf _).from _
  · rename_i hnone
    intro p hp
    refine ((evolving_newExternal id m).andThen (Q := fun _ _ => True) (fun _ _ _ _ _ => trivial)
      fun i => (evolving_instanceOf i).from _) p ⟨hp.1, fun m' hm' => ?_⟩
    rw [hp.2 m' hm', hnone]

theorem evolving_externalId (id : MethodId) : EvolvingFrom (·.Names id) (externalId id) :=
  (evolving_external id).bind (Program.lasting_names id) fun _ =>
    ((evolving_method id).bind fun _ => .pure _).from _

theorem evolving_fun? (lib : TypeId) (name : String) : Evolving (fun? lib name) :=
  fun _ => .refl

theorem evolving_wrongArgument (site : Site) (lib : TypeId) (i : Nat) (expected got : TypeId) :
    Evolving (wrongArgument site lib i expected got) :=
  Flow.evolving_types.bind fun _ => .pure _

/-! ### Dispatches -/

theorem evolving_shapesFor (site : Site) (recv : TypeId) (args : List TypeId) :
    Evolving (shapesFor site recv args) := by
  refine (evolving_matchCall _ _ _).bind fun found => ?_
  simp only
  split
  · exact Flow.evolving_types.bind fun _ => .pure _
  · exact .pure _

theorem evolving_shapesForAll (site : Site) (args recvs : List TypeId) :
    Evolving (shapesForAll site args recvs) := by
  induction recvs with
  | nil => exact .pure _
  | cons r recvs ih => exact (evolving_shapesFor _ _ _).bind fun _ => ih.bind fun _ => .pure _

theorem evolving_openDispatch (x : NodeId) (name : String) : Evolving (openDispatch x name) := by
  refine (evolving_site? x).bind fun site => ?_
  split
  · exact .pure _
  · -- the dispatch and the site's reference to it are one change
    intro p
    refine .trans (.graph (.add p.graph ("dispatch " ++ name))) ?_
    refine .single (.change (.opened x name _) rfl) (.of_sites rfl (fun y hy => ?_) rfl) (.of_named rfl)
    exact Slots.get?_modify_eq_none_iff.mp hy

theorem evolving_addShape (d : Nat) (shape : List TypeId) : Evolving (addShape d shape) := by
  refine evolving_env.bind fun e => ?_
  split
  · exact .pure _
  · split
    · exact .pure _
    · exact .bind (fun _ => .beside (.change (.shape d shape) rfl) rfl rfl rfl (.of_named rfl)) fun _ => .pure _

theorem evolving_dispatchNode (d : Nat) : Evolving (dispatchNode d) :=
  fun _ => .refl

end Infer

namespace Engine

open Infer

/-! ### Blocks, bodies and calls of `super` -/

theorem evolving_passOn (loc : Option Location) (params : List (Param Source)) :
    Evolving (passOn loc params) := by
  induction params with
  | nil => exact .pure _
  | cons p params ih => exact (evolving_freshMark loc).bind fun _ => ih.bind fun _ => .pure _

theorem evolving_callingMethod? (s : ScopeId) : Evolving (callingMethod? s) := by
  refine (evolving_scope s).bind fun sc => ?_
  split
  · exact .pure _
  · refine (evolving_instanceOf _).bind fun inst => (evolving_method _).bind fun m => ?_
    split <;> exact .pure _

theorem evolving_superArgs (call : CallParts) (m : Method) : Evolving (superArgs call m) := by
  unfold superArgs
  split
  · exact (evolving_passOn _ _).bind fun _ => (evolving_changeNote _ _).bind fun _ => .pure _
  · exact .pure _

theorem evolving_filtersOf (s : ScopeId) (cond : Option Placed) : Evolving (filtersOf s cond) := by
  cases cond with
  | none => exact .pure _
  | some c => exact evolving_conditionFilters s c

theorem evolving_noteBreak (s : ScopeId) : Evolving (noteBreak s) :=
  evolving_changeScope s fun sc => by
    split
    · exact ⟨rfl, rfl, .refl sc⟩
    · exact ⟨rfl, rfl, .of_filters rfl⟩

/-- Parameters become nodes, one for each, which the notes refer to. -/
theorem run_blockParams (vs : List (Variable Mark)) (p : Program) :
    ∃ params g notes, (blockParams vs).run.run p =
        (.ok params, { p with graph := g, env := { p.env with notes } }) ∧ p.graph.Keeps g ∧
      params.map Prod.fst = vs.map Variable.name ∧ ∀ x ∈ params.map Prod.snd, 0 < x ∧ x < g.size := by
  induction vs generalizing p with
  | nil => exact ⟨[], p.graph, p.env.notes, rfl, .refl _, rfl, by simp⟩
  | cons v vs ih =>
    let x := (p.graph.add v.name).1
    let q : Program := ((Flow.newNode v.name >>= fun id => setDeclared v.mark.occ id).run.run p).2
    obtain ⟨params, g, notes, hrun, hkeeps, hnames, hnodes⟩ := ih q
    refine ⟨(v.name, x) :: params, g, notes,
      Flow.run_bind_of_ok hrun fun rest => Pure.pure ((v.name, x) :: rest),
      (Graph.Keeps.add _ _).trans hkeeps, congrArg (v.name :: ·) hnames, ?_⟩
    intro y hy
    rcases List.mem_cons.mp hy with rfl | hy
    · exact ⟨Nat.succ_pos _, (Graph.add_lt_size p.graph v.name).trans_le hkeeps.size⟩
    · exact hnodes y hy

/-- The scope that is opened for a block, with the nodes of its parameters. -/
def blockScope (e : Env) (bc : BlockContext) (params : List (String × NodeId)) : Scope :=
  { ((e.scopes[bc.caller]?).getD { self := 0, home := 0 }).child bc.caller with
    vars := params.reverse, loops := [{ target := bc.call }] }

/-- A block gets a scope, and a node for each of its parameters. -/
theorem run_openBlockScope (b : Nat) (bc : BlockContext) (p : Program) :
    ∃ params g notes, (openBlockScope b bc).run.run p =
        (.ok (p.env.scopes.size, params.map Prod.snd), { p with
          graph := g
          env := { p.env with
            notes
            scopes := p.env.scopes.push (blockScope p.env bc params)
            blocks := p.env.blocks.modify b fun bc =>
              { bc with scope := some p.env.scopes.size, params := params.map Prod.snd } } }) ∧
      p.graph.Keeps g ∧ params.map Prod.fst = (bc.block.params.getD []).map Variable.name ∧
      ∀ x ∈ params.map Prod.snd, 0 < x ∧ x < g.size := by
  obtain ⟨params, g, notes, hrun, hkeeps, hnames, hnodes⟩ := run_blockParams (bc.block.params.getD []) p
  exact ⟨params, g, notes, Flow.run_bind_of_ok hrun _, hkeeps, hnames, hnodes⟩

/-- The scope of a block that has none yet. -/
theorem evolving_openBlockScope (b : Nat) (bc : BlockContext) (hnone : bc.scope = none) :
    EvolvingFrom (·.env.blocks[b]? = some bc) (openBlockScope b bc) := by
  intro p hb
  obtain ⟨params, g, notes, hrun, hkeeps, hnames, hnodes⟩ := run_openBlockScope b bc p
  rw [hrun]
  refine (Advances.graph hkeeps).trans (.single (.change (.books rfl rfl) rfl) ?_ (.of_push rfl rfl))
  refine .of_modify rfl rfl hb hnone rfl ⟨hnodes, fun _ _ => ?_⟩
  simpa only [List.length_map] using congrArg List.length hnames

theorem evolving_blockCopy (site : Site) : Evolving (blockCopy site) := by
  unfold blockCopy
  split
  · exact .pure _
  · exact (evolving_copyBlock _).bind fun _ => .pure _

theorem evolving_typeMember (id : InstanceId) (type : TypeId) (writes : Bool) :
    Evolving (typeMember id type writes) := by
  refine (evolving_instanceOf id).bind fun inst => Flow.evolving_types.bind fun t => ?_
  simp only
  split
  · exact (evolving_method _).bind fun _ => .throw _
  · exact Flow.evolving_freeze _ _

theorem evolving_openBlock (x : NodeId) : Evolving (openBlock x) := by
  refine evolving_env.bind fun e => ?_
  split
  · exact .pure _
  · split
    · exact .pure _
    · rename_i site _ _ _ _
      have hk : ∀ block, Evolving (do
          let id := (← Infer.env).blocks.size
          Infer.changeEnv fun env =>
            { env with
              sites := env.sites.modify x fun s => { s with blocks := s.blocks + 1 }
              blocks := env.blocks.push { block, caller := site.scope, call := x } }
          return some id) := by
        refine fun block => evolving_env.bind fun e => .bind (fun p => ?_) fun _ => .pure _
        refine (evolving_changeSite x (f := fun s => { s with blocks := s.blocks + 1 })
          (fun _ => rfl) p).trans ?_
        refine .single (.change (.books rfl rfl) rfl)
          (.of_push rfl rfl rfl ⟨fun x hx => ?_, fun s hs => ?_⟩) (.of_named rfl)
        · cases hx
        · cases hs
      split
      · exact (evolving_copyBlock _).bind hk
      · exact (Evolving.pure _).bind hk

theorem evolving_freezeResult (inst : Instance) (d : Definition) : Evolving (freezeResult inst d) := by
  unfold freezeResult
  split
  · exact .pure _
  · exact ((evolving_resolveDeclared _ _).locating _).bind fun _ => Flow.evolving_freeze _ _

theorem evolving_openBody (x : NodeId) (id : InstanceId) (inst : Instance) (name : String) :
    Evolving (openBody x id inst name) :=
  (evolving_openBlock x).bind fun _ => Flow.evolving_types.bind fun _ => evolving_newScope _

end Engine

end TypeFlow
