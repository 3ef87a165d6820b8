import TypeFlow.Inference.Instances
import TypeFlow.Proofs.Inference.Retaining

/-!
# Binding parameters

The parameters of a method are bound in a scope that was just opened. Their nodes are `Quiet`: nothing fixes the type
of any of them, and no node observes them. To give a type to a quiet node tells nobody and cannot fail
(`Flow.setType_quiet`, `Flow.dependOn_quiet`), so parameters are always bound (`Engine.run_bindParams`), whatever the
engine.
-/

namespace TypeFlow

namespace Graph

/-- The type of a node is not fixed, and no node observes it. -/
def Quiet (g : Graph) (id : NodeId) : Prop :=
  ∀ n, g.get? id = some n → n.frozen = false ∧ n.observers = []

namespace Quiet

variable {g : Graph} {id x : NodeId}

theorem modify {f : Node → Node} (h : g.Quiet id)
    (hf : x = id → ∀ n, (f n).frozen = n.frozen ∧ (f n).observers = n.observers) : (g.modify x f).Quiet id := by
  intro n hn
  rw [get?_modify] at hn
  split at hn
  · rename_i heq
    obtain ⟨m, hm, rfl⟩ := Option.map_eq_some_iff.mp hn
    obtain ⟨hfrozen, hobservers⟩ := hf heq.symm m
    rw [hfrozen, hobservers]
    exact h m hm
  · exact h n hn

theorem retype (h : g.Quiet id) (x : NodeId) (t : TypeId) : (g.retype x t).Quiet id :=
  h.modify fun _ _ => ⟨rfl, rfl⟩

theorem add (h : g.Quiet id) (label : String) : (g.add label).2.Quiet id := by
  intro n hn
  rw [get?_add] at hn
  split at hn
  · obtain rfl := Option.some.inj hn
    exact ⟨rfl, rfl⟩
  · exact h n hn

/-- Dependencies do not tell on the node that they are added to. -/
theorem addDeps (h : g.Quiet id) {deps : List NodeId} (hdeps : id ∉ deps) : (g.addDeps x deps).2.Quiet id := by
  induction deps generalizing g with
  | nil => exact h
  | cons d deps ih =>
    rw [List.mem_cons, not_or] at hdeps
    obtain ⟨hd, hdeps⟩ := hdeps
    have hfirst : (g.addDep x d).2.Quiet id := by
      unfold addDep
      split
      · exact h
      · split
        · exact h
        · exact Quiet.modify (h.modify fun _ _ => ⟨rfl, rfl⟩) fun heq => absurd heq.symm hd
    exact ih hfirst hdeps

theorem queueObservers (h : g.Quiet id) : g.queueObservers id = ([], g) := by
  unfold Graph.queueObservers
  split
  · rfl
  · rename_i n hn
    rw [(h n hn).2]
    rfl

end Quiet

theorem size_addDep (g : Graph) (id d : NodeId) : (g.addDep id d).2.size = g.size := by
  unfold addDep
  split
  · rfl
  · split
    · rfl
    · simp only [size_modify]

theorem size_addDeps (g : Graph) (id : NodeId) (deps : List NodeId) : (g.addDeps id deps).2.size = g.size := by
  induction deps generalizing g with
  | nil => rfl
  | cons d deps ih => exact (ih _).trans (size_addDep _ _ _)

theorem quiet_add_size (g : Graph) (label : String) : (g.add label).2.Quiet g.size := by
  intro n hn
  rw [get?_add, if_pos rfl] at hn
  obtain rfl := Option.some.inj hn
  exact ⟨rfl, rfl⟩

end Graph

namespace Flow

variable {κ : Type} {h : Hooks κ} {w : World κ} {id : NodeId}

/-- A world with other types, and a graph in which quiet nodes are quiet still. -/
structure Calm (w w' : World κ) : Prop where
  env : w'.env = w.env
  size : w'.graph.size = w.graph.size
  quiet : ∀ x, w.graph.Quiet x → w'.graph.Quiet x

theorem Calm.refl (w : World κ) : Calm w w :=
  ⟨rfl, rfl, fun _ hx => hx⟩

theorem calm_assign (t : TypeId) (types : Table) : Calm w ⟨types, w.graph.retype id t, w.env⟩ :=
  ⟨rfl, Graph.size_modify _ _ _, fun _ hx => hx.retype id t⟩

theorem propagate_quiet (hq : w.graph.Quiet id) : (propagate h id).run.run w = (.ok (), w) := by
  have hrun : (propagate h id).run.run w =
      (serveAll h h.budget (w.graph.queueObservers id).1).run.run { w with graph := (w.graph.queueObservers id).2 } :=
    rfl
  rw [hrun, hq.queueObservers]
  cases h.budget <;> rfl

/-- A quiet node can be given any type. -/
theorem setType_quiet (hq : w.graph.Quiet id) (t : TypeId) :
    ∃ w', (setType h id t).run.run w = (.ok (), w') ∧ Calm w w' := by
  rw [setType, run_get_bind]
  split
  · exact ⟨w, rfl, .refl w⟩
  · rename_i n hn
    split
    · exact ⟨w, rfl, .refl w⟩
    · rw [if_neg (by rw [(hq n hn).1]; exact Bool.false_ne_true), run_bind_of_ok (assign_eq id n t w)]
      exact ⟨_, propagate_quiet (hq.retype id t), calm_assign t _⟩

/-- A quiet node can be computed again. -/
theorem recompute_quiet (hq : w.graph.Quiet id) :
    ∃ changed w', (recompute h id).run.run w = (.ok changed, w') ∧ Calm w w' := by
  cases hn : w.graph.get? id with
  | none => exact ⟨false, w, recompute_of_no_deps fun n h => absurd (hn.symm.trans h) nofun, .refl w⟩
  | some n =>
    by_cases hd : n.deps = []
    · refine ⟨false, w, recompute_of_no_deps fun m hm => ?_, .refl w⟩
      obtain rfl := Option.some.inj (hn.symm.trans hm)
      exact hd
    · rw [recompute_eq hn hd, settle_eq]
      split
      · exact ⟨false, _, rfl, rfl, rfl, fun _ hx => hx⟩
      · rw [if_neg (by rw [(hq n hn).1]; exact Bool.false_ne_true)]
        exact ⟨true, _, rfl, calm_assign _ _⟩

/-- A quiet node can be made to depend on others. -/
theorem dependOn_quiet (hq : w.graph.Quiet id) {deps : List NodeId} (hid : id ∉ deps) :
    ∃ w', (dependOn h id deps).run.run w = (.ok (), w') ∧ w'.env = w.env ∧ w'.graph.size = w.graph.size ∧
      ∀ x ∉ deps, w.graph.Quiet x → w'.graph.Quiet x := by
  let w₁ : World κ := { w with graph := (w.graph.addDeps id deps).2 }
  have hq₁ : w₁.graph.Quiet id := hq.addDeps hid
  have hsize : w₁.graph.size = w.graph.size := Graph.size_addDeps _ _ _
  have hquiet : ∀ x ∉ deps, w.graph.Quiet x → w₁.graph.Quiet x := fun x hx h => h.addDeps hx
  have hrun : (dependOn h id deps).run.run w = (do
      if (w.graph.addDeps id deps).1 then
        if ← recompute h id then propagate h id : Flow κ Unit).run.run w₁ := rfl
  rw [hrun]
  split
  · obtain ⟨changed, w₂, hrec, hcalm⟩ := recompute_quiet (h := h) hq₁
    rw [run_bind_of_ok hrec]
    refine ⟨w₂, ?_, hcalm.env, hcalm.size.trans hsize, fun x hx h => hcalm.quiet x (hquiet x hx h)⟩
    cases changed with
    | false => rfl
    | true => exact propagate_quiet (hcalm.quiet id hq₁)
  · exact ⟨w₁, rfl, rfl, hsize, hquiet⟩

end Flow

/-! ### The scope of a body -/

/-- A scope without a scope around it, whose variables have quiet nodes. -/
structure Program.Opens (p : Program) (s : ScopeId) (sc : Scope) : Prop where
  scope : p.env.scopes[s]? = some sc
  parent : sc.parent = none
  vars : ∀ v ∈ sc.vars, v.2 < p.graph.size ∧ p.graph.Quiet v.2

variable {p : Program} {s : ScopeId} {sc : Scope}

namespace Program.Opens

/-- A scope stays what it is as long as the scopes do, and its variables stay quiet. -/
theorem calm (hs : p.Opens s sc) {p' : Program} (hscopes : p'.env.scopes = p.env.scopes)
    (hsize : p.graph.size ≤ p'.graph.size)
    (hquiet : ∀ v ∈ sc.vars, p.graph.Quiet v.2 → p'.graph.Quiet v.2) : Opens p' s sc where
  scope := hscopes ▸ hs.scope
  parent := hs.parent
  vars v hv := ⟨Nat.lt_of_lt_of_le (hs.vars v hv).1 hsize, hquiet v hv (hs.vars v hv).2⟩

theorem declared? (hs : p.Opens s sc) (name : String) : p.env.declared? s name = assoc? sc.vars name := by
  have hsome : s < p.env.scopes.size := (Array.getElem?_eq_some_iff.mp hs.scope).1
  obtain ⟨fuel, hfuel⟩ := Nat.exists_eq_add_one_of_ne_zero (Nat.ne_zero_of_lt hsome)
  have henclosing : p.env.enclosing s = [(s, sc)] := by
    rw [Env.enclosing, hfuel, Env.scopesUpTo_of_some hs.scope, hs.parent]
    rfl
  rw [Env.declared?, henclosing]
  cases hvar : assoc? sc.vars name <;> simp [hvar]

end Program.Opens

namespace Infer

/-- Whether a variable was declared there or is new, the scope still has quiet nodes only. -/
theorem run_declare (hs : p.Opens s sc) (name : String) : ∃ id sc', ∃ p' : Program,
    (declare s name).run.run p = (.ok id, p') ∧ p'.Opens s sc' ∧ (∃ v ∈ sc'.vars, v.2 = id) ∧
      ∀ v ∈ sc'.vars, v ∈ sc.vars ∨ v.2 = p.graph.size := by
  unfold declare
  rw [run_env_bind, hs.declared?]
  cases hvar : assoc? sc.vars name with
  | some id =>
    exact ⟨id, sc, p, rfl, hs, ⟨_, mem_of_assoc? hvar, rfl⟩, fun v hv => .inl hv⟩
  | none =>
    let sc' : Scope := { sc with vars := (name, p.graph.size) :: sc.vars }
    refine ⟨p.graph.size, sc', _, rfl, ⟨?_, hs.parent, ?_⟩, ⟨_, List.mem_cons_self, rfl⟩, fun v hv => ?_⟩
    · change (p.env.scopes.modify s _)[s]? = some sc'
      rw [Array.getElem?_modify, if_pos rfl, hs.scope]
      rfl
    · refine List.forall_mem_cons.mpr ⟨⟨?_, Graph.quiet_add_size _ _⟩, fun v hv => ⟨?_, ?_⟩⟩
      · exact Nat.lt_of_lt_of_eq (Nat.lt_succ_self _) (Graph.size_add _ _).symm
      · exact Nat.lt_of_lt_of_le (hs.vars v hv).1 (Graph.size_add _ _ ▸ Nat.le_succ _)
      · exact (hs.vars v hv).2.add name
    · exact (List.mem_cons.mp hv).symm.imp_right (congrArg Prod.snd)

end Infer

namespace Engine

/-- A body is typed in a scope of its own. -/
theorem run_openBody {p' : Program} {node : NodeId} {id : InstanceId} {inst : Instance} {name : String}
    (hrun : (openBody node id inst name).run.run p = (.ok s, p')) : ∃ sc, p'.Opens s sc := by
  obtain ⟨block, p₁, -, hrun⟩ := Flow.exists_of_run_bind hrun
  obtain ⟨t, p₂, -, hrun⟩ := Flow.exists_of_run_bind hrun
  cases hrun
  exact ⟨_, Array.getElem?_push_size, rfl, List.forall_mem_nil _⟩

variable (e : Engine)

/-- **Parameters are bound in a scope that was just opened**, whatever their types are. -/
theorem run_bindParams (hs : p.Opens s sc) (params : List (Param Source × TypeId)) :
    ∃ p', (e.bindParams s params).run.run p = (.ok (), p') := by
  induction params generalizing p sc with
  | nil => exact ⟨p, rfl⟩
  | cons q params ih =>
    obtain ⟨param, t⟩ := q
    -- the argument gets a node, and this the type
    let p₁ : Program := { p with graph := (p.graph.add (param.name ++ " : " ++ p.types.name t)).2 }
    have hadd : p₁.graph.size = p.graph.size + 1 := Graph.size_add _ _
    obtain ⟨p₂, hassign, hcalm⟩ := Flow.setType_quiet (h := e.hooks) (w := p₁) (Graph.quiet_add_size _ _) t
    have hs₂ : Program.Opens p₂ s sc := hs.calm (congrArg Env.scopes hcalm.env)
      (hcalm.size.trans hadd ▸ Nat.le_succ _) fun v _ hv => hcalm.quiet _ (hv.add _)
    -- then it flows into the variable, which is another node
    obtain ⟨var, sc', p₃, hdeclare, hs₃, ⟨v, hv, rfl⟩, hvars⟩ := Infer.run_declare hs₂ param.name
    have hne : ∀ v ∈ sc'.vars, v.2 ∉ [p.graph.size] := by
      intro v hv
      rw [List.mem_singleton]
      rcases hvars v hv with hold | hnew
      · exact Nat.ne_of_lt (hs.vars v hold).1
      · exact hnew.trans (hcalm.size.trans hadd) ▸ Nat.succ_ne_self _
    obtain ⟨p₄, hconnect, henv, hsize, hquiet⟩ :=
      Flow.dependOn_quiet (h := e.hooks) (hs₃.vars v hv).2 (hne v hv)
    have hs₄ : Program.Opens p₄ s sc' := hs₃.calm (congrArg Env.scopes henv) (Nat.le_of_eq hsize.symm)
      fun v hv hq => hquiet _ (hne v hv) hq
    obtain ⟨p₅, hrest⟩ := ih hs₄
    refine ⟨p₅, ?_⟩
    have hnew : (Flow.newNode (param.name ++ " : " ++ p.types.name t) : Infer NodeId).run.run p =
        (.ok p.graph.size, p₁) := rfl
    have htypes : (Flow.types : Infer Table).run.run p = (.ok p.types, p) := rfl
    rw [bindParams, Flow.run_bind_of_ok htypes, Flow.run_bind_of_ok hnew,
      Flow.run_bind_of_ok (show (e.assign p.graph.size t).run.run p₁ = _ from hassign), Flow.run_bind_of_ok hdeclare,
      Flow.run_bind_of_ok (show (e.connect v.2 [p.graph.size]).run.run p₃ = _ from hconnect)]
    exact hrest

end Engine

end TypeFlow
