import TypeFlow.Proofs.Types.Built
import TypeFlow.Proofs.Flow.Scripts
import TypeFlow.Proofs.Flow.Web
import TypeFlow.Proofs.Flow.Wiring

/-!
# The order of operations does not matter

A graph is built by adding nodes, giving some of them a type, and binding others to dependencies. The
worklist answers after every operation. What it answers in the end is what could be computed from the
operations as a whole: the type of a bound node is the join of the types that were given to the nodes it
reaches (`runEach_batch`), and nothing fails on the way. Dependencies may form cycles, and may be bound
before any type is known.

An operation may be performed at any time after the nodes that it mentions were added (`Admissible`); a
node is given a type at most once, and none that is bound to others. The number of observers that one
propagation serves is bounded by the number of operations, so that the budget of the hooks, if it is at
least that, plays no role.
-/

namespace TypeFlow.Flow

open TypeFlow.Graph (Observer Node Pending)
open Relation (ReflTransGen)

variable {κ : Type} {t : Table} {w w' : World κ} {h : Hooks κ} {done : List Operation}

/-! ### Sequences of operations -/

/-- The number of nodes that operations add. -/
def nodeCount : List Operation → Nat
  | [] => 0
  | .newNode _ :: ops => nodeCount ops + 1
  | _ :: ops => nodeCount ops

/-- An operation that builds a graph from `n` nodes and the types of a table. -/
def Operation.Builds (t : Table) (n : Nat) : Operation → Prop
  | newNode _ => True
  | setType id type => 0 < id ∧ id ≤ n ∧ type < t.size
  | bind id deps => 0 < id ∧ id ≤ n ∧ ∀ d ∈ deps, d ≤ n
  | _ => False

instance (t : Table) (n : Nat) : (op : Operation) → Decidable (op.Builds t n)
  | .newNode _ => .isTrue trivial
  | .setType id type => inferInstanceAs (Decidable (0 < id ∧ id ≤ n ∧ type < t.size))
  | .bind id deps => inferInstanceAs (Decidable (0 < id ∧ id ≤ n ∧ ∀ d ∈ deps, d ≤ n))
  | .freeze .. | .setMapping .. | .setFilter .. | .watch .. | .rebind .. => .isFalse id

/-- Two operations that do not both say what the type of one node is. Nothing depends on itself, so
that binding a node to itself says nothing. -/
def Operation.Apart : Operation → Operation → Prop
  | setType i _, setType j _ => i ≠ j
  | setType i _, bind j deps | bind j deps, setType i _ => i = j → ∀ d ∈ deps, d = 0 ∨ d = j
  | _, _ => True

instance : (op op' : Operation) → Decidable (op.Apart op')
  | .setType i _, .setType j _ => inferInstanceAs (Decidable (i ≠ j))
  | .setType i _, .bind j deps | .bind j deps, .setType i _ =>
    inferInstanceAs (Decidable (i = j → ∀ d ∈ deps, d = 0 ∨ d = j))
  | .bind .., .bind .. => .isTrue trivial
  | .newNode _, _ | .freeze .., _ | .setMapping .., _ | .setFilter .., _ | .watch .., _
  | .rebind .., _ => .isTrue (by cases ‹Operation› <;> trivial)
  | _, .newNode _ | _, .freeze .. | _, .setMapping .. | _, .setFilter .. | _, .watch ..
  | _, .rebind .. => .isTrue (by cases ‹Operation› <;> trivial)

/-- Operations that build a graph: each of them mentions nodes that are there, a node is given a type at
most once, and a node that is given a type is not bound to others. -/
structure Admissible (t : Table) (ops : List Operation) : Prop where
  builds : ∀ i (hi : i < ops.length), ops[i].Builds t (nodeCount (ops.take i))
  apart : ops.Pairwise Operation.Apart

/-- The operations bind the node `x` to the node `y`. -/
def DependsOn (ops : List Operation) (x y : NodeId) : Prop :=
  ∃ deps, .bind x deps ∈ ops ∧ y ∈ deps

open Classical in
/-- The types that the operations give to the nodes that `x` reaches. -/
noncomputable def reachedTypes (ops : List Operation) (x : NodeId) : List TypeId :=
  ops.filterMap fun
    | .setType k type => if ReflTransGen (DependsOn ops) x k then some type else none
    | _ => none

theorem mem_reachedTypes {ops : List Operation} {x : NodeId} {type : TypeId} :
    type ∈ reachedTypes ops x ↔
      ∃ k, .setType k type ∈ ops ∧ ReflTransGen (DependsOn ops) x k := by
  classical
  rw [reachedTypes, List.mem_filterMap]
  constructor
  · rintro ⟨op, hop, heq⟩
    cases op with
    | setType k ty =>
      simp only [Option.ite_none_right_eq_some, Option.some.injEq] at heq
      obtain ⟨hr, rfl⟩ := heq
      exact ⟨k, hop, hr⟩
    | _ => simp at heq
  · rintro ⟨k, hop, hr⟩
    exact ⟨_, hop, by simp [hr]⟩

theorem nodeCount_append (xs ys : List Operation) :
    nodeCount (xs ++ ys) = nodeCount xs + nodeCount ys := by
  induction xs with
  | nil => simp [nodeCount]
  | cons op xs ih => cases op <;> simp [nodeCount, ih, Nat.add_right_comm]

theorem nodeCount_le (ops : List Operation) : nodeCount ops ≤ ops.length := by
  induction ops with
  | nil => simp [nodeCount]
  | cons op ops ih => cases op <;> simp [nodeCount] <;> omega

/-! ### What the graph knows of the operations -/

/-- The graph holds what the operations have said so far. -/
structure Reflects (done : List Operation) (g : Graph) : Prop where
  size : g.size = nodeCount done + 1
  deps : ∀ x d, d ∈ g.depsOf x ↔ (d ≠ 0 ∧ d ≠ x) ∧ DependsOn done x d
  given : ∀ x type, .setType x type ∈ done → g.depsOf x = [] ∧ g.typeOf x = type
  absent : ∀ x, g.depsOf x = [] → (∀ type, .setType x type ∉ done) → g.typeOf x = 0

/-- Where a run of operations stands: what was done shows in the graph, and every node has the join of
its dependencies. -/
structure Standing (t : Table) (done : List Operation) (w : World κ) : Prop where
  web : Web t w
  pending : Pending w.graph []
  settled : Settled t w []
  reflects : Reflects done w.graph

/-! ### Single operations -/

/-- A new node changes nothing about the others. -/
theorem Web.newNode (hw : Web t w) (label : String) :
    Web t { w with graph := (w.graph.add label).2 } ∧
      value { w with graph := (w.graph.add label).2 } = value w := by
  have hval : value { w with graph := (w.graph.add label).2 } = value w := by
    funext x
    rw [value, value, Graph.typeOf_add]
  refine ⟨⟨hw.wellFormed, hw.grown, fun x => ?_, ?_, fun x n hn => ?_, fun x d hd => ?_, ?_⟩, hval⟩
  · rw [Graph.typeOf_add]
    exact hw.typed x
  · rw [hval]
    exact hw.known
  · rw [Graph.view_add] at hn
    split at hn
    · obtain rfl := Option.some.inj hn
      exact ⟨rfl, rfl, rfl, by simp⟩
    · exact hw.plain x n hn
  · rw [Graph.depsOf_add] at hd
    rw [Graph.observersOf_add]
    exact hw.wired x d hd
  · rw [Graph.depsOf_add, hval]
    exact hw.supported

/-- Where an operation on a web ends: it has not failed, all nodes are settled, and nodes without
dependencies have the types `types`. -/
structure Performed (t : Table) (size : Nat) (deps : NodeId → List NodeId) (types : NodeId → TypeId)
    (r : Except Failure Unit) (w : World κ) : Prop where
  ok : r = .ok ()
  web : Web t w
  pending : Pending w.graph []
  settled : Settled t w []
  size_eq : w.graph.size = size
  deps_eq : w.graph.depsOf = deps
  types_eq : ∀ x, deps x = [] → w.graph.typeOf x = types x

theorem Done.performed {r : Except Failure Unit} (hd : Done t w r w') :
    Performed t w.graph.size w.graph.depsOf w.graph.typeOf r w' :=
  ⟨hd.ok, hd.web, hd.pending, hd.settled, hd.kept.size, hd.kept.deps, hd.kept.sources⟩

/-- Giving a type to a node that has neither a type nor dependencies. -/
theorem Web.ends_setType (ht : t.WellFormed) (hw : Web t w) (hp : Pending w.graph [])
    (hs : Settled t w []) {id : NodeId} {type : TypeId} (hid : (w.graph.view id).isSome)
    (hdeps : w.graph.depsOf id = []) (h0 : w.graph.typeOf id = 0) (htype : type < t.size)
    (hb : (w.graph.size + 1) ^ 3 ≤ h.budget) :
    Ends w (setType h id type) (Performed t w.graph.size w.graph.depsOf
      (Function.update w.graph.typeOf id type)) := by
  obtain ⟨m, hm⟩ := Option.isSome_iff_exists.mp hid
  obtain ⟨n, hn, rfl⟩ := Graph.get?_of_view hm
  have hntype : n.type = 0 := by rw [← Graph.typeOf_of_get? hn, h0]
  refine Ends.get_bind ?_
  rw [hn]
  simp only
  split
  · rename_i heq
    refine Ends.pure ⟨rfl, hw, hp, hs, rfl, rfl, fun x _ => ?_⟩
    rw [← heq, hntype, ← h0, Function.update_eq_self]
  · have hfrozen : n.frozen = false := (hw.plain id _ hm).frozen
    have hslot : n.slot = none := (hw.plain id _ hm).slot
    rw [hfrozen]
    refine Ends.bind (fun a w₁ hrun => ?_) fun e w₁ hrun => ?_
    · rw [assign_eq, writeSlot_of_none hslot] at hrun
      obtain ⟨-, rfl⟩ := Prod.mk.inj hrun
      have hempty : value w id = ∅ := by rw [value, h0, Table.parts_zero]
      have hparts : w.types.parts type = t.parts type := hw.grown.toExtends.parts_eq ht htype
      obtain ⟨hw₁, hval, hdeps₁, hobs₁⟩ := hw.retype hid (hw.grown.lt_size htype)
        (by rw [hparts]; exact ht.known_parts htype) (hw.supported.set_source ht hdeps hempty _)
      have hset : Settled t { w with graph := w.graph.retype id type }
          ((w.graph.retype id type).observersOf id) := by
        intro y hy
        show _ = t.join (gather _ ((w.graph.retype id type).depsOf y)) ∨ _
        rw [hdeps₁] at hy
        rw [hval, hdeps₁, hobs₁]
        by_cases hmem : id ∈ w.graph.depsOf y
        · exact .inr (hw.wired y id hmem).2
        · have hyid : y ≠ id := by
            rintro rfl
            exact hy hdeps
          have hgather : gather (Function.update (value w) id (w.types.parts type))
              (w.graph.depsOf y) = gather (value w) (w.graph.depsOf y) :=
            gather_congr fun d hd => Function.update_of_ne (fun heq : d = id => hmem (heq ▸ hd)) _ _
          rw [hgather, Function.update_of_ne hyid]
          exact .inl ((hs y hy).resolve_right (by simp))
      have hpend : Pending (w.graph.retype id type) [] := fun o ho =>
        hp o ((Graph.waiting_retype _ _ _).mp ho)
      refine (hw₁.ends_propagate ht hpend hset ?_).imp fun r w' hd => ?_
      · rw [Graph.retype, Graph.size_modify]
        exact hb
      · obtain ⟨hok, hweb, hpe, hse, hsize, hdep, htypes⟩ := hd.performed
        refine ⟨hok, hweb, hpe, hse, hsize.trans (Graph.size_modify _ _ _), hdep.trans hdeps₁,
          fun x hx => ?_⟩
        rw [htypes x (by rw [hdeps₁]; exact hx), Graph.typeOf_retype hid, Function.update_apply]
    · rw [assign_eq, writeSlot_of_none hslot] at hrun
      exact absurd (congrArg Prod.fst hrun) (by simp)

/-- Further dependencies of a node keep a web, provided the node has no type when it gets its first
ones. -/
theorem Web.wires (ht : t.WellFormed) (hw : Web t w) {g : Graph} {id : NodeId}
    (hg : Graph.Wires w.graph g id) (hself : id ∉ g.depsOf id)
    (hempty : w.graph.depsOf id = [] → g.depsOf id ≠ [] → w.graph.typeOf id = 0) :
    Web t { w with graph := g } ∧ value { w with graph := g } = value w := by
  have hval : value { w with graph := g } = value w := by
    funext x
    rw [value, value, hg.typeOf_eq]
  refine ⟨⟨hw.wellFormed, hw.grown, fun x => ?_, ?_, fun x n hn => ?_, fun x d hd => ?_, ?_⟩, hval⟩
  · show g.typeOf x < _
    rw [hg.typeOf_eq]
    exact hw.typed x
  · rw [hval]
    exact hw.known
  · obtain ⟨m, hm, heq⟩ : ∃ m, w.graph.view x = some m ∧ m.unwired = n.unwired := by
      have hnode := hg.nodes x
      rw [hn, Option.map_some] at hnode
      exact Option.map_eq_some_iff.mp hnode.symm
    obtain ⟨hmapping, hfrozen, hslot, hobs⟩ := hw.plain x m hm
    refine ⟨?_, ?_, ?_, fun o ho => ?_⟩
    · exact (congrArg Node.mapping heq).symm.trans hmapping
    · exact (congrArg Node.frozen heq).symm.trans hfrozen
    · exact (congrArg Node.slot heq).symm.trans hslot
    · rw [← Graph.observersOf_of_view hn, hg.observers] at ho
      rcases ho with ho | ⟨rfl, -⟩
      · exact hobs o (Graph.observersOf_of_view hm ▸ ho)
      · rfl
  · have hd : d ∈ g.depsOf x := hd
    refine ⟨fun heq => ?_, (hg.observers d _).mpr ?_⟩
    · by_cases hx : x = id
      · exact hself (by rwa [heq, hx] at hd)
      · rw [hg.deps_other x hx] at hd
        exact (hw.wired x d hd).1 heq
    · by_cases hx : x = id
      · subst hx
        by_cases hold : d ∈ w.graph.depsOf x
        · exact .inl (hw.wired x d hold).2
        · exact .inr ⟨rfl, hd, hold⟩
      · rw [hg.deps_other x hx] at hd
        exact .inl (hw.wired x d hd).2
  · rw [hval]
    show Supported t g.depsOf _
    by_cases hnone : g.depsOf id = []
    · have hdeps : g.depsOf = w.graph.depsOf := by
        funext x
        by_cases hx : x = id
        · rw [hx, hnone]
          exact (List.eq_nil_iff_forall_not_mem.mpr fun d hd => by
            simpa [hnone] using hg.deps_self d hd).symm
        · exact hg.deps_other x hx
      rw [hdeps]
      exact hw.supported
    · refine hw.supported.add_deps ht hg.deps_other hg.deps_self fun hfirst => ?_
      rw [value, hempty hfirst hnone, Table.parts_zero]

/-- Binding a node to dependencies. -/
theorem Web.ends_dependOn (ht : t.WellFormed) (hw : Web t w) (hp : Pending w.graph [])
    (hs : Settled t w []) {id : NodeId} {deps : List NodeId} (hid : (w.graph.view id).isSome)
    (hdeps : ∀ d ∈ deps, d < w.graph.size)
    (hempty : w.graph.depsOf id = [] → (w.graph.addDeps id deps).2.depsOf id ≠ [] →
      w.graph.typeOf id = 0)
    (hb : (w.graph.size + 1) ^ 3 ≤ h.budget) :
    Ends w (dependOn h id deps) (Performed t w.graph.size (w.graph.addDeps id deps).2.depsOf
      w.graph.typeOf) := by
  obtain ⟨hg, hmem, hsame⟩ := Graph.addDeps_wires hid hdeps
  refine Ends.onGraph_bind ?_
  rcases hres : w.graph.addDeps id deps with ⟨added, g⟩
  rw [hres] at hg hmem hsame hempty
  cases added with
  | false =>
    obtain rfl : g = w.graph := hsame rfl
    exact Ends.pure ⟨rfl, hw, hp, hs, rfl, rfl, fun _ _ => rfl⟩
  | true =>
    have hself : id ∉ g.depsOf id := by
      intro hin
      rcases (hmem id).mp hin with hin | ⟨-, -, hne⟩
      · exact (hw.wired id id hin).1 rfl
      · exact hne rfl
    obtain ⟨hw₁, hval₁⟩ := hw.wires ht hg hself hempty
    generalize hw₁eq : ({ w with graph := g } : World κ) = w₁ at hw₁ hval₁ ⊢
    obtain rfl : g = w₁.graph := by rw [← hw₁eq]
    have hp₁ : Pending w₁.graph [] := fun o ho => hp o ((hg.waiting o).mp ho)
    have hs₁ : Settled t w₁ [⟨id, .update⟩] := by
      intro y hy
      by_cases hyid : y = id
      · exact .inr (by rw [hyid]; exact List.mem_singleton.mpr rfl)
      · rw [hg.deps_other y hyid] at hy ⊢
        rw [hval₁]
        exact .inl ((hs y hy).resolve_right (by simp))
    simp only [if_true]
    refine Ends.bind (fun changed w₂ hrun => ?_) fun e w₂ hrun => ?_
    · have hr := (hw₁.ends_recompute ht id).of_run hrun
      have hp₂ : Pending w₂.graph [] := fun o ho => hp₁ o ((hr.waiting o).mp ho)
      rcases hr.outcome with ⟨hfalse, hval, hset⟩ | ⟨htrue, hx, hval, hne⟩
      · obtain rfl := Except.ok.inj hfalse
        refine Ends.pure ⟨rfl, hr.web, hp₂, fun y hy => .inl ?_, ?_, hr.kept.deps, fun x hx => ?_⟩
        · rw [hr.kept.deps] at hy ⊢
          rw [hval]
          by_cases hyid : y = id
          · subst hyid
            exact hset hy
          · exact (hs₁ y hy).resolve_right (by simpa using hyid)
        · exact hr.kept.size.trans hg.size
        · exact (hr.kept.sources x hx).trans (hg.typeOf_eq x)
      · obtain rfl := Except.ok.inj htrue
        have hs₂ := hs₁.of_change hw₁ hr.kept.deps hval
        rw [← hr.observers, List.nil_append] at hs₂
        have hsize := hr.kept.size.trans hg.size
        refine (hr.web.ends_propagate ht hp₂ hs₂ (by rw [hsize]; exact hb)).imp fun r w' hd => ?_
        obtain ⟨hok, hweb, hpe, hse, hsize', hdep, htypes⟩ := hd.performed
        refine ⟨hok, hweb, hpe, hse, hsize'.trans hsize, hdep.trans hr.kept.deps, fun x hx => ?_⟩
        rw [htypes x (by rw [hr.kept.deps]; exact hx), hr.kept.sources x hx, hg.typeOf_eq]
    · have hr := (hw₁.ends_recompute ht id).of_run hrun
      rcases hr.outcome with ⟨hok, -⟩ | ⟨hok, -⟩ <;> cases hok

/-! ### Runs of operations -/

theorem dependsOn_append {xs ys : List Operation} {x y : NodeId} :
    DependsOn (xs ++ ys) x y ↔ DependsOn xs x y ∨ DependsOn ys x y := by
  simp only [DependsOn, List.mem_append, or_and_right, exists_or]

theorem Standing.size_pos (hst : Standing t done w) {id : NodeId} (hpos : 0 < id)
    (hid : id ≤ nodeCount done) : (w.graph.view id).isSome := by
  rw [Graph.isSome_view_iff, hst.reflects.size]
  exact ⟨hpos, Nat.lt_succ_of_le hid⟩

theorem Standing.newNode (hst : Standing t done w) (label : String) :
    Ends w (Operation.run h (.newNode label)) fun r w' =>
      r = .ok () ∧ Standing t (done ++ [.newNode label]) w' := by
  obtain ⟨hweb, hval⟩ := hst.web.newNode label
  have hdeps := Graph.depsOf_add w.graph label
  have htype := Graph.typeOf_add w.graph label
  refine Ends.onGraph_bind (Ends.pure ⟨rfl, hweb, fun o ho => ?_, fun x hx => ?_, ?_, ?_, ?_, ?_⟩)
  · exact hst.pending o ((Graph.waiting_add _ _).mp ho)
  · show _ = t.join (gather _ ((w.graph.add label).2.depsOf x)) ∨ _
    rw [hdeps] at hx ⊢
    rw [hval]
    exact hst.settled x hx
  · rw [Graph.size_add, hst.reflects.size, nodeCount_append]
    rfl
  · intro x d
    rw [hdeps, hst.reflects.deps, dependsOn_append]
    simp [DependsOn]
  · intro x type hmem
    rw [hdeps, htype]
    exact hst.reflects.given x type (by simpa using hmem)
  · intro x hx hnot
    rw [hdeps] at hx
    rw [htype]
    exact hst.reflects.absent x hx fun type hmem => hnot type (List.mem_append_left _ hmem)

theorem Standing.setType (ht : t.WellFormed) (hst : Standing t done w) {id : NodeId} {type : TypeId}
    (hop : (Operation.setType id type).Builds t (nodeCount done))
    (hapart : ∀ op ∈ done, op.Apart (.setType id type)) (hb : (nodeCount done + 2) ^ 3 ≤ h.budget) :
    Ends w (Operation.run h (.setType id type)) fun r w' =>
      r = .ok () ∧ Standing t (done ++ [.setType id type]) w' := by
  obtain ⟨hpos, hid, htype⟩ := hop
  have hsize := hst.reflects.size
  have hnew : ∀ type', .setType id type' ∉ done := fun type' hmem => hapart _ hmem rfl
  have hdeps : w.graph.depsOf id = [] := by
    refine List.eq_nil_iff_forall_not_mem.mpr fun d hd => ?_
    obtain ⟨⟨h0, hne⟩, deps, hbind, hmem⟩ := (hst.reflects.deps id d).mp hd
    exact (hapart _ hbind rfl d hmem).elim h0 hne
  have h0 := hst.reflects.absent id hdeps hnew
  refine (hst.web.ends_setType ht hst.pending hst.settled (hst.size_pos hpos hid) hdeps h0 htype
    (by rw [hsize]; exact hb)).imp fun r w' hp => ?_
  refine ⟨hp.ok, hp.web, hp.pending, hp.settled, ?_, fun x d => ?_, fun x ty hmem => ?_,
    fun x hx hnot => ?_⟩
  · rw [hp.size_eq, hsize, nodeCount_append]
    rfl
  · rw [hp.deps_eq, hst.reflects.deps, dependsOn_append]
    simp [DependsOn]
  · rw [hp.deps_eq]
    rcases List.mem_append.mp hmem with hmem | hmem
    · have hne : x ≠ id := fun heq => hnew ty (heq ▸ hmem)
      obtain ⟨hx, hty⟩ := hst.reflects.given x ty hmem
      exact ⟨hx, by rw [hp.types_eq x hx, Function.update_of_ne hne, hty]⟩
    · obtain ⟨rfl, rfl⟩ : x = id ∧ ty = type := by simpa using hmem
      exact ⟨hdeps, by rw [hp.types_eq x hdeps, Function.update_self]⟩
  · rw [hp.deps_eq] at hx
    have hne : x ≠ id := fun heq => hnot type (by simp [heq])
    rw [hp.types_eq x hx, Function.update_of_ne hne]
    exact hst.reflects.absent x hx fun ty hmem => hnot ty (List.mem_append_left _ hmem)

theorem Standing.bind (ht : t.WellFormed) (hst : Standing t done w) {id : NodeId}
    {deps : List NodeId} (hop : (Operation.bind id deps).Builds t (nodeCount done))
    (hapart : ∀ op ∈ done, op.Apart (.bind id deps)) (hb : (nodeCount done + 2) ^ 3 ≤ h.budget) :
    Ends w (Operation.run h (.bind id deps)) fun r w' =>
      r = .ok () ∧ Standing t (done ++ [.bind id deps]) w' := by
  obtain ⟨hpos, hid, hle⟩ := hop
  have hsize := hst.reflects.size
  have hview := hst.size_pos hpos hid
  have hlt : ∀ d ∈ deps, d < w.graph.size := by
    intro d hd
    rw [hsize]
    exact Nat.lt_succ_of_le (hle d hd)
  obtain ⟨hg, hmem, -⟩ := Graph.addDeps_wires hview hlt
  -- a node that was given a type gets no dependencies
  have hgiven : ∀ ty, .setType id ty ∈ done → (w.graph.addDeps id deps).2.depsOf id = [] := by
    intro ty hset
    refine List.eq_nil_iff_forall_not_mem.mpr fun d hd => ?_
    rcases (hmem d).mp hd with hd | ⟨hd, h0, hne⟩
    · rw [(hst.reflects.given id ty hset).1] at hd
      simp at hd
    · exact (hapart _ hset rfl d hd).elim h0 hne
  have hempty : w.graph.depsOf id = [] → (w.graph.addDeps id deps).2.depsOf id ≠ [] →
      w.graph.typeOf id = 0 := fun hnone hsome =>
    hst.reflects.absent id hnone fun ty hset => hsome (hgiven ty hset)
  refine (hst.web.ends_dependOn ht hst.pending hst.settled hview hlt hempty
    (by rw [hsize]; exact hb)).imp fun r w' hp => ?_
  refine ⟨hp.ok, hp.web, hp.pending, hp.settled, ?_, fun x d => ?_, fun x ty hin => ?_,
    fun x hx hnot => ?_⟩
  · rw [hp.size_eq, hsize, nodeCount_append]
    rfl
  · rw [hp.deps_eq, dependsOn_append]
    have hone : DependsOn [.bind id deps] x d ↔ x = id ∧ d ∈ deps := by
      simp only [DependsOn, List.mem_singleton, Operation.bind.injEq]
      exact ⟨fun ⟨_, ⟨hx, hds⟩, hd⟩ => ⟨hx, hds ▸ hd⟩, fun ⟨hx, hd⟩ => ⟨deps, ⟨hx, rfl⟩, hd⟩⟩
    rw [hone]
    by_cases hx : x = id
    · subst hx
      rw [hmem, hst.reflects.deps]
      grind
    · rw [hg.deps_other x hx, hst.reflects.deps]
      simp [hx]
  · have hset : .setType x ty ∈ done := by simpa using hin
    have hnone : (w.graph.addDeps id deps).2.depsOf x = [] := by
      by_cases hx : x = id
      · subst hx
        exact hgiven ty hset
      · rw [hg.deps_other x hx]
        exact (hst.reflects.given x ty hset).1
    rw [hp.deps_eq, hp.types_eq x hnone]
    exact ⟨hnone, (hst.reflects.given x ty hset).2⟩
  · rw [hp.deps_eq] at hx
    rw [hp.types_eq x hx]
    refine hst.reflects.absent x ?_ fun ty hset => hnot ty (List.mem_append_left _ hset)
    by_cases hxid : x = id
    · subst hxid
      exact List.eq_nil_iff_forall_not_mem.mpr fun d hd => by simpa [hx] using hg.deps_self d hd
    · rw [← hg.deps_other x hxid, hx]

/-- **An operation that builds a graph does not fail**, and leaves every node with the join of its
dependencies. -/
theorem Standing.perform (ht : t.WellFormed) (hst : Standing t done w) {op : Operation}
    (hop : op.Builds t (nodeCount done)) (hapart : ∀ o ∈ done, o.Apart op)
    (hb : (nodeCount done + 2) ^ 3 ≤ h.budget) :
    Ends w (op.run h) fun r w' => r = .ok () ∧ Standing t (done ++ [op]) w' := by
  cases op with
  | newNode label => exact hst.newNode label
  | setType id type => exact hst.setType ht hop hapart hb
  | bind id deps => exact hst.bind ht hop hapart hb
  | _ => exact hop.elim

/-- All operations that build a graph are performed. -/
theorem Standing.performAll (ht : t.WellFormed) (hst : Standing t done w) {ops : List Operation}
    (hops : Admissible t (done ++ ops)) (hb : ((done ++ ops).length + 2) ^ 3 ≤ h.budget) :
    (runEach (·.run h) ops w).1 = ops.map (fun _ => .ok ()) ∧
      Standing t (done ++ ops) (runEach (·.run h) ops w).2 := by
  induction ops generalizing done w with
  | nil => simpa [runEach] using hst
  | cons op ops ih =>
    have hcount : (nodeCount done + 2) ^ 3 ≤ h.budget := by
      refine Nat.le_trans (Nat.pow_le_pow_left ?_ 3) hb
      rw [List.length_append]
      have hle := nodeCount_le done
      omega
    have hop : op.Builds t (nodeCount done) := by
      have hbuilds := hops.builds done.length (by simp)
      rw [List.getElem_append_right le_rfl, List.take_left] at hbuilds
      simpa only [Nat.sub_self, List.getElem_cons_zero] using hbuilds
    obtain ⟨hok, hst'⟩ := hst.perform ht hop (fun o ho => (List.pairwise_append.mp hops.apart).2.2 o ho op
      List.mem_cons_self) hcount
    rw [List.append_cons] at hops hb ⊢
    obtain ⟨hoks, hst''⟩ := ih hst' hops hb
    refine ⟨?_, hst''⟩
    rw [runEach]
    exact congrArg₂ List.cons hok hoks

/-! ### The batch answer -/

theorem Admissible.builds_of_mem {ops : List Operation} (hops : Admissible t ops) {op : Operation}
    (hop : op ∈ ops) : ∃ n, op.Builds t n := by
  obtain ⟨i, hi, rfl⟩ := List.getElem_of_mem hop
  exact ⟨_, hops.builds i hi⟩

/-- Nodes that are reached through operations are reached in the graph: a dependency that the graph
leaves out leads nowhere else. -/
theorem Standing.reaches {ops : List Operation} (hops : Admissible t ops) (hst : Standing t ops w)
    {x k : NodeId} (hk : 0 < k) (hr : ReflTransGen (DependsOn ops) x k) :
    Reaches w.graph.depsOf x k := by
  induction hr using ReflTransGen.head_induction_on with
  | refl => exact .refl
  | @head a d hd hr ih =>
    by_cases hself : d = a
    · exact hself ▸ ih
    · refine .head ((hst.reflects.deps a d).mpr ⟨⟨?_, hself⟩, hd⟩) ih
      rintro rfl
      -- nothing leads on from zero, which is no node
      rcases ReflTransGen.cases_head hr with heq | ⟨e, ⟨deps, hbind, -⟩, -⟩
      · exact Nat.lt_irrefl _ (heq ▸ hk)
      · obtain ⟨n, hpos, -⟩ := hops.builds_of_mem hbind
        exact Nat.lt_irrefl _ hpos

/-- The value of a node that was given no type is the join of the types that it reaches. -/
theorem Standing.value_eq (ht : t.WellFormed) {ops : List Operation} (hops : Admissible t ops)
    (hst : Standing t ops w) {x : NodeId} (hx : ∀ type, .setType x type ∉ ops) :
    value w x = t.join (t.partsOf (reachedTypes ops x)) := by
  classical
  have hpos : ∀ {k type}, .setType k type ∈ ops → 0 < k := by
    intro k type hset
    obtain ⟨n, hpos, -⟩ := hops.builds_of_mem hset
    exact hpos
  by_cases hdeps : w.graph.depsOf x = []
  · have hnone : reachedTypes ops x = [] := by
      refine List.eq_nil_iff_forall_not_mem.mpr fun type hmem => ?_
      obtain ⟨k, hset, hr⟩ := mem_reachedTypes.mp hmem
      rcases ReflTransGen.cases_head (hst.reaches hops (hpos hset) hr) with rfl | ⟨d, hd, -⟩
      · exact hx type hset
      · simp [hdeps] at hd
    rw [hnone, value, hst.reflects.absent x hdeps hx, Table.parts_zero, Table.partsOf_nil,
      Table.join_empty]
  · -- the sources that the node reaches are nodes that were given a type, or have none
    let ks := (List.range w.graph.size).filter fun k =>
      w.graph.depsOf k = [] ∧ Reaches w.graph.depsOf x k
    have hks : ∀ k, k ∈ ks ↔ w.graph.depsOf k = [] ∧ Reaches w.graph.depsOf x k := by
      intro k
      simp only [ks, List.mem_filter, List.mem_range, decide_eq_true_eq, and_iff_right_iff_imp]
      rintro ⟨hleaf, hr⟩
      rcases ReflTransGen.cases_tail hr with rfl | ⟨y, -, hy⟩
      · exact absurd hleaf hdeps
      · obtain ⟨n, hn⟩ := Graph.exists_view_of_mem_observersOf (hst.web.wired y k hy).2
        exact (Graph.lt_size_of_view hn).2
    have hfix : ∀ y, w.graph.depsOf y ≠ [] →
        value w y = t.join (gather (value w) (w.graph.depsOf y)) :=
      fun y hy => (hst.settled y hy).resolve_right (by simp)
    rw [hst.web.supported.eq_join_sources ht hfix hdeps hks]
    congr 1
    ext p
    constructor
    · rintro ⟨k, hk, hp⟩
      obtain ⟨hleaf, hr⟩ := (hks k).mp hk
      by_cases hset : ∃ type, .setType k type ∈ ops
      · obtain ⟨type, hset⟩ := hset
        obtain ⟨n, -, -, hlt⟩ := hops.builds_of_mem hset
        rw [value, (hst.reflects.given k type hset).2, hst.web.grown.toExtends.parts_eq ht hlt] at hp
        refine ⟨type, mem_reachedTypes.mpr ⟨k, hset, ?_⟩, hp⟩
        exact ReflTransGen.mono (fun a b hb => ((hst.reflects.deps a b).mp hb).2) _ _ hr
      · rw [value, hst.reflects.absent k hleaf fun type hin => hset ⟨type, hin⟩,
          Table.parts_zero] at hp
        exact hp.elim
    · rintro ⟨type, hmem, hp⟩
      obtain ⟨k, hset, hr⟩ := mem_reachedTypes.mp hmem
      obtain ⟨n, -, -, hlt⟩ := hops.builds_of_mem hset
      obtain ⟨hleaf, htype⟩ := hst.reflects.given k type hset
      refine ⟨k, (hks k).mpr ⟨hleaf, hst.reaches hops (hpos hset) hr⟩, ?_⟩
      rw [value, htype, hst.web.grown.toExtends.parts_eq ht hlt]
      exact hp

theorem standing_empty (ht : t.WellFormed) (env : κ) : Standing t [] ⟨t, {}, env⟩ := by
  have hview : ∀ x, Graph.view {} x = none := by
    intro x
    rw [← Option.not_isSome_iff_eq_none, Graph.isSome_view_iff]
    rintro ⟨hpos, hlt⟩
    exact Nat.ne_of_gt hpos (Nat.lt_one_iff.mp hlt)
  have hdeps : ∀ x, Graph.depsOf {} x = [] := fun x => by rw [Graph.depsOf, hview]; rfl
  have htype : ∀ x, Graph.typeOf {} x = 0 := fun x => by rw [Graph.typeOf_eq, hview]; rfl
  refine ⟨⟨ht, .refl t, fun x => ?_, fun x => ?_, fun x n hn => ?_, fun x d hd => ?_, ⟨?_, ?_⟩⟩,
    fun o ho => ?_, fun x hx => ?_, ⟨rfl, fun x d => ?_, fun x type hin => ?_, fun x _ _ => htype x⟩⟩
  · rw [htype]
    exact Nat.succ_pos _
  · rw [value, htype, Table.parts_zero]
    exact fun p hp => hp.elim
  · rw [hview] at hn
    cases hn
  · rw [hdeps] at hd
    cases hd
  · exact fun x hx => absurd (hdeps x) hx
  · exact fun x hx => absurd (hdeps x) hx
  · obtain ⟨n, hn, -⟩ := ho
    have hv := Graph.view_of_get? hn
    rw [hview] at hv
    cases hv
  · exact absurd (hdeps x) hx
  · rw [hdeps]
    simp [DependsOn]
  · cases hin

/-- **The worklist computes the batch answer.** Operations that build a graph are all performed, in
whatever order they come and whether or not the dependencies form cycles. In the end a node that was
given a type has it, and no dependencies; every other node has the join of the types that were given to
the nodes it reaches. So the same operations in another order give nodes that are made of the same. -/
theorem runEach_batch (hbuilt : t.Built) {ops : List Operation} (hops : Admissible t ops) (env : κ)
    (hb : (ops.length + 2) ^ 3 ≤ h.budget) :
    let run := runEach (·.run h) ops ⟨t, {}, env⟩
    run.1 = ops.map (fun _ => .ok ()) ∧
    (∀ x type, .setType x type ∈ ops → run.2.graph.depsOf x = [] ∧ run.2.graph.typeOf x = type) ∧
    (∀ x, (∀ type, .setType x type ∉ ops) →
      run.2.graph.typeOf x = ((Table.merge (reachedTypes ops x)).run run.2.types).1) ∧
    (∀ ops', ops'.Perm ops → Admissible t ops' → ∀ x,
      value (runEach (·.run h) ops' ⟨t, {}, env⟩).2 x = value run.2 x) := by
  have ht := hbuilt.wellFormed
  obtain ⟨hok, hst⟩ := (standing_empty ht env).performAll (h := h) ht hops hb
  rw [List.nil_append] at hst
  refine ⟨hok, hst.reflects.given, fun x hx => ?_, fun ops' hperm hops' x => ?_⟩
  · generalize (runEach (·.run h) ops ⟨t, {}, env⟩).2 = w at hst ⊢
    have hknown : ∀ type ∈ reachedTypes ops x, type < t.size := by
      intro type hmem
      obtain ⟨k, hset, -⟩ := mem_reachedTypes.mp hmem
      obtain ⟨n, -, -, hlt⟩ := hops.builds_of_mem hset
      exact hlt
    have hext := hst.web.grown.toExtends
    obtain ⟨hwf', hg, hlt, hparts⟩ := hst.web.wellFormed.adds_merge fun type hmem =>
      hext.lt_size (hknown type hmem)
    refine hwf'.parts_injective ?_
    rw [hparts, hg.toExtends.parts_eq hst.web.wellFormed (hst.web.typed x),
      hext.partsOf_eq ht hknown, hext.join_eq ht hst.web.wellFormed (ht.known_partsOf hknown)]
    exact hst.value_eq ht hops hx
  · have hb' : (ops'.length + 2) ^ 3 ≤ h.budget := by rw [hperm.length_eq]; exact hb
    obtain ⟨-, hst'⟩ := (standing_empty ht env).performAll (h := h) ht hops' hb'
    rw [List.nil_append] at hst'
    by_cases hx : ∃ type, .setType x type ∈ ops
    · obtain ⟨type, hset⟩ := hx
      obtain ⟨n, -, -, hlt⟩ := hops.builds_of_mem hset
      rw [value, value, (hst.reflects.given x type hset).2,
        (hst'.reflects.given x type (hperm.mem_iff.mpr hset)).2,
        hst.web.grown.toExtends.parts_eq ht hlt, hst'.web.grown.toExtends.parts_eq ht hlt]
    · have hnot : ∀ type, .setType x type ∉ ops := fun type hset => hx ⟨type, hset⟩
      have hnot' : ∀ type, .setType x type ∉ ops' := fun type hset =>
        hnot type (hperm.mem_iff.mp hset)
      rw [hst.value_eq ht hops hnot, hst'.value_eq ht hops' hnot']
      congr 1
      ext p
      have hreach : DependsOn ops' = DependsOn ops := by
        funext a b
        simp only [DependsOn, hperm.mem_iff]
      simp only [Table.partsOf, Set.mem_ofPred_eq, mem_reachedTypes, hreach, hperm.mem_iff]

/-- Two nodes that depend on each other and on a third one, which is given a type last. -/
theorem runEach_batch_cycle :
    let ops : List Operation :=
      [.newNode "a", .newNode "b", .bind 1 [2, 1], .newNode "c", .bind 2 [1, 3],
        .setType 3 Builtin.string]
    let hooks : Hooks Unit := ⟨fun _ => pure (), fun _ _ _ => pure false, 512⟩
    let run := runEach (·.run hooks) ops ⟨.initial, {}, ()⟩
    Admissible .initial ops ∧ (ops.length + 2) ^ 3 ≤ hooks.budget ∧
      run.1 = ops.map (fun _ => .ok ()) ∧
      run.2.graph.typeOf 1 = ((Table.merge (reachedTypes ops 1)).run run.2.types).1 := by
  have hops : Admissible .initial [.newNode "a", .newNode "b", .bind 1 [2, 1], .newNode "c",
      .bind 2 [1, 3], .setType 3 Builtin.string] := ⟨by decide, by decide⟩
  obtain ⟨hok, -, htype, -⟩ := runEach_batch (h := ⟨fun _ => pure (), fun _ _ _ => pure false, 512⟩)
    .initial hops () (by decide)
  exact ⟨hops, by decide, hok, htype 1 (by simp)⟩

end TypeFlow.Flow
