import TypeFlow.Proofs.Flow.Nodes

/-!
# Dependencies and observers

What the operations on dependencies do to a graph. `Wires g g' x` says that `g'` is `g` with further
dependencies of the node `x`, which it observes: nothing but these dependencies and observers differs,
and nothing is queued. Adding dependencies is such a change (`addDeps_wires`). `Rewires g g' x` allows
dependencies to be given up too, and says less about those of `x` (`dropDeps_rewires`).
-/

namespace TypeFlow.Graph

variable {g g' g'' : Graph} {x y id dep : NodeId} {n : Node} {o : Observer}

/-- A node without its dependencies and observers. -/
def Node.unwired (n : Node) : Node :=
  { n with deps := [], observers := [] }

/-- Nodes that differ in their wiring at most. -/
structure Node.Alike (n n' : Node) : Prop where
  type : n'.type = n.type
  mapping : n'.mapping = n.mapping
  filter : n'.filter = n.filter
  frozen : n'.frozen = n.frozen
  slot : n'.slot = n.slot

theorem Node.alike_of_unwired {n n' : Node} (h : n'.unwired = n.unwired) : n.Alike n' := by
  simp only [unwired, mk.injEq] at h
  exact ⟨h.2.1, h.2.2.2.2.1, h.2.2.2.2.2.1, h.2.2.2.2.2.2.1, h.2.2.2.2.2.2.2.1⟩

/-- The graph `g'` is `g` with further dependencies of a node. -/
structure Wires (g g' : Graph) (id : NodeId) : Prop where
  size : g'.size = g.size
  nodes : ∀ x, (g'.view x).map Node.unwired = (g.view x).map Node.unwired
  waiting : ∀ o, g'.Waiting o ↔ g.Waiting o
  deps_other : ∀ x, x ≠ id → g'.depsOf x = g.depsOf x
  deps_self : ∀ d ∈ g.depsOf id, d ∈ g'.depsOf id
  observers : ∀ x o, o ∈ g'.observersOf x ↔
    o ∈ g.observersOf x ∨ (o = ⟨id, .update⟩ ∧ x ∈ g'.depsOf id ∧ x ∉ g.depsOf id)

namespace Wires

theorem refl (g : Graph) (id : NodeId) : Wires g g id := by
  refine ⟨rfl, fun _ => rfl, fun _ => Iff.rfl, fun _ _ => rfl, fun _ h => h, fun x o => ?_⟩
  refine (or_iff_left ?_).symm
  rintro ⟨-, hin, hnot⟩
  exact hnot hin

theorem trans (h : Wires g g' id) (h' : Wires g' g'' id) : Wires g g'' id := by
  refine ⟨h'.size.trans h.size, fun x => (h'.nodes x).trans (h.nodes x),
    fun o => (h'.waiting o).trans (h.waiting o), fun x hx => (h'.deps_other x hx).trans
      (h.deps_other x hx), fun d hd => h'.deps_self d (h.deps_self d hd), fun x o => ?_⟩
  rw [h'.observers, h.observers, or_assoc]
  refine or_congr_right ?_
  constructor
  · rintro (⟨ho, hin, hnot⟩ | ⟨ho, hin, hnot⟩)
    · exact ⟨ho, h'.deps_self x hin, hnot⟩
    · exact ⟨ho, hin, fun hx => hnot (h.deps_self x hx)⟩
  · rintro ⟨ho, hin, hnot⟩
    by_cases hx : x ∈ g'.depsOf id
    · exact .inl ⟨ho, hx, hnot⟩
    · exact .inr ⟨ho, hin, hx⟩

/-- What does not depend on the wiring is the same. -/
theorem map_eq (h : Wires g g' id) {β : Type} (f : Node → β) (hf : ∀ n, f n.unwired = f n) (x : NodeId) :
    (g'.view x).map f = (g.view x).map f := by
  have hcomp : f = f ∘ Node.unwired := (funext hf).symm
  rw [hcomp, ← Option.map_map, ← Option.map_map, h.nodes]

theorem typeOf_eq (h : Wires g g' id) (x : NodeId) : g'.typeOf x = g.typeOf x := by
  rw [Graph.typeOf_eq, Graph.typeOf_eq, h.map_eq Node.type (fun _ => rfl)]

end Wires

/-! ### Adding dependencies -/

theorem view_addDep (hn : g.get? id = some n) (hdep : dep ≠ 0) (hne : dep ≠ id) (hnew : dep ∉ n.deps)
    (x : NodeId) : (g.addDep id dep).1 = true ∧ (g.addDep id dep).2.view x =
      if x = dep then (g.view x).map fun d => { d with observers := d.observers ++ [⟨id, .update⟩] }
      else if x = id then (g.view x).map fun n => { n with deps := n.deps ++ [dep] }
      else g.view x := by
  have hcond : ¬ (dep = 0 ∨ dep = id ∨ dep ∈ n.deps) := by simp [hdep, hne, hnew]
  rw [addDep, hn]
  simp only [if_neg hcond, true_and]
  rw [view_modify]
  · split
    · rename_i hx
      rw [view_modify, if_neg (hx ▸ hne)]
      exact fun _ => rfl
    · rw [view_modify]
      exact fun _ => rfl
  · exact fun _ => rfl

/-- Adding a dependency on another node. -/
theorem addDep_wires (hid : (g.view id).isSome) (hdep : dep < g.size) :
    Wires g (g.addDep id dep).2 id ∧
      (∀ d, d ∈ (g.addDep id dep).2.depsOf id ↔ d ∈ g.depsOf id ∨ (d = dep ∧ d ≠ 0 ∧ d ≠ id)) ∧
      ((g.addDep id dep).1 = false → (g.addDep id dep).2 = g) := by
  obtain ⟨m, hm⟩ := Option.isSome_iff_exists.mp hid
  obtain ⟨n, hn, rfl⟩ := get?_of_view hm
  have hdeps : g.depsOf id = n.deps := depsOf_of_get? hn
  by_cases hcond : dep = 0 ∨ dep = id ∨ dep ∈ n.deps
  · have hsame : g.addDep id dep = (false, g) := by
      rw [addDep, hn]
      simp only [if_pos hcond]
    rw [hsame]
    refine ⟨Wires.refl g id, fun d => ?_, fun _ => rfl⟩
    refine (or_iff_left_of_imp ?_).symm
    rintro ⟨rfl, h0, hne⟩
    rw [hdeps]
    exact (hcond.resolve_left h0).resolve_left hne
  · obtain ⟨h0, hne, hnew⟩ : dep ≠ 0 ∧ dep ≠ id ∧ dep ∉ n.deps := by simpa using hcond
    have hview := fun x => view_addDep hn h0 hne hnew x
    obtain ⟨d, hd⟩ := exists_view (Nat.pos_of_ne_zero h0) hdep
    have hself : (g.addDep id dep).2.depsOf id = g.depsOf id ++ [dep] := by
      rw [depsOf, (hview id).2, if_neg (Ne.symm hne), if_pos rfl, hm, hdeps]
      rfl
    refine ⟨⟨?_, fun x => ?_, fun o => ?_, fun x hx => ?_, fun d hd => ?_, fun x o => ?_⟩, ?_, ?_⟩
    · rw [addDep, hn]
      simp only [if_neg hcond, size_modify]
    · rw [(hview x).2]
      split
      · rw [Option.map_map]
        rfl
      · split
        · rw [Option.map_map]
          rfl
        · rfl
    · rw [addDep, hn]
      simp only [if_neg hcond]
      rw [waiting_modify, waiting_modify]
      all_goals exact fun _ e => by cases e <;> rfl
    · rw [depsOf, (hview x).2, if_neg hx]
      split
      · rw [Option.map_map]
        rfl
      · rfl
    · rw [hself]
      exact List.mem_append_left _ hd
    · rw [observersOf, (hview x).2, hself]
      by_cases hx : x = dep
      · subst hx
        rw [if_pos rfl, observersOf, hd]
        simp [hdeps, hnew]
      · have hnot : ¬ (x ∈ g.depsOf id ++ [dep] ∧ x ∉ g.depsOf id) := by
          rintro ⟨hin, hout⟩
          rcases List.mem_append.mp hin with hin | hin
          · exact hout hin
          · exact hx (List.mem_singleton.mp hin)
        rw [if_neg hx, or_iff_left fun h => hnot h.2]
        split
        · rw [Option.map_map]
          rfl
        · rfl
    · intro d
      rw [hself, List.mem_append, List.mem_singleton]
      refine or_congr_right ⟨?_, fun h => h.1⟩
      rintro rfl
      exact ⟨rfl, h0, hne⟩
    · intro hfalse
      rw [(hview id).1] at hfalse
      exact absurd hfalse (by simp)

/-- **Adding dependencies wires the node to them.** -/
theorem addDeps_wires {deps : List NodeId} (hid : (g.view id).isSome) (hdeps : ∀ d ∈ deps, d < g.size) :
    Wires g (g.addDeps id deps).2 id ∧
      (∀ d, d ∈ (g.addDeps id deps).2.depsOf id ↔
        d ∈ g.depsOf id ∨ (d ∈ deps ∧ d ≠ 0 ∧ d ≠ id)) ∧
      ((g.addDeps id deps).1 = false → (g.addDeps id deps).2 = g) := by
  induction deps generalizing g with
  | nil => exact ⟨Wires.refl g id, by simp [addDeps], fun _ => rfl⟩
  | cons dep deps ih =>
    obtain ⟨hw, hmem, hsame⟩ := addDep_wires hid (hdeps dep List.mem_cons_self)
    have hid' : ((g.addDep id dep).2.view id).isSome := by
      rw [isSome_view_congr hw.size]
      exact hid
    obtain ⟨hw', hmem', hsame'⟩ := ih hid' fun d hd => by
      rw [hw.size]
      exact hdeps d (List.mem_cons_of_mem _ hd)
    refine ⟨hw.trans hw', fun d => ?_, fun hfalse => ?_⟩
    · rw [addDeps]
      simp only [hmem', hmem, List.mem_cons]
      grind
    · rw [addDeps] at hfalse ⊢
      simp only [Bool.or_eq_false_iff] at hfalse ⊢
      rw [hsame' hfalse.2, hsame hfalse.1]

/-! ### Giving up dependencies -/

/-- The graph `g'` is `g` with other dependencies of a node, which still observes all of them. -/
structure Rewires (g g' : Graph) (id : NodeId) : Prop where
  size : g'.size = g.size
  nodes : ∀ x, (g'.view x).map Node.unwired = (g.view x).map Node.unwired
  waiting : ∀ o, g'.Waiting o ↔ g.Waiting o
  deps_other : ∀ x, x ≠ id → g'.depsOf x = g.depsOf x
  observers_other : ∀ x o, o ≠ ⟨id, .update⟩ → (o ∈ g'.observersOf x ↔ o ∈ g.observersOf x)
  wired : (∀ d ∈ g.depsOf id, d ≠ id ∧ ⟨id, .update⟩ ∈ g.observersOf d) →
    ∀ d ∈ g'.depsOf id, d ≠ id ∧ ⟨id, .update⟩ ∈ g'.observersOf d

namespace Rewires

theorem refl (g : Graph) (id : NodeId) : Rewires g g id :=
  ⟨rfl, fun _ => rfl, fun _ => Iff.rfl, fun _ _ => rfl, fun _ _ _ => Iff.rfl, fun h => h⟩

theorem trans (h : Rewires g g' id) (h' : Rewires g' g'' id) : Rewires g g'' id :=
  ⟨h'.size.trans h.size, fun x => (h'.nodes x).trans (h.nodes x),
    fun o => (h'.waiting o).trans (h.waiting o),
    fun x hx => (h'.deps_other x hx).trans (h.deps_other x hx),
    fun x o ho => (h'.observers_other x o ho).trans (h.observers_other x o ho),
    fun hw => h'.wired (h.wired hw)⟩

theorem map_eq (h : Rewires g g' id) {β : Type} (f : Node → β) (hf : ∀ n, f n.unwired = f n)
    (x : NodeId) : (g'.view x).map f = (g.view x).map f := by
  have hcomp : f = f ∘ Node.unwired := (funext hf).symm
  rw [hcomp, ← Option.map_map, ← Option.map_map, h.nodes]

theorem exists_alike (h : Rewires g g' id) {x : NodeId} {n' : Node} (hn : g'.view x = some n') :
    ∃ n, g.view x = some n ∧ n.Alike n' := by
  have hnode := h.nodes x
  rw [hn, Option.map_some] at hnode
  obtain ⟨n, hn, heq⟩ := Option.map_eq_some_iff.mp hnode.symm
  exact ⟨n, hn, Node.alike_of_unwired heq.symm⟩

theorem typeOf_eq (h : Rewires g g' id) (x : NodeId) : g'.typeOf x = g.typeOf x := by
  rw [Graph.typeOf_eq, Graph.typeOf_eq, h.map_eq Node.type (fun _ => rfl)]

end Rewires

theorem Wires.rewires (h : Wires g g' id) (hself : ∀ d ∈ g'.depsOf id, d ∈ g.depsOf id ∨ d ≠ id) :
    Rewires g g' id := by
  refine ⟨h.size, h.nodes, h.waiting, h.deps_other, fun x o ho => ?_, fun hw d hd => ?_⟩
  · rw [h.observers]
    exact or_iff_left fun hnew => ho hnew.1
  · by_cases hold : d ∈ g.depsOf id
    · exact ⟨(hw d hold).1, (h.observers d _).mpr (.inl (hw d hold).2)⟩
    · exact ⟨(hself d hd).resolve_left hold, (h.observers d _).mpr (.inr ⟨rfl, hd, hold⟩)⟩

/-- A node without one of its dependencies. -/
def Node.dropDep (dep : NodeId) (n : Node) : Node :=
  { n with deps := n.deps.filter (· ≠ dep) }

/-- A node without one of its observers. -/
def Node.dropObserver (o : Observer) (n : Node) : Node :=
  { n with observers := n.observers.filter (· ≠ o) }

theorem Node.unmarked_dropDep (dep : NodeId) (n : Node) :
    (n.dropDep dep).unmarked = n.unmarked.dropDep dep :=
  rfl

theorem Node.unmarked_dropObserver (o : Observer) (n : Node) :
    (n.dropObserver o).unmarked = n.unmarked.dropObserver o :=
  rfl

/-- Giving up one dependency. -/
def dropDep (g : Graph) (id dep : NodeId) : Graph :=
  (g.modify id (Node.dropDep dep)).modify dep (Node.dropObserver ⟨id, .update⟩)

theorem dropDeps_cons (g : Graph) (id dep : NodeId) (deps : List NodeId) :
    g.dropDeps id (dep :: deps) = (g.dropDep id dep).dropDeps id deps :=
  rfl

theorem depsOf_dropDep (g : Graph) (id dep x : NodeId) :
    (g.dropDep id dep).depsOf x = if x = id then (g.depsOf x).filter (· ≠ dep) else g.depsOf x := by
  have hsecond : (g.dropDep id dep).depsOf = (g.modify id (Node.dropDep dep)).depsOf :=
    depsOf_modify _ _ (Node.unmarked_dropObserver _) fun _ => rfl
  rw [hsecond, depsOf, view_modify g id x (Node.unmarked_dropDep dep), depsOf]
  split
  · cases g.view x <;> rfl
  · rfl

theorem observersOf_dropDep (g : Graph) (id dep x : NodeId) :
    (g.dropDep id dep).observersOf x =
      if x = dep then (g.observersOf x).filter (· ≠ ⟨id, .update⟩) else g.observersOf x := by
  have hfirst : (g.modify id (Node.dropDep dep)).observersOf = g.observersOf :=
    observersOf_modify _ _ (Node.unmarked_dropDep dep) fun _ => rfl
  rw [← hfirst, dropDep, observersOf, view_modify _ dep x (Node.unmarked_dropObserver _), observersOf]
  split
  · cases (g.modify id (Node.dropDep dep)).view x <;> rfl
  · rfl

theorem dropDep_rewires (g : Graph) (id dep : NodeId) : Rewires g (g.dropDep id dep) id := by
  refine ⟨?_, fun x => ?_, fun o => ?_, fun x hx => ?_, fun x o ho => ?_, fun hw d hd => ?_⟩
  · rw [dropDep, size_modify, size_modify]
  · have hfirst : ((g.modify id (Node.dropDep dep)).view x).map Node.unwired =
        (g.view x).map Node.unwired :=
      map_view_modify g id (Node.unmarked_dropDep dep) _ (fun _ => rfl) x
    rw [← hfirst]
    exact map_view_modify _ dep (Node.unmarked_dropObserver _) _ (fun _ => rfl) x
  · rw [dropDep, waiting_modify, waiting_modify]
    all_goals exact fun _ e => by cases e <;> rfl
  · rw [depsOf_dropDep, if_neg hx]
  · rw [observersOf_dropDep]
    split
    · simp [ho]
    · rfl
  · rw [depsOf_dropDep, if_pos rfl] at hd
    obtain ⟨hmem, hne⟩ := List.mem_filter.mp hd
    rw [observersOf_dropDep, if_neg (by simpa using hne)]
    exact hw d hmem

/-- **Giving up dependencies** leaves the others observed. -/
theorem dropDeps_rewires (g : Graph) (id : NodeId) (deps : List NodeId) :
    Rewires g (g.dropDeps id deps) id ∧
      ∀ d, d ∈ (g.dropDeps id deps).depsOf id ↔ d ∈ g.depsOf id ∧ d ∉ deps := by
  induction deps generalizing g with
  | nil => exact ⟨Rewires.refl g id, fun d => by simp [dropDeps]⟩
  | cons dep deps ih =>
    obtain ⟨hr, hmem⟩ := ih (g.dropDep id dep)
    rw [dropDeps_cons]
    refine ⟨(dropDep_rewires g id dep).trans hr, fun d => ?_⟩
    rw [hmem, depsOf_dropDep, if_pos rfl, List.mem_filter, List.mem_cons]
    simp only [ne_eq, decide_eq_true_eq, not_or, and_assoc]

/-! ### Watching -/

/-- A node without its observers. -/
def Node.unobserved (n : Node) : Node :=
  { n with observers := [] }

/-- A node with one more observer, unless it is one already. -/
def Node.addObserver (o : Observer) (n : Node) : Node :=
  if n.observers.contains o then n else { n with observers := n.observers ++ [o] }

theorem Node.unmarked_addObserver (o : Observer) (n : Node) :
    (n.addObserver o).unmarked = n.unmarked.addObserver o := by
  unfold addObserver
  split <;> rename_i h
  · rw [if_pos (by exact h)]
  · rw [if_neg (by exact h)]
    rfl

theorem Node.unobserved_addObserver (o : Observer) (n : Node) :
    (n.addObserver o).unobserved = n.unobserved := by
  unfold addObserver
  split <;> rfl

theorem Node.mem_addObserver {o p : Observer} {n : Node} :
    p ∈ (n.addObserver o).observers ↔ p ∈ n.observers ∨ p = o := by
  unfold addObserver
  split
  · rename_i h
    refine (or_iff_left_of_imp ?_).symm
    rintro rfl
    simpa using h
  · simp

/-- The graph `g'` is `g` with a further observer of some nodes. -/
structure Watches (g g' : Graph) (o : Observer) (watched : List NodeId) : Prop where
  size : g'.size = g.size
  nodes : ∀ x, (g'.view x).map Node.unobserved = (g.view x).map Node.unobserved
  waiting : ∀ p, g'.Waiting p ↔ g.Waiting p
  observers : ∀ x p, p ∈ g'.observersOf x ↔
    p ∈ g.observersOf x ∨ (p = o ∧ x ∈ watched ∧ (g.view x).isSome)

theorem Watches.map_eq {watched : List NodeId} (h : Watches g g' o watched) {β : Type} (f : Node → β)
    (hf : ∀ n, f n.unobserved = f n) (x : NodeId) : (g'.view x).map f = (g.view x).map f := by
  have hcomp : f = f ∘ Node.unobserved := (funext hf).symm
  rw [hcomp, ← Option.map_map, ← Option.map_map, h.nodes]

theorem Watches.exists_alike {watched : List NodeId} (h : Watches g g' o watched) {x : NodeId}
    {n' : Node} (hn : g'.view x = some n') :
    ∃ n, g.view x = some n ∧ n.Alike n' ∧ n'.deps = n.deps := by
  have hnode := h.nodes x
  rw [hn, Option.map_some] at hnode
  obtain ⟨n, hn, heq⟩ := Option.map_eq_some_iff.mp hnode.symm
  have hunwired : n'.unobserved.unwired = n.unobserved.unwired := by rw [heq]
  have hdeps : n'.unobserved.deps = n.unobserved.deps := by rw [heq]
  exact ⟨n, hn, Node.alike_of_unwired hunwired, hdeps⟩

theorem addObserver_watches (g : Graph) (o : Observer) (x : NodeId) :
    Watches g (g.modify x (Node.addObserver o)) o [x] := by
  refine ⟨size_modify _ _ _, fun y => ?_, fun p => ?_, fun y p => ?_⟩
  · exact map_view_modify g x (Node.unmarked_addObserver o) _ (Node.unobserved_addObserver o) y
  · refine waiting_modify g x fun n e => ?_
    have hsame : ∀ m : Node, m.unobserved.isQueued e = m.isQueued e := by
      intro m
      cases e <;> rfl
    rw [← hsame, Node.unobserved_addObserver, hsame]
  · rw [observersOf, view_modify g x y (Node.unmarked_addObserver o), observersOf]
    split
    · rename_i hy
      cases g.view y with
      | none => simp
      | some n => simp [Node.mem_addObserver, hy]
    · rename_i hy
      simp [hy]

/-- **Watching** adds an observer to the nodes that are watched. -/
theorem watch_watches (g : Graph) (id : NodeId) (watched : List NodeId) :
    Watches g (g.watch id watched) ⟨id, .recalc⟩ watched := by
  induction watched generalizing g with
  | nil => exact ⟨rfl, fun _ => rfl, fun _ => Iff.rfl, fun x p => by simp [watch]⟩
  | cons x watched ih =>
    have hstep := addObserver_watches g ⟨id, .recalc⟩ x
    have hrest := ih (g.modify x (Node.addObserver ⟨id, .recalc⟩))
    have heq : g.watch id (x :: watched) =
        (g.modify x (Node.addObserver ⟨id, .recalc⟩)).watch id watched := rfl
    rw [heq]
    refine ⟨hrest.size.trans hstep.size, fun y => (hrest.nodes y).trans (hstep.nodes y),
      fun p => (hrest.waiting p).trans (hstep.waiting p), fun y p => ?_⟩
    rw [hrest.observers, hstep.observers, isSome_view_congr hstep.size, or_assoc,
      List.mem_singleton, List.mem_cons]
    refine or_congr_right ?_
    rw [← and_or_left, ← or_and_right]

end TypeFlow.Graph
