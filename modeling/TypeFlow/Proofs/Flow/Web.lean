import Mathlib.Tactic.Ring
import TypeFlow.Proofs.Types.Merge
import TypeFlow.Proofs.Flow.Network
import TypeFlow.Proofs.Flow.Run

/-!
# Propagation settles every node

A *web* is a graph whose nodes all take on the join of their dependencies: none narrows or wraps it, none
has a fixed type, and nothing is to be resolved again. In a web the queue of a propagation always runs
empty, within a number of steps that is bounded by the number of nodes, and without failure; then every
node has the join of its dependencies (`Web.ends_propagate`).

The values of nodes are compared as sets of parts with respect to the table `t` from which the run
started. The types of the world only ever grow from it.
-/

namespace TypeFlow.Flow

open TypeFlow.Graph (Observer Node Pending)

variable {κ : Type} {t : Table} {w w' : World κ} {h : Hooks κ}

/-- What a node is made of. -/
def value (w : World κ) (x : NodeId) : Set Part :=
  w.types.parts (w.graph.typeOf x)

/-- A node that takes on the join of its dependencies. -/
structure Plain (n : Node) : Prop where
  mapping : n.mapping = .merge
  frozen : n.frozen = false
  slot : n.slot = none
  observers : ∀ o ∈ n.observers, o.edge = .update

/-- A world whose nodes all take on the join of their dependencies. -/
structure Web (t : Table) (w : World κ) : Prop where
  wellFormed : w.types.WellFormed
  grown : t.Grown w.types
  typed : ∀ x, w.graph.typeOf x < w.types.size
  known : ∀ x, t.Known (value w x)
  plain : ∀ x n, w.graph.view x = some n → Plain n
  wired : ∀ x d, d ∈ w.graph.depsOf x → d ≠ x ∧ ⟨x, .update⟩ ∈ w.graph.observersOf d
  supported : Supported t w.graph.depsOf (value w)

/-- Every node that is not in the queue has the join of its dependencies. -/
def Settled (t : Table) (w : World κ) (queue : List Observer) : Prop :=
  ∀ x, w.graph.depsOf x ≠ [] →
    value w x = t.join (gather (value w) (w.graph.depsOf x)) ∨ ⟨x, .update⟩ ∈ queue

/-- What propagation leaves alone: the nodes, their dependencies and the types of sources. -/
structure Kept (g g' : Graph) : Prop where
  size : g'.size = g.size
  deps : g'.depsOf = g.depsOf
  sources : ∀ x, g.depsOf x = [] → g'.typeOf x = g.typeOf x

theorem Kept.refl (g : Graph) : Kept g g :=
  ⟨rfl, rfl, fun _ _ => rfl⟩

theorem Kept.trans {g g' g'' : Graph} (h : Kept g g') (h' : Kept g' g'') : Kept g g'' :=
  ⟨h'.size.trans h.size, h'.deps.trans h.deps, fun x hx =>
    (h'.sources x (by rw [h.deps, hx])).trans (h.sources x hx)⟩

theorem Kept.of_view {g g' : Graph} (hsize : g'.size = g.size) (hview : g'.view = g.view) :
    Kept g g' :=
  ⟨hsize, Graph.depsOf_of_view_eq hview, fun x _ => congrFun (Graph.typeOf_of_view_eq hview) x⟩

/-! ### Changes that keep a web -/

/-- Queues are not part of a web. -/
theorem Web.of_view (hw : Web t w) (htypes : w'.types = w.types)
    (hview : w'.graph.view = w.graph.view) : Web t w' := by
  have htype := Graph.typeOf_of_view_eq hview
  have hval : value w' = value w := by
    funext x
    rw [value, value, htypes, htype]
  have hdeps := Graph.depsOf_of_view_eq hview
  have hobs := Graph.observersOf_of_view_eq hview
  refine ⟨htypes ▸ hw.wellFormed, htypes ▸ hw.grown, ?_, ?_, ?_, ?_, ?_⟩
  · rw [htype, htypes]
    exact hw.typed
  · rw [hval]
    exact hw.known
  · rw [hview]
    exact hw.plain
  · rw [hdeps, hobs]
    exact hw.wired
  · rw [hdeps, hval]
    exact hw.supported

/-- Additional types leave the values alone. -/
theorem Web.value_grown (hw : Web t w) {types : Table} (hg : w.types.Grown types) :
    value { w with types } = value w := by
  funext x
  exact hg.toExtends.parts_eq hw.wellFormed (hw.typed x)

theorem Web.of_grown (hw : Web t w) {types : Table} (hwf : types.WellFormed)
    (hg : w.types.Grown types) : Web t { w with types } := by
  refine ⟨hwf, hw.grown.trans hg, fun x => hg.lt_size (hw.typed x), ?_, hw.plain, hw.wired, ?_⟩
  · rw [hw.value_grown hg]
    exact hw.known
  · rw [hw.value_grown hg]
    exact hw.supported

/-- What the dependencies of a node make in a web: the join of their values. -/
theorem Web.evaluate (hw : Web t w) (ht : t.WellFormed) {x : NodeId} {n : Node}
    (hn : w.graph.get? x = some n) :
    (evaluate h w n).2.WellFormed ∧ w.types.Grown (evaluate h w n).2 ∧
      (evaluate h w n).1 < (evaluate h w n).2.size ∧
      (evaluate h w n).2.parts (evaluate h w n).1 =
        t.join (gather (value w) (w.graph.depsOf x)) := by
  have hmerge : Flow.evaluate h w n = (Table.merge (n.deps.map w.graph.typeOf)).run w.types := by
    have hmap : n.mapping = .merge := (hw.plain x _ (Graph.view_of_get? hn)).mapping
    simp only [Flow.evaluate, image, hmap]
    split <;> rfl
  have hids : ∀ id ∈ n.deps.map w.graph.typeOf, id < w.types.size := by
    intro id hid
    obtain ⟨d, -, rfl⟩ := List.mem_map.mp hid
    exact hw.typed d
  have hparts : w.types.partsOf (n.deps.map w.graph.typeOf) =
      gather (value w) (w.graph.depsOf x) := by
    rw [Graph.depsOf_of_get? hn]
    ext p
    simp [Table.partsOf, gather, value]
  obtain ⟨hwf, hg, hlt, heq⟩ := hw.wellFormed.adds_merge hids
  rw [hmerge]
  refine ⟨hwf, hg, hlt, ?_⟩
  rw [heq, hparts]
  refine hw.grown.toExtends.join_eq ht hw.wellFormed ?_
  rintro p ⟨d, -, hp⟩
  exact hw.known d p hp

/-- A node of a web may be given a type, provided the values stay supported. -/
theorem Web.retype (hw : Web t w) {x : NodeId} {r : TypeId} (hx : (w.graph.view x).isSome)
    (hr : r < w.types.size) (hknown : t.Known (w.types.parts r))
    (hsup : Supported t w.graph.depsOf (Function.update (value w) x (w.types.parts r))) :
    Web t { w with graph := w.graph.retype x r } ∧
      value { w with graph := w.graph.retype x r } =
        Function.update (value w) x (w.types.parts r) ∧
      (w.graph.retype x r).depsOf = w.graph.depsOf ∧
      (w.graph.retype x r).observersOf = w.graph.observersOf := by
  have htype := Graph.typeOf_retype hx r
  have hval : value { w with graph := w.graph.retype x r } =
      Function.update (value w) x (w.types.parts r) := by
    funext y
    by_cases hy : y = x
    · subst hy
      rw [Function.update_self, value, htype, if_pos rfl]
    · rw [Function.update_of_ne hy, value, htype, if_neg hy]
      rfl
  have hdeps := Graph.depsOf_retype w.graph x r
  have hobs := Graph.observersOf_retype w.graph x r
  refine ⟨⟨hw.wellFormed, hw.grown, fun y => ?_, fun y => ?_, fun y m hm => ?_, ?_, ?_⟩, hval, hdeps,
    hobs⟩
  · show (w.graph.retype x r).typeOf y < w.types.size
    rw [htype]
    split
    · exact hr
    · exact hw.typed y
  · rw [hval]
    by_cases hy : y = x
    · rw [hy, Function.update_self]
      exact hknown
    · rw [Function.update_of_ne hy]
      exact hw.known y
  · rw [Graph.view_retype] at hm
    split at hm
    · obtain ⟨m', hm', rfl⟩ := Option.map_eq_some_iff.mp hm
      obtain ⟨h₁, h₂, h₃, h₄⟩ := hw.plain y m' hm'
      exact ⟨h₁, h₂, h₃, h₄⟩
    · exact hw.plain y m hm
  · show ∀ y d, d ∈ (w.graph.retype x r).depsOf y → _
    rw [hdeps, hobs]
    exact hw.wired
  · show Supported t (w.graph.retype x r).depsOf _
    rw [hdeps, hval]
    exact hsup

/-! ### Serving observers -/

/-- What computing a node of a web again does. -/
structure Recomputed (t : Table) (w : World κ) (x : NodeId) (r : Except Failure Bool)
    (w' : World κ) : Prop where
  web : Web t w'
  kept : Kept w.graph w'.graph
  waiting : ∀ o, w'.graph.Waiting o ↔ w.graph.Waiting o
  observers : w'.graph.observersOf = w.graph.observersOf
  outcome :
    (r = .ok false ∧ value w' = value w ∧ (w.graph.depsOf x ≠ [] →
      value w x = t.join (gather (value w) (w.graph.depsOf x)))) ∨
    (r = .ok true ∧ w.graph.depsOf x ≠ [] ∧
      value w' = Function.update (value w) x (t.join (gather (value w) (w.graph.depsOf x))) ∧
      t.join (gather (value w) (w.graph.depsOf x)) ≠ value w x)

/-- In a web, computing a node again never fails. -/
theorem Web.ends_recompute (hw : Web t w) (ht : t.WellFormed) (x : NodeId) :
    Ends w (recompute h x) (Recomputed t w x) := by
  by_cases hx : w.graph.depsOf x = []
  · have hrun : (recompute h x).run.run w = (.ok false, w) :=
      recompute_of_no_deps fun n hn => by rw [← Graph.depsOf_of_get? hn, hx]
    rw [Ends, hrun]
    exact ⟨hw, Kept.refl _, fun _ => Iff.rfl, rfl, .inl ⟨rfl, rfl, fun hne => absurd hx hne⟩⟩
  · obtain ⟨d, hd⟩ := List.exists_mem_of_ne_nil _ hx
    obtain ⟨m, hm⟩ := Graph.exists_view_of_mem_depsOf hd
    obtain ⟨n, hn, rfl⟩ := Graph.get?_of_view hm
    have hslot : n.slot = none := (hw.plain x _ hm).slot
    have hfrozen : n.frozen = false := (hw.plain x _ hm).frozen
    obtain ⟨hwf, hg, hlt, hparts⟩ := hw.evaluate (h := h) ht hn
    have hw₁ := hw.of_grown hwf hg
    have hval₁ := hw.value_grown hg
    have htype : w.graph.typeOf x = n.type := Graph.typeOf_of_get? hn
    have hdeps : n.deps ≠ [] := by rwa [← Graph.depsOf_of_get? hn]
    rw [Ends, recompute_eq hn hdeps, settle_eq, writeSlot_of_none hslot]
    have hself : (Flow.evaluate h w n).2.parts n.type = value w x := by
      rw [← htype, ← hval₁]
      rfl
    split
    · rename_i hsame
      refine ⟨hw₁, Kept.refl _, fun _ => Iff.rfl, rfl, .inl ⟨rfl, hval₁, fun _ => ?_⟩⟩
      rcases hsame with h0 | hsame
      · -- nothing is known of the dependencies, and so of the node
        rw [h0, Table.parts_zero] at hparts
        rw [← hw.supported.join_val ht hx]
        refine Table.join_eq_of_within (hw.supported.below x hx) ?_
        rw [← ht.within_join_left, ← hparts]
        exact t.within_of_subset (Set.empty_subset _)
      · rw [← hparts, hsame, hself]
    · rename_i hsame
      rw [hfrozen]
      have hne : t.join (gather (value w) (w.graph.depsOf x)) ≠ value w x := by
        intro heq
        rw [← hparts, ← hself] at heq
        exact hsame (.inr (hwf.parts_injective heq))
      have hknown : t.Known (t.join (gather (value w) (w.graph.depsOf x))) := by
        refine ht.known_join ?_
        rintro p ⟨d, -, hp⟩
        exact hw.known d p hp
      have hsup := hw.supported.update ht hx fun hmem => (hw.wired x x hmem).1 rfl
      rw [← hparts, ← hval₁] at hsup
      obtain ⟨hw₂, hval₂, hdeps₂, hobs₂⟩ :=
        hw₁.retype (by rw [hm]; rfl) hlt (by rw [hparts]; exact hknown) hsup
      rw [hval₁, hparts] at hval₂
      refine ⟨hw₂, ⟨Graph.size_modify _ _ _, hdeps₂, fun y hy => ?_⟩, fun o => ?_, hobs₂,
        .inr ⟨rfl, hx, hval₂, hne⟩⟩
      · refine (Graph.typeOf_retype (by rw [hm]; rfl) _ y).trans (if_neg ?_)
        rintro rfl
        exact hx hy
      · exact Graph.waiting_retype _ _ _

/-- The steps that a propagation may still take: each change of a node covers a further source and
queues at most all nodes. -/
noncomputable def work (t : Table) (w : World κ) (queue : List Observer) : Nat :=
  (w.graph.size * w.graph.size -
      (Supported.covered t w.graph.depsOf (value w) w.graph.size).card) * (w.graph.size + 1) +
    queue.length

/-- A change of a node pays for the observers that it queues. -/
theorem work_lt_of_change {x : NodeId} {o : Observer} {q more : List Observer} (hw : Web t w)
    (ht : t.WellFormed) (hk : Kept w.graph w'.graph) (hx : w.graph.depsOf x ≠ [])
    (hval : value w' = Function.update (value w) x (t.join (gather (value w) (w.graph.depsOf x))))
    (hne : t.join (gather (value w) (w.graph.depsOf x)) ≠ value w x)
    (hmore : more.length ≤ w.graph.size) : work t w' (q ++ more) < work t w (o :: q) := by
  have hnode : ∀ y d, d ∈ w.graph.depsOf y → d < w.graph.size := by
    intro y d hd
    obtain ⟨n, hn⟩ := Graph.exists_view_of_mem_observersOf (hw.wired y d hd).2
    exact (Graph.lt_size_of_view hn).2
  have hlt : x < w.graph.size := by
    obtain ⟨d, hd⟩ := List.exists_mem_of_ne_nil _ hx
    obtain ⟨n, hn⟩ := Graph.exists_view_of_mem_depsOf hd
    exact (Graph.lt_size_of_view hn).2
  have hcard := Finset.card_lt_card (hw.supported.covered_ssubset ht hnode hlt hx
    (fun hmem => (hw.wired x x hmem).1 rfl) hne)
  have hle := Supported.card_covered_le t w.graph.depsOf (value w') w.graph.size
  unfold work
  rw [hk.deps, hk.size, hval]
  rw [hval] at hle
  generalize (Supported.covered t w.graph.depsOf (value w) w.graph.size).card = c at hcard
  generalize (Supported.covered t w.graph.depsOf _ w.graph.size).card = c' at hcard hle ⊢
  generalize w.graph.size = N at hle hmore ⊢
  -- one unit of the first factor outweighs a full queue
  obtain ⟨k, hk⟩ : ∃ k, N * N - c = k + 1 + (N * N - c') := ⟨N * N - c - 1 - (N * N - c'), by omega⟩
  rw [hk, Nat.add_mul, Nat.add_mul]
  simp only [List.length_append, List.length_cons]
  omega

theorem length_queueUp_le (hw : Web t w) (x : NodeId) :
    (w.graph.queueUp (w.graph.observersOf x)).1.length ≤ w.graph.size := by
  obtain ⟨hnd, hnew⟩ := Graph.queueUp_nodup w.graph (w.graph.observersOf x)
  have hedge : ∀ o ∈ (w.graph.queueUp (w.graph.observersOf x)).1, o.edge = .update := by
    intro o ho
    obtain ⟨n, hn⟩ := Graph.exists_view_of_mem_observersOf (hnew o ho).1
    exact (hw.plain x n hn).observers o (Graph.observersOf_of_view hn ▸ (hnew o ho).1)
  have hnodes : ((w.graph.queueUp (w.graph.observersOf x)).1.map Observer.node).Nodup := by
    refine hnd.map_on fun o ho p hp heq => ?_
    obtain ⟨y, e⟩ := o
    obtain ⟨z, e'⟩ := p
    have he : e = .update := hedge _ ho
    have he' : e' = .update := hedge _ hp
    simp_all
  have hsub : ∀ y ∈ (w.graph.queueUp (w.graph.observersOf x)).1.map Observer.node,
      y ∈ List.range w.graph.size := by
    intro y hy
    obtain ⟨o, ho, rfl⟩ := List.mem_map.mp hy
    exact List.mem_range.mpr (Graph.isSome_view_iff.mp (hnew o ho).2.2).2
  calc (w.graph.queueUp (w.graph.observersOf x)).1.length
      = ((w.graph.queueUp (w.graph.observersOf x)).1.map Observer.node).length := by simp
    _ ≤ (List.range w.graph.size).length := (hnodes.subperm hsub).length_le
    _ = w.graph.size := List.length_range

/-- Where a propagation ends: the queue is empty, and every node has the join of its dependencies. -/
structure Done (t : Table) (w : World κ) (r : Except Failure Unit) (w' : World κ) : Prop where
  ok : r = .ok ()
  web : Web t w'
  pending : Pending w'.graph []
  settled : Settled t w' []
  kept : Kept w.graph w'.graph

theorem Done.of_kept {w₀ : World κ} {r : Except Failure Unit} (hk : Kept w₀.graph w.graph)
    (hd : Done t w r w') : Done t w₀ r w' :=
  ⟨hd.ok, hd.web, hd.pending, hd.settled, hk.trans hd.kept⟩

/-- After a change the observers of the node are all that is not settled in addition. -/
theorem Settled.of_change {x : NodeId} {queue : List Observer} (hw : Web t w)
    (hs : Settled t w (⟨x, .update⟩ :: queue)) (hdeps : w'.graph.depsOf = w.graph.depsOf)
    (hval : value w' = Function.update (value w) x (t.join (gather (value w) (w.graph.depsOf x)))) :
    Settled t w' (queue ++ w.graph.observersOf x) := by
  have hother : ∀ y, y ≠ x → value w' y = value w y := fun y hy => by
    rw [hval, Function.update_of_ne hy]
  intro y hy
  rw [hdeps] at hy ⊢
  by_cases hmem : x ∈ w.graph.depsOf y
  · exact .inr (List.mem_append_right _ (hw.wired y x hmem).2)
  · have hgather : gather (value w') (w.graph.depsOf y) = gather (value w) (w.graph.depsOf y) :=
      gather_congr fun d hd => hother d fun heq => hmem (heq ▸ hd)
    rw [hgather]
    by_cases hyx : y = x
    · subst hyx
      rw [hval, Function.update_self]
      exact .inl rfl
    · rw [hother y hyx]
      refine (hs y hy).imp id fun hin => List.mem_append_left _ ?_
      exact (List.mem_cons.mp hin).resolve_left fun heq => hyx (congrArg Observer.node heq)

/-- Taking an observer from the queue leaves the web alone; only its node may be unsettled. -/
theorem Web.unqueue {x : NodeId} {queue : List Observer} (hw : Web t w)
    (hp : Pending w.graph (⟨x, .update⟩ :: queue)) (hs : Settled t w (⟨x, .update⟩ :: queue))
    (hw' : w' = { w with graph := w.graph.unqueue ⟨x, .update⟩ }) :
    Web t w' ∧ Kept w.graph w'.graph ∧ value w' = value w ∧ Pending w'.graph queue ∧
      Settled t w' (⟨x, .update⟩ :: queue) := by
  have hview : w'.graph.view = w.graph.view := by
    rw [hw']
    exact Graph.view_unqueue _ _
  have hk : Kept w.graph w'.graph := by
    refine Kept.of_view ?_ hview
    rw [hw']
    exact Graph.size_modify _ _ _
  have hval : value w' = value w := by
    funext y
    rw [value, value, Graph.typeOf_congr (congrFun hview y), hw']
  refine ⟨hw.of_view (by rw [hw']) hview, hk, hval, fun o ho => ?_, fun y hy => ?_⟩
  · rw [hw'] at ho
    obtain ⟨hne, ho⟩ := (Graph.waiting_unqueue _ _ _).mp ho
    exact (List.mem_cons.mp (hp o ho)).resolve_left hne
  · rw [hk.deps] at hy ⊢
    rw [hval]
    exact hs y hy

/-- Queueing the observers of a node leaves the web alone, and all that is not settled is queued. -/
theorem Web.queueObservers {x : NodeId} {queue more : List Observer} {g : Graph} (hw : Web t w)
    (hp : Pending w.graph queue) (hs : Settled t w (queue ++ w.graph.observersOf x))
    (hg : w.graph.queueObservers x = (more, g)) (hw' : w' = { w with graph := g }) :
    Web t w' ∧ Kept w.graph w'.graph ∧ value w' = value w ∧ Pending w'.graph (queue ++ more) ∧
      Settled t w' (queue ++ more) ∧ (∀ o ∈ more, o.edge = .update) ∧
      more.length ≤ w.graph.size := by
  rw [Graph.queueObservers_eq] at hg
  obtain ⟨hwait, hall⟩ := Graph.waiting_queueUp w.graph (w.graph.observersOf x)
  obtain ⟨-, hnew⟩ := Graph.queueUp_nodup w.graph (w.graph.observersOf x)
  have hview := Graph.view_queueUp w.graph (w.graph.observersOf x)
  have hsize := Graph.size_queueUp w.graph (w.graph.observersOf x)
  have hmore := length_queueUp_le hw x
  rw [hg] at hwait hall hnew hview hsize hmore
  subst hw'
  have hk : Kept w.graph g := Kept.of_view hsize hview
  have hval : value { w with graph := g } = value w := by
    funext y
    rw [value, value, Graph.typeOf_congr (congrFun hview y)]
  have hpend : Pending g (queue ++ more) := by
    intro o ho
    rcases (hwait o).mp ho with ho | ho
    · exact List.mem_append_left _ (hp o ho)
    · exact List.mem_append_right _ ho
  refine ⟨hw.of_view rfl hview, hk, hval, hpend, fun y hy => ?_, fun o ho => ?_, hmore⟩
  · have hy' : w.graph.depsOf y ≠ [] := hk.deps ▸ hy
    show _ = t.join (gather _ (g.depsOf y)) ∨ _
    rw [hval, hk.deps]
    refine (hs y hy').imp id fun hin => ?_
    rcases List.mem_append.mp hin with hin | hin
    · exact List.mem_append_left _ hin
    · obtain ⟨d, hd⟩ := List.exists_mem_of_ne_nil _ hy'
      obtain ⟨n, hn⟩ := Graph.exists_view_of_mem_depsOf hd
      exact hpend _ (hall _ hin (by rw [hn]; rfl))
  · obtain ⟨n, hn⟩ := Graph.exists_view_of_mem_observersOf (hnew o ho).1
    exact (hw.plain x n hn).observers o (Graph.observersOf_of_view hn ▸ (hnew o ho).1)

theorem work_congr {q : List Observer} (hk : Kept w.graph w'.graph) (hval : value w' = value w) :
    work t w' q = work t w q := by
  rw [work, work, hk.deps, hk.size, hval]

/-- **A queue of a web runs empty.** -/
theorem Web.ends_serveAll (ht : t.WellFormed) {fuel : Nat} {queue : List Observer} (hw : Web t w)
    (hp : Pending w.graph queue) (hs : Settled t w queue) (hq : ∀ o ∈ queue, o.edge = .update)
    (hfuel : work t w queue ≤ fuel) : Ends w (serveAll h fuel queue) (Done t w) := by
  induction fuel generalizing w queue with
  | zero =>
    cases queue with
    | nil => exact Ends.pure ⟨rfl, hw, hp, hs, Kept.refl _⟩
    | cons o queue =>
      rw [work, List.length_cons] at hfuel
      omega
  | succ fuel ih =>
    cases queue with
    | nil => exact Ends.pure ⟨rfl, hw, hp, hs, Kept.refl _⟩
    | cons o queue =>
      obtain ⟨x, e⟩ := o
      obtain rfl : e = .update := hq _ List.mem_cons_self
      have hq' : ∀ o ∈ queue, o.edge = .update := fun o ho => hq o (List.mem_cons_of_mem _ ho)
      rw [serveAll]
      refine Ends.changeGraph_bind (Ends.attempt_bind ?_)
      generalize hw₁ : ({ w with graph := w.graph.unqueue ⟨x, .update⟩ } : World κ) = w₁
      obtain ⟨hweb₁, hk₁, hval₁, hp₁, hs₁⟩ := hw.unqueue hp hs hw₁.symm
      have hwork₁ := work_congr (t := t) (q := ⟨x, .update⟩ :: queue) hk₁ hval₁
      refine (hweb₁.ends_recompute ht x).imp fun r w₂ hr => ?_
      have hp₂ : Pending w₂.graph queue := fun o ho => hp₁ o ((hr.waiting o).mp ho)
      rcases hr.outcome with ⟨rfl, hval, hset⟩ | ⟨rfl, hx, hval, hne⟩
      · -- the node is settled now, and nothing else has changed
        refine (ih hr.web hp₂ (fun y hy => ?_) hq' ?_).imp fun r' w' hd =>
          hd.of_kept (hk₁.trans hr.kept)
        · rw [hr.kept.deps] at hy ⊢
          rw [hval]
          by_cases hyx : y = x
          · subst hyx
            exact .inl (hset hy)
          · refine (hs₁ y hy).imp id fun hin => ?_
            exact (List.mem_cons.mp hin).resolve_left fun heq => hyx (congrArg Observer.node heq)
        · rw [work_congr hr.kept hval]
          rw [← hwork₁, work, List.length_cons] at hfuel
          rw [work]
          omega
      · -- the node has changed, and its observers join the queue
        refine Ends.onGraph_bind ?_
        have hs₂ := hs₁.of_change hweb₁ hr.kept.deps hval
        rw [← hr.observers] at hs₂
        rcases hres : w₂.graph.queueObservers x with ⟨more, g⟩
        generalize hw₃ : ({ w₂ with graph := g } : World κ) = w₃
        obtain ⟨hweb₃, hk₃, hval₃, hp₃, hs₃, hmore, hlen⟩ :=
          hr.web.queueObservers hp₂ hs₂ hres hw₃.symm
        refine (ih hweb₃ hp₃ hs₃ (fun o ho => ?_) ?_).imp fun r' w' hd =>
          hd.of_kept (hk₁.trans (hr.kept.trans hk₃))
        · exact (List.mem_append.mp ho).elim (hq' o) (hmore o)
        · have hlt := work_lt_of_change (o := ⟨x, .update⟩) (q := queue) hweb₁ ht hr.kept hx hval hne
            (hr.kept.size ▸ hlen)
          rw [work_congr hk₃ hval₃]
          omega

/-- **A propagation in a web ends**, in a number of steps that is bounded by the number of nodes, and
leaves every node with the join of its dependencies. -/
theorem Web.ends_propagate (ht : t.WellFormed) {x : NodeId} (hw : Web t w)
    (hp : Pending w.graph []) (hs : Settled t w (w.graph.observersOf x))
    (hb : (w.graph.size + 1) ^ 3 ≤ h.budget) : Ends w (propagate h x) (Done t w) := by
  refine Ends.onGraph_bind ?_
  rcases hres : w.graph.queueObservers x with ⟨more, g⟩
  generalize hw₁ : ({ w with graph := g } : World κ) = w₁
  obtain ⟨hweb, hk, hval, hp₁, hs₁, hmore, hlen⟩ := hw.queueObservers hp hs hres hw₁.symm
  refine (hweb.ends_serveAll ht hp₁ hs₁ hmore ?_).imp fun r w' hd => hd.of_kept hk
  refine Nat.le_trans ?_ hb
  rw [work_congr hk hval, work]
  simp only [List.nil_append]
  generalize (Supported.covered _ _ _ _).card = c
  generalize w.graph.size = N at hlen ⊢
  calc (N * N - c) * (N + 1) + more.length ≤ N * N * (N + 1) + N := by
        refine Nat.add_le_add (Nat.mul_le_mul_right _ (Nat.sub_le _ _)) hlen
    _ ≤ N * N * (N + 1) + N + (2 * (N * N) + 2 * N + 1) := Nat.le_add_right _ _
    _ = (N + 1) ^ 3 := by ring

end TypeFlow.Flow
