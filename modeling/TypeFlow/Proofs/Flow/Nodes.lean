import TypeFlow.Flow.Graph

/-!
# Nodes and what waits in queues

A node carries two marks that say whether it waits in a queue, once for each kind of edge. They are
bookkeeping: everything else about a graph is read through `Graph.view`, which leaves the marks out, and
queueing, taking from a queue and giving up a queue leave the view alone. `Graph.Waiting` is what the
marks say.

Proofs about propagation never look at the marks themselves. They use what queueing up does to them
(`waiting_queueUp`): what is queued waits afterwards, and every observer that was to be told waits, be it
in this queue or in another one.
-/

namespace TypeFlow.Graph

variable {g : Graph} {x id : NodeId} {n : Node} {o p : Observer}

/-! ### Reading and changing nodes -/

@[simp] theorem get?_zero (g : Graph) : g.get? 0 = none := rfl

@[simp] theorem get?_succ (g : Graph) (k : Nat) : g.get? (k + 1) = g.nodes[k]? := rfl

theorem isSome_get?_iff : (g.get? x).isSome ↔ 0 < x ∧ x < g.size := by
  cases x with
  | zero => simp
  | succ k => simp [size]

theorem get?_modify (g : Graph) (id x : NodeId) (f : Node → Node) :
    (g.modify id f).get? x = if x = id then (g.get? x).map f else g.get? x := by
  match id, x with
  | 0, 0 => rfl
  | 0, k + 1 => rfl
  | i + 1, 0 => rfl
  | i + 1, k + 1 =>
    simp only [modify, get?_succ, Array.getElem?_modify, Nat.add_right_cancel_iff]
    by_cases hik : i = k
    · simp [hik]
    · simp [hik, Ne.symm hik]

@[simp] theorem size_modify (g : Graph) (id : NodeId) (f : Node → Node) :
    (g.modify id f).size = g.size := by
  cases id <;> simp [modify, size]

theorem get?_add (g : Graph) (label : String) (x : NodeId) :
    (g.add label).2.get? x = if x = g.size then some { label } else g.get? x := by
  match x with
  | 0 => simp [size]
  | k + 1 =>
    simp only [add, get?_succ, size, Nat.add_right_cancel_iff]
    rw [Array.getElem?_push]

/-! ### The view of a node -/

/-- A node without the marks of the queues. -/
def Node.unmarked (n : Node) : Node :=
  { n with queuedUpdate := false, queuedRecalc := false }

/-- A node up to the marks of the queues. -/
def view (g : Graph) (x : NodeId) : Option Node :=
  (g.get? x).map Node.unmarked

@[simp] theorem view_zero (g : Graph) : g.view 0 = none := rfl

theorem view_of_get? (h : g.get? x = some n) : g.view x = some n.unmarked := by
  rw [view, h, Option.map_some]

theorem get?_of_view (h : g.view x = some n) : ∃ m, g.get? x = some m ∧ m.unmarked = n :=
  Option.map_eq_some_iff.mp h

theorem isSome_view_iff : (g.view x).isSome ↔ 0 < x ∧ x < g.size := by
  rw [view, Option.isSome_map, isSome_get?_iff]

/-- Which nodes there are depends on the size alone. -/
theorem isSome_view_congr {g' : Graph} (h : g'.size = g.size) (x : NodeId) :
    (g'.view x).isSome = (g.view x).isSome := by
  rw [Bool.eq_iff_iff, isSome_view_iff, isSome_view_iff, h]

theorem lt_size_of_view (h : g.view x = some n) : 0 < x ∧ x < g.size :=
  isSome_view_iff.mp (by rw [h]; rfl)

theorem exists_view (hpos : 0 < x) (hlt : x < g.size) : ∃ n, g.view x = some n :=
  Option.isSome_iff_exists.mp (isSome_view_iff.mpr ⟨hpos, hlt⟩)

theorem typeOf_eq (g : Graph) (x : NodeId) : g.typeOf x = ((g.view x).map Node.type).getD 0 := by
  rw [typeOf, view]
  cases g.get? x <;> rfl

theorem typeOf_of_view (h : g.view x = some n) : g.typeOf x = n.type := by
  rw [typeOf_eq, h]
  rfl

theorem typeOf_of_get? (h : g.get? x = some n) : g.typeOf x = n.type := by
  rw [typeOf_of_view (view_of_get? h)]
  rfl

/-- Graphs with the same view give nodes the same types. -/
theorem typeOf_congr {g' : Graph} (h : g'.view x = g.view x) : g'.typeOf x = g.typeOf x := by
  rw [typeOf_eq, typeOf_eq, h]

theorem view_modify (g : Graph) (id x : NodeId) {f : Node → Node}
    (hf : ∀ n, (f n).unmarked = f n.unmarked) :
    (g.modify id f).view x = if x = id then (g.view x).map f else g.view x := by
  rw [view, get?_modify]
  split
  · rw [view, Option.map_map, Option.map_map]
    exact congrArg (Option.map · _) (funext hf)
  · rfl

/-- A change of marks leaves the view alone. -/
theorem view_modify_marks (g : Graph) (id : NodeId) {f : Node → Node}
    (hf : ∀ n, (f n).unmarked = n.unmarked) : (g.modify id f).view = g.view := by
  funext x
  rw [view, get?_modify]
  split
  · rw [Option.map_map]
    exact congrArg (Option.map · _) (funext hf)
  · rfl

theorem view_add (g : Graph) (label : String) (x : NodeId) :
    (g.add label).2.view x = if x = g.size then some { label } else g.view x := by
  rw [view, get?_add]
  split
  · rfl
  · rfl

theorem view_retype (g : Graph) (id : NodeId) (t : TypeId) (x : NodeId) :
    (g.retype id t).view x = if x = id then (g.view x).map ({ · with type := t }) else g.view x :=
  view_modify g id x fun _ => rfl

theorem typeOf_retype (hx : (g.view id).isSome) (t : TypeId) (x : NodeId) :
    (g.retype id t).typeOf x = if x = id then t else g.typeOf x := by
  rw [typeOf_eq, view_retype]
  split
  · rename_i hxid
    subst hxid
    obtain ⟨n, hn⟩ := Option.isSome_iff_exists.mp hx
    rw [hn]
    rfl
  · rw [typeOf_eq]

/-! ### Waiting -/

/-- An observer waits in some queue. -/
def Waiting (g : Graph) (o : Observer) : Prop :=
  ∃ n, g.get? o.node = some n ∧ n.isQueued o.edge = true

/-- All that waits is in the queue. -/
def Pending (g : Graph) (queue : List Observer) : Prop :=
  ∀ o, g.Waiting o → o ∈ queue

/-- A change that does not touch the marks. -/
theorem waiting_modify (g : Graph) (id : NodeId) {f : Node → Node}
    (hf : ∀ n e, (f n).isQueued e = n.isQueued e) : (g.modify id f).Waiting o ↔ g.Waiting o := by
  unfold Waiting
  rw [get?_modify]
  split
  · cases g.get? o.node with
    | none => simp
    | some n => simp [hf]
  · rfl

theorem waiting_add (g : Graph) (label : String) : (g.add label).2.Waiting o ↔ g.Waiting o := by
  unfold Waiting
  rw [get?_add]
  split
  · rename_i hx
    have hnone : g.get? o.node = none := by
      rw [← Option.not_isSome_iff_eq_none, isSome_get?_iff, hx]
      simp
    rw [hnone]
    refine iff_of_false ?_ (by simp)
    rintro ⟨n, hn, hq⟩
    obtain rfl := Option.some.inj hn
    cases h : o.edge <;> simp [h, Node.isQueued] at hq
  · rfl

@[simp] theorem Node.isQueued_setQueued (n : Node) (b : Bool) (e e' : Edge) :
    (n.setQueued b e).isQueued e' = if e' = e then b else n.isQueued e' := by
  cases e <;> cases e' <;> rfl

@[simp] theorem Node.unmarked_setQueued (n : Node) (b : Bool) (e : Edge) :
    (n.setQueued b e).unmarked = n.unmarked := by
  cases e <;> rfl

/-- Marking an observer, or taking its mark away. -/
theorem waiting_setQueued (g : Graph) (o p : Observer) (b : Bool) :
    (g.modify o.node fun n => n.setQueued b o.edge).Waiting p ↔
      (p = o ∧ b = true ∧ (g.get? o.node).isSome) ∨ (p ≠ o ∧ g.Waiting p) := by
  obtain ⟨x, e⟩ := o
  obtain ⟨y, e'⟩ := p
  simp only [Waiting, get?_modify, Observer.mk.injEq]
  by_cases hy : y = x
  · subst hy
    cases g.get? y with
    | none => simp
    | some n => by_cases he : e' = e <;> simp [he]
  · simp [hy]

theorem view_unqueue (g : Graph) (o : Observer) : (g.unqueue o).view = g.view :=
  view_modify_marks g o.node fun n => by simp

theorem waiting_unqueue (g : Graph) (o p : Observer) :
    (g.unqueue o).Waiting p ↔ p ≠ o ∧ g.Waiting p := by
  rw [unqueue, waiting_setQueued]
  simp

/-- What waits after a queue was given up waited before, and was not in that queue. -/
theorem waiting_of_drain {queue : List Observer} (h : (g.drain queue).Waiting p) :
    g.Waiting p ∧ p ∉ queue := by
  induction queue generalizing g with
  | nil => exact ⟨h, by simp⟩
  | cons o queue ih =>
    obtain ⟨⟨n, hn, hq⟩, hmem⟩ := ih h
    rw [get?_modify] at hn
    split at hn
    · obtain ⟨m, -, rfl⟩ := Option.map_eq_some_iff.mp hn
      cases he : p.edge <;> simp [he, Node.isQueued] at hq
    · rename_i hne
      refine ⟨⟨n, hn, hq⟩, ?_⟩
      rw [List.mem_cons, not_or]
      exact ⟨fun heq => hne (by rw [heq]), hmem⟩

/-! ### Queueing up -/

theorem view_queueUp (g : Graph) (os : List Observer) : (g.queueUp os).2.view = g.view := by
  induction os generalizing g with
  | nil => rfl
  | cons o os ih =>
    rw [queueUp]
    split
    · exact ih g
    · split
      · exact ih g
      · exact (ih _).trans (view_modify_marks g o.node fun n => by simp)

@[simp] theorem size_queueUp (g : Graph) (os : List Observer) : (g.queueUp os).2.size = g.size := by
  induction os generalizing g with
  | nil => rfl
  | cons o os ih =>
    rw [queueUp]
    split
    · exact ih g
    · split
      · exact ih g
      · exact (ih _).trans (size_modify _ _ _)

/-- What is queued did not wait before and is queued once. -/
theorem queueUp_nodup (g : Graph) (os : List Observer) :
    (g.queueUp os).1.Nodup ∧ ∀ p ∈ (g.queueUp os).1, p ∈ os ∧ ¬ g.Waiting p ∧
      (g.view p.node).isSome := by
  induction os generalizing g with
  | nil => exact ⟨List.nodup_nil, by simp [queueUp]⟩
  | cons o os ih =>
    have hskip : (g.queueUp os).1.Nodup ∧ ∀ p ∈ (g.queueUp os).1, p ∈ o :: os ∧ ¬ g.Waiting p ∧
        (g.view p.node).isSome :=
      ⟨(ih g).1, fun p hp => ⟨List.mem_cons_of_mem _ ((ih g).2 p hp).1, ((ih g).2 p hp).2⟩⟩
    rw [queueUp]
    split
    · exact hskip
    · rename_i n hn
      split
      · exact hskip
      · rename_i hq
        obtain ⟨hnd, hnew⟩ := ih (g.modify o.node fun n => n.setQueued true o.edge)
        have hview : (g.modify o.node fun n => n.setQueued true o.edge).view = g.view :=
          view_modify_marks g o.node fun n => by simp
        refine ⟨List.nodup_cons.mpr ⟨fun hmem => ?_, hnd⟩, fun p hp => ?_⟩
        · refine (hnew o hmem).2.1 ((waiting_setQueued g o o true).mpr (.inl ⟨rfl, rfl, ?_⟩))
          rw [hn]
          rfl
        · rcases List.mem_cons.mp hp with rfl | hp
          · refine ⟨List.mem_cons_self, ?_, by rw [view, hn]; rfl⟩
            rintro ⟨m, hm, hqm⟩
            obtain rfl := Option.some.inj (hn.symm.trans hm)
            exact hq hqm
          · obtain ⟨hmem, hnot, hsome⟩ := hnew p hp
            rw [hview] at hsome
            refine ⟨List.mem_cons_of_mem _ hmem, fun hw => ?_, hsome⟩
            by_cases hpo : p = o
            · subst hpo
              refine hnot ((waiting_setQueued g p p true).mpr (.inl ⟨rfl, rfl, ?_⟩))
              rw [hn]
              rfl
            · exact hnot ((waiting_setQueued g o p true).mpr (.inr ⟨hpo, hw⟩))

/-- **What waits after queueing up** waited before or is in the new queue; and all that was to be
queued waits. -/
theorem waiting_queueUp (g : Graph) (os : List Observer) :
    (∀ p, (g.queueUp os).2.Waiting p ↔ g.Waiting p ∨ p ∈ (g.queueUp os).1) ∧
      ∀ p ∈ os, (g.view p.node).isSome → (g.queueUp os).2.Waiting p := by
  induction os generalizing g with
  | nil => exact ⟨fun p => by simp [queueUp], by simp⟩
  | cons o os ih =>
    rw [queueUp]
    split
    · rename_i hn
      refine ⟨(ih g).1, fun p hp hsome => ?_⟩
      rcases List.mem_cons.mp hp with rfl | hp
      · rw [view, hn] at hsome
        exact absurd hsome (by simp)
      · exact (ih g).2 p hp hsome
    · rename_i n hn
      split
      · rename_i hq
        refine ⟨(ih g).1, fun p hp hsome => ?_⟩
        rcases List.mem_cons.mp hp with rfl | hp
        · exact ((ih g).1 p).mpr (.inl ⟨n, hn, hq⟩)
        · exact (ih g).2 p hp hsome
      · have hview : (g.modify o.node fun n => n.setQueued true o.edge).view = g.view :=
          view_modify_marks g o.node fun n => by simp
        obtain ⟨hiff, hall⟩ := ih (g.modify o.node fun n => n.setQueued true o.edge)
        have hmark : ∀ p, (g.modify o.node fun n => n.setQueued true o.edge).Waiting p ↔
            p = o ∨ g.Waiting p := by
          intro p
          rw [waiting_setQueued, hn]
          by_cases hpo : p = o <;> simp [hpo]
        refine ⟨fun p => ?_, fun p hp hsome => ?_⟩
        · simp only [hiff, hmark, List.mem_cons]
          exact or_assoc.trans or_left_comm
        · rcases List.mem_cons.mp hp with rfl | hp
          · exact (hiff p).mpr (.inl ((hmark p).mpr (.inl rfl)))
          · exact hall p hp (by rw [hview]; exact hsome)

/-- The observers of a node. -/
def observersOf (g : Graph) (x : NodeId) : List Observer :=
  ((g.view x).map Node.observers).getD []

/-- The dependencies of a node. -/
def depsOf (g : Graph) (x : NodeId) : List NodeId :=
  ((g.view x).map Node.deps).getD []

theorem observersOf_of_view (h : g.view x = some n) : g.observersOf x = n.observers := by
  rw [observersOf, h]
  rfl

theorem depsOf_of_view (h : g.view x = some n) : g.depsOf x = n.deps := by
  rw [depsOf, h]
  rfl

theorem depsOf_of_get? (h : g.get? x = some n) : g.depsOf x = n.deps := by
  rw [depsOf_of_view (view_of_get? h)]
  rfl

theorem typeOf_of_view_eq {g' : Graph} (h : g'.view = g.view) : g'.typeOf = g.typeOf :=
  funext fun x => typeOf_congr (congrFun h x)

theorem depsOf_of_view_eq {g' : Graph} (h : g'.view = g.view) : g'.depsOf = g.depsOf := by
  funext x
  rw [depsOf, depsOf, h]

theorem observersOf_of_view_eq {g' : Graph} (h : g'.view = g.view) :
    g'.observersOf = g.observersOf := by
  funext x
  rw [observersOf, observersOf, h]

/-- What a change does not touch is kept. -/
theorem map_view_modify {β : Type} (g : Graph) (id : NodeId) {f : Node → Node}
    (hf : ∀ n, (f n).unmarked = f n.unmarked) (p : Node → β) (hp : ∀ n, p (f n) = p n) (x : NodeId) :
    ((g.modify id f).view x).map p = (g.view x).map p := by
  rw [view_modify g id x hf]
  split
  · rw [Option.map_map]
    exact congrArg (Option.map · _) (funext hp)
  · rfl

theorem depsOf_modify (g : Graph) (id : NodeId) {f : Node → Node}
    (hf : ∀ n, (f n).unmarked = f n.unmarked) (hp : ∀ n, (f n).deps = n.deps) :
    (g.modify id f).depsOf = g.depsOf :=
  funext fun x => congrArg (Option.getD · []) (map_view_modify g id hf Node.deps hp x)

theorem observersOf_modify (g : Graph) (id : NodeId) {f : Node → Node}
    (hf : ∀ n, (f n).unmarked = f n.unmarked) (hp : ∀ n, (f n).observers = n.observers) :
    (g.modify id f).observersOf = g.observersOf :=
  funext fun x => congrArg (Option.getD · []) (map_view_modify g id hf Node.observers hp x)

theorem depsOf_retype (g : Graph) (id : NodeId) (t : TypeId) :
    (g.retype id t).depsOf = g.depsOf :=
  depsOf_modify g id (fun _ => rfl) fun _ => rfl

theorem observersOf_retype (g : Graph) (id : NodeId) (t : TypeId) :
    (g.retype id t).observersOf = g.observersOf :=
  observersOf_modify g id (fun _ => rfl) fun _ => rfl

theorem waiting_retype (g : Graph) (id : NodeId) (t : TypeId) :
    (g.retype id t).Waiting o ↔ g.Waiting o :=
  waiting_modify g id fun _ e => by cases e <;> rfl

/-- A new node has no dependencies, no observers and no type. -/
theorem map_view_add {β : Type} (f : Node → β) {b : β} (label : String)
    (hf : f { label } = b) (x : NodeId) :
    (((g.add label).2.view x).map f).getD b = ((g.view x).map f).getD b := by
  rw [view_add]
  split
  · rename_i hx
    have hnone : g.view x = none := by
      rw [← Option.not_isSome_iff_eq_none, isSome_view_iff, hx]
      simp
    rw [hnone]
    exact hf
  · rfl

theorem depsOf_add (g : Graph) (label : String) : (g.add label).2.depsOf = g.depsOf :=
  funext fun x => map_view_add Node.deps label rfl x

theorem observersOf_add (g : Graph) (label : String) :
    (g.add label).2.observersOf = g.observersOf :=
  funext fun x => map_view_add Node.observers label rfl x

theorem typeOf_add (g : Graph) (label : String) : (g.add label).2.typeOf = g.typeOf := by
  funext x
  rw [typeOf_eq, typeOf_eq]
  exact map_view_add Node.type label rfl x

@[simp] theorem size_add (g : Graph) (label : String) : (g.add label).2.size = g.size + 1 := by
  simp [add, size]

/-- A node with dependencies or observers is there. -/
theorem exists_view_of_mem_depsOf {d : NodeId} (h : d ∈ g.depsOf x) : ∃ n, g.view x = some n := by
  cases hn : g.view x with
  | none => simp [depsOf, hn] at h
  | some n => exact ⟨n, rfl⟩

theorem exists_view_of_mem_observersOf (h : o ∈ g.observersOf x) : ∃ n, g.view x = some n := by
  cases hn : g.view x with
  | none => simp [observersOf, hn] at h
  | some n => exact ⟨n, rfl⟩

theorem queueObservers_eq (g : Graph) (x : NodeId) :
    g.queueObservers x = g.queueUp (g.observersOf x) := by
  unfold queueObservers observersOf view
  cases g.get? x with
  | none => rfl
  | some n => rfl

end TypeFlow.Graph
