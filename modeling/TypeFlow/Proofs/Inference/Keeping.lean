import TypeFlow.Proofs.Flow.Wiring
import TypeFlow.Proofs.Inference.Evolution

/-!
# What stays connected

A node never loses a dependency, with one exception: a call that is resolved again gives up what it
depended on before. So a node that no call stands at keeps all its dependencies (`Program.Keeps`). The
blocks given to calls stay as well, and so do their parameters once they are made.

`Proceeds p p'` says that acts lead from `p` to `p'` and that everything stays connected on the way.
-/

namespace TypeFlow

theorem Slots.get?_modify_eq_none_iff {α : Type} {s : Slots α} {i j : Nat} {f : α → α} :
    (s.modify i f).get? j = none ↔ s.get? j = none := by
  rw [get?_modify]
  split
  · exact Option.map_eq_none_iff
  · exact Iff.rfl

theorem Slots.get?_of_set_eq_none {α : Type} {s : Slots α} {i j : Nat} {a : α}
    (h : (s.set i a).get? j = none) : s.get? j = none := by
  rw [get?_set] at h
  split at h
  · cases h
  · exact h

/-! ### Graphs -/

namespace Graph

theorem add_lt_size (g : Graph) (label : String) : (g.add label).1 < (g.add label).2.size := by
  simp [add, size]

/-- The nodes of a graph stay, and so do their dependencies. -/
structure Keeps (g g' : Graph) : Prop where
  size : g.size ≤ g'.size
  deps : ∀ x, g.depsOf x ⊆ g'.depsOf x

namespace Keeps

variable {g g' g'' : Graph}

theorem refl (g : Graph) : Keeps g g :=
  ⟨Nat.le_refl _, fun _ => List.Subset.refl _⟩

theorem trans (h : Keeps g g') (h' : Keeps g' g'') : Keeps g g'' :=
  ⟨h.size.trans h'.size, fun x => List.Subset.trans (h.deps x) (h'.deps x)⟩

theorem add (g : Graph) (label : String) : Keeps g (g.add label).2 := by
  refine ⟨?_, fun x => ?_⟩
  · simp [Graph.add, Graph.size]
  · rw [depsOf_add]
    exact List.Subset.refl _

/-- A change of a node that takes away no dependency. -/
theorem modify (g : Graph) (id : NodeId) {f : Node → Node} (hf : ∀ n, n.deps ⊆ (f n).deps) :
    Keeps g (g.modify id f) := by
  refine ⟨(size_modify g id f).ge, fun x d hd => ?_⟩
  obtain ⟨n, hn⟩ := exists_view_of_mem_depsOf hd
  obtain ⟨n, hget, rfl⟩ := get?_of_view hn
  rw [depsOf_of_get? hget] at hd
  by_cases hx : x = id
  · have hget' : (g.modify id f).get? x = some (f n) := by rw [get?_modify, if_pos hx, hget]; rfl
    rw [depsOf_of_get? hget']
    exact hf n hd
  · have hget' : (g.modify id f).get? x = some n := by rw [get?_modify, if_neg hx, hget]
    rwa [depsOf_of_get? hget']

/-- A change of a node that leaves its dependencies alone. -/
theorem modify_beside (g : Graph) (id : NodeId) {f : Node → Node} (hf : ∀ n, (f n).deps = n.deps) :
    Keeps g (g.modify id f) :=
  .modify g id fun n => by rw [hf]; exact List.Subset.refl _

theorem addDep (g : Graph) (id dep : NodeId) : Keeps g (g.addDep id dep).2 := by
  unfold Graph.addDep
  split
  · exact .refl g
  · split
    · exact .refl g
    · exact (Keeps.modify g id fun n => List.subset_append_left _ _).trans
        (.modify_beside _ dep fun _ => rfl)

theorem addDeps (g : Graph) (id : NodeId) (deps : List NodeId) : Keeps g (g.addDeps id deps).2 := by
  induction deps generalizing g with
  | nil => exact .refl g
  | cons dep deps ih => exact (addDep g id dep).trans (ih _)

theorem watch (g : Graph) (id : NodeId) (watched : List NodeId) : Keeps g (g.watch id watched) := by
  induction watched generalizing g with
  | nil => exact .refl g
  | cons x watched ih =>
    refine (Keeps.modify_beside g x fun n => ?_).trans (ih _)
    split <;> rfl

theorem queueUp (g : Graph) (os : List Observer) : Keeps g (g.queueUp os).2 := by
  induction os generalizing g with
  | nil => exact .refl g
  | cons o os ih =>
    unfold Graph.queueUp
    split
    · exact ih g
    · split
      · exact ih g
      · exact (Keeps.modify_beside g o.node fun n => by cases o.edge <;> rfl).trans (ih _)

theorem queueObservers (g : Graph) (x : NodeId) : Keeps g (g.queueObservers x).2 := by
  unfold Graph.queueObservers
  split
  · exact .refl g
  · exact queueUp g _

theorem unqueue (g : Graph) (o : Observer) : Keeps g (g.unqueue o) :=
  .modify_beside g o.node fun n => by cases o.edge <;> rfl

theorem drain (g : Graph) (queue : List Observer) : Keeps g (g.drain queue) := by
  induction queue generalizing g with
  | nil => exact .refl g
  | cons o queue ih =>
    refine .trans (.modify_beside g o.node ?_) (ih _)
    exact fun _ => rfl

end Keeps

/-- A node is fed by itself and by the nodes that it depends on. -/
def Feeds (g : Graph) (d x : NodeId) : Prop :=
  d = x ∨ d ∈ g.depsOf x

theorem Feeds.later {g g' : Graph} {d x : NodeId} (h : g.Feeds d x) (hdeps : g.depsOf x ⊆ g'.depsOf x) :
    g'.Feeds d x :=
  h.imp_right (@hdeps d)

end Graph

/-! ### Programs -/

/-- A later state of a block that was given to a call: its scope and its parameters stay once they are
made. -/
structure BlockContext.Extends (bc bc' : BlockContext) : Prop where
  block : bc'.block = bc.block
  caller : bc'.caller = bc.caller
  call : bc'.call = bc.call
  scope : ∀ s, bc.scope = some s → bc'.scope = some s ∧ bc'.params = bc.params

namespace BlockContext.Extends

theorem refl (bc : BlockContext) : bc.Extends bc :=
  ⟨rfl, rfl, rfl, fun _ h => ⟨h, rfl⟩⟩

theorem trans {bc bc' bc'' : BlockContext} (h : bc.Extends bc') (h' : bc'.Extends bc'') :
    bc.Extends bc'' := by
  refine ⟨h'.block.trans h.block, h'.caller.trans h.caller, h'.call.trans h.call, fun s hs => ?_⟩
  obtain ⟨hs', hparams⟩ := h.scope s hs
  obtain ⟨hs'', hparams'⟩ := h'.scope s hs'
  exact ⟨hs'', hparams'.trans hparams⟩

/-- Once a block is in scope, it stays so and keeps its parameters. -/
theorem opened {bc bc' : BlockContext} (h : bc.Extends bc') (hs : bc.scope.isSome) :
    bc'.scope.isSome ∧ bc'.params = bc.params := by
  obtain ⟨s, hs⟩ := Option.isSome_iff_exists.mp hs
  obtain ⟨hs', hparams⟩ := h.scope s hs
  exact ⟨hs' ▸ rfl, hparams⟩

end BlockContext.Extends

/-- The parameters of a block are nodes, and once the block is in scope each of them has one. -/
structure BlockContext.Bound (bc : BlockContext) (g : Graph) : Prop where
  nodes : ∀ x ∈ bc.params, 0 < x ∧ x < g.size
  length : ∀ s, bc.scope = some s → bc.params.length = (bc.block.params.getD []).length

theorem BlockContext.Bound.mono {bc : BlockContext} {g g' : Graph} (h : bc.Bound g)
    (hsize : g.size ≤ g'.size) : bc.Bound g' :=
  ⟨fun x hx => ⟨(h.nodes x hx).1, (h.nodes x hx).2.trans_le hsize⟩, h.length⟩

/-- What was opened for calls: dispatches and blocks. -/
def Env.opened (e : Env) : Array Dispatch × Array BlockContext :=
  (e.dispatches, e.blocks)

/-- What is connected stays so: nodes, calls and blocks, and the dependencies of every node that no call
stands at. A block that changes is bound. -/
structure Program.Keeps (p p' : Program) : Prop where
  size : p.graph.size ≤ p'.graph.size
  sites : ∀ x, p'.env.sites.get? x = none → p.env.sites.get? x = none
  deps : ∀ x, p'.env.sites.get? x = none → p.graph.depsOf x ⊆ p'.graph.depsOf x
  blocks : ∀ (b : Nat) bc, p.env.blocks[b]? = some bc →
    ∃ bc', p'.env.blocks[b]? = some bc' ∧ bc.Extends bc'
  bound : ∀ (b : Nat) bc, p'.env.blocks[b]? = some bc → p.env.blocks[b]? = some bc ∨ bc.Bound p'.graph

namespace Program.Keeps

variable {p p' p'' : Program}

theorem refl (p : Program) : Keeps p p :=
  ⟨Nat.le_refl _, fun _ h => h, fun _ _ => List.Subset.refl _, fun _ bc h => ⟨bc, h, .refl bc⟩,
    fun _ _ h => .inl h⟩

theorem trans (h : Keeps p p') (h' : Keeps p' p'') : Keeps p p'' := by
  refine ⟨h.size.trans h'.size, fun x hx => h.sites x (h'.sites x hx), fun x hx => ?_, ?_, ?_⟩
  · exact List.Subset.trans (h.deps x (h'.sites x hx)) (h'.deps x hx)
  · intro b bc hb
    obtain ⟨bc', hb', hx⟩ := h.blocks b bc hb
    obtain ⟨bc'', hb'', hx'⟩ := h'.blocks b bc' hb'
    exact ⟨bc'', hb'', hx.trans hx'⟩
  · intro b bc hb
    rcases h'.bound b bc hb with hb | hbound
    · exact (h.bound b bc hb).imp_right (·.mono h'.size)
    · exact .inr hbound

/-- A change of the graph that keeps it connected, beside which neither calls nor blocks change. -/
theorem of_graph (hg : p.graph.Keeps p'.graph) (hs : p'.env.sites = p.env.sites)
    (hb : p'.env.blocks = p.env.blocks) : Keeps p p' := by
  refine ⟨hg.size, fun x hx => hs ▸ hx, fun x _ => hg.deps x, fun b bc h => ?_, fun b bc h => ?_⟩
  · exact ⟨bc, hb ▸ h, .refl bc⟩
  · exact .inl (hb ▸ h)

/-- A change that concerns neither nodes nor calls nor blocks. -/
theorem beside (hg : p'.graph = p.graph) (hs : p'.env.sites = p.env.sites)
    (hb : p'.env.blocks = p.env.blocks) : Keeps p p' :=
  .of_graph (hg ▸ .refl _) hs hb

/-- A call gives up what it depended on. Where there is no call nothing is given up. -/
theorem of_dropDeps (p : Program) {x : NodeId} {deps : List NodeId}
    (hnone : p.env.sites.get? x = none → deps = []) :
    Keeps p { p with graph := p.graph.dropDeps x deps } := by
  obtain ⟨hr, -⟩ := Graph.dropDeps_rewires p.graph x deps
  refine ⟨hr.size.ge, fun _ h => h, fun y hy d hd => ?_, fun b bc h => ⟨bc, h, .refl bc⟩,
    fun b bc h => .inl h⟩
  by_cases hyx : y = x
  · rw [hnone (hyx ▸ hy)]
    exact hd
  · exact (hr.deps_other y hyx).symm ▸ hd

/-- Calls change, but none goes. -/
theorem of_sites (hg : p'.graph = p.graph)
    (hs : ∀ x, p'.env.sites.get? x = none → p.env.sites.get? x = none)
    (hb : p'.env.blocks = p.env.blocks) : Keeps p p' := by
  refine ⟨?_, hs, fun x _ => ?_, fun b bc h => ⟨bc, hb ▸ h, .refl bc⟩, fun b bc h => .inl (hb ▸ h)⟩
  · rw [hg]
  · rw [hg]
    exact List.Subset.refl _

/-- Blocks change. -/
theorem of_blocks (hg : p'.graph = p.graph) (hs : p'.env.sites = p.env.sites)
    (hblocks : ∀ (b : Nat) bc, p.env.blocks[b]? = some bc →
      ∃ bc', p'.env.blocks[b]? = some bc' ∧ bc.Extends bc')
    (hbound : ∀ (b : Nat) bc, p'.env.blocks[b]? = some bc →
      p.env.blocks[b]? = some bc ∨ bc.Bound p'.graph) : Keeps p p' := by
  refine ⟨?_, fun x hx => hs ▸ hx, fun x _ => ?_, hblocks, hbound⟩
  · rw [hg]
  · rw [hg]
    exact List.Subset.refl _

/-- A block is given to a call. -/
theorem of_push {bc : BlockContext} (hg : p'.graph = p.graph) (hs : p'.env.sites = p.env.sites)
    (hb : p'.env.blocks = p.env.blocks.push bc) (hbound : bc.Bound p'.graph) : Keeps p p' := by
  refine of_blocks hg hs (fun b old hold => ⟨old, ?_, .refl old⟩) fun b new hnew => ?_
  · rw [hb, Array.getElem?_push, if_neg (Nat.ne_of_lt (Array.getElem?_eq_some_iff.mp hold).1), hold]
  · rw [hb, Array.getElem?_push] at hnew
    split at hnew
    · obtain rfl := Option.some.inj hnew
      exact .inr hbound
    · exact .inl hnew

/-- A block gets its scope and its parameters. -/
theorem of_modify {b : Nat} {bc : BlockContext} {s : ScopeId} {params : List NodeId}
    (hg : p'.graph = p.graph) (hs : p'.env.sites = p.env.sites) (hold : p.env.blocks[b]? = some bc)
    (hnone : bc.scope = none)
    (hb : p'.env.blocks = p.env.blocks.modify b fun bc => { bc with scope := some s, params })
    (hbound : { bc with scope := some s, params }.Bound p'.graph) : Keeps p p' := by
  refine of_blocks hg hs (fun i old hi => ?_) fun i new hi => ?_
  · rw [hb, Array.getElem?_modify, hi]
    split
    · rename_i hbi
      obtain rfl := Option.some.inj (hold.symm.trans (hbi ▸ hi))
      exact ⟨_, rfl, rfl, rfl, rfl, fun s hs => by rw [hnone] at hs; cases hs⟩
    · exact ⟨old, rfl, .refl old⟩
  · rw [hb, Array.getElem?_modify] at hi
    split at hi
    · rename_i hbi
      rw [← hbi, hold] at hi
      exact .inr (Option.some.inj hi ▸ hbound)
    · exact .inl hi

end Program.Keeps

/-- All blocks are bound. -/
def Program.Bound (p : Program) : Prop :=
  ∀ (b : Nat) bc, p.env.blocks[b]? = some bc → bc.Bound p.graph

/-- Acts lead from a program to a later one, and everything stays connected. -/
structure Proceeds (p p' : Program) : Prop where
  acts : Acts p p'
  keeps : p.Keeps p'

namespace Proceeds

variable {p p' p'' : Program}

theorem refl : Proceeds p p :=
  ⟨.refl, .refl p⟩

theorem trans (h : Proceeds p p') (h' : Proceeds p' p'') : Proceeds p p'' :=
  ⟨h.acts.trans h'.acts, h.keeps.trans h'.keeps⟩

theorem single (h : p.Act p') (hk : p.Keeps p') : Proceeds p p' :=
  ⟨.single h, hk⟩

theorem evolves (h : Proceeds p p') : Evolves p p' :=
  h.acts.evolves

/-- An act that concerns neither nodes nor calls nor blocks. -/
theorem beside (h : p.Act p') (hg : p'.graph = p.graph) (hs : p'.env.sites = p.env.sites)
    (hb : p'.env.blocks = p.env.blocks) : Proceeds p p' :=
  .single h (.beside hg hs hb)

/-- A change of the graph alone. -/
theorem graph {g : Graph} (hg : p.graph.Keeps g) : Proceeds p { p with graph := g } :=
  .single (.change (.graph g) rfl) (.of_graph hg rfl rfl)

end Proceeds

end TypeFlow
