import TypeFlow.Proofs.Flow.Wiring
import TypeFlow.Proofs.Inference.Lookup
import TypeFlow.Proofs.Inference.Subcalls

/-!
# Calls that are kept up to date

A call is resolved for the types that its receiver and its arguments have at that moment, and its site notes
these types. When one of them changes later, also in the middle of resolving the call, the call waits to be
resolved again. A program is `Attentive` if that is so for every call, with the exception of those on a list
that are about to be served. Every call that was resolved has one target, with the exception of those that are being
resolved.

Typing steps are judged by `Heeds`: one that does not fail keeps a program attentive, and leaves nothing
waiting that did not wait before. What a step has to know beforehand, that a scope is there or that a node
may be given to a call, is a list of facts, none of which is ever lost. A step that fails may leave calls
behind that are out of date: nothing is said about these.

The invariant carries what makes it inductive. A call watches nodes that belong to an occurrence or a
variable, never the result of an instance: the type of a result is fixed without telling anyone.
-/

namespace TypeFlow

open TypeFlow.Graph (Observer)

/-! ### Sites, nodes and scopes -/

namespace Site

/-- The nodes whose types a call is resolved for. -/
def watched (s : Site) : List NodeId :=
  s.obj :: s.args

/-- What decides where a call is noted, whether it is up to date, and what it has for targets. -/
def pose (s : Site) :
    Nat × ScopeId × NodeId × NodeId × List NodeId × Option (List TypeId) × Bool × List NodeId :=
  (s.call.mark.occ, s.scope, s.node, s.obj, s.args, s.key, s.outBound, s.targets)

end Site

/-- The nodes of the variables that belong to no scope. -/
def Env.shared (e : Env) : List NodeId :=
  e.ivars.map Prod.snd ++ e.classVars.map Prod.snd ++ e.globals.map Prod.snd

/-- A node that belongs to an occurrence or a variable. -/
inductive Env.Owns (e : Env) : NodeId → Prop
  | nil : e.Owns Infer.nilNode
  | note (o : Nat) : e.Owns (e.note o).node
  | var {sc : Scope} {x : String × NodeId} (hs : sc ∈ e.scopes) (h : x ∈ sc.vars) : e.Owns x.2
  | shared {v : NodeId} (h : v ∈ e.shared) : e.Owns v

/-- A method remembers an instance for a receiver type and argument types. -/
def Env.Files (e : Env) (key : List TypeId) (i : InstanceId) : Prop :=
  ∃ m ∈ e.methods, (key, i) ∈ m.memo

/-- A node belongs to one occurrence at most. -/
def Env.Parted (e : Env) : Prop :=
  ∀ o o', (e.note o).node ≠ 0 → (e.note o).node = (e.note o').node → o = o'

/-- A type has foreign functions. -/
def Env.Library (e : Env) (t : TypeId) : Prop :=
  ∃ x ∈ e.funs, x.1.1 = t

/-- A call was resolved on a library. -/
def Site.Foreign (s : Site) (e : Env) : Prop :=
  s.outBound = true ∨ ∃ r rest, s.key = some (r :: rest) ∧ e.Library r

/-- A call was resolved for the types that its receiver and its arguments have, if all of these are known. -/
def Site.UpToDate (s : Site) (p : Program) : Prop :=
  s.receiver p ≠ 0 → (∀ a ∈ s.args, p.graph.typeOf a ≠ 0) →
    s.key = some (s.receiver p :: s.args.map p.graph.typeOf)

namespace Program

/-- No node, or one that is not the result of an instance. -/
def Free (p : Program) (v : NodeId) : Prop :=
  v < p.graph.size ∧ (v ≠ 0 → ∀ a ∈ p.env.instances, a.result ≠ v)

/-- An instance was made for a receiver type and argument types. -/
def Makes (p : Program) (i : InstanceId) (key : List TypeId) : Prop :=
  ∃ a, p.env.instances[i]? = some a ∧ a.owner :: a.args = key

/-- Types, nodes, scopes, instances and foreign functions are never taken away, and an occurrence keeps its node. What
is new has a new result. -/
structure Grows (p p' : Program) : Prop where
  types : p.types.Widens p'.types
  size : p.graph.size ≤ p'.graph.size
  nodes : ∀ o, (p.env.note o).node ≠ 0 → (p'.env.note o).node = (p.env.note o).node
  scopes : ∀ (i : ScopeId) (sc : Scope), p.env.scopes[i]? = some sc → ∃ sc', p'.env.scopes[i]? = some sc' ∧ sc'.self = sc.self
  made : ∀ (i : InstanceId) (a : Instance), p.env.instances[i]? = some a →
    ∃ a', p'.env.instances[i]? = some a' ∧ a'.result = a.result ∧ a'.purpose = a.purpose
  fresh : ∀ a' ∈ p'.env.instances, (∃ a ∈ p.env.instances, a.result = a'.result) ∨
    p.graph.size ≤ a'.result ∧ a'.result < p'.graph.size
  funs : ∀ x ∈ p.env.funs, x ∈ p'.env.funs

namespace Grows

variable {p p' p'' : Program}

theorem refl (p : Program) : p.Grows p :=
  ⟨.refl _, Nat.le_refl _, fun _ _ => rfl, fun _ sc h => ⟨sc, h, rfl⟩, fun _ a h => ⟨a, h, rfl, rfl⟩,
    fun a h => .inl ⟨a, h, rfl⟩, fun _ h => h⟩

theorem trans (h : p.Grows p') (h' : p'.Grows p'') : p.Grows p'' := by
  refine ⟨h.types.trans h'.types, h.size.trans h'.size, fun o ho => ?_, fun i sc hi => ?_, fun i a ha => ?_,
    fun a ha => ?_, fun x hx => h'.funs x (h.funs x hx)⟩
  · have hnode := h.nodes o ho
    exact (h'.nodes o (hnode ▸ ho)).trans hnode
  · obtain ⟨sc₁, hi₁, hself₁⟩ := h.scopes i sc hi
    obtain ⟨sc₂, hi₂, hself₂⟩ := h'.scopes i sc₁ hi₁
    exact ⟨sc₂, hi₂, hself₂.trans hself₁⟩
  · obtain ⟨a₁, ha₁, hsame₁, hpurpose₁⟩ := h.made i a ha
    obtain ⟨a₂, ha₂, hsame₂, hpurpose₂⟩ := h'.made i a₁ ha₁
    exact ⟨a₂, ha₂, hsame₂.trans hsame₁, hpurpose₂.trans hpurpose₁⟩
  · rcases h'.fresh a ha with ⟨a₁, ha₁, hsame₁⟩ | hle
    · rcases h.fresh a₁ ha₁ with ⟨a₀, ha₀, hsame₀⟩ | ⟨hle, hlt⟩
      · exact .inl ⟨a₀, ha₀, hsame₀.trans hsame₁⟩
      · exact .inr (hsame₁ ▸ ⟨hle, hlt.trans_le h'.size⟩)
    · exact .inr (hle.imp_left h.size.trans)

theorem free (h : p.Grows p') {v : NodeId} (hv : p.Free v) : p'.Free v := by
  refine ⟨hv.1.trans_le h.size, fun h0 a ha heq => ?_⟩
  rcases h.fresh a ha with ⟨a₀, ha₀, hsame⟩ | ⟨hle, -⟩
  · exact hv.2 h0 a₀ ha₀ (hsame.trans heq)
  · exact absurd (heq ▸ hle) (Nat.not_le.mpr hv.1)

theorem makes (h : p.Grows p') {i : InstanceId} {key : List TypeId} (hi : p.Makes i key) : p'.Makes i key := by
  obtain ⟨a, ha, hkey⟩ := hi
  obtain ⟨a', ha', -, hpurpose⟩ := h.made i a ha
  simp only [Instance.purpose, Prod.mk.injEq] at hpurpose
  exact ⟨a', ha', by rw [hpurpose.2.1, hpurpose.2.2, hkey]⟩

/-- The result of an instance is a node. -/
theorem lt_size (h : p.Grows p') (hp : ∀ a ∈ p.env.instances, a.result < p.graph.size) :
    ∀ a ∈ p'.env.instances, a.result < p'.graph.size := by
  intro a ha
  rcases h.fresh a ha with ⟨a₀, ha₀, hsame⟩ | ⟨-, hlt⟩
  · exact hsame ▸ (hp a₀ ha₀).trans_le h.size
  · exact hlt

theorem size_scopes (h : p.Grows p') : p.env.scopes.size ≤ p'.env.scopes.size := by
  by_contra hlt
  obtain ⟨sc, hsc⟩ : ∃ sc, p.env.scopes[p'.env.scopes.size]? = some sc :=
    ⟨_, Array.getElem?_eq_getElem (Nat.not_le.mp hlt)⟩
  obtain ⟨sc', hsc', -⟩ := h.scopes _ sc hsc
  exact absurd (Array.getElem?_eq_some_iff.mp hsc').1 (Nat.lt_irrefl _)

end Grows

end Program

/-! ### Attentive programs -/

/-- What a call is resolved to for a receiver type and argument types: a dispatch, or one instance for just these
argument types. It belongs to the one class that the receiver stood for, or, if there is no receiver, to the type that
the call stands in or to the top level. -/
inductive Program.Answers (p : Program) (s : Site) (recv : TypeId) (args : List TypeId) : List Target → Prop
  | dispatch (d : Nat) : p.Answers s recv args [.dispatch d]
  | inst {i : InstanceId} {owner : TypeId} {t : Table} (hmade : p.Makes i (owner :: args)) (ht : t.Widens p.types)
      (howner : Engine.receivers t s recv = [owner] ∨ s.obj = 0 ∧ owner = Builtin.program) :
      p.Answers s recv args [.inst i]

/-- An answer stays one. -/
theorem Program.Answers.later {p p' : Program} {s s' : Site} {recv : TypeId} {args : List TypeId}
    {targets : List Target} (h : p.Answers s recv args targets) (hgrows : p.Grows p') (hobj : s'.obj = s.obj) :
    p'.Answers s' recv args targets := by
  cases h with
  | dispatch d => exact .dispatch d
  | inst hmade ht howner =>
    refine .inst (hgrows.makes hmade) (ht.trans hgrows.types) ?_
    rwa [Engine.receivers, hobj]

/-- Some targets answer a call, unless it is one on a library. -/
def Program.Meets (p : Program) (s : Site) (recv : TypeId) (args : List TypeId) (targets : List Target) : Prop :=
  p.env.Library recv ∨ p.Answers s recv args targets

theorem Program.Meets.later {p p' : Program} {s s' : Site} {recv : TypeId} {args : List TypeId}
    {targets : List Target} (h : p.Meets s recv args targets) (hgrows : p.Grows p') (hobj : s'.obj = s.obj) :
    p'.Meets s' recv args targets :=
  Or.imp (fun ⟨x, hx, hlib⟩ => ⟨x, hgrows.funs x hx, hlib⟩) (fun hanswer => hanswer.later hgrows hobj) h

/-- A call is up to date or waits to be resolved again, unless it is on the list; and every change of a type
that it was resolved for makes it wait. Once it was resolved it has a target, unless it is being resolved, and its
occurrence notes what answers some types; if that is demanded, those that it was resolved for last. -/
structure Site.Attended (w : Prop) (s : Site) (x : NodeId) (F : List Observer) (G : List NodeId) (p : Program) :
    Prop where
  node : s.node = x
  stands : (p.env.note s.call.mark.occ).node = x
  ne_zero : x ≠ 0
  free : p.Free x
  scope : s.scope < p.env.scopes.size
  watched : ∀ d ∈ s.watched, d ≠ 0 → p.Free d ∧ ⟨x, .recalc⟩ ∈ p.graph.observersOf d
  current : ⟨x, .recalc⟩ ∈ F ∨ p.graph.Waiting ⟨x, .recalc⟩ ∨ s.Foreign p.env ∨ s.UpToDate p
  answered : s.key = none ∨ x ∈ G ∨ (∃ v, s.targets = [v]) ∧ ∃ (s₀ : Site) (recv : TypeId) (args : List TypeId),
    (w → s.obj = s₀.obj ∧ s.key = some (recv :: args)) ∧ p.Meets s₀ recv args (p.env.note s.call.mark.occ).targets

/-- Whether a call is attended to is not a matter of other calls. -/
theorem Site.Attended.beside {w : Prop} {s : Site} {x : NodeId} {F : List Observer} {G : List NodeId} {p : Program}
    (h : s.Attended w x F G p) (sites : Slots Site) (hgrows : p.Grows { p with env := { p.env with sites } }) :
    s.Attended w x F G { p with env := { p.env with sites } } :=
  { h with
    answered := h.answered.imp_right (.imp_right (.imp_right fun ⟨s₀, recv, args, hkey, hmeets⟩ =>
      ⟨s₀, recv, args, hkey, hmeets.later hgrows rfl⟩)) }

/-- Every call that is not on the list is up to date or waits to be resolved again. Every call that was resolved,
but for those that are being resolved, has one target, which answers the types of one of its resolutions, and, if that
is demanded, of the last one. -/
structure Program.Attentive (w : Prop) (p : Program) (F : List Observer) (G : List NodeId) : Prop where
  made : ∀ a ∈ p.env.instances, a.result < p.graph.size
  held : ∀ v, p.env.Owns v → p.Free v
  parted : p.env.Parted
  filed : ∀ key i, p.env.Files key i → p.Makes i key
  sites : ∀ x s, p.env.sites.get? x = some s → s.Attended w x F G p

theorem Site.receiver_congr {s s' : Site} {p p' : Program} (hgrows : p.Grows p') (hscope : s.scope < p.env.scopes.size)
    (hsame : s'.scope = s.scope) (hobj : s'.obj = s.obj)
    (htype : s.obj ≠ 0 → p'.graph.typeOf s.obj = p.graph.typeOf s.obj) : s'.receiver p' = s.receiver p := by
  rw [receiver, receiver, hobj, hsame]
  split
  · obtain ⟨sc, hsc⟩ : ∃ sc, p.env.scopes[s.scope]? = some sc := ⟨_, Array.getElem?_eq_getElem hscope⟩
    obtain ⟨sc', hsc', hself⟩ := hgrows.scopes _ sc hsc
    rw [hsc, hsc', Option.getD_some, Option.getD_some, hself]
  · rename_i hne
    exact htype hne

/-- A call stays up to date as long as the types that it was resolved for stay. -/
theorem Site.UpToDate.later {s s' : Site} {p p' : Program} (h : s.UpToDate p) (hgrows : p.Grows p')
    (hscope : s.scope < p.env.scopes.size) (hpose : s'.pose = s.pose)
    (htypes : ∀ d ∈ s.watched, d ≠ 0 → p'.graph.typeOf d = p.graph.typeOf d) : s'.UpToDate p' := by
  simp only [pose, Prod.mk.injEq] at hpose
  obtain ⟨-, hsc, -, hobj, hargs, hkey, -, -⟩ := hpose
  have hrecv := receiver_congr hgrows hscope hsc hobj (htypes s.obj List.mem_cons_self)
  have htype : ∀ a ∈ s.args, p'.graph.typeOf a = p.graph.typeOf a := by
    intro a ha
    by_cases h0 : a = 0
    · subst h0
      rfl
    · exact htypes a (List.mem_cons_of_mem _ ha) h0
  rw [UpToDate, hrecv, hargs, hkey, List.map_congr_left htype]
  exact fun hne hknown => h hne fun a ha => htype a ha ▸ hknown a ha

/-- A later program that tells no more about calls: whatever may be watched has the type that it had. -/
structure Program.Rests (p p' : Program) : Prop extends Grows p p' where
  typeOf : ∀ v, p.Free v → p'.graph.typeOf v = p.graph.typeOf v
  waiting : ∀ o, p'.graph.Waiting o ↔ p.graph.Waiting o
  observers : ∀ v x, ⟨x, .recalc⟩ ∈ p.graph.observersOf v → ⟨x, .recalc⟩ ∈ p'.graph.observersOf v
  sites : ∀ x, (p'.env.sites.get? x).map Site.pose = (p.env.sites.get? x).map Site.pose
  held : ∀ v, p'.env.Owns v → p.env.Owns v ∨ p'.Free v
  parted : (∀ v, p.env.Owns v → p.Free v) → p.env.Parted → p'.env.Parted
  noted : ∀ o, (p'.env.note o).targets = (p.env.note o).targets
  filed : ∀ key i, p'.env.Files key i → p.env.Files key i ∨ p'.Makes i key

theorem Site.Foreign.later {s s' : Site} {p p' : Program} (h : s.Foreign p.env) (hgrows : p.Grows p')
    (hpose : s'.pose = s.pose) : s'.Foreign p'.env := by
  simp only [pose, Prod.mk.injEq] at hpose
  obtain ⟨-, -, -, -, -, hkey, hout, -⟩ := hpose
  rw [Foreign, hkey, hout]
  exact h.imp_right fun ⟨r, rest, hr, x, hx, ht⟩ => ⟨r, rest, hr, x, hgrows.funs x hx, ht⟩

namespace Program

variable {p p' : Program} {w : Prop} {F : List Observer} {G : List NodeId}

/-- What may be watched once everything grew. -/
theorem Rests.free_of_owns (h : p.Rests p') (hp : ∀ v, p.env.Owns v → p.Free v) {v : NodeId} (hv : p'.env.Owns v) :
    p'.Free v :=
  (h.held v hv).elim (fun hold => h.free (hp v hold)) id

/-- **What rests stays attentive.** -/
theorem Rests.attentive (h : p.Rests p') (hp : p.Attentive w F G) : p'.Attentive w F G := by
  refine ⟨h.toGrows.lt_size hp.made, fun v => h.free_of_owns hp.held, h.parted hp.held hp.parted,
    fun key i hi => (h.filed key i hi).elim (fun hold => h.makes (hp.filed key i hold)) id, fun x s' hs' => ?_⟩
  have hsite := h.sites x
  rw [hs', Option.map_some] at hsite
  obtain ⟨s, hs, hpose⟩ := Option.map_eq_some_iff.mp hsite.symm
  have hold := hp.sites x s hs
  have hparts := hpose
  simp only [Site.pose, Prod.mk.injEq] at hparts
  obtain ⟨hocc, hscope, hnode, hobj, hargs, hkey, -, htargets⟩ := hparts
  have hwatched : s'.watched = s.watched := by rw [Site.watched, Site.watched, hobj, hargs]
  have hstands := hold.stands
  refine ⟨hnode ▸ hold.node, ?_, hold.ne_zero, h.free hold.free, ?_, fun d hd h0 => ?_, ?_, ?_⟩
  · rw [← hocc, h.nodes _ (hstands ▸ hold.ne_zero), hstands]
  · exact hscope ▸ hold.scope.trans_le h.size_scopes
  · obtain ⟨hfree, hobserved⟩ := hold.watched d (hwatched ▸ hd) h0
    exact ⟨h.free hfree, h.observers d x hobserved⟩
  · refine hold.current.imp_right (Or.imp ?_ (Or.imp ?_ ?_))
    · exact (h.waiting _).mpr
    · exact fun hforeign => hforeign.later h.toGrows hpose.symm
    · exact fun hcurrent => hcurrent.later h.toGrows hold.scope hpose.symm fun d hd h0 =>
        h.typeOf d (hold.watched d hd h0).1
  · rw [← hkey, ← htargets, ← hocc, ← hobj, h.noted]
    exact hold.answered.imp_right (.imp_right (.imp_right fun ⟨s₀, recv, args, hlast, hmeets⟩ =>
      ⟨s₀, recv, args, hlast, hmeets.later h.toGrows rfl⟩))

end Program

/-! ### Changes that tell no more about calls -/

/-- A later graph in which nodes have the types that they had and are observed by the calls that observed them,
and in which the same waits. -/
structure Graph.Rests (g g' : Graph) : Prop where
  size : g.size ≤ g'.size
  types : g'.typeOf = g.typeOf
  waiting : ∀ o, g'.Waiting o ↔ g.Waiting o
  observers : ∀ v x, ⟨x, .recalc⟩ ∈ g.observersOf v → ⟨x, .recalc⟩ ∈ g'.observersOf v

namespace Graph.Rests

variable {g g' g'' : Graph}

theorem refl (g : Graph) : g.Rests g :=
  ⟨Nat.le_refl _, rfl, fun _ => Iff.rfl, fun _ _ h => h⟩

theorem trans (h : g.Rests g') (h' : g'.Rests g'') : g.Rests g'' :=
  ⟨h.size.trans h'.size, h'.types.trans h.types, fun o => (h'.waiting o).trans (h.waiting o),
    fun v x hx => h'.observers v x (h.observers v x hx)⟩

theorem add (g : Graph) (label : String) : g.Rests (g.add label).2 :=
  ⟨(Graph.size_add g label).ge.trans' (Nat.le_succ _), Graph.typeOf_add g label,
    fun _ => Graph.waiting_add g label, fun _ _ hx => (Graph.observersOf_add g label).symm ▸ hx⟩

/-- A change of a node that concerns neither its type nor queues nor the calls that observe it. -/
theorem modify (g : Graph) (id : NodeId) {f : Graph.Node → Graph.Node} (ht : ∀ n, (f n).type = n.type)
    (hq : ∀ n e, (f n).isQueued e = n.isQueued e)
    (ho : ∀ n x, ⟨x, .recalc⟩ ∈ n.observers → ⟨x, .recalc⟩ ∈ (f n).observers) : g.Rests (g.modify id f) := by
  refine ⟨(Graph.size_modify _ _ _).ge, funext fun x => ?_, fun _ => Graph.waiting_modify g id hq, fun v x hx => ?_⟩
  · simp only [Graph.typeOf, Graph.get?_modify]
    by_cases hx : x = id
    · rw [if_pos hx]
      cases g.get? x with
      | none => rfl
      | some n => exact ht n
    · rw [if_neg hx]
  · rw [Graph.observersOf, Graph.view, Graph.get?_modify]
    rw [Graph.observersOf, Graph.view] at hx
    split
    · cases hn : g.get? v with
      | none => simp [hn] at hx
      | some n =>
        rw [hn] at hx
        exact ho n x hx
    · exact hx

/-- A change of a node that concerns neither its type nor queues nor its observers. -/
theorem modify_beside (g : Graph) (id : NodeId) {f : Graph.Node → Graph.Node} (ht : ∀ n, (f n).type = n.type)
    (hq : ∀ n e, (f n).isQueued e = n.isQueued e) (ho : ∀ n, (f n).observers = n.observers) :
    g.Rests (g.modify id f) :=
  modify g id ht hq fun n _ hx => (ho n).symm ▸ hx

theorem addDep (g : Graph) (id dep : NodeId) : g.Rests (g.addDep id dep).2 := by
  unfold Graph.addDep
  split
  · exact refl g
  · split
    · exact refl g
    · have hdep : g.Rests (g.modify id fun n => { n with deps := n.deps ++ [dep] }) :=
        modify_beside g id (fun _ => rfl) (fun _ e => by cases e <;> rfl) fun _ => rfl
      exact hdep.trans (modify (f := fun d => { d with observers := d.observers ++ [⟨id, .update⟩] }) _ dep (fun _ => rfl)
        (fun _ e => by cases e <;> rfl) fun n x hx => List.mem_append_left _ hx)

theorem addDeps (g : Graph) (id : NodeId) (deps : List NodeId) : g.Rests (g.addDeps id deps).2 := by
  induction deps generalizing g with
  | nil => exact refl g
  | cons dep deps ih => exact (addDep g id dep).trans (ih _)

/-- Giving up dependencies leaves alone which calls observe a node. -/
theorem dropDeps (g : Graph) (id : NodeId) (deps : List NodeId) : g.Rests (g.dropDeps id deps) := by
  obtain ⟨hr, -⟩ := Graph.dropDeps_rewires g id deps
  exact ⟨hr.size.ge, funext hr.typeOf_eq, hr.waiting, fun v x hx => (hr.observers_other v _ (by simp)).mpr hx⟩

theorem watch (g : Graph) (id : NodeId) (watched : List NodeId) : g.Rests (g.watch id watched) := by
  have hw := Graph.watch_watches g id watched
  refine ⟨hw.size.ge, funext fun x => ?_, hw.waiting, fun v x hx => (hw.observers v _).mpr (.inl hx)⟩
  rw [Graph.typeOf_eq, Graph.typeOf_eq, hw.map_eq Graph.Node.type fun _ => rfl]

end Graph.Rests

/-- The part of an environment that matters to calls. -/
def Env.sight (e : Env) : Array Note × Array Scope × List NodeId × Slots Site × Array Method × Array Instance ×
    List ((TypeId × String) × MethodId) :=
  (e.notes, e.scopes, e.shared, e.sites, e.methods, e.instances, e.funs)

theorem Env.note_congr {e e' : Env} (hnotes : e'.notes = e.notes) (o : Nat) : e'.note o = e.note o := by
  rw [note, note, hnotes]

theorem Env.Owns.congr {e e' : Env} {v : NodeId} (hv : e'.Owns v) (hnotes : e'.notes = e.notes)
    (hscopes : e'.scopes = e.scopes) (hshared : e'.shared = e.shared) : e.Owns v := by
  cases hv with
  | nil => exact .nil
  | note o => exact note_congr hnotes o ▸ .note o
  | var hs h => exact .var (hscopes ▸ hs) h
  | shared h => exact .shared (hshared ▸ h)

namespace Program

variable {p p' : Program}

theorem Grows.of_eq (htypes : p.types.Widens p'.types) (hsize : p.graph.size ≤ p'.graph.size)
    (hnotes : p'.env.notes = p.env.notes) (hscopes : p'.env.scopes = p.env.scopes)
    (hinstances : p'.env.instances = p.env.instances) (hfuns : p'.env.funs = p.env.funs) : p.Grows p' :=
  ⟨htypes, hsize, fun o _ => by rw [Env.note_congr hnotes], fun _ sc h => ⟨sc, hscopes ▸ h, rfl⟩,
    fun _ a h => ⟨a, hinstances ▸ h, rfl, rfl⟩, fun a h => .inl ⟨a, hinstances ▸ h, rfl⟩, fun _ h => hfuns ▸ h⟩

namespace Rests

theorem refl (p : Program) : p.Rests p :=
  ⟨.refl p, fun _ _ => rfl, fun _ => Iff.rfl, fun _ _ h => h, fun _ => rfl, fun _ => .inl, fun _ h => h,
    fun _ => rfl, fun _ _ => .inl⟩

theorem trans {p'' : Program} (h : p.Rests p') (h' : p'.Rests p'') : p.Rests p'' where
  toGrows := h.toGrows.trans h'.toGrows
  typeOf v hv := (h'.typeOf v (h.free hv)).trans (h.typeOf v hv)
  waiting o := (h'.waiting o).trans (h.waiting o)
  observers v x hx := h'.observers v x (h.observers v x hx)
  sites x := (h'.sites x).trans (h.sites x)
  held v hv := (h'.held v hv).elim (fun hold => (h.held v hold).imp_right h'.free) .inr
  parted hheld hp := h'.parted (fun _ => h.free_of_owns hheld) (h.parted hheld hp)
  noted o := (h'.noted o).trans (h.noted o)
  filed key i hi := (h'.filed key i hi).elim (fun hold => (h.filed key i hold).imp_right h'.makes) .inr

/-- A change of the graph and the environment that leaves notes and methods alone. -/
theorem of_graph (hg : p.graph.Rests p'.graph) (hgrows : p.Grows p')
    (hsites : ∀ x, (p'.env.sites.get? x).map Site.pose = (p.env.sites.get? x).map Site.pose)
    (howns : ∀ v, p'.env.Owns v → p.env.Owns v ∨ p'.Free v) (hnotes : p'.env.notes = p.env.notes)
    (hmethods : p'.env.methods = p.env.methods) : p.Rests p' where
  toGrows := hgrows
  typeOf v _ := congrFun hg.types v
  waiting := hg.waiting
  observers := hg.observers
  sites := hsites
  held := howns
  parted _ hp o o' := by
    rw [Env.note_congr hnotes, Env.note_congr hnotes]
    exact hp o o'
  noted o := by rw [Env.note_congr hnotes]
  filed key i := by
    rw [Env.Files, hmethods]
    exact .inl

/-- A change of the types and the graph and of what nobody looks at. -/
theorem beside (ht : p.types.Widens p'.types) (hg : p.graph.Rests p'.graph) (hs : p'.env.sight = p.env.sight) :
    p.Rests p' := by
  have hparts := hs
  simp only [Env.sight, Prod.mk.injEq] at hparts
  obtain ⟨hnotes, hscopes, hshared, hsites, hmethods, hinstances, hfuns⟩ := hparts
  exact .of_graph hg (.of_eq ht hg.size hnotes hscopes hinstances hfuns) (fun x => by rw [hsites])
    (fun _ hv => .inl (hv.congr hnotes hscopes hshared)) hnotes hmethods

/-- Methods change, but not what they remember. -/
theorem methods (p : Program) {ms : Array Method}
    (hms : ∀ m ∈ ms, ∀ x ∈ m.memo, (∃ m₀ ∈ p.env.methods, x ∈ m₀.memo) ∨ p.Makes x.2 x.1) :
    p.Rests { p with env := { p.env with methods := ms } } :=
  { Rests.refl p with
    held := fun _ hv => .inl (Env.Owns.congr (e := p.env) hv rfl rfl rfl)
    parted := fun _ hp => hp
    filed := fun key i ⟨m, hm, hi⟩ => hms m hm (key, i) hi }

/-- A note changes beside its node and its targets. -/
theorem changeNote (p : Program) (occ : Nat) {f : Note → Note}
    (hf : ∀ n, (f n).node = n.node ∧ (f n).targets = n.targets) :
    p.Rests { p with env := p.env.changeNote occ f } := by
  have hnote : ∀ o, ((p.env.changeNote occ f).note o).node = (p.env.note o).node ∧
      ((p.env.changeNote occ f).note o).targets = (p.env.note o).targets := by
    intro o
    rw [Env.note_changeNote]
    split
    · rename_i ho
      exact ho ▸ hf _
    · exact ⟨rfl, rfl⟩
  refine { Rests.refl p with
    nodes := fun o _ => (hnote o).1, held := fun v hv => .inl ?_, parted := fun _ hp o o' => ?_,
    noted := fun o => (hnote o).2 }
  · cases hv with
    | nil => exact .nil
    | note o => exact (hnote o).1 ▸ .note o
    | var hs h => exact .var (e := p.env) hs h
    | shared h => exact .shared (e := p.env) h
  · rw [(hnote o).1, (hnote o').1]
    exact hp o o'

/-- Notes are opened. -/
theorem openNotes (p : Program) (size : Nat) :
    p.Rests { p with env := { p.env with notes := TypeFlow.openNotes p.env.notes size } } := by
  have hnote : ∀ o, Env.note { p.env with notes := TypeFlow.openNotes p.env.notes size } o = p.env.note o :=
    fun o => Env.getElem?_openNotes _ _ o
  refine { Rests.refl p with
    nodes := fun o _ => by rw [hnote], held := fun v hv => .inl ?_,
    parted := fun _ hp o o' => ?_, noted := fun o => by rw [hnote] }
  · cases hv with
    | nil => exact .nil
    | note o => exact hnote o ▸ .note o
    | var hs h => exact .var (e := p.env) hs h
    | shared h => exact .shared (e := p.env) h
  · rw [hnote o, hnote o']
    exact hp o o'

/-- An occurrence gets a new node. -/
theorem setNode (p : Program) (occ : Nat) (label : String) (hnone : (p.env.note occ).node = 0)
    (hmade : ∀ a ∈ p.env.instances, a.result < p.graph.size) : p.Rests { p with
      graph := (p.graph.add label).2, env := p.env.changeNote occ fun n => { n with node := p.graph.size } } := by
  have hadd := Graph.Rests.add p.graph label
  have hnote : ∀ o, ((p.env.changeNote occ fun n => { n with node := p.graph.size }).note o).node =
      if occ = o then p.graph.size else (p.env.note o).node := by
    intro o
    rw [Env.note_changeNote]
    split <;> rfl
  refine { toGrows := ⟨.refl _, hadd.size, fun o ho => ?_, fun _ sc h => ⟨sc, h, rfl⟩, fun _ a h => ⟨a, h, rfl, rfl⟩,
      fun a h => .inl ⟨a, h, rfl⟩, fun _ h => h⟩
           typeOf := fun v _ => congrFun hadd.types v, waiting := hadd.waiting, observers := hadd.observers,
           sites := fun _ => rfl, held := fun v hv => ?_, parted := fun hheld hp o o' hne heq => ?_,
           noted := fun o => ?_, filed := fun _ _ => .inl }
  · rw [hnote, if_neg]
    rintro rfl
    exact ho hnone
  · cases hv with
    | nil => exact .inl .nil
    | note o =>
      rw [hnote]
      split
      · exact .inr ⟨(Graph.size_add _ _).symm ▸ Nat.lt_succ_self _, fun _ a ha => Nat.ne_of_lt (hmade a ha)⟩
      · exact .inl (.note o)
    | var hs h => exact .inl (.var (e := p.env) hs h)
    | shared h => exact .inl (.shared (e := p.env) h)
  · -- the new node is none of those that were there
    have hold : ∀ o, (p.env.note o).node < p.graph.size := fun o => (hheld _ (.note o)).1
    rw [hnote] at hne heq
    rw [hnote] at heq
    split at heq <;> split at heq
    · simp_all
    · exact absurd heq (Nat.ne_of_gt (hold o'))
    · exact absurd heq (Nat.ne_of_lt (hold o))
    · rename_i ho _
      rw [if_neg ho] at hne
      exact hp o o' hne heq
  · rw [Env.note_changeNote]
    split
    · rename_i ho
      exact ho ▸ rfl
    · rfl

/-- A scope changes neither its own type nor its variables, except that it gets further ones. -/
theorem scope (p : Program) (i : ScopeId) {f : Scope → Scope} (hself : ∀ sc, (f sc).self = sc.self)
    (hvars : ∀ sc, ∀ x ∈ (f sc).vars, x ∈ sc.vars ∨ p.Free x.2) :
    p.Rests { p with env := { p.env with scopes := p.env.scopes.modify i f } } := by
  refine .of_graph (.refl _) { Grows.refl p with scopes := fun j sc hj => ?_ } (fun _ => rfl) (fun v hv => ?_) rfl rfl
  · rw [Array.getElem?_modify, hj]
    split
    · exact ⟨f sc, rfl, hself sc⟩
    · exact ⟨sc, rfl, rfl⟩
  · cases hv with
    | nil => exact .inl .nil
    | note o => exact .inl (.note (e := p.env) o)
    | var hs h =>
      obtain ⟨j, hj⟩ := Array.mem_iff_getElem?.mp hs
      rw [Array.getElem?_modify] at hj
      split at hj
      · obtain ⟨sc, hsc, rfl⟩ := Option.map_eq_some_iff.mp hj
        exact (hvars sc _ h).imp_left fun hold => .var (Array.mem_of_getElem? hsc) hold
      · exact .inl (.var (Array.mem_of_getElem? hj) h)
    | shared h => exact .inl (.shared h)

/-- A scope is opened. -/
theorem push (p : Program) {sc : Scope} (hvars : ∀ x ∈ sc.vars, p.Free x.2) :
    p.Rests { p with env := { p.env with scopes := p.env.scopes.push sc } } := by
  refine .of_graph (.refl _) { Grows.refl p with scopes := fun j sc' hj => ⟨sc', ?_, rfl⟩ } (fun _ => rfl)
    (fun v hv => ?_) rfl rfl
  · rw [Array.getElem?_push, if_neg (Nat.ne_of_lt (Array.getElem?_eq_some_iff.mp hj).1), hj]
  · cases hv with
    | nil => exact .inl .nil
    | note o => exact .inl (.note (e := p.env) o)
    | var hs h =>
      rcases Array.mem_push.mp hs with hold | rfl
      · exact .inl (.var hold h)
      · exact .inr (hvars _ h)
    | shared h => exact .inl (.shared h)

/-- A site changes in what decides nothing. -/
theorem site (p : Program) (x : NodeId) {f : Site → Site} (hf : ∀ s, (f s).pose = s.pose) :
    p.Rests { p with env := { p.env with sites := p.env.sites.modify x f } } := by
  refine .of_graph (.refl _) (.of_eq (.refl _) (Nat.le_refl _) rfl rfl rfl rfl) (fun y => ?_)
    (fun _ hv => .inl (Env.Owns.congr (e := p.env) hv rfl rfl rfl)) rfl rfl
  rw [Slots.get?_modify]
  split
  · rw [Option.map_map]
    exact congrArg (Option.map · _) (funext hf)
  · rfl

/-- A variable gets a node that belongs to no scope. -/
theorem share (p : Program) {e : Env} (hnotes : e.notes = p.env.notes) (hscopes : e.scopes = p.env.scopes)
    (hsites : e.sites = p.env.sites) (hmethods : e.methods = p.env.methods)
    (hinstances : e.instances = p.env.instances) (hfuns : e.funs = p.env.funs)
    (hshared : ∀ v ∈ e.shared, v ∈ p.env.shared ∨ p.Free v) : p.Rests { p with env := e } := by
  refine .of_graph (.refl _) (.of_eq (.refl _) (Nat.le_refl _) hnotes hscopes hinstances hfuns)
    (fun x => by rw [hsites]) (fun v hv => ?_) hnotes hmethods
  cases hv with
  | nil => exact .inl .nil
  | note o => exact .inl (Env.note_congr hnotes o ▸ .note o)
  | var hs h => exact .inl (.var (hscopes ▸ hs) h)
  | shared h =>
    refine (hshared _ h).imp .shared fun hfree => ⟨hfree.1, fun h0 a ha => hfree.2 h0 a (hinstances ▸ ha)⟩

/-- An instance changes beside its result and what it was made for. -/
theorem inst (p : Program) (i : InstanceId) {f : Instance → Instance}
    (hf : ∀ a, (f a).result = a.result ∧ (f a).purpose = a.purpose) :
    p.Rests { p with env := { p.env with instances := p.env.instances.modify i f } } := by
  refine .of_graph (.refl _) { Grows.refl p with made := fun j a ha => ?_, fresh := fun a ha => .inl ?_ }
    (fun _ => rfl) (fun _ hv => .inl (Env.Owns.congr (e := p.env) hv rfl rfl rfl)) rfl rfl
  · rw [Array.getElem?_modify, ha]
    split
    · exact ⟨f a, rfl, hf a⟩
    · exact ⟨a, rfl, rfl, rfl⟩
  · obtain ⟨j, hj⟩ := Array.mem_iff_getElem?.mp ha
    rw [Array.getElem?_modify] at hj
    split at hj
    · obtain ⟨b, hb, rfl⟩ := Option.map_eq_some_iff.mp hj
      exact ⟨b, Array.mem_of_getElem? hb, (hf b).1.symm⟩
    · exact ⟨a, Array.mem_of_getElem? hj, rfl⟩

/-- An instance is made, with a new node for its result. -/
theorem make (p : Program) {a : Instance} (label : String) (ha : a.result = p.graph.size) :
    p.Rests { p with
      graph := (p.graph.add label).2, env := { p.env with instances := p.env.instances.push a } } := by
  have hadd := Graph.Rests.add p.graph label
  refine .of_graph hadd { Grows.refl p with size := hadd.size, made := fun i b hb => ?_, fresh := fun b hb => ?_ }
    (fun _ => rfl) (fun _ hv => .inl (Env.Owns.congr (e := p.env) hv rfl rfl rfl)) rfl rfl
  · refine ⟨b, ?_, rfl, rfl⟩
    rw [Array.getElem?_push, if_neg (Nat.ne_of_lt (Array.getElem?_eq_some_iff.mp hb).1), hb]
  · rcases Array.mem_push.mp hb with hold | rfl
    · exact .inl ⟨b, hold, rfl⟩
    · exact .inr ⟨ha.ge, by rw [ha]; exact (Graph.size_add _ _).symm ▸ Nat.lt_succ_self _⟩

/-- The type of a node that no call watches is fixed. -/
theorem fix (p : Program) {g : Graph} (hg : p.graph.Rests g) {v : NodeId} (t : TypeId)
    (hv : ∀ u, p.Free u → u ≠ 0 → u ≠ v) : p.Rests { p with graph := g.freeze v t } := by
  have hsize : (g.freeze v t).size = g.size := Graph.size_modify _ _ _
  have hobservers : (g.freeze v t).observersOf = g.observersOf :=
    Graph.observersOf_modify _ _ (fun _ => rfl) fun _ => rfl
  refine { Rests.refl p with
    toGrows := .of_eq (.refl _) (hsize.symm ▸ hg.size) rfl rfl rfl rfl
    typeOf := fun u hu => ?_, waiting := fun o => ?_, observers := fun u x hx => ?_, held := fun _ => .inl,
    filed := fun _ _ => .inl }
  · rw [← hg.types]
    by_cases h0 : u = 0
    · subst h0
      rfl
    · rw [Graph.freeze, Graph.typeOf, Graph.get?_modify, if_neg (hv u hu h0), ← Graph.typeOf]
  · exact (Graph.waiting_modify _ _ fun _ e => by cases e <;> rfl).trans (hg.waiting o)
  · exact hobservers ▸ hg.observers u x hx

/-- A foreign function is declared. -/
theorem declare (p : Program) (x : (TypeId × String) × MethodId) :
    p.Rests { p with env := { p.env with funs := x :: p.env.funs } } :=
  .of_graph (.refl _) { Grows.refl p with funs := fun _ h => List.mem_cons_of_mem _ h } (fun _ => rfl)
    (fun _ hv => .inl (Env.Owns.congr (e := p.env) hv rfl rfl rfl)) rfl rfl

end Rests

end Program

/-! ### The judgement -/

/-- What a typing step may have to know. -/
inductive Fact where
  /-- A scope is there. -/
  | scope (s : ScopeId)
  /-- A node may be given to a call. -/
  | node (v : NodeId)
  /-- A node is the result of an instance, or none. -/
  | result (v : NodeId)
  /-- An occurrence has a node. -/
  | stands (occ : Nat) (x : NodeId)
  /-- An instance was made for a receiver type and argument types. -/
  | made (i : InstanceId) (key : List TypeId)
  /-- Some targets answer a call, unless it is one on a library. -/
  | meets (s : Site) (recv : TypeId) (args : List TypeId) (targets : List Target)

namespace Program

variable {p p' p'' : Program}

/-- A fact is one about the program. -/
def Knows (p : Program) : Fact → Prop
  | .scope s => s < p.env.scopes.size
  | .node v => p.Free v
  | .result v => v = 0 ∨ ∃ a ∈ p.env.instances, a.result = v
  | .stands occ x => x ≠ 0 ∧ (p.env.note occ).node = x
  | .made i key => p.Makes i key
  | .meets s recv args targets => p.Meets s recv args targets

/-- Facts are never lost. -/
theorem Grows.knows (h : p.Grows p') {f : Fact} (hf : p.Knows f) : p'.Knows f := by
  cases f with
  | scope s => exact Nat.lt_of_lt_of_le hf h.size_scopes
  | node v => exact h.free hf
  | result v =>
    refine Or.imp_right (fun ⟨a, ha, hv⟩ => ?_) hf
    obtain ⟨i, hi⟩ := Array.mem_iff_getElem?.mp ha
    obtain ⟨a', ha', hsame, -⟩ := h.made i a hi
    exact ⟨a', Array.mem_of_getElem? ha', hsame.trans hv⟩
  | stands occ x => exact ⟨hf.1, (h.nodes occ (hf.2 ▸ hf.1)).trans hf.2⟩
  | made i key => exact h.makes hf
  | meets s recv args targets => exact Meets.later hf h rfl

/-- A step leads from a program to a later one that is attentive, in which nothing waits that did not. -/
structure Leads (w : Prop) (G : List NodeId) (p p' : Program) : Prop where
  attentive : p'.Attentive w [] G
  grows : p.Grows p'
  waiting : ∀ o, p'.graph.Waiting o → p.graph.Waiting o

variable {w : Prop} {G : List NodeId}

theorem Leads.trans (h : p.Leads w G p') (h' : p'.Leads w G p'') : p.Leads w G p'' :=
  ⟨h'.attentive, h.grows.trans h'.grows, fun o ho => h.waiting o (h'.waiting o ho)⟩

theorem Rests.leads (h : p.Rests p') (hp : p.Attentive w [] G) : p.Leads w G p' :=
  ⟨h.attentive hp, h.toGrows, fun o => (h.waiting o).mp⟩

theorem Attentive.leads (hp : p.Attentive w [] G) : p.Leads w G p :=
  (Rests.refl p).leads hp

end Program

section

variable {α β γ : Type} {w : Prop} {c : List Fact} {q : α → List Fact} {r : β → List Fact}

/-- In an attentive program about which some facts are known, a typing step that does not fail leads to an
attentive one, about which some facts on its result are known as well. -/
def HeedsTo (w : Prop) (c : List Fact) (q : α → List Fact) (m : Infer α) : Prop :=
  ∀ ⦃G : List NodeId⦄ ⦃p p' : Program⦄ ⦃a : α⦄, m.run.run p = (.ok a, p') → p.Attentive w [] G →
    (∀ f ∈ c, p.Knows f) → p.Leads w G p' ∧ ∀ f ∈ q a, p'.Knows f

/-- In an attentive program about which some facts are known, a typing step that does not fail leads to an
attentive one. -/
def Heeds (w : Prop) (c : List Fact) (m : Infer α) : Prop :=
  HeedsTo w c (fun _ => []) m

theorem HeedsTo.rests {m : Infer α} (h : ∀ (G : List NodeId) (p p' : Program) (a : α), m.run.run p = (.ok a, p') →
    p.Attentive w [] G → (∀ f ∈ c, p.Knows f) → p.Rests p' ∧ ∀ f ∈ q a, p'.Knows f) : HeedsTo w c q m :=
  fun G p p' a hrun hp hc => (h G p p' a hrun hp hc).imp_left (·.leads hp)

theorem HeedsTo.heeds {m : Infer α} (hm : HeedsTo w c q m) : Heeds w c m :=
  fun _ _ _ _ hrun hp hc => ⟨(hm hrun hp hc).1, List.forall_mem_nil _⟩

theorem HeedsTo.weaken {q' : α → List Fact} {m : Infer α} (hm : HeedsTo w c q m) (h : ∀ a, ∀ f ∈ q' a, f ∈ q a) :
    HeedsTo w c q' m :=
  fun _ _ _ _ hrun hp hc => (hm hrun hp hc).imp_right fun hknown f hf => hknown f (h _ f hf)

theorem HeedsTo.pure {a : α} (h : ∀ f ∈ q a, f ∈ c) : HeedsTo w c q (pure a : Infer α) := by
  intro G p p' b hrun hp hc
  cases hrun
  exact ⟨hp.leads, fun f hf => hc f (h f hf)⟩

theorem HeedsTo.throw (f : Failure) : HeedsTo w c q (throw f : Infer α) :=
  fun _ _ _ _ hrun => nomatch hrun

theorem HeedsTo.failing {m : Infer α} (hm : Failing m) : HeedsTo w c q m :=
  fun _ p p' a hrun => absurd hrun (hm p a p')

/-- What follows knows what is known of the result. -/
theorem HeedsTo.andThen {m : Infer α} {k : α → Infer β} (hm : HeedsTo w c q m) (hk : ∀ a, HeedsTo w (q a ++ c) r (k a)) :
    HeedsTo w c r (m >>= k) := by
  intro G p p' b hrun hp hc
  obtain ⟨a, p₁, hfirst, hrest⟩ := Flow.exists_of_run_bind hrun
  obtain ⟨hleads, hknown⟩ := hm hfirst hp hc
  obtain ⟨hleads', hknown'⟩ := hk a hrest hleads.attentive fun f hf =>
    (List.mem_append.mp hf).elim (hknown f) fun hold => hleads.grows.knows (hc f hold)
  exact ⟨hleads.trans hleads', hknown'⟩

theorem HeedsTo.locating {m : Infer α} (hm : HeedsTo w c q m) (loc : Option Location) :
    HeedsTo w c q (Flow.locating loc m) :=
  fun _ _ _ _ hrun => hm (Flow.run_of_locating hrun)

namespace Heeds

@[grind ←]
theorem pure (a : α) : Heeds w c (pure a : Infer α) :=
  HeedsTo.pure (q := fun _ => []) (List.forall_mem_nil _)

@[grind ←]
theorem throw (f : Failure) : Heeds w c (throw f : Infer α) :=
  HeedsTo.throw f

theorem andThen {m : Infer α} {k : α → Infer β} (hm : Heeds w c m) (hk : ∀ a, HeedsTo w c r (k a)) :
    HeedsTo w c r (m >>= k) :=
  HeedsTo.andThen hm hk

theorem bind {m : Infer α} {k : α → Infer β} (hm : Heeds w c m) (hk : ∀ a, Heeds w c (k a)) : Heeds w c (m >>= k) :=
  HeedsTo.andThen hm hk

theorem locating {m : Infer α} (hm : Heeds w c m) (loc : Option Location) : Heeds w c (Flow.locating loc m) :=
  HeedsTo.locating hm loc

theorem failing {m : Infer α} (hm : Failing m) : Heeds w c m :=
  HeedsTo.failing hm

/-- A failure is kept back for a while. -/
theorem attempt {m : Infer α} {k : Except Failure α → Infer β} (hm : Heeds w c m) (hok : ∀ a, Heeds w c (k (.ok a)))
    (herror : ∀ f, Failing (k (.error f))) : Heeds w c (Flow.attempt m >>= k) := by
  intro G p p' b hrun hp hc
  rcases hfirst : m.run.run p with ⟨res, p₁⟩
  have hattempt : (Flow.attempt m).run.run p = (.ok (m.run.run p).1, (m.run.run p).2) := rfl
  rw [hfirst] at hattempt
  rw [Flow.run_bind_of_ok hattempt] at hrun
  cases res with
  | ok a =>
    obtain ⟨hleads, -⟩ := hm hfirst hp hc
    obtain ⟨hleads', -⟩ := hok a hrun hleads.attentive fun f hf => hleads.grows.knows (hc f hf)
    exact ⟨hleads.trans hleads', List.forall_mem_nil _⟩
  | error f => exact absurd hrun (herror f _ _ _)

theorem forIn {l : List γ} {f : γ → PUnit → Infer (ForInStep PUnit)} (hf : ∀ x, Heeds w c (f x ⟨⟩)) :
    Heeds w c (forIn l ⟨⟩ f) := by
  induction l with
  | nil => exact pure _
  | cons x l ih =>
    rw [List.forIn_cons]
    refine (hf x).bind fun r => ?_
    split
    · exact pure _
    · exact ih

theorem onTypes {m : TableM α} (hm : Table.Widening m) : Heeds w c (Flow.onTypes m : Infer α) := by
  refine .rests fun _ p p' a hrun _ _ => ?_
  cases hrun
  exact ⟨.beside (hm p.types) (.refl _) rfl, List.forall_mem_nil _⟩

end Heeds

end

end TypeFlow
