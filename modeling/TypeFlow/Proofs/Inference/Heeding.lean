import TypeFlow.Proofs.Inference.Attention
import TypeFlow.Proofs.Inference.Evolving

/-!
# Propagation keeps calls up to date

A node that gets another type makes the calls that watch it wait, before anything else happens. A call that is
taken from a queue is neither up to date nor waiting for a moment, until it is resolved again. So propagation
keeps a program attentive if its hooks do (`Flow.Heedful`), and leaves nothing waiting of what it queued.
-/

namespace TypeFlow

open TypeFlow.Graph (Observer)

namespace Program.Attentive

variable {w : Prop} {p p' : Program} {F F' : List Observer} {G : List NodeId}

/-- A change of types and queues only. -/
theorem regraph (hp : p.Attentive w F G) (ht : p.types.Widens p'.types) (henv : p'.env = p.env)
    (hsize : p'.graph.size = p.graph.size) (hobservers : p'.graph.observersOf = p.graph.observersOf)
    (hcurrent : ∀ x s, p.env.sites.get? x = some s → s.Attended w x F G p → p.Grows p' →
      ⟨x, .recalc⟩ ∈ F' ∨ p'.graph.Waiting ⟨x, .recalc⟩ ∨ s.Foreign p'.env ∨ s.UpToDate p') :
    p'.Attentive w F' G ∧ p.Grows p' := by
  have hgrows : p.Grows p' := .of_eq ht hsize.ge (by rw [henv]) (by rw [henv]) (by rw [henv]) (by rw [henv])
  refine ⟨⟨hgrows.lt_size hp.made, fun v hv => hgrows.free (hp.held v (henv ▸ hv)), henv.symm ▸ hp.parted,
    fun key i hi => hgrows.makes (hp.filed key i (henv ▸ hi)), fun x s hs => ?_⟩, hgrows⟩
  rw [henv] at hs
  have hold := hp.sites x s hs
  refine ⟨hold.node, henv.symm ▸ hold.stands, hold.ne_zero, hgrows.free hold.free, henv.symm ▸ hold.scope,
    fun d hd h0 => (hold.watched d hd h0).imp hgrows.free fun hmem => hobservers ▸ hmem,
    hcurrent x s hs hold hgrows, ?_⟩
  rw [henv]
  exact hold.answered.imp_right (.imp_right (.imp_right fun ⟨s₀, recv, args, hkey, hmeets⟩ =>
    ⟨s₀, recv, args, hkey, hmeets.later hgrows rfl⟩))

/-- A call that watches a node whose type changes is on the list of those to be told. -/
theorem retype (hp : p.Attentive w [] G) {types : Table} (ht : p.types.Widens types) (id : NodeId) (t : TypeId) :
    Attentive w ⟨types, p.graph.retype id t, p.env⟩ (p.graph.observersOf id) G ∧
      p.Grows ⟨types, p.graph.retype id t, p.env⟩ := by
  refine hp.regraph ht rfl (Graph.size_modify _ _ _) (Graph.observersOf_retype _ _ _) fun x s _ hold hgrows => ?_
  by_cases hmem : ⟨x, .recalc⟩ ∈ p.graph.observersOf id
  · exact .inl hmem
  refine .inr ((hold.current.resolve_left (List.not_mem_nil)).imp (Graph.waiting_retype _ _ _).mpr (.imp_right ?_))
  refine fun hcurrent => hcurrent.later hgrows hold.scope rfl fun d hd h0 => ?_
  have hne : d ≠ id := fun heq => hmem (heq ▸ (hold.watched d hd h0).2)
  show (p.graph.retype id t).typeOf d = _
  rw [Graph.retype, Graph.typeOf, Graph.get?_modify, if_neg hne, ← Graph.typeOf]

/-- What is taken from its queue is on the list. -/
theorem unqueue (hp : p.Attentive w [] G) (o : Observer) :
    Attentive w { p with graph := p.graph.unqueue o } [o] G ∧ p.Grows { p with graph := p.graph.unqueue o } := by
  have hview := Graph.view_unqueue p.graph o
  refine hp.regraph (.refl _) rfl (Graph.size_modify _ _ _) (Graph.observersOf_of_view_eq hview) fun x s _ hold hgrows => ?_
  by_cases hmem : ⟨x, .recalc⟩ = o
  · exact .inl (List.mem_singleton.mpr hmem)
  refine .inr ((hold.current.resolve_left (List.not_mem_nil)).imp (fun hwait => ?_) (.imp_right fun hcurrent => ?_))
  · exact (Graph.waiting_unqueue _ _ _).mpr ⟨hmem, hwait⟩
  · exact hcurrent.later hgrows hold.scope rfl fun d _ _ => congrFun (Graph.typeOf_of_view_eq hview) d

/-- Those to be told of a change wait once they are queued. -/
theorem queueObservers {id : NodeId} {more : List Observer} {g : Graph} (hp : p.Attentive w (p.graph.observersOf id) G)
    (hres : p.graph.queueObservers id = (more, g)) : Attentive w { p with graph := g } [] G ∧ p.Grows { p with graph := g } ∧
      ∀ o, g.Waiting o ↔ p.graph.Waiting o ∨ o ∈ more := by
  rw [Graph.queueObservers_eq] at hres
  obtain ⟨hwait, hall⟩ := Graph.waiting_queueUp p.graph (p.graph.observersOf id)
  have hview := Graph.view_queueUp p.graph (p.graph.observersOf id)
  have hsize := Graph.size_queueUp p.graph (p.graph.observersOf id)
  rw [hres] at hwait hall hview hsize
  suffices hlast : Attentive w { p with graph := g } [] G ∧ p.Grows { p with graph := g } from ⟨hlast.1, hlast.2, hwait⟩
  refine hp.regraph (.refl _) rfl hsize (Graph.observersOf_of_view_eq hview) fun x s _ hold hgrows => .inr ?_
  rcases hold.current with hmem | hwaiting | hrest
  · refine .inl (hall _ hmem (Graph.isSome_view_iff.mpr ⟨Nat.pos_of_ne_zero hold.ne_zero, hold.free.1⟩))
  · exact .inl ((hwait _).mpr (.inl hwaiting))
  · refine .inr (hrest.imp_right fun hcurrent => ?_)
    exact hcurrent.later hgrows hold.scope rfl fun d _ _ => congrFun (Graph.typeOf_of_view_eq hview) d

/-- A list on which there are no calls. -/
theorem of_update {x : NodeId} (hp : p.Attentive w [⟨x, .update⟩] G) : p.Attentive w [] G :=
  ⟨hp.made, hp.held, hp.parted, hp.filed, fun y s hs => { hp.sites y s hs with
    current := ((hp.sites y s hs).current).imp_left fun hmem => by simp at hmem }⟩

end Program.Attentive

namespace Flow

open Program

variable {w : Prop} {h : Hooks Env} {p p' : Program} {G : List NodeId}

/-- Hooks that bring a call up to date. -/
structure Heedful (w : Prop) (h : Hooks Env) : Prop where
  responds : ∀ e c name, Table.Widening (h.responds e c name)
  recalc : ∀ ⦃G : List NodeId⦄ ⦃x : NodeId⦄ ⦃p p' : Program⦄, (h.recalc x).run.run p = (.ok (), p') →
    p.Attentive w [⟨x, .recalc⟩] G → p.Leads w G p'

/-- Computing a node again changes at most its type. -/
theorem run_recompute {id : NodeId} {b : Bool} (hrun : (recompute h id).run.run p = (.ok b, p')) :
    p'.env = p.env ∧ (b = false ∧ p'.graph = p.graph ∨ b = true ∧ ∃ t, p'.graph = p.graph.retype id t) := by
  by_cases hdeps : ∀ n, p.graph.get? id = some n → n.deps = []
  · rw [recompute_of_no_deps hdeps] at hrun
    cases hrun
    exact ⟨rfl, .inl ⟨rfl, rfl⟩⟩
  · push Not at hdeps
    obtain ⟨n, hn, hne⟩ := hdeps
    rw [recompute_eq hn hne, settle_eq] at hrun
    split at hrun
    · cases hrun
      exact ⟨rfl, .inl ⟨rfl, rfl⟩⟩
    · split at hrun
      · split at hrun
        · cases hrun
          exact ⟨rfl, .inl ⟨rfl, rfl⟩⟩
        · cases hrun
      · cases hrun
        exact ⟨rfl, .inr ⟨rfl, _, rfl⟩⟩

/-- What follows once a node is computed again: nothing waits more than before, and if its type has changed, those
that are to be told of it are on the list. -/
theorem heeds_recompute (hresponds : ∀ e c name, Table.Widening (h.responds e c name)) (hp : p.Attentive w [] G) {id : NodeId} {b : Bool}
    (hrun : (Flow.recompute h id).run.run p = (.ok b, p')) : p.Grows p' ∧ (∀ o, p'.graph.Waiting o → p.graph.Waiting o) ∧
      p'.Attentive w (if b then p'.graph.observersOf id else []) G := by
  have ht : p.types.Widens p'.types := ((evolving_recompute hresponds id).of_run hrun).widens
  obtain ⟨henv, ⟨rfl, hgraph⟩ | ⟨rfl, t, hgraph⟩⟩ := run_recompute hrun
  · have hrests : p.Rests p' := .beside ht (hgraph ▸ .refl _) (by rw [henv])
    exact ⟨hrests.toGrows, fun o => (hrests.waiting o).mp, hrests.attentive hp⟩
  · obtain ⟨types, graph, env⟩ := p'
    simp only at henv hgraph
    subst henv hgraph
    obtain ⟨hattentive, hgrows⟩ := hp.retype ht id t
    refine ⟨hgrows, fun o => (Graph.waiting_retype _ _ _).mp, ?_⟩
    rw [if_pos rfl, Graph.observersOf_retype]
    exact hattentive

/-- How a computation ends that does not fail: only then something is known. -/
theorem Ends.of_ok {α : Type} {m : Infer α} {Q : α → Program → Prop}
    (h : ∀ a p', m.run.run p = (.ok a, p') → Q a p') : Ends p m fun r p' => ∀ a, r = .ok a → Q a p' :=
  fun a ha => h a _ (Prod.ext ha rfl)

namespace Heedful

variable (hh : Heedful w h)
include hh

theorem serve {o : Observer} {b : Bool} (hp : p.Attentive w [o] G) (hrun : (serve h o).run.run p = (.ok b, p')) :
    p.Grows p' ∧ (∀ o, p'.graph.Waiting o → p.graph.Waiting o) ∧
      p'.Attentive w (if b then p'.graph.observersOf o.node else []) G := by
  obtain ⟨x, e⟩ := o
  cases e with
  | update => exact heeds_recompute hh.responds hp.of_update hrun
  | recalc =>
    obtain ⟨_, p₁, hrecalc, hrest⟩ := exists_of_run_bind hrun
    cases hrest
    obtain ⟨hattentive, hgrows, hwaiting⟩ := hh.recalc hrecalc hp
    exact ⟨hgrows, hwaiting, hattentive⟩

/-- **A queue is served**: nothing in it waits any longer. -/
theorem serveAll {fuel : Nat} {queue : List Observer} (hp : p.Attentive w [] G) :
    Ends p (serveAll h fuel queue) fun r (p' : Program) => ∀ u, r = .ok u →
      p'.Attentive w [] G ∧ p.Grows p' ∧ ∀ o, p'.graph.Waiting o → p.graph.Waiting o ∧ o ∉ queue := by
  have hnil : ∀ {v : Program}, v.Attentive w [] G →
      v.Attentive w [] G ∧ v.Grows v ∧ ∀ o, v.graph.Waiting o → v.graph.Waiting o ∧ o ∉ [] :=
    fun hv => ⟨hv, .refl _, fun o ho => ⟨ho, nofun⟩⟩
  induction fuel generalizing p queue with
  | zero =>
    cases queue with
    | nil => exact .pure fun _ _ => hnil hp
    | cons o queue => exact .changeGraph_bind (.throw nofun)
  | succ fuel ih =>
    cases queue with
    | nil => exact .pure fun _ _ => hnil hp
    | cons o queue =>
      rw [Flow.serveAll]
      -- for a moment `o` neither waits nor is up to date
      obtain ⟨hp₁, hgrows₁⟩ := hp.unqueue o
      refine .changeGraph_bind (.attempt_bind ?_)
      refine (Ends.of_ok fun b p₂ => hh.serve hp₁).imp fun res p₂ hserve => ?_
      match res, hserve with
      | .error f, _ => exact .changeGraph_bind (.throw nofun)
      | .ok false, hserve =>
        obtain ⟨hgrows₂, hwaiting₂, hp₂⟩ := hserve false rfl
        refine (ih hp₂).imp fun r p' hend u hu => ?_
        obtain ⟨hp', hgrows, hwaiting⟩ := hend u hu
        refine ⟨hp', (hgrows₁.trans hgrows₂).trans hgrows, fun o' ho' => ?_⟩
        obtain ⟨hwait, hnot⟩ := hwaiting o' ho'
        obtain ⟨hne, hwait⟩ := (Graph.waiting_unqueue _ _ _).mp (hwaiting₂ o' hwait)
        exact ⟨hwait, List.not_mem_cons_of_ne_of_not_mem hne hnot⟩
      | .ok true, hserve =>
        obtain ⟨hgrows₂, hwaiting₂, hp₂⟩ := hserve true rfl
        refine .onGraph_bind ?_
        rcases hqueue : p₂.graph.queueObservers o.node with ⟨more, g⟩
        obtain ⟨hp₃, hgrows₃, hwaiting₃⟩ := hp₂.queueObservers hqueue
        refine (ih hp₃).imp fun r p' hend u hu => ?_
        obtain ⟨hp', hgrows, hwaiting⟩ := hend u hu
        refine ⟨hp', ((hgrows₁.trans hgrows₂).trans hgrows₃).trans hgrows, fun o' ho' => ?_⟩
        obtain ⟨hwait, hnot⟩ := hwaiting o' ho'
        have hold := ((hwaiting₃ o').mp hwait).resolve_right fun hmem => hnot (List.mem_append_right _ hmem)
        obtain ⟨hne, hwait⟩ := (Graph.waiting_unqueue _ _ _).mp (hwaiting₂ o' hold)
        exact ⟨hwait, List.not_mem_cons_of_ne_of_not_mem hne fun hmem => hnot (List.mem_append_left _ hmem)⟩

/-- Those that are to be told of a change are told. -/
theorem propagate {id : NodeId} (hp : p.Attentive w (p.graph.observersOf id) G) :
    Ends p (propagate h id) fun r (p' : Program) => ∀ u, r = .ok u → p.Leads w G p' := by
  refine .onGraph_bind ?_
  rcases hqueue : p.graph.queueObservers id with ⟨more, g⟩
  obtain ⟨hp₁, hgrows₁, hwaiting₁⟩ := hp.queueObservers hqueue
  refine (hh.serveAll hp₁).imp fun r p' hend u hu => ?_
  obtain ⟨hp', hgrows, hwaiting⟩ := hend u hu
  refine ⟨hp', hgrows₁.trans hgrows, fun o ho => ?_⟩
  obtain ⟨hwait, hnot⟩ := hwaiting o ho
  exact ((hwaiting₁ o).mp hwait).resolve_right hnot

variable {c : List Fact}

theorem setType (id : NodeId) (t : TypeId) : Heeds w c (setType h id t) := by
  intro G p p' a hrun hp _
  refine ⟨?_, List.forall_mem_nil _⟩
  obtain ⟨_, p₁, hget, hrun⟩ := exists_of_run_bind hrun
  cases hget
  split at hrun
  · cases hrun
    exact hp.leads
  · rename_i n _
    split at hrun
    · cases hrun
      exact hp.leads
    · split at hrun
      · exact absurd hrun (Failing.after (fun _ => .throw _) _ _ _)
      · have hwidens : p.types.Widens (writeSlot n t p.types) :=
          ((evolving_assign id n t).of_run (assign_eq id n t p)).widens
        rw [run_bind_of_ok (assign_eq id n t p)] at hrun
        obtain ⟨hp₁, hgrows₁⟩ := hp.retype hwidens id t
        rw [← Graph.observersOf_retype p.graph id t] at hp₁
        obtain ⟨hp', hgrows, hwaiting⟩ := (hh.propagate hp₁).of_run hrun _ rfl
        exact ⟨hp', hgrows₁.trans hgrows, fun o ho => (Graph.waiting_retype _ _ _).mp (hwaiting o ho)⟩

theorem dependOn (id : NodeId) (deps : List NodeId) : Heeds w c (dependOn h id deps) := by
  intro G p p' a hrun hp _
  refine ⟨?_, List.forall_mem_nil _⟩
  obtain ⟨added, p₁, hadd, hrun⟩ := exists_of_run_bind hrun
  cases hadd
  have hrests : p.Rests { p with graph := (p.graph.addDeps id deps).2 } := .beside (.refl _) (.addDeps _ _ _) rfl
  have hleads := hrests.leads hp
  refine hleads.trans ?_
  split at hrun
  · obtain ⟨changed, p₂, hrecompute, hrun⟩ := exists_of_run_bind hrun
    obtain ⟨hgrows, hwaiting, hp₂⟩ := heeds_recompute hh.responds hleads.attentive hrecompute
    cases changed with
    | false =>
      cases hrun
      exact ⟨hp₂, hgrows, hwaiting⟩
    | true =>
      obtain ⟨hp', hgrows', hwaiting'⟩ := (hh.propagate hp₂).of_run hrun _ rfl
      exact ⟨hp', hgrows.trans hgrows', fun o ho => hwaiting o (hwaiting' o ho)⟩
  · cases hrun
    exact hleads.attentive.leads

end Heedful

end Flow

end TypeFlow
