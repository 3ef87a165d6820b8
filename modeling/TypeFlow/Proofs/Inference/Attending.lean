import TypeFlow.Proofs.Inference.Climbing
import TypeFlow.Proofs.Inference.Heeding
import TypeFlow.Proofs.Inference.Resting

/-!
# Typing keeps calls up to date

The typing steps are written against an engine. Here each of them is shown to keep a program attentive if the
engine does (`Engine.Heedful`), up to the resolution of calls, which is the subject of
`TypeFlow.Proofs.Inference.Current`. A site that is opened is resolved at once: in between its call is not up to
date (`Engine.Heedful.openSite`).
-/

namespace TypeFlow

open TypeFlow.Graph (Observer)

variable {w : Prop} {c : List Fact}

/-- An engine that keeps programs attentive, and brings the calls up to date that it resolves again. -/
structure Engine.Heedful (w : Prop) (e : Engine) : Prop where
  visit : ∀ (c : List Fact) (s : ScopeId) (n : Placed), .scope s ∈ c → Heeds w c (e.visit s n)
  recalculate : ∀ ⦃G : List NodeId⦄ ⦃x : NodeId⦄ ⦃p p' : Program⦄, (e.recalculate x).run.run p = (.ok (), p') →
    p.Attentive w [⟨x, .recalc⟩] G → p.Leads w G p'

/-! ### Opening sites -/

namespace Program

variable {p : Program}

/-- A site is opened, or one that is there is replaced. -/
theorem Attentive.setSite {G : List NodeId} (hp : p.Attentive w [] G) {x : NodeId} {site : Site}
    (hsite : site.Attended w x [⟨x, .recalc⟩] G p) :
    Attentive w { p with env := { p.env with sites := p.env.sites.set x site } } [⟨x, .recalc⟩] G := by
  refine ⟨hp.made, fun v hv => hp.held v (Env.Owns.congr (e := p.env) hv rfl rfl rfl), hp.parted, hp.filed,
    fun y s hs => ?_⟩
  refine Site.Attended.beside ?_ _ (.of_eq (.refl _) (Nat.le_refl _) rfl rfl rfl rfl)
  rw [Slots.get?_set] at hs
  split at hs
  · rename_i hy
    obtain rfl := Option.some.inj hs
    exact hy ▸ hsite
  · have hold := hp.sites y s hs
    exact { hold with current := hold.current.imp_left (absurd · List.not_mem_nil) }

end Program

namespace Infer

theorem heedsTo_receiverNode (t : Option Placed) : HeedsTo w c (fun id => [.node id]) (receiverNode t) := by
  cases t with
  | none =>
    refine .rests fun _ p p' n hrun _ _ => ?_
    cases hrun
    exact ⟨.refl p, fun f hf => List.mem_singleton.mp hf ▸ ⟨Nat.succ_pos _, fun h => absurd rfl h⟩⟩
  | some t => exact (heedsTo_nodeOf t).weaken fun _ _ hf => by simp_all

theorem heedsTo_nodesOf (ts : List Placed) : HeedsTo w c (fun ids => ids.map .node) (nodesOf ts) := by
  induction ts generalizing c with
  | nil => exact .pure (List.forall_mem_nil _)
  | cons t ts ih =>
    refine (heedsTo_nodeOf t).andThen fun id => ih.andThen fun ids => .pure fun f hf => ?_
    rcases List.mem_cons.mp hf with rfl | hf
    · exact List.mem_append_right _ List.mem_cons_self
    · exact List.mem_append_left _ hf

/-- A variable that belongs to no scope is there, or one is made for it. -/
theorem heedsTo_shared (var? : Env → Option NodeId) (hvar : ∀ e id, var? e = some id → id ∈ e.shared)
    {make : Infer NodeId} (hmake : HeedsTo w c (fun id => [.node id]) make) :
    HeedsTo w c (fun id => [.node id]) (env >>= fun e =>
      match var? e with
      | some id => Pure.pure id
      | none => make) := by
  intro G p p' id hrun hp hc
  rw [run_env_bind] at hrun
  split at hrun
  · rename_i id' hfound
    cases hrun
    exact ⟨hp.leads, fun f hf => List.mem_singleton.mp hf ▸ hp.held _ (.shared (hvar _ _ hfound))⟩
  · exact hmake hrun hp hc

/-- A variable gets a node that may be given to a call. -/
theorem heeds_share {id : NodeId} (hid : .node id ∈ c) {f : Env → Env}
    (hf : ∀ e, (f e).notes = e.notes ∧ (f e).scopes = e.scopes ∧ (f e).sites = e.sites ∧
      (f e).methods = e.methods ∧ (f e).instances = e.instances ∧ (f e).funs = e.funs)
    (hshared : ∀ e, ∀ v ∈ (f e).shared, v ∈ e.shared ∨ v = id) : Heeds w c (changeEnv f) := by
  refine .rests fun _ p p' a hrun _ hc => ⟨?_, List.forall_mem_nil _⟩
  cases hrun
  obtain ⟨hnotes, hscopes, hsites, hmethods, hinstances, hfuns⟩ := hf p.env
  refine .share p hnotes hscopes hsites hmethods hinstances hfuns fun v hv => ?_
  exact (hshared _ v hv).imp_right fun (heq : v = id) => heq ▸ hc _ hid

/-- A site that was just opened is yet to be resolved. -/
theorem attentive_newSite {call : CallParts} {s : ScopeId} {super : Option (TypeId × String)} {p p' : Program}
    {x : NodeId} {G : List NodeId} (hp : p.Attentive w [] G) (hs : s < p.env.scopes.size)
    (hrun : (newSite call s super).run.run p = (.ok x, p')) :
    p'.Attentive w [⟨x, .recalc⟩] G ∧ p.Grows p' ∧ ∀ o, p'.graph.Waiting o → p.graph.Waiting o := by
  obtain ⟨id, p₁, hnode, hrun⟩ := Flow.exists_of_run_bind hrun
  obtain ⟨obj, p₂, hobj, hrun⟩ := Flow.exists_of_run_bind hrun
  obtain ⟨args, p₃, hargs, hrun⟩ := Flow.exists_of_run_bind hrun
  cases hrun
  -- the nodes that the call stands at and watches
  obtain ⟨hleads₁, hid⟩ := heedsTo_nodeOf (c := []) call.tree hnode hp (List.forall_mem_nil _)
  obtain ⟨hleads₂, hobj⟩ := heedsTo_receiverNode (c := []) call.obj hobj hleads₁.attentive (List.forall_mem_nil _)
  obtain ⟨hleads₃, hargs⟩ := heedsTo_nodesOf (c := []) call.args hargs hleads₂.attentive (List.forall_mem_nil _)
  have hleads := (hleads₁.trans hleads₂).trans hleads₃
  have hgrows := hleads₂.grows.trans hleads₃.grows
  have hfree : Program.Free p₃ x := hgrows.free (hid _ List.mem_cons_self)
  obtain ⟨hne, hstands⟩ : Program.Knows p₃ (.stands call.mark.occ x) :=
    hgrows.knows (hid _ (List.mem_cons_of_mem _ List.mem_cons_self))
  have hwatched : ∀ d ∈ obj :: args, Program.Free p₃ d := by
    intro d hd
    rcases List.mem_cons.mp hd with rfl | hd
    · exact hleads₃.grows.free (hobj _ List.mem_cons_self)
    · exact hargs _ (List.mem_map_of_mem hd)
  have hrests : Program.Rests p₃ { p₃ with graph := p₃.graph.watch x (obj :: args) } := .beside (.refl _) (.watch _ _ _) rfl
  refine ⟨(hrests.attentive hleads.attentive).setSite
    ⟨rfl, hstands, hne, hrests.free hfree, ?_, fun d hd h0 => ?_, ?_, .inl rfl⟩, hleads.grows.trans (.of_eq (.refl _) hrests.size rfl rfl rfl rfl), fun o ho => ?_⟩
  · exact hs.trans_le hleads.grows.size_scopes
  · have hd' := hwatched d hd
    refine ⟨hrests.free hd', ((Graph.watch_watches p₃.graph x (obj :: args)).observers d _).mpr (.inr ⟨rfl, hd, ?_⟩)⟩
    exact Graph.isSome_view_iff.mpr ⟨Nat.pos_of_ne_zero h0, hd'.1⟩
  · exact .inl List.mem_cons_self
  · exact hleads.waiting o ((hrests.waiting o).mp ho)

/-- The scope of a site is there. -/
theorem heedsTo_site? (x : NodeId) : HeedsTo w c (fun found => found.toList.map (.scope ·.scope)) (site? x) := by
  refine .rests fun _ p p' found hrun hp _ => ?_
  cases hrun
  refine ⟨.refl p, fun f hf => ?_⟩
  obtain ⟨s, hs, rfl⟩ := List.mem_map.mp hf
  exact (hp.sites x s (Option.mem_toList.mp hs)).scope

end Infer

attribute [local grind ←] Heeds.bind Heeds.locating Heeds.forIn Heeds.onTypes

namespace Engine

open Infer

namespace Heedful

variable {e : Engine} (h : e.Heedful w)
include h

theorem hooks : Flow.Heedful w e.hooks :=
  ⟨fun env c name => env.widening_respondsTo c name, h.recalculate⟩

@[grind ←]
theorem assign (id : NodeId) (t : TypeId) : Heeds w c (e.assign id t) :=
  h.hooks.setType id t

@[grind ←]
theorem connect (id : NodeId) (deps : List NodeId) : Heeds w c (e.connect id deps) :=
  h.hooks.dependOn id deps

@[grind ←]
theorem setType (n : Placed) (t : TypeId) : Heeds w c (e.setType n t) := by
  grind [Engine.setType]

@[grind ←]
theorem bind (n : Placed) (deps : List NodeId) : Heeds w c (e.bind n deps) := by
  grind [Engine.bind]

/-- A site is opened and its call is resolved. -/
theorem openSite {α : Type} {call : CallParts} {s : ScopeId} {super : Option (TypeId × String)}
    (hs : .scope s ∈ c) {k : NodeId → Infer α} (hk : ∀ x, Heeds w c (k x)) :
    Heeds w c (newSite call s super >>= fun x => e.recalculate x >>= fun _ => k x) := by
  intro G p p' a hrun hp hc
  obtain ⟨x, p₁, hopen, hrun⟩ := Flow.exists_of_run_bind hrun
  obtain ⟨⟨⟩, p₂, hrecalc, hrun⟩ := Flow.exists_of_run_bind hrun
  obtain ⟨hp₁, hgrows, hwaiting⟩ := attentive_newSite hp (hc _ hs) hopen
  obtain ⟨hp₂, hgrows', hwaiting'⟩ := h.recalculate hrecalc hp₁
  have hleads : p.Leads w G p₂ := ⟨hp₂, hgrows.trans hgrows', fun o ho => hwaiting o (hwaiting' o ho)⟩
  obtain ⟨hlast, -⟩ := hk x hrun hp₂ fun f hf => hleads.grows.knows (hc f hf)
  exact ⟨hleads.trans hlast, List.forall_mem_nil _⟩

/-- A site is opened and its call is resolved, and that is all. -/
theorem openSite' {call : CallParts} {s : ScopeId} {super : Option (TypeId × String)} (hs : .scope s ∈ c) :
    Heeds w c (newSite call s super >>= e.recalculate) := by
  have hopen : Heeds w c (newSite call s super >>= fun x => e.recalculate x >>= fun _ => Pure.pure ()) :=
    h.openSite hs fun _ => .pure ()
  simp only [bind_pure_unit] at hopen
  exact hopen

/-! ### Literals, variables and assignments -/

section

variable {s : ScopeId} (hs : .scope s ∈ c)
include hs

@[grind ←]
theorem typeTree (n : Placed) : Heeds w c (e.visit s n) :=
  h.visit c s n hs

@[grind ←]
theorem visitOption (n : Option Placed) : Heeds w c (e.visitOption s n) := by
  cases n <;> grind [Engine.visitOption]

@[grind ←]
theorem visitAll (ns : List Placed) : Heeds w c (e.visitAll s ns) := by
  induction ns <;> grind [Engine.visitAll]

end

@[grind ←]
theorem visitSymbol (n : Placed) (name : String) : Heeds w c (e.visitSymbol n name) := by
  grind [Engine.visitSymbol]

@[grind ←]
theorem visitInt (s : ScopeId) (n : Placed) (suffix : String) : Heeds w c (e.visitInt s n suffix) := by
  grind [Engine.visitInt]

@[grind ←]
theorem visitFloat (s : ScopeId) (n : Placed) (suffix : String) : Heeds w c (e.visitFloat s n suffix) := by
  grind [Engine.visitFloat]

@[grind ←]
theorem checkElements (element : NodeId) (xs : List Placed) : Heeds w c (e.checkElements element xs) := by
  induction xs <;> grind [Engine.checkElements]

@[grind ←]
theorem visitArrayOf (s : ScopeId) (n : Placed) (elements : List Placed) (of : TypeExpr) :
    Heeds w c (e.visitArrayOf s n elements of) := by
  refine (heeds_resolveType _ _).bind fun of => (heeds_instantiateType _ _).bind fun array => ?_
  have hlast := h.setType (c := c) n array
  simp only
  split
  · exact Flow.heeds_types.bind fun t => Flow.heeds_frozen _ _ fun element => (h.checkElements _ _).bind fun _ => hlast
  · exact hlast

@[grind ←]
theorem visitArray {s : ScopeId} (hs : .scope s ∈ c) (n : Placed) (elements : List Placed) (of : Option TypeExpr) :
    Heeds w c (e.visitArray s n elements of) := by
  refine (h.visitAll hs elements).bind fun _ => ?_
  split
  · exact h.visitArrayOf _ _ _ _
  · split
    · exact .throw _
    · refine (heeds_nodeOf n).bind fun id => .bind (.changeGraph fun g => ?_) fun _ => ?_
      · exact .modify_beside g id (fun _ => rfl) (fun _ e => by cases e <;> rfl) fun _ => rfl
      · exact (heeds_nodesOf _).bind fun _ => h.connect _ _

/-- A variable that is read before it was written is one that may be nil. -/
theorem initVar {id : NodeId} (hid : .node id ∈ c) (read : Bool) :
    HeedsTo w c (fun id => [.node id]) (e.initVar id read) := by
  have hreturn : HeedsTo w c (fun id => [.node id]) (Pure.pure id : Infer NodeId) :=
    .pure fun f hf => List.mem_singleton.mp hf ▸ hid
  unfold Engine.initVar
  split
  · exact (h.connect _ _).andThen fun _ => hreturn
  · exact hreturn

/-- A variable is made that belongs to no scope. -/
theorem shareVar {id : NodeId} (hid : .node id ∈ c) {f : Env → Env}
    (hf : ∀ e, (f e).notes = e.notes ∧ (f e).scopes = e.scopes ∧ (f e).sites = e.sites ∧
      (f e).methods = e.methods ∧ (f e).instances = e.instances ∧ (f e).funs = e.funs)
    (hshared : ∀ e, ∀ v ∈ (f e).shared, v ∈ e.shared ∨ v = id) (read : Bool) :
    HeedsTo w c (fun id => [.node id]) (changeEnv f >>= fun _ => e.initVar id read) :=
  (heeds_share hid hf hshared).andThen fun _ => h.initVar hid read

theorem ivarNode (owner : TypeId) (name : String) (read : Bool) :
    HeedsTo w c (fun id => [.node id]) (e.ivarNode owner name read) := by
  refine heedsTo_shared (fun e => assoc? e.ivars (owner, name)) (fun e id hid => ?_) ?_
  · exact List.mem_append_left _ (List.mem_append_left _ (List.mem_map_of_mem (mem_of_assoc? hid)))
  refine Flow.heeds_types.andThen fun t => (Flow.heedsTo_newNode _).andThen fun id => ?_
  refine Heeds.andThen (.changeGraph fun g => ?_) fun _ => (Heeds.onTypes (Table.widening_setIVar _ _ _)).andThen fun _ => ?_
  · exact .modify_beside g id (fun _ => rfl) (fun _ e => by cases e <;> rfl) fun _ => rfl
  · refine h.shareVar List.mem_cons_self (fun e => ?_) (fun e v hv => ?_) _
    · exact ⟨rfl, rfl, rfl, rfl, rfl, rfl⟩
    · simpa [Env.shared, or_comm, or_assoc, or_left_comm] using hv

theorem classVarNode (s : ScopeId) (name : String) (read : Bool) :
    HeedsTo w c (fun id => [.node id]) (e.classVarNode s name read) := by
  refine (heeds_scope s).andThen fun sc => Flow.heeds_types.andThen fun t => ?_
  split
  · exact .failing (failing_undefined _ _)
  refine heedsTo_shared (fun e => assoc? e.classVars (sc.home, name)) (fun e id hid => ?_) ?_
  · exact List.mem_append_left _ (List.mem_append_right _ (List.mem_map_of_mem (mem_of_assoc? hid)))
  refine (Flow.heedsTo_newNode _).andThen fun id => ?_
  refine h.shareVar List.mem_cons_self (fun e => ?_) (fun e v hv => ?_) _
  · exact ⟨rfl, rfl, rfl, rfl, rfl, rfl⟩
  · simpa [Env.shared, or_comm, or_assoc, or_left_comm] using hv

theorem globalNode (name : String) (read : Bool) : HeedsTo w c (fun id => [.node id]) (e.globalNode name read) := by
  refine heedsTo_shared (fun e => assoc? e.globals name) (fun e id hid => ?_) ?_
  · exact List.mem_append_right _ (List.mem_map_of_mem (mem_of_assoc? hid))
  refine (Flow.heedsTo_newNode _).andThen fun id => ?_
  refine h.shareVar List.mem_cons_self (fun e => ?_) (fun e v hv => ?_) _
  · exact ⟨rfl, rfl, rfl, rfl, rfl, rfl⟩
  · simpa [Env.shared, or_comm, or_assoc, or_left_comm] using hv

@[grind ←]
theorem visitLocal (s : ScopeId) (n : Placed) (name : String) (out : Bool) : Heeds w c (e.visitLocal s n name out) := by
  grind [Engine.visitLocal]

@[grind ←]
theorem visitIVar (s : ScopeId) (n : Placed) (name : String) (out : Bool) : Heeds w c (e.visitIVar s n name out) :=
  (heeds_ivarOwner s).bind fun _ => (h.ivarNode _ _ _).heeds.bind fun _ => h.bind _ _

@[grind ←]
theorem visitClassVar (s : ScopeId) (n : Placed) (name : String) : Heeds w c (e.visitClassVar s n name) :=
  (h.classVarNode _ _ _).heeds.bind fun _ => h.bind _ _

@[grind ←]
theorem visitGlobal (n : Placed) (name : String) : Heeds w c (e.visitGlobal n name) :=
  (h.globalNode _ _).heeds.bind fun _ => h.bind _ _

@[grind ←]
theorem visitPath (s : ScopeId) (n : Placed) (names : List String) (typeArgs : List TypeExpr) :
    Heeds w c (e.visitPath s n names typeArgs) := by
  grind [Engine.visitPath]

@[grind ←]
theorem declareConst (s : ScopeId) (n target : Placed) (names : List String) (value : Option Placed) :
    Heeds w c (e.declareConst s n target names value) := by
  unfold Engine.declareConst
  split
  · refine (heeds_scope s).bind fun sc => Flow.heeds_types.bind fun t => ?_
    simp only
    split
    · exact heeds_undefined _ _
    · refine HeedsTo.andThen (heedsTo_newScope ?_) fun inner => (h.visitOption List.mem_cons_self _).bind fun _ => ?_
      · exact List.forall_mem_nil _
      refine (heedsTo_nodeOrNil _).andThen fun id => (Heeds.onTypes (Table.widening_defineConst _ _ _)).bind fun _ => ?_
      exact (heeds_setAssigned _ _).bind fun _ => h.bind _ _
  · exact .throw _

section

variable {s : ScopeId} (hs : .scope s ∈ c)
include hs

/-- The node of the target of an assignment may be given to a call. -/
theorem assignTarget (target : Placed) (value : Option Placed) :
    HeedsTo w c (fun found => found.toList.map .node) (e.assignTarget s target value) := by
  have hreturn : ∀ {c : List Fact} {id : NodeId}, .node id ∈ c →
      HeedsTo w c (fun found => found.toList.map .node) (Pure.pure (some id) : Infer (Option NodeId)) :=
    fun hid => .pure fun f hf => List.mem_singleton.mp hf ▸ hid
  unfold Engine.assignTarget
  split
  · refine (h.visitOption hs _).andThen fun _ => (heeds_dropViews _ _).andThen fun _ => ?_
    exact (heedsTo_declare _ _).andThen fun _ => hreturn List.mem_cons_self
  · refine ((heeds_ivarOwner s).locating _).andThen fun owner => (h.visitOption hs _).andThen fun _ => ?_
    exact (h.ivarNode _ _ _).andThen fun _ => hreturn List.mem_cons_self
  · refine ((h.classVarNode _ _ _).locating _).andThen fun id => ?_
    exact (h.visitOption (List.mem_append_right _ hs) _).andThen fun _ => hreturn List.mem_cons_self
  · refine (h.visitOption hs _).andThen fun _ => ?_
    exact (h.globalNode _ _).andThen fun _ => hreturn List.mem_cons_self
  · exact .pure (List.forall_mem_nil _)

@[grind ←]
theorem visitAssign (n target : Placed) (value : Option Placed) : Heeds w c (e.visitAssign s n target value) := by
  unfold Engine.visitAssign
  split
  · exact h.declareConst _ _ _ _ _
  · refine (h.assignTarget hs _ _).andThen fun found => ?_
    split
    · exact .throw _
    · refine (heeds_setAssigned _ _).bind fun _ => (heeds_nodeOrNil _).bind fun v => ?_
      exact ((h.connect _ _).locating _).bind fun _ => h.bind _ _

end

/-! ### Branches and loops -/

@[grind ←]
theorem views (s : ScopeId) (ns : List Narrowing) : Heeds w c (e.views s ns) := by
  induction ns with
  | nil => exact .pure _
  | cons n ns ih =>
    refine heeds_env.bind fun env => ?_
    split
    · exact ih
    · refine (Flow.heeds_newNode _).bind fun id => .bind (.changeGraph fun g => ?_) fun _ => ?_
      · exact .modify_beside g id (fun _ => rfl) (fun _ e => by cases e <;> rfl) fun _ => rfl
      · exact (h.connect _ _).bind fun _ => ih.bind fun _ => .pure _

section

variable {s : ScopeId} (hs : .scope s ∈ c)
include hs

@[grind ←]
theorem narrowing (ns : List Narrowing) (branch : Option Placed) : Heeds w c (e.narrowing s ns branch) := by
  refine (h.views s ns).bind fun layer => .bind (heeds_changeScope s (fun _ => rfl) fun _ => rfl) fun _ => ?_
  refine (h.visitOption hs branch).attempt (fun _ => ?_) fun f => ?_
  · exact .bind (heeds_changeScope s (fun _ => rfl) fun _ => rfl) fun _ => .pure _
  · exact .after fun _ => .throw _

@[grind ←]
theorem branches (cond truthy falsy : Option Placed) : Heeds w c (e.branches s cond truthy falsy) := by
  grind [Engine.branches]

@[grind ←]
theorem visitIf (n : Placed) (cond yes no : Option Placed) : Heeds w c (e.visitIf s n cond yes no) := by
  grind [Engine.visitIf]

@[grind ←]
theorem visitUnless (n : Placed) (cond yes no : Option Placed) : Heeds w c (e.visitUnless s n cond yes no) := by
  grind [Engine.visitUnless]

@[grind ←]
theorem clauses (subject : Option Placed) (whens : List (When Placed)) : Heeds w c (e.clauses s subject whens) := by
  induction whens <;> grind [Engine.clauses]

@[grind ←]
theorem visitCase (n : Placed) (subject : Option Placed) (whens : List (When Placed)) (no : Option Placed) :
    Heeds w c (e.visitCase s n subject whens no) := by
  grind [Engine.visitCase]

@[grind ←]
theorem loopBody (target : NodeId) (body : Option Placed) : Heeds w c (e.loopBody s target body) := by
  refine .bind (heeds_changeScope s (fun _ => rfl) fun _ => rfl) fun _ => ?_
  refine (h.visitOption hs body).attempt (fun _ => ?_) fun f => ?_
  · refine (heeds_scope s).bind fun sc => ?_
    exact .bind (heeds_changeScope s (fun _ => rfl) fun _ => rfl) fun _ => .pure _
  · exact .after fun _ => .after fun _ => .throw _

@[grind ←]
theorem visitWhile (n : Placed) (cond body : Option Placed) : Heeds w c (e.visitWhile s n cond body) := by
  grind [Engine.visitWhile]

@[grind ←]
theorem visitReturn (n : Placed) (value : Option Placed) : Heeds w c (e.visitReturn s n value) := by
  refine (heeds_scope s).bind fun sc => ?_
  split
  · exact .throw _
  · refine (h.visitOption hs _).bind fun _ => (heeds_instanceOf _).bind fun inst => ?_
    refine (heeds_nodeOrNil _).bind fun v => (h.connect _ _).bind fun _ => ?_
    exact h.setType _ _

@[grind ←]
theorem visitBreak (n : Placed) (value : Option Placed) : Heeds w c (e.visitBreak s n value) := by
  refine (heeds_scope s).bind fun sc => ?_
  split
  · exact .throw _
  · refine (h.visitOption hs _).bind fun _ => (heeds_noteBreak s).bind fun _ => (heeds_scope s).bind fun sc => ?_
    split
    · exact .pure _
    · exact (heeds_nodeOrNil _).bind fun v => (h.connect _ _).bind fun _ => h.setType _ _

end

/-! ### Blocks and macros -/

@[grind ←]
theorem bindBlockParams (params args : List NodeId) : Heeds w c (e.bindBlockParams params args) := by
  induction params generalizing args with
  | nil => exact .pure _
  | cons p params ih =>
    cases args with
    | nil => exact (h.connect _ _).bind fun _ => ih []
    | cons a args => exact (h.connect _ _).bind fun _ => ih args

@[grind ←]
theorem typeBlock {s : ScopeId} (hs : .scope s ∈ c) (block : Block Mark Placed) : Heeds w c (e.typeBlock s block) := by
  grind [Engine.typeBlock]

@[grind ←]
theorem yieldTo (b : Nat) (bc : BlockContext) (args : List NodeId) : Heeds w c (e.yieldTo b bc args) := by
  unfold Engine.yieldTo
  split
  · exact h.bindBlockParams _ _
  · refine (heedsTo_openBlockScope b bc).andThen fun opened => (h.bindBlockParams _ _).bind fun _ => ?_
    exact (heeds_nodeOf _).bind fun _ => h.typeBlock List.mem_cons_self _

section

variable {s : ScopeId} (hs : .scope s ∈ c)
include hs

@[grind ←]
theorem visitYield (n : Placed) (args : List Placed) : Heeds w c (e.visitYield s n args) := by
  refine (heeds_scope s).bind fun sc => ?_
  split
  · exact .throw _
  · refine (h.visitAll hs _).bind fun _ => heeds_env.bind fun env => ?_
    split
    · exact .pure _
    · refine (heeds_nodesOf _).bind fun nodes => (h.yieldTo _ _ _).bind fun _ => ?_
      exact (heeds_nodeOf _).bind fun _ => h.bind _ _

@[grind ←]
theorem visitMacro (n : Placed) (call : CallParts) (d : MacroDefinition) : Heeds w c (e.visitMacro s n call d) := by
  refine heeds_env.bind fun env => (heeds_expansionAt _ _).bind fun x => (heeds_place _).bind fun tree => ?_
  refine .bind (heeds_changeNote _ fun _ => ⟨rfl, rfl⟩) fun _ => ?_
  refine (h.typeTree hs tree).attempt (fun _ => ?_) fun f => ?_
  · exact (heeds_nodeOf _).bind fun _ => h.bind _ _
  · exact .throw _

end

/-! ### Declarations -/

@[grind ←]
theorem visitMethodDef (s : ScopeId) (n : Placed) (receiver : String) (d : Definition) :
    Heeds w c (e.visitMethodDef s n receiver d) := by
  grind [Engine.visitMethodDef]

@[grind ←]
theorem visitBody (home : TypeId) (body : Option Placed) : Heeds w c (e.visitBody home body) := by
  refine (Heeds.onTypes (Table.widening_metaclassOf _)).bind fun self => HeedsTo.andThen (heedsTo_newScope ?_) fun s => ?_
  · exact List.forall_mem_nil _
  · exact h.visitOption List.mem_cons_self _

@[grind ←]
theorem visitClassDef (s : ScopeId) (n : Placed) (name : String) (superclass : Option (PathRef Mark))
    (typeParams : List String) (body : Option Placed) :
    Heeds w c (e.visitClassDef s n name superclass typeParams body) := by
  grind [Engine.visitClassDef]

@[grind ←]
theorem visitModuleDef (s : ScopeId) (n : Placed) (name : String) (body : Option Placed) :
    Heeds w c (e.visitModuleDef s n name body) := by
  grind [Engine.visitModuleDef]

@[grind ←]
theorem visitInclude (s : ScopeId) (n : Placed) (names : List String) (typeArgs : List TypeExpr) :
    Heeds w c (e.visitInclude s n names typeArgs) := by
  grind [Engine.visitInclude]

@[grind ←]
theorem visitMacroDef (n : Placed) (name : String) (params : Option (List String)) (body : Option Placed) :
    Heeds w c (e.visitMacroDef n name params body) := by
  unfold Engine.visitMacroDef
  split
  · exact .throw _
  · exact .bind (.changeEnv fun _ => rfl) fun _ => h.setType _ _

@[grind ←]
theorem visitLibDef (s : ScopeId) (n : Placed) (name : String) (body : List Placed) :
    Heeds w c (e.visitLibDef s n name body) := by
  refine (heeds_scope s).bind fun sc => ?_
  simp only
  split
  · exact Flow.heeds_types.bind fun _ => .throw _
  · refine (heeds_declareLib _).bind fun lib => HeedsTo.andThen (heedsTo_newScope ?_) fun inner => ?_
    · exact List.forall_mem_nil _
    · exact (h.visitAll List.mem_cons_self _).bind fun _ => h.setType _ _

@[grind ←]
theorem visitFunDef (s : ScopeId) (n : Placed) (name : String) (params : List (Param Source))
    (result : Option TypeExpr) (varargs : Bool) : Heeds w c (e.visitFunDef s n name params result varargs) := by
  refine (heeds_currentLib _ _ _).bind fun lib => (heeds_checkFunParams _ _ _ _).bind fun _ => ?_
  extract_lets k
  have hk : ∀ u, Heeds w c (k u) := by
    refine fun u => (heeds_newMethod rfl).bind fun id => Heeds.bind ?_ fun _ => h.setType _ _
    refine .rests fun _ p p' a hrun _ _ => ⟨?_, List.forall_mem_nil _⟩
    cases hrun
    exact .declare p _
  split
  · exact (heeds_resolveIn _ _).bind fun _ => hk ()
  · exact hk ()

@[grind ←]
theorem visitStructDef (s : ScopeId) (n : Placed) (name : String) (isUnion : Bool) (members : List (Param Source)) :
    Heeds w c (e.visitStructDef s n name isUnion members) := by
  refine (heeds_currentLib _ _ _).bind fun lib => Flow.heeds_types.bind fun t => ?_
  simp only
  split
  · exact .throw _
  · refine (Heeds.onTypes (Table.widening_defineStruct _ _ _ _)).bind fun id => ?_
    refine (heeds_addMembers _ _ _ _ _).bind fun _ => ?_
    refine (Heeds.onTypes (Table.widening_metaclassOf _)).bind fun self => (heeds_addMethod _ _).bind fun _ => ?_
    exact Flow.heeds_types.bind fun t => (heeds_addAccessors _ _ _).bind fun _ => h.setType _ _

@[grind ←]
theorem visitTypeDef (s : ScopeId) (n : Placed) (name : String) (type : Option TypeExpr) :
    Heeds w c (e.visitTypeDef s n name type) := by
  cases type <;> grind [Engine.visitTypeDef]

/-! ### Foreign calls -/

@[grind ←]
theorem convert (x : NodeId) (i : Nat) : Heeds w c (e.convert x i) := by
  refine (heedsTo_site? x).andThen fun found => show Heeds _ _ _ from ?_
  split
  · exact .pure _
  · split
    · exact .pure _
    · refine .bind (heeds_changeSite x fun _ => rfl) fun _ => ?_
      split
      · exact .pure _
      · refine (heeds_freshMark _).bind fun mark => .bind (heeds_changeNote _ fun _ => ⟨rfl, rfl⟩) fun _ => ?_
        exact h.openSite' List.mem_cons_self

@[grind ←]
theorem checkArgs (site : Site) (lib : TypeId) (i : Nat) (params : List NodeId) (args : List TypeId) :
    Heeds w c (e.checkArgs site lib i params args) := by
  induction params generalizing i args with
  | nil => exact .pure _
  | cons p params ih => cases args <;> grind [Engine.checkArgs]

@[grind ←]
theorem convertRest (site : Site) (i : Nat) (args : List TypeId) : Heeds w c (e.convertRest site i args) := by
  induction args generalizing i <;> grind [Engine.convertRest]

@[grind ←]
theorem callFun (site : Site) (lib : TypeId) (args : List TypeId) (id : MethodId) :
    Heeds w c (e.callFun site lib args id) := by
  refine (heeds_method id).bind fun m => ?_
  simp only
  split
  · exact Flow.heeds_types.bind fun _ => .throw _
  · refine (heeds_externalId id).bind fun i => (heeds_instanceOf i).bind fun inst => ?_
    refine (h.checkArgs _ _ _ _ _).bind fun _ => ?_
    split
    · exact (h.convertRest _ _ _).bind fun _ => .pure _
    · exact .pure _

@[grind ←]
theorem funCall (site : Site) (lib : TypeId) (args : List TypeId) : Heeds w c (e.funCall site lib args) := by
  grind [Engine.funCall]

@[grind ←]
theorem outTarget (site : Site) (arg : Placed) : Heeds w c (e.outTarget site arg) := by
  have hivar := fun owner name read => (h.ivarNode (c := c) owner name read).heeds
  unfold Engine.outTarget
  split <;> grind

@[grind ←]
theorem bindOuts (site : Site) (lib : TypeId) (id : MethodId) (i : Nat) (params : List (Param Source))
    (args : List Placed) : Heeds w c (e.bindOuts site lib id i params args) := by
  induction params generalizing i args with
  | nil => exact .pure _
  | cons p params ih =>
    cases args with
    | nil => exact .pure _
    | cons arg args =>
      have hrest := ih (i + 1) args
      unfold Engine.bindOuts
      grind

/-! ### Instances -/

@[grind ←]
theorem typePrimitive (id : InstanceId) : Heeds w c (e.typePrimitive id) := by
  refine (heedsTo_instanceOf id).andThen fun inst => (heeds_method _).bind fun m => ?_
  extract_lets d k
  have hk : ∀ result, Heeds w ([.result inst.result] ++ c) (k result) := by
    refine fun result => (heeds_write id _).bind fun body => ?_
    exact (h.setType _ _).bind fun _ => Flow.heeds_freeze _ List.mem_cons_self
  split
  · exact (Heeds.pure _).bind hk
  · exact ((heeds_resolveDeclared _ _).locating _).bind hk

@[grind ←]
theorem bindParams (s : ScopeId) (params : List (Param Source × TypeId)) : Heeds w c (e.bindParams s params) := by
  induction params <;> grind [Engine.bindParams]

@[grind ←]
theorem typeBody (x : NodeId) (id : InstanceId) : Heeds w c (e.typeBody x id) := by
  refine (heedsTo_instanceOf id).andThen fun inst => (heeds_method _).bind fun m => ?_
  refine (heeds_writeBody id _ _).bind fun body => ?_
  refine (heedsTo_openBody _ _ _ _).andThen fun s => (h.bindParams _ _).bind fun _ => ?_
  refine (heeds_freezeResult _ (List.mem_append_right _ List.mem_cons_self)).bind fun _ => ?_
  refine (h.typeTree List.mem_cons_self _).bind fun _ => (heeds_nodeOf _).bind fun _ => ?_
  exact (h.connect _ _).locating _

@[grind ←]
theorem typeNested (x : NodeId) (loc : Option Location) (id : InstanceId) : Heeds w c (e.typeNested x loc id) := by
  refine .bind (.changeEnv fun _ => rfl) fun _ => (h.typeBody x id).attempt (fun _ => ?_) fun f => ?_
  · exact .bind (.changeEnv fun _ => rfl) fun _ => .pure _
  · exact .after fun _ => .after fun _ => .throw _

@[grind ←]
theorem typeInstance (site : Site) (id : InstanceId) (kind : MethodKind) :
    Heeds w c (e.typeInstance site id kind) := by
  cases kind <;> grind [Engine.typeInstance]

/-- An instance that a call gets was made for the owner of the method and the types that it matched, whether it is a
new one or one that is remembered. -/
theorem instantiate (site : Site) (owner : TypeId) (m : Match MethodId) :
    HeedsTo w c (fun i => [.made i (owner :: m.argTypes)]) (e.instantiate site owner m) := by
  refine (heedsTo_method _).andThen fun method => ?_
  dsimp only
  split
  · rename_i i hknown
    refine .pure fun f hf => List.mem_append_left _ ?_
    obtain rfl := List.mem_singleton.mp hf
    have hfiled : assoc? method.memo (owner :: m.argTypes) = some i := by
      split at hknown
      · exact hknown
      · cases hknown
    exact List.mem_map.mpr ⟨(owner :: m.argTypes, i), mem_of_assoc? hfiled, rfl⟩
  · refine heeds_env.andThen fun env => ?_
    split
    · exact Flow.heeds_types.andThen fun _ => .throw _
    · refine (heedsTo_newInstance _ _ _ _).andThen fun i => ?_
      have htype : ∀ {c}, .made i (owner :: m.argTypes) ∈ c → HeedsTo w c (fun i => [.made i (owner :: m.argTypes)])
          (e.typeInstance site i method.kind >>= fun _ => Pure.pure i) :=
        fun hi => (h.typeInstance _ _ _).andThen fun _ => .pure fun f hf => List.mem_singleton.mp hf ▸ hi
      split
      · refine Heeds.andThen (heeds_changeMethod _ fun m' x hx => ?_) fun _ => htype List.mem_cons_self
        refine (List.mem_cons.mp hx).symm.imp_right fun hnew => ?_
        exact hnew ▸ List.mem_cons_self
      · exact htype List.mem_cons_self

@[grind ←]
theorem heeds_instantiate (site : Site) (owner : TypeId) (m : Match MethodId) :
    Heeds w c (e.instantiate site owner m) :=
  (h.instantiate site owner m).heeds

/-! ### Dispatching and resolving calls -/

@[grind ←]
theorem placeholder (name : String) (loc : Option Location) (t : TypeId) : Heeds w c (e.placeholder name loc t) := by
  grind [Engine.placeholder]

@[grind ←]
theorem placeholders (loc : Option Location) (i : Nat) (ts : List TypeId) : Heeds w c (e.placeholders loc i ts) := by
  induction ts generalizing i <;> grind [Engine.placeholders]

@[grind ←]
theorem receiverPlaceholder (site : Site) (t : TypeId) : Heeds w c (e.receiverPlaceholder site t) := by
  grind [Engine.receiverPlaceholder]

@[grind ←]
theorem subcallFor (site : Site) (shape : List TypeId) : Heeds w c (e.subcallFor site shape) := by
  grind [Engine.subcallFor]

section

variable {site : Site} (hs : .scope site.scope ∈ c)
include hs

@[grind ←]
theorem subcall (d : Nat) (shape : List TypeId) : Heeds w c (e.subcall site d shape) := by
  refine (h.subcallFor _ _).bind fun call => (heeds_changeDispatch _ _).bind fun _ => ?_
  exact h.openSite hs fun x => (heeds_dispatchNode _).bind fun _ => h.connect _ _

@[grind ←]
theorem subcalls (d : Nat) (shapes : List (List TypeId)) : Heeds w c (e.subcalls site d shapes) := by
  induction shapes <;> grind [Engine.subcalls]

@[grind ←]
theorem dispatch (recvs args : List TypeId) : Heeds w c (e.dispatch site recvs args) := by
  grind [Engine.dispatch]

@[grind ←]
theorem resolveSingle (recv : TypeId) (args : List TypeId) : Heeds w c (e.resolveSingle site recv args) := by
  grind [Engine.resolveSingle]

@[grind ←]
theorem resolveCall (recv : TypeId) (args : List TypeId) : Heeds w c (e.resolveCall site recv args) := by
  grind [Engine.resolveCall]

end

/-! ### Trees -/

theorem visitDeclaration (s : ScopeId) (n : Placed) : Heeds w c (e.visitDeclaration s n) := by
  grind [Engine.visitDeclaration]

section

variable {s : ScopeId} (hs : .scope s ∈ c)
include hs

theorem visitPlainCall (call : CallParts) : Heeds w c (e.visitPlainCall s call) :=
  (h.visitOption hs _).bind fun _ => (h.visitAll hs _).bind fun _ => h.openSite' hs

theorem visitSuper (call : CallParts) : Heeds w c (e.visitSuper s call) := by
  refine (heeds_callingMethod? s).bind fun found => ?_
  split
  · exact .throw _
  · exact (heeds_superArgs _ _).bind fun args => (h.visitAll hs _).bind fun _ => h.openSite' hs

theorem visitCall (n : Placed) (call : CallParts) : Heeds w c (e.visitCall s n call) := by
  unfold Engine.visitCall
  split
  · exact h.visitPlainCall hs _
  · refine heeds_env.bind fun env => ?_
    split
    · exact h.visitMacro hs n call _
    · split
      · exact h.visitSuper hs _
      · exact h.visitPlainCall hs _

@[grind ←]
theorem visitExpressions (n : Placed) (body : List Placed) : Heeds w c (e.visitExpressions s n body) := by
  grind [Engine.visitExpressions]

theorem visitIsA (n : Placed) (obj : Option Placed) (type : Option TypeExpr) : Heeds w c (e.visitIsA s n obj type) := by
  refine (h.visitOption hs _).bind fun _ => ?_
  split
  · exact .bind ((heeds_resolveType _ _).bind fun _ => .pure _) fun _ => h.setType _ _
  · exact (heeds_undefined _ _).bind fun _ => h.setType _ _

theorem visitRespondsTo (n : Placed) (obj : Option Placed) : Heeds w c (e.visitRespondsTo s n obj) := by
  grind [Engine.visitRespondsTo]

theorem visitPointerOf (n : Placed) (target : Option Placed) : Heeds w c (e.visitPointerOf s n target) := by
  unfold Engine.visitPointerOf
  split
  · exact .throw _
  · refine (h.typeTree hs _).bind fun _ => (heeds_nodeOf _).bind fun id => .bind (.changeGraph fun g => ?_) fun _ => ?_
    · exact .modify_beside g id (fun _ => rfl) (fun _ e => by cases e <;> rfl) fun _ => rfl
    · exact (heeds_nodeOf _).bind fun _ => h.connect _ _

theorem visitControl (n : Placed) : Heeds w c (e.visitControl s n) := by
  have hdeclaration := h.visitDeclaration (c := c) s
  grind [Engine.visitControl]

theorem visitForm (n : Placed) : Heeds w c (e.visitForm s n) := by
  unfold Engine.visitForm
  split
  · exact h.setType _ _
  · exact h.setType _ _
  · exact h.setType _ _
  · exact h.visitInt _ _ _
  · exact h.visitFloat _ _ _
  · exact h.setType _ _
  · exact h.setType _ _
  · exact h.visitSymbol _ _
  · exact h.visitArray hs _ _ _
  · exact h.visitLocal _ _ _ _
  · exact h.visitIVar _ _ _ _
  · exact h.visitClassVar _ _ _
  · exact h.visitGlobal _ _
  · exact (heeds_scope s).bind fun _ => h.setType _ _
  · exact h.visitPath _ _ _ _
  · exact h.visitAssign hs _ _ _
  · exact .throw _
  · exact h.visitExpressions hs _ _
  · exact h.visitCall hs _ _
  · exact .throw _
  · exact h.visitYield hs _ _
  · exact h.visitIsA hs _ _ _
  · exact h.visitRespondsTo hs _ _
  · exact h.visitPointerOf hs _ _
  · exact h.visitControl hs _

theorem visitNode (n : Placed) : Heeds w c (e.visitNode s n) :=
  (heeds_nodeOf n).bind fun _ => (h.visitForm hs n).locating _

end

end Heedful

end Engine

end TypeFlow
