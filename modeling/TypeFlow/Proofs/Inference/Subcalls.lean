import TypeFlow.Proofs.Inference.Dispatch
import TypeFlow.Proofs.Inference.Lookup
import TypeFlow.Proofs.Inference.Numbering
import TypeFlow.Proofs.Overload.Whole
import TypeFlow.Proofs.Standard.NumericTyping

/-!
# Subcalls over single classes

A call whose receiver and arguments stand for single classes is resolved to one instance; it never becomes a
dispatch (`Engine.resolveCall_inst`), because its arguments have one match at most, and that takes them as they are.

A dispatch makes its subcalls with placeholders that have the types of the combination. So a subcall for single
classes is resolved for just these, and the dispatch is not expanded again (`Engine.subcall_inst`).
-/

namespace TypeFlow

open Table (Single)

/-! ### What is typed -/

namespace Program

variable {p p' p'' : Program}

/-- The types and the scopes are the same, and whatever had a type has the same node and the same type. -/
structure Undisturbed (p p' : Program) : Prop where
  types : p'.types = p.types
  scopes : p'.env.scopes = p.env.scopes
  nodeOf : ∀ x, p.typeOf x ≠ 0 → p'.nodeOf x = p.nodeOf x
  typeOf : ∀ x, p.typeOf x ≠ 0 → p'.typeOf x = p.typeOf x

namespace Undisturbed

theorem trans (h : Undisturbed p p') (h' : Undisturbed p' p'') : Undisturbed p p'' where
  types := h'.types.trans h.types
  scopes := h'.scopes.trans h.scopes
  nodeOf x hx := (h'.nodeOf x (h.typeOf x hx ▸ hx)).trans (h.nodeOf x hx)
  typeOf x hx := (h'.typeOf x (h.typeOf x hx ▸ hx)).trans (h.typeOf x hx)

/-- Changes beside types, nodes, notes and scopes disturb nothing. -/
theorem of_eq (types : p'.types = p.types) (graph : p'.graph.typeOf = p.graph.typeOf)
    (notes : p'.env.notes = p.env.notes) (scopes : p'.env.scopes = p.env.scopes) : Undisturbed p p' := by
  have hnode : ∀ x, p'.nodeOf x = p.nodeOf x := fun x => by rw [Program.nodeOf, Env.note, notes]; rfl
  refine ⟨types, scopes, fun x _ => hnode x, fun x _ => ?_⟩
  change p'.graph.typeOf (p'.nodeOf x) = p.graph.typeOf (p.nodeOf x)
  rw [graph, hnode]

theorem refl (p : Program) : Undisturbed p p :=
  of_eq rfl rfl rfl rfl

theorem opened (p : Program) (count : Nat) : Undisturbed p (Program.opened p count) := by
  have hnode : ∀ x, (Program.opened p count).nodeOf x = p.nodeOf x := by
    intro x
    simp only [Program.nodeOf, Env.note, Program.opened, Array.getElem?_append, Array.getElem?_replicate]
    split
    · rfl
    · rename_i hlt
      rw [Array.getElem?_eq_none (Nat.le_of_not_lt hlt)]
      split <;> rfl
  refine ⟨rfl, rfl, fun x _ => hnode x, fun x _ => ?_⟩
  exact congrArg p.graph.typeOf (hnode x)

end Undisturbed

/-- A tree with a type has a node. -/
theorem nodeOf_ne_zero {x : Placed} (h : p.typeOf x ≠ 0) : p.nodeOf x ≠ 0 := by
  intro hzero
  refine h ?_
  change p.graph.typeOf (p.nodeOf x) = 0
  rw [hzero]
  rfl

end Program

open Program (Undisturbed)

variable {p p' : Program}

namespace Program

/-- The program with a new node for a tree. -/
def withNode (p : Program) (t : Placed) : Program :=
  ⟨p.types, (p.graph.add t.label).2,
    p.env.changeNote t.mark.occ fun n => { n with node := p.graph.size }⟩

theorem nodeOf_withNode_self (t : Placed) :
    (p.withNode t).nodeOf t = p.graph.size := by
  rw [nodeOf, withNode, Env.note_changeNote, if_pos rfl]

theorem Undisturbed.withNode {t : Placed} (hnode : p.nodeOf t = 0) : Undisturbed p (p.withNode t) := by
  have hsame : ∀ x, p.typeOf x ≠ 0 → (p.withNode t).nodeOf x = p.nodeOf x := by
    intro x hx
    -- what has a type is not what gets a node here
    have hne : t.mark.occ ≠ x.mark.occ := by
      intro heq
      refine nodeOf_ne_zero hx ?_
      rw [Program.nodeOf, ← heq]
      exact hnode
    rw [Program.nodeOf, Program.withNode, Env.note_changeNote, if_neg hne, Program.nodeOf]
  refine ⟨rfl, rfl, hsame, fun x hx => ?_⟩
  change (p.graph.add t.label).2.typeOf ((p.withNode t).nodeOf x) = _
  rw [hsame x hx, Graph.typeOf_add]
  rfl

end Program

namespace Infer

theorem run_nodeOf_of_eq_zero {t : Placed} (h : p.nodeOf t = 0) :
    (nodeOf t).run.run p = (.ok p.graph.size, p.withNode t) := by
  have hnote : (note t.mark.occ).run.run p = (.ok (p.env.note t.mark.occ), p) := rfl
  rw [nodeOf, Flow.run_bind_of_ok hnote]
  exact congrArg (fun m : Infer NodeId => m.run.run p) (if_neg (not_not.mpr h))

/-- To look up the node of a tree disturbs nothing. -/
theorem undisturbed_nodeOf (t : Placed) (p : Program) :
    ∃ id, ∃ p' : Program, (nodeOf t).run.run p = (.ok id, p') ∧ Undisturbed p p' ∧ p'.env.sites = p.env.sites := by
  by_cases hnode : p.nodeOf t = 0
  · exact ⟨_, _, run_nodeOf_of_eq_zero hnode, .withNode hnode, rfl⟩
  · exact ⟨_, p, run_nodeOf_known hnode, .refl p, rfl⟩

end Infer

namespace Engine

open Infer

variable (e : Engine)

/-- A placeholder has the type that it is made for. -/
theorem run_placeholder (name : String) (loc : Option Location) {t : TypeId} (ht : t ≠ 0) (p : Program) :
    ∃ v, ∃ p' : Program, (e.placeholder name loc t).run.run p = (.ok v, p') ∧ Undisturbed p p' ∧ p'.typeOf v = t ∧
      v.form = .localVar name false := by
  let v : Placed := .node ⟨loc, p.env.notes.size⟩ (.localVar name false)
  let w := Program.withNode (Program.opened p 1) v
  have hnew : Program.nodeOf (Program.opened p 1) v = 0 := by
    simp [Program.nodeOf, Env.note, Program.opened, v, Tree.mark]
  have hnode : Program.nodeOf w v = p.graph.size := Program.nodeOf_withNode_self v
  have hget : w.graph.get? p.graph.size = some { label := v.label } := by
    change (p.graph.add v.label).2.get? p.graph.size = _
    rw [Graph.get?_add, if_pos rfl]
  let w' : Program := ⟨w.types, w.graph.retype p.graph.size t, w.env⟩
  have hassign : (e.setType v t).run.run (Program.opened p 1) = (.ok (), w') := by
    rw [setType, Flow.run_bind_of_ok (run_nodeOf_of_eq_zero hnew)]
    exact Flow.run_setType_new e.hooks ht hget
  have htypes : ∀ x, w'.graph.typeOf x = if x = p.graph.size then t else w.graph.typeOf x :=
    Graph.typeOf_retype (by rw [Graph.view_of_get? hget]; rfl) t
  refine ⟨v, w', ?_, ?_, ?_, rfl⟩
  · rw [placeholder, Flow.run_bind_of_ok (run_freshMark loc p)]
    exact Flow.run_bind_of_ok hassign _
  · refine ((Undisturbed.opened p 1).trans (.withNode hnew)).trans ⟨rfl, rfl, fun _ _ => rfl, fun x hx => ?_⟩
    change w'.graph.typeOf (Program.nodeOf w x) = w.graph.typeOf (Program.nodeOf w x)
    refine (htypes _).trans (if_neg fun heq => hx ?_)
    change w.graph.typeOf (Program.nodeOf w x) = 0
    rw [heq, Graph.typeOf_of_get? hget]
  · change w'.graph.typeOf (Program.nodeOf w v) = t
    rw [hnode, htypes, if_pos rfl]

/-- Placeholders have the types that they are made for. -/
theorem run_placeholders (loc : Option Location) (i : Nat) {ts : List TypeId} (ht : ∀ t ∈ ts, t ≠ 0) (p : Program) :
    ∃ vs, ∃ p' : Program, (e.placeholders loc i ts).run.run p = (.ok vs, p') ∧ Undisturbed p p' ∧
      vs.map p'.typeOf = ts ∧ ∀ v ∈ vs, ∃ name, v.form = .localVar name false := by
  induction ts generalizing i p with
  | nil => exact ⟨[], p, rfl, .refl p, rfl, fun v hv => absurd hv List.not_mem_nil⟩
  | cons t ts ih =>
    obtain ⟨hfirst, hrest⟩ := List.forall_mem_cons.mp ht
    obtain ⟨v, p₁, hv, hp₁, htype, hform⟩ := e.run_placeholder ("%arg" ++ toString i) loc hfirst p
    obtain ⟨vs, p₂, hvs, hp₂, htypes, hforms⟩ := ih (i + 1) hrest p₁
    refine ⟨v :: vs, p₂, ?_, hp₁.trans hp₂, ?_, List.forall_mem_cons.mpr ⟨⟨_, hform⟩, hforms⟩⟩
    · rw [placeholders, Flow.run_bind_of_ok hv]
      exact (Flow.run_bind_of_ok hvs _).trans rfl
    · rw [List.map_cons, hp₂.typeOf v (htype ▸ hfirst), htype, htypes]

/-- The parts of a subcall are placeholders for the combination. -/
theorem run_subcallFor (site : Site) {recv : TypeId} {args : List TypeId} (hrecv : site.obj ≠ 0 → recv ≠ 0)
    (hargs : ∀ t ∈ args, t ≠ 0) (p : Program) :
    ∃ call, ∃ p' : Program, (e.subcallFor site (recv :: args)).run.run p = (.ok call, p') ∧ Undisturbed p p' ∧
      (site.obj = 0 → call.obj = none) ∧
      (site.obj ≠ 0 → ∃ obj, call.obj = some obj ∧ p'.typeOf obj = recv) ∧
      call.args.map p'.typeOf = args ∧ ∀ v ∈ call.args, ∃ name, v.form = .localVar name false := by
  let loc := site.call.mark.loc
  have hobj : ∃ obj, ∃ p₁ : Program, (e.receiverPlaceholder site recv).run.run (Program.opened p 1) = (.ok obj, p₁) ∧
      Undisturbed p p₁ ∧ (site.obj = 0 → obj = none) ∧
      (site.obj ≠ 0 → ∃ v, obj = some v ∧ p₁.typeOf v = recv) := by
    by_cases hzero : site.obj = 0
    · refine ⟨none, _, ?_, .opened p 1, fun _ => rfl, fun hne => absurd hzero hne⟩
      rw [receiverPlaceholder, if_pos hzero]
      rfl
    · obtain ⟨v, p₁, hv, hp₁, htype, -⟩ := e.run_placeholder "%recv" loc (hrecv hzero) (Program.opened p 1)
      refine ⟨some v, p₁, ?_, (Undisturbed.opened p 1).trans hp₁, fun h => absurd h hzero, fun _ => ⟨v, rfl, htype⟩⟩
      rw [receiverPlaceholder, if_neg hzero, Flow.run_bind_of_ok hv]
      rfl
  obtain ⟨obj, p₁, hobj, hp₁, hnone, hsome⟩ := hobj
  obtain ⟨vs, p₂, hvs, hp₂, htypes, hforms⟩ := e.run_placeholders loc 0 hargs p₁
  have hblock : ∃ block, ∃ p₃ : Program, (blockCopy site).run.run p₂ = (.ok block, p₃) ∧ Undisturbed p₂ p₃ := by
    unfold blockCopy
    cases site.call.block with
    | none => exact ⟨none, p₂, rfl, .refl p₂⟩
    | some b =>
      obtain ⟨copy, count, hcopy, -⟩ := run_copyBlock b p₂
      exact ⟨some copy, _, (Flow.run_bind_of_ok hcopy _).trans rfl, .opened p₂ count⟩
  obtain ⟨block, p₃, hblock, hp₃⟩ := hblock
  refine ⟨⟨⟨loc, p.env.notes.size⟩, obj, site.call.name, vs, block, site.call.hasParens⟩, p₃, ?_,
    (hp₁.trans hp₂).trans hp₃, hnone, fun hne => ?_, ?_, hforms⟩
  · rw [subcallFor, Flow.run_bind_of_ok (run_freshMark loc p)]
    refine (Flow.run_bind_of_ok hobj _).trans ?_
    exact (Flow.run_bind_of_ok hvs _).trans ((Flow.run_bind_of_ok hblock _).trans rfl)
  · obtain ⟨v, rfl, htype⟩ := hsome hne
    refine ⟨v, rfl, ?_⟩
    rw [(hp₂.trans hp₃).typeOf v (htype ▸ hrecv hne), htype]
  · rw [← htypes]
    refine List.map_congr_left fun v hv => hp₃.typeOf v ?_
    exact hargs _ (htypes ▸ List.mem_map_of_mem hv)

end Engine

/-- The receiver type of a call: that of its receiver, or of the object it is made in. -/
def Site.receiver (s : Site) (p : Program) : TypeId :=
  if s.obj = 0 then (p.env.scopes[s.scope]?.getD { self := 0, home := 0 }).self else p.graph.typeOf s.obj

theorem Infer.run_receiverType (s : Site) (p : Program) : (receiverType s).run.run p = (.ok (s.receiver p), p) := by
  rw [receiverType, Site.receiver]
  split <;> rfl

/-- The site at a node waits to be resolved for the first time, for some types; its arguments are variables. -/
structure Program.Waits (p : Program) (node : NodeId) (s : Site) (recv : TypeId) (args : List TypeId) : Prop where
  site : p.env.sites.get? node = some s
  node_eq : s.node = node
  key : s.key = none
  recv : s.receiver p = recv
  args : s.args.map p.graph.typeOf = args
  plain : ∀ v ∈ s.call.args, ∃ name, v.form = .localVar name false

namespace Infer

/-- A site is opened for a call of which the receiver and the arguments are typed. -/
theorem run_newSite_typed (super : Option (TypeId × String)) {call : CallParts} {s : ScopeId} {recv : TypeId}
    {args : List TypeId} (hne : ∀ t ∈ args, t ≠ 0)
    (hnone : call.obj = none → (p.env.scopes[s]?.getD { self := 0, home := 0 }).self = recv)
    (hsome : ∀ obj, call.obj = some obj → p.typeOf obj = recv ∧ recv ≠ 0)
    (hargs : call.args.map p.typeOf = args)
    (hplain : ∀ v ∈ call.args, ∃ name, v.form = .localVar name false) :
    ∃ node, ∃ site : Site, ∃ p' : Program, (newSite call s super).run.run p = (.ok node, p') ∧ p'.types = p.types ∧
      site.call = call ∧ (call.obj = none ↔ site.obj = 0) ∧ p'.Waits node site recv args := by
  obtain ⟨node, p₁, hnode, hp₁, hsites⟩ := undisturbed_nodeOf call.tree p
  have htyped : ∀ v ∈ call.args, p.typeOf v ≠ 0 := fun v hv => hne _ (hargs ▸ List.mem_map_of_mem hv)
  have htyped₁ : ∀ v ∈ call.args, p₁.typeOf v ≠ 0 := fun v hv => hp₁.typeOf v (htyped v hv) ▸ htyped v hv
  have hobj : ∃ obj, (receiverNode call.obj).run.run p₁ = (.ok obj, p₁) ∧ (call.obj = none ↔ obj = 0) ∧
      (call.obj ≠ none → p₁.graph.typeOf obj = recv) := by
    cases hcall : call.obj with
    | none => exact ⟨0, rfl, iff_of_true rfl rfl, fun h => absurd rfl h⟩
    | some obj =>
      obtain ⟨htype, hrecv⟩ := hsome obj hcall
      have htype₁ : p₁.typeOf obj = recv := (hp₁.typeOf obj (htype ▸ hrecv)).trans htype
      have hknown := Program.nodeOf_ne_zero (htype₁ ▸ hrecv)
      exact ⟨p₁.nodeOf obj, run_nodeOf_known hknown, iff_of_false (by simp) hknown, fun _ => htype₁⟩
  obtain ⟨obj, hobj, hiff, htype⟩ := hobj
  let site : Site := { call, scope := s, node, obj, args := call.args.map p₁.nodeOf, super }
  let p' : Program := { p₁ with
    graph := p₁.graph.watch node (obj :: call.args.map p₁.nodeOf)
    env := { p₁.env with sites := p₁.env.sites.set node site } }
  refine ⟨node, site, p', ?_, hp₁.types, rfl, hiff, ?_, rfl, rfl, ?_, ?_, hplain⟩
  · rw [newSite, Flow.run_bind_of_ok hnode, Flow.run_bind_of_ok hobj]
    refine (Flow.run_bind_of_ok (run_nodesOf_known fun v hv => Program.nodeOf_ne_zero (htyped₁ v hv)) _).trans ?_
    rfl
  · rw [Slots.get?_set, if_pos rfl]
  · rw [Site.receiver]
    by_cases hcall : call.obj = none
    · rw [if_pos (hiff.mp hcall), ← hnone hcall, ← hp₁.scopes]
    · rw [if_neg (mt hiff.mpr hcall)]
      exact (Graph.typeOf_watch _ _ _ _).trans (htype hcall)
  · rw [List.map_map, ← hargs]
    refine List.map_congr_left fun v hv => ?_
    exact (Graph.typeOf_watch _ _ _ _).trans (hp₁.typeOf v (htyped v hv))

end Infer

/-! ### Resolving calls over single classes -/

namespace Engine

open Infer

variable (e : Engine) {site : Site} {recv : TypeId} {args : List TypeId} {node : NodeId}

/-- The overloads of a call whose arguments stand for single classes have one match, which takes these whole. -/
theorem list_of_matchCall {owner : TypeId} {ms : Matches MethodId} (hargs : ∀ a ∈ args, Single p.types a)
    (h : (matchCall site recv args).run.run p = (.ok (owner, ms), p')) : ∃ m, ms.list = [m] ∧ m.argTypes = args := by
  obtain ⟨⟨g, receiver⟩, p₁, hlookup, h⟩ := Flow.exists_of_run_bind h
  -- looking up the overloads may add types, but the arguments stay single
  have hwidens := ((evolving_lookup _ _ _).of_run hlookup).widens
  have hargs₁ : ∀ a ∈ args, Single p₁.types a := fun a ha => (hargs a ha).of_extends hwidens.toExtends
  obtain ⟨hcover, hlist⟩ := (Overload.sees_select Table.resolveType? receiver g.candidates p₁.types hargs₁).2
  rw [Flow.run_onTypes_bind] at h
  split at h
  · rename_i hfound
    cases h
    exact hlist.resolve_left ((Matches.found_of_no_cover hcover).mp hfound)
  · exact absurd h (failing_noOverload _ _ _ _ _ _ _)

/-- **A call over single classes is resolved to one instance.** -/
theorem resolveCall_inst (hrecv : site.obj ≠ 0 → Single p.types recv) (hargs : ∀ a ∈ args, Single p.types a)
    {nodes : List NodeId} {targets : List Target}
    (h : (e.resolveCall site recv args).run.run p = (.ok (nodes, targets), p')) : ∃ i, targets = [.inst i] := by
  obtain ⟨t, p₁, htypes, h⟩ := Flow.exists_of_run_bind h
  cases htypes
  split at h
  · obtain ⟨found, p₁, -, h⟩ := Flow.exists_of_run_bind h
    split at h
    · cases h
    · obtain ⟨_, i, -, hi⟩ := callFun_targets h
      exact ⟨i, hi⟩
  · have hreceivers : (if site.obj = 0 then [recv] else p.types.concrete recv) = [recv] := by
      split
      · rfl
      · rename_i hne
        exact (hrecv hne).concrete_eq
    rw [hreceivers] at h
    obtain ⟨⟨owner, ms⟩, p₁, hmatch, h⟩ := Flow.exists_of_run_bind h
    obtain ⟨m, hlist, hwhole⟩ := list_of_matchCall hargs hmatch
    have hbranches : ms.branches args = false := by
      rw [Matches.branches, hlist]
      simp [hwhole]
    simp only [hbranches, hlist, Bool.false_eq_true, if_false] at h
    obtain ⟨i, p₂, -, h⟩ := Flow.exists_of_run_bind h
    cases h
    exact ⟨i, rfl⟩

/-! ### Opening and resolving a subcall -/

/-- Plain variables are bound to no out parameters. -/
theorem run_bindOuts_plain {lib : TypeId} {id : MethodId} {i : Nat} {params : List (Param Source)}
    {vs : List Placed} {u : Unit} (hplain : ∀ v ∈ vs, ∃ name, v.form = .localVar name false)
    (h : (e.bindOuts site lib id i params vs).run.run p = (.ok u, p')) : p' = p := by
  induction params generalizing i vs with
  | nil => cases h; rfl
  | cons param params ih =>
    cases vs with
    | nil => cases h; rfl
    | cons v vs =>
      obtain ⟨⟨name, hform⟩, hplain⟩ := List.forall_mem_cons.mp hplain
      rw [bindOuts] at h
      split at h
      · -- an out parameter would have been refused
        have htarget : (e.outTarget site v).run.run p = (.ok 0, p) := by
          rw [outTarget, hform]
          rfl
        rw [Flow.run_bind_of_ok htarget] at h
        cases h
      · exact ih hplain h

/-- What is prepared for a site whose arguments are plain variables is noted at the site. -/
theorem waits_of_prepare {u : Unit} (hp : p.Waits node site recv args)
    (h : (e.prepare site recv).run.run p = (.ok u, p')) :
    ∃ outBound, p'.Waits node { site with outBound } recv args ∧ p'.types = p.types := by
  obtain ⟨t, p₁, htypes, h⟩ := Flow.exists_of_run_bind h
  cases htypes
  split at h
  · obtain ⟨found, p₁, hfound, h⟩ := Flow.exists_of_run_bind (Flow.run_of_locating h)
    cases hfound
    split at h
    · cases h
      exact ⟨_, hp, rfl⟩
    · obtain ⟨u₁, p₁, hchange, h⟩ := Flow.exists_of_run_bind h
      cases hchange
      obtain ⟨m, p₁, hmethod, h⟩ := Flow.exists_of_run_bind h
      cases hmethod
      obtain rfl := e.run_bindOuts_plain hp.plain h
      refine ⟨true, ⟨?_, hp.node_eq, hp.key, hp.recv, hp.args, hp.plain⟩, rfl⟩
      rw [Slots.get?_modify, if_pos hp.node_eq, hp.site]
      rfl
  · cases h
    exact ⟨_, hp, rfl⟩

/-- A site that waits is resolved for the types that it waits for. -/
theorem resolveCall_of_waits (he : e.Tame) {u : Unit} (hp : p.Waits node site recv args) (hrecv : recv ≠ 0)
    (hargs : ∀ a ∈ args, a ≠ 0) (h : (e.resolveSite node).run.run p = (.ok u, p')) :
    ∃ outBound, ∃ w w' : Program, ∃ nodes targets, Evolves p w ∧ w.types = p.types ∧
      (e.resolveCall { site with outBound } recv args).run.run w = (.ok (nodes, targets), w') ∧
      Evolves w' p' := by
  have hsite : (site? node).run.run p = (.ok (some site), p) := congrArg (fun s => (Except.ok s, p)) hp.site
  rw [resolveSite, Flow.run_bind_of_ok hsite, Flow.run_bind_of_ok (run_receiverType site p), hp.recv,
    if_neg hrecv] at h
  obtain ⟨_, p₁, hprepare, h⟩ := Flow.exists_of_run_bind h
  obtain ⟨outBound, hp₁, htypes⟩ := e.waits_of_prepare hp hprepare
  have hknown : ∀ id ∈ site.args, p₁.graph.typeOf id ≠ 0 := fun id hid =>
    hargs _ (hp₁.args ▸ List.mem_map_of_mem hid)
  have hsite₁ : (site? node).run.run p₁ = (.ok (some { site with outBound }), p₁) :=
    congrArg (fun s => (Except.ok s, p₁)) hp₁.site
  have htyped : (typesOf? site.args).run.run p₁ = (.ok (some args), p₁) := by
    rw [run_typesOf? hknown, hp₁.args]
  rw [Flow.run_bind_of_ok htyped] at h
  simp only [resolveFor] at h
  have hnew : site.key ≠ some (recv :: args) := by
    rw [hp.key]
    exact nofun
  rw [Flow.run_bind_of_ok hsite₁] at h
  simp only [if_neg hnew] at h
  obtain ⟨_, w, hkey, h⟩ := Flow.exists_of_run_bind h
  obtain ⟨⟨nodes, targets⟩, w', hresolve, h⟩ := Flow.exists_of_run_bind h
  refine ⟨outBound, w, w', nodes, targets, ?_, ?_, Flow.run_of_locating hresolve, ?_⟩
  · refine ((he.prepare _ _).of_run hprepare).trans (Evolving.of_run ?_ hkey)
    exact evolving_changeSite _ fun _ => rfl
  · cases hkey
    exact htypes
  · exact (he.retarget _ _ _ _ _).of_run h

/-- What a combination asks of a subcall: its receiver stands for a single class, unless it is the object that the
call is made in. -/
def Asks (p : Program) (site : Site) (recv : TypeId) : Prop :=
  if site.obj = 0 then site.receiver p = recv ∧ recv ≠ 0 else Single p.types recv

theorem Asks.ne_zero (h : Asks p site recv) : recv ≠ 0 := by
  unfold Asks at h
  split at h
  · exact h.2
  · exact h.ne_zero

/-- A subcall is added to its dispatch, and its site waits for the types of the combination. -/
theorem waits_of_subcall (he : e.Tame) {d : Nat} {u : Unit} (hrecv : Asks p site recv) (hargs : ∀ a ∈ args, a ≠ 0)
    (h : (e.subcall site d (recv :: args)).run.run p = (.ok u, p')) :
    ∃ node, ∃ site' : Site, ∃ w w' : Program, Evolves p w ∧ w.types = p.types ∧ (site.obj = 0 → site'.obj = 0) ∧
      w.Waits node site' recv args ∧ (e.recalculate node).run.run w = (.ok (), w') ∧ Evolves w' p' ∧
      (d < p.env.dispatches.size →
        ∃ x, w.env.dispatches[d]? = some x ∧ site'.call.tree ∈ x.subcalls) := by
  obtain ⟨call, p₁, hcall, hp₁, hnone, hsome, htypes, hplain⟩ :=
    e.run_subcallFor site (fun _ => hrecv.ne_zero) hargs p
  rw [subcall, Flow.run_bind_of_ok hcall] at h
  let p₂ : Program := { p₁ with env := { p₁.env with
    dispatches := p₁.env.dispatches.modify d fun x => { x with subcalls := x.subcalls ++ [call.tree] } } }
  have hchange : (changeDispatch d fun x => { x with subcalls := x.subcalls ++ [call.tree] }).run.run p₁ =
      (.ok (), p₂) := rfl
  rw [Flow.run_bind_of_ok hchange] at h
  have hp₂ : Undisturbed p p₂ := hp₁.trans (.of_eq rfl rfl rfl rfl)
  have hself : call.obj = none → (p₂.env.scopes[site.scope]?.getD { self := 0, home := 0 }).self = recv := by
    intro hobj
    have hzero : site.obj = 0 := by
      by_contra hne
      obtain ⟨v, hv, -⟩ := hsome hne
      rw [hobj] at hv
      cases hv
    rw [Asks, if_pos hzero, Site.receiver, if_pos hzero] at hrecv
    rw [← hrecv.1, ← hp₂.scopes]
  have htyped : ∀ obj, call.obj = some obj → p₂.typeOf obj = recv ∧ recv ≠ 0 := by
    intro obj hobj
    have hne : site.obj ≠ 0 := fun hzero => by
      rw [hnone hzero] at hobj
      cases hobj
    obtain ⟨v, hv, htype⟩ := hsome hne
    obtain rfl := Option.some.inj (hobj.symm.trans hv)
    exact ⟨htype, hrecv.ne_zero⟩
  obtain ⟨node, site', w, hnew, hw, hsite', hobj', hwaits⟩ :=
    run_newSite_typed site.super hargs hself htyped htypes hplain
  rw [Flow.run_bind_of_ok hnew] at h
  obtain ⟨_, w', hresolve, h⟩ := Flow.exists_of_run_bind h
  obtain ⟨target, p₃, htarget, hconnect⟩ := Flow.exists_of_run_bind h
  have hopened : Evolves p p₁ := (he.subcallFor _ _).of_run hcall
  have hsited : Evolves p₂ w := (evolving_newSite _ _ _).of_run hnew
  refine ⟨node, site', w, w', (hopened.tail (.subcall d call.tree)).trans hsited, hw.trans hp₂.types,
    fun hzero => hobj'.mp (hnone hzero), hwaits, hresolve,
    ((evolving_dispatchNode d).of_run htarget).trans ((he.connect _ _).of_run hconnect), fun hd => ?_⟩
  obtain ⟨x, hx, -⟩ := hopened.dispatch (Array.getElem?_eq_getElem hd)
  have hx₂ : p₂.env.dispatches[d]? = some { x with subcalls := x.subcalls ++ [call.tree] } := by
    rw [Array.getElem?_modify, if_pos rfl, hx]
    rfl
  obtain ⟨y, hy, hext⟩ := hsited.dispatch hx₂
  refine ⟨y, hy, hext.subcalls.subset ?_⟩
  rw [hsite']
  exact List.mem_append_right _ List.mem_cons_self

/-- **A subcall for single classes is resolved to one instance** for them, and is one of the dispatch. -/
theorem subcall_inst {fuel d : Nat} {u : Unit} (hrecv : Asks p site recv) (hargs : ∀ a ∈ args, Single p.types a)
    (h : ((engine (fuel + 1)).subcall site d (recv :: args)).run.run p = (.ok u, p')) :
    ∃ site', ∃ w w' : Program, ∃ nodes i, Evolves p w ∧
      ((engine fuel).resolveCall site' recv args).run.run w = (.ok (nodes, [.inst i]), w') ∧ Evolves w' p' ∧
      (d < p.env.dispatches.size →
        ∃ x, p'.env.dispatches[d]? = some x ∧ site'.call.tree ∈ x.subcalls) := by
  have hargs₀ : ∀ a ∈ args, a ≠ 0 := fun a ha => (hargs a ha).ne_zero
  obtain ⟨node, site', p₁, p₂, hp₁, htypes₁, hobj, hwaits, hresolve, hp₂, hadded⟩ :=
    (engine (fuel + 1)).waits_of_subcall (engine_tame (fuel + 1)) hrecv hargs₀ h
  have hstep : (engine (fuel + 1)).recalculate node = (engine fuel).resolveSite node := rfl
  rw [hstep] at hresolve
  obtain ⟨outBound, w, w', nodes, targets, hw, htypes, hcall, hw'⟩ :=
    (engine fuel).resolveCall_of_waits (engine_tame fuel) hwaits hrecv.ne_zero hargs₀ hresolve
  have hsame : w.types = p.types := htypes.trans htypes₁
  have hinst : ∃ i, targets = [.inst i] := by
    refine (engine fuel).resolveCall_inst (fun hne => ?_) (fun a ha => ?_) hcall
    · rw [Asks, if_neg (mt hobj hne)] at hrecv
      rwa [hsame]
    · rw [hsame]
      exact hargs a ha
  obtain ⟨i, rfl⟩ := hinst
  refine ⟨_, w, w', nodes, i, hp₁.trans hw, hcall, hw'.trans hp₂, fun hd => ?_⟩
  obtain ⟨x, hx, hmem⟩ := hadded hd
  have hrest : Evolves p₁ p' := hw.trans ((((engine_tame fuel).resolveCall _ _ _).of_run hcall).trans (hw'.trans hp₂))
  obtain ⟨x', hx', hext⟩ := hrest.dispatch hx
  exact ⟨x', hx', hext.subcalls.subset hmem⟩

/-- **Single classes never branch.** Whatever the receiver, the candidates and the meaning of names, arguments that
stand for single classes have one match at most, and it takes them as they are. So a call on a single class with
such arguments that is resolved is resolved to one instance, and a subcall of a dispatch for such a combination is
resolved to one instance rather than expanded again. -/
theorem single_calls (hargs : ∀ a ∈ args, Single p.types a) :
    (∀ (ι : Type) (r : Resolver) (cs : List (Candidate ι)) (receiver : TypeId),
      let ms := ((Overload.select r cs receiver args).run p.types).1
      ms.branches args = false ∧ (ms.found = true ↔ ms.list ≠ []) ∧
        (ms.list ≠ [] → ∃ m, ms.list = [m] ∧ m.argTypes = args)) ∧
    (∀ (e : Engine) (site : Site) (recv : TypeId) (nodes : List NodeId) (targets : List Target) (p' : Program),
      (site.obj ≠ 0 → Single p.types recv) →
      (e.resolveCall site recv args).run.run p = (.ok (nodes, targets), p') → ∃ i, targets = [.inst i]) ∧
    ∀ (fuel : Nat) (site : Site) (recv : TypeId) (d : Nat) (p' : Program), Asks p site recv →
      ((engine (fuel + 1)).subcall site d (recv :: args)).run.run p = (.ok (), p') →
      ∃ site', ∃ w w' : Program, ∃ nodes i, Evolves p w ∧
        ((engine fuel).resolveCall site' recv args).run.run w = (.ok (nodes, [.inst i]), w') ∧ Evolves w' p' ∧
        (d < p.env.dispatches.size →
          ∃ x, p'.env.dispatches[d]? = some x ∧ site'.call.tree ∈ x.subcalls) := by
  refine ⟨fun ι r cs receiver => ?_, fun e site recv nodes targets p' hrecv h => e.resolveCall_inst hrecv hargs h,
    fun fuel site recv d p' hrecv h => subcall_inst hrecv hargs h⟩
  obtain ⟨hcover, hlist⟩ := (Overload.sees_select r receiver cs p.types hargs).2
  refine ⟨?_, Matches.found_of_no_cover hcover, hlist.resolve_left⟩
  rcases hlist with hnone | ⟨m, hone, hwhole⟩
  · simp [Matches.branches, hnone]
  · simp [Matches.branches, hone, hwhole]

/-- Declares a generic class 15 with the instance 17 for truth values, and a class 16 with a method that asks for such
an instance and a value of its type argument; a dispatch is opened. -/
def storage : Infer Unit := do
  let box ← Flow.onTypes (Table.defineClass "Box" Builtin.object ["T"])
  let depot ← Flow.onTypes (Table.defineClass "Depot" Builtin.object [])
  let _ ← Flow.onTypes (Table.instantiate box [Builtin.bool])
  let _ ← register
    { definition :=
        { name := "store"
          params := [⟨"box", some (.named ["Box"] [TypeExpr.ofName "T"]), none, false⟩,
            ⟨"value", some (TypeExpr.ofName "T"), none, false⟩] }
      kind := .getter Builtin.nil
      owner := depot }
  discard (openDispatch 2 "store")

/-- The program with these declarations. -/
def stored : Program :=
  (storage.run.run (Program.initial .none)).2

/-- A call of the method on the node 3 with two arguments. -/
def storing : Site :=
  { call := ⟨⟨none, 0⟩, none, "store", [], none, true⟩, scope := 0, node := 2, obj := 3, args := [4, 5] }

/-- The type variable of the method is bound by the type argument, and the call and a subcall for the same types are
resolved to one instance each. -/
theorem single_calls_stored : (∀ a ∈ [17, Builtin.bool], Single stored.types a) ∧
    (∃ m, ((Overload.select Table.resolveType? (stored.env.groups.toList.flatMap Group.candidates) 16
      [17, Builtin.bool]).run stored.types).1.list = [m] ∧ m.argTypes = [17, Builtin.bool]) ∧
    (∃ nodes i p', ((engine 3).resolveCall storing 16 [17, Builtin.bool]).run.run stored =
      (.ok (nodes, [.inst i]), p')) ∧
    ∃ p' : Program, ∃ x, ((engine 3).subcall storing 0 [16, 17, Builtin.bool]).run.run stored = (.ok (), p') ∧
      p'.env.dispatches[0]? = some x ∧ x.subcalls ≠ [] := by
  have hplain : ∀ a ∈ [16, 17, Builtin.bool], a ≠ 0 ∧ a < stored.types.size ∧
      Overload.isSeveral stored.types a = false := by decide +kernel
  have hsingle : ∀ a ∈ [16, 17, Builtin.bool], Single stored.types a := by
    intro a ha
    obtain ⟨hne, hlt, hnot⟩ := hplain a ha
    refine ⟨hne, hlt, fun ms hms => ?_, fun base hbase => ?_⟩
    · exact absurd (Overload.isSeveral_iff.mpr (.inl ⟨ms, hms⟩)) (by simp [hnot])
    · exact absurd (Overload.isSeveral_iff.mpr (.inr ⟨base, hbase⟩)) (by simp [hnot])
  obtain ⟨hrecv, hargs⟩ := List.forall_mem_cons.mp hsingle
  obtain ⟨hselect, hresolve, hsubcall⟩ := single_calls hargs
  refine ⟨hargs, ?_, ?_, ?_⟩
  · exact (hselect _ _ _ _).2.2 (by decide +kernel)
  · have hok : (((engine 3).resolveCall storing 16 [17, Builtin.bool]).run.run stored).1.toOption.isSome := by
      decide +kernel
    obtain ⟨⟨nodes, targets⟩, hok⟩ := Option.isSome_iff_exists.mp hok
    have hrun := Flow.run_of_toOption hok
    obtain ⟨i, rfl⟩ := hresolve _ _ _ _ _ _ (fun _ => hrecv) hrun
    exact ⟨nodes, i, _, hrun⟩
  · have hok : (((engine 3).subcall storing 0 [16, 17, Builtin.bool]).run.run stored).1.toOption.isSome := by
      decide +kernel
    obtain ⟨u, hok⟩ := Option.isSome_iff_exists.mp hok
    have hrun := Flow.run_of_toOption hok
    obtain ⟨site', w, w', nodes, i, -, -, -, hadded⟩ := hsubcall 2 storing 16 0 _ hrecv hrun
    obtain ⟨x, hx, hmem⟩ := hadded (by decide +kernel)
    exact ⟨_, x, hrun, hx, List.ne_nil_of_mem hmem⟩

end Engine

end TypeFlow
