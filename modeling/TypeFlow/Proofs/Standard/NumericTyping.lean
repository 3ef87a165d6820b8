import TypeFlow.Inference.Program
import TypeFlow.Proofs.Inference.Evolution
import TypeFlow.Proofs.Settings.Promotion
import TypeFlow.Proofs.Standard.NumericCalls

/-!
# The numeric tower as programs see it

A call waits until its receiver and its arguments are typed. Then its site is resolved, the call depends on the result
of one instance, and takes its type from there (`Engine.run_call_operation`). So what a kind offers is what calls
on it get: `Standard.numeric_tower` says this of a tower that was accepted and declared, for all of its kinds, together
with the laws of the promotion.

Two conditions come from the names of the kinds, which the check only compares with each other. Results are looked
up by name from inside the receiver, so no kind may hide `Bool` or another kind from it (`NumericTower.Clear`), and
conversions are named after the kind in lower case. `NumericTower.clashing_kinds` has the towers that show why.
-/

namespace TypeFlow

/-! ### Types of nodes -/

/-- A primitive alone is what it joins to. -/
theorem Table.run_merge_primitive {t : Table} {id : TypeId} {e : PrimitiveEntry} (h : t.get? id = some (.primitive e)) :
    (merge [id]).run t = (id, t) := by
  have hmembers : t.members id = [id] := by
    rw [members, h]
    exact if_neg (by simp [(Single.of_primitive h).ne_zero])
  have hflatten : t.flatten [id] = [id] := by
    rcases eq_or_ne id Builtin.noReturn with rfl | hid
    · simp [flatten, hmembers, sortedUnique, dropEqual]
    · simp [flatten, hmembers, hid, sortedUnique, insertSorted, dropEqual]
  have hcombine : (combine [id]).run t = ([id], t) := by
    have hfamilies : t.families [id] ([], []) = ([id], []) := by simp [families, combinable?, h]
    rw [combine, Table.run_get_bind, hfamilies]
    rfl
  rw [merge, Table.run_get_bind, hflatten]
  simp only [Table.run_bind, hcombine]
  rfl

/-- Who watches leaves everything else about the nodes alone. -/
theorem Graph.get?_watch_of_not_mem {g : Graph} {id x : NodeId} {watched : List NodeId} (hx : x ∉ watched) :
    (g.watch id watched).get? x = g.get? x := by
  induction watched generalizing g with
  | nil => rfl
  | cons y watched ih =>
    refine (ih (List.not_mem_of_not_mem_cons hx)).trans ?_
    rw [get?_modify, if_neg (List.ne_of_not_mem_cons hx)]

theorem Graph.typeOf_watch (g : Graph) (id : NodeId) (watched : List NodeId) (x : NodeId) :
    (g.watch id watched).typeOf x = g.typeOf x := by
  rw [Graph.typeOf_eq, Graph.typeOf_eq, (watch_watches g id watched).map_eq Node.type fun _ => rfl]

/-- A new node that is made to depend on one node of primitive type gets that type. -/
theorem Flow.run_dependOn_new {κ : Type} (h : Hooks κ) {w : World κ} {id dep : NodeId} {label : String}
    {e : PrimitiveEntry} (hn : w.graph.get? id = some { label }) (hne : dep ≠ id)
    (he : w.types.get? (w.graph.typeOf dep) = some (.primitive e)) :
    ∃ graph, (dependOn h id [dep]).run.run w = (.ok (), { w with graph }) ∧
      graph.typeOf id = w.graph.typeOf dep ∧ ∀ x, x ≠ id → graph.typeOf x = w.graph.typeOf x := by
  have hknown : w.graph.typeOf dep ≠ 0 := (Table.Single.of_primitive he).ne_zero
  obtain ⟨d, hd, -⟩ := Graph.exists_of_typeOf hknown
  have hdep : dep ≠ 0 := by
    rintro rfl
    cases hd
  let g : Graph := (w.graph.addDep id dep).2
  have hadd : w.graph.addDeps id [dep] = (true, g) := by
    simp [Graph.addDeps, g, Graph.addDep, hn, hdep, hne]
  have hg : ∀ x, g.get? x = if x = dep then some { d with observers := d.observers ++ [⟨id, .update⟩] }
      else if x = id then some { label, deps := [dep] } else w.graph.get? x := by
    intro x
    have hcond : ¬ (dep = 0 ∨ dep = id ∨ dep ∈ ([] : List NodeId)) := by simp [hdep, hne]
    simp only [g, Graph.addDep, hn, if_neg hcond, Graph.get?_modify]
    split
    · rename_i hx
      rw [if_neg (hx ▸ hne), hx, hd]
      rfl
    · split
      · rename_i hx
        rw [hx, hn]
        rfl
      · rfl
  have htypes : ∀ x, g.typeOf x = w.graph.typeOf x := by
    intro x
    have hx := hg x
    split at hx
    · rename_i heq
      rw [Graph.typeOf_of_get? hx, heq, Graph.typeOf_of_get? hd]
    · split at hx
      · rename_i heq
        rw [Graph.typeOf_of_get? hx, heq, Graph.typeOf_of_get? hn]
      · rw [Graph.typeOf, hx, Graph.typeOf]
  have hself : g.get? id = some { label, deps := [dep] } := by
    rw [hg, if_neg (Ne.symm hne), if_pos rfl]
  let w' : World κ := { w with graph := g }
  have hevaluate : evaluate h w' { label, deps := [dep] } = (w.graph.typeOf dep, w.types) := by
    have hmerge : (Table.merge [g.typeOf dep]).run w.types = (w.graph.typeOf dep, w.types) := by
      rw [htypes, Table.run_merge_primitive he]
    simp only [evaluate, List.map_cons, List.map_nil, hmerge, w', if_neg hknown]
    rfl
  have hrecompute : (recompute h id).run.run w' =
      (.ok true, { w with graph := g.retype id (w.graph.typeOf dep) }) := by
    rw [recompute_eq (w := w') hself (by simp), settle_eq, hevaluate]
    simp [hknown, w', writeSlot]
  have hpropagate : (propagate h id).run.run { w with graph := g.retype id (w.graph.typeOf dep) } =
      (.ok (), { w with graph := g.retype id (w.graph.typeOf dep) }) := by
    refine run_propagate_unobserved h (n := { label, deps := [dep], type := w.graph.typeOf dep }) ?_ rfl
    rw [Graph.retype, Graph.get?_modify, if_pos rfl, hself]
    rfl
  refine ⟨g.retype id (w.graph.typeOf dep), ?_, ?_, fun x hx => ?_⟩
  · have hdeps : (onGraph (·.addDeps id [dep]) : Flow κ Bool).run.run w = (.ok true, w') := by
      change (Except.ok (w.graph.addDeps id [dep]).1, { w with graph := (w.graph.addDeps id [dep]).2 }) = _
      rw [hadd]
    rw [dependOn, run_bind_of_ok hdeps]
    exact (run_bind_of_ok hrecompute _).trans hpropagate
  · rw [Graph.typeOf, Graph.retype, Graph.get?_modify, if_pos rfl, hself]
    rfl
  · rw [← htypes x, Graph.typeOf, Graph.retype, Graph.get?_modify, if_neg hx, Graph.typeOf]

/-! ### Typing a call -/

namespace Program

variable {p : Program}

/-- The node that was recorded for an occurrence; zero if there is none. -/
def nodeOf (p : Program) (t : Placed) : NodeId :=
  (p.env.note t.mark.occ).node

/-- A call without block of which the receiver and the arguments were typed, and which has a new node itself. -/
structure Awaits (p : Program) (call : CallParts) (recv : TypeId) (args : List TypeId) : Prop where
  obj : ∃ obj, call.obj = some obj ∧ p.typeOf obj = recv
  args : call.args.map p.typeOf = args
  block : call.block = none
  node : p.graph.get? (p.nodeOf call.tree) = some { label := call.tree.label }

end Program

namespace Infer

variable {p : Program}

theorem run_nodeOf_known {t : Placed} (h : p.nodeOf t ≠ 0) : (nodeOf t).run.run p = (.ok (p.nodeOf t), p) := by
  have hnote : (note t.mark.occ).run.run p = (.ok (p.env.note t.mark.occ), p) := rfl
  rw [nodeOf, Flow.run_bind_of_ok hnote]
  exact congrArg (fun m : Infer NodeId => m.run.run p) (if_pos h)

theorem run_nodesOf_known {ts : List Placed} (h : ∀ t ∈ ts, p.nodeOf t ≠ 0) :
    (nodesOf ts).run.run p = (.ok (ts.map p.nodeOf), p) := by
  induction ts with
  | nil => rfl
  | cons t ts ih =>
    obtain ⟨ht, hts⟩ := List.forall_mem_cons.mp h
    exact (Flow.run_bind_of_ok (run_nodeOf_known ht) _).trans ((Flow.run_bind_of_ok (ih hts) _).trans rfl)

theorem run_typesOf? {ids : List NodeId} (h : ∀ id ∈ ids, p.graph.typeOf id ≠ 0) :
    (typesOf? ids).run.run p = (.ok (some (ids.map p.graph.typeOf)), p) := by
  induction ids with
  | nil => rfl
  | cons id ids ih =>
    obtain ⟨hid, hids⟩ := List.forall_mem_cons.mp h
    have htype : (Flow.typeOf id : Infer TypeId).run.run p = (.ok (p.graph.typeOf id), p) := rfl
    rw [typesOf?, Flow.run_bind_of_ok htype, if_neg hid]
    exact (Flow.run_bind_of_ok (ih hids) _).trans rfl

/-- A site is opened for a call whose parts have nodes. -/
theorem run_newSite {call : CallParts} {obj : Placed} (hobj : call.obj = some obj) (hnode : p.nodeOf call.tree ≠ 0)
    (hrecv : p.nodeOf obj ≠ 0) (hargs : ∀ t ∈ call.args, p.nodeOf t ≠ 0) (s : ScopeId) :
    (newSite call s none).run.run p = (.ok (p.nodeOf call.tree),
      { p with
        graph := p.graph.watch (p.nodeOf call.tree) (p.nodeOf obj :: call.args.map p.nodeOf)
        env.sites := p.env.sites.set (p.nodeOf call.tree)
          { call, scope := s, node := p.nodeOf call.tree, obj := p.nodeOf obj, args := call.args.map p.nodeOf } }) := by
  have hreceiver : (receiverNode call.obj).run.run p = (.ok (p.nodeOf obj), p) := by
    rw [hobj]
    exact run_nodeOf_known hrecv
  rw [newSite, Flow.run_bind_of_ok (run_nodeOf_known hnode), Flow.run_bind_of_ok hreceiver]
  exact (Flow.run_bind_of_ok (run_nodesOf_known hargs) _).trans rfl

end Infer

namespace Engine

open Program (Beside Spares)

variable (e : Engine) {p : Program} {node : NodeId} {site : Site} {label : String}

/-- A call without targets gets the type of its first one. -/
theorem run_retarget_new (hsite : p.env.sites.get? node = some site) (htargets : site.targets = [])
    (hnode : p.graph.get? node = some { label }) {dep : NodeId} (hne : dep ≠ node) {entry : PrimitiveEntry}
    (hentry : p.types.get? (p.graph.typeOf dep) = some (.primitive entry)) (loc : Option Location) (occ : Nat)
    (targets : List Target) :
    ∃ p', (e.retarget node loc occ [dep] targets).run.run p = (.ok (), p') ∧ Beside p p' ∧
      p'.graph.typeOf node = p.graph.typeOf dep := by
  have hfound : (Infer.site? node).run.run p = (.ok (some site), p) := by
    rw [Infer.site?, Infer.run_env_bind, hsite]
    rfl
  let w : Program := { p with
    env := Env.changeNote { p.env with sites := p.env.sites.modify node fun s => { s with targets := [dep] } } occ
      fun n => { n with targets } }
  obtain ⟨graph, hdepend, htype, hothers⟩ := Flow.run_dependOn_new e.hooks (w := w) hnode hne hentry
  refine ⟨{ w with graph }, ?_, .of_eq rfl rfl (fun x hx => ?_) rfl rfl, htype⟩
  · refine (Flow.run_bind_of_ok hfound _).trans ?_
    simp only [Option.map_some, Option.getD_some, htargets]
    exact Flow.run_locating_of_ok loc hdepend
  · refine hothers x ?_
    rintro rfl
    exact hx (Graph.typeOf_of_get? hnode)

variable {n : NumericTower} {id : String → TypeId} {l : String} {o : Operation} (hn : n.Valid) (hl : l ∈ n.names)
  (ho : o ∈ n.operationsAt l)
  (hsettled : ∀ o' ∈ n.operationsAt l, o'.key = o.key → o'.takes = o.takes → o'.result = o.result)

include hn hl ho hsettled

/-- The first time that a call of an operation is resolved, it gets the type of the operation. -/
theorem run_resolveFor_operation (h : p.Serves n id l) (hsite : p.env.sites.get? node = some site)
    (hkey : site.key = none) (htargets : site.targets = []) (hnode : p.graph.get? node = some { label })
    (hobj : site.obj ≠ 0) (hsuper : site.super = none) (hblock : site.call.block = none)
    (hname : site.call.name = o.name) (hdepth : p.env.depth < maxDepth) :
    ∃ p', (e.resolveFor node (id l) (o.takes.map id)).run.run p = (.ok (), p') ∧ Beside p p' ∧
      p'.graph.typeOf node = id o.result := by
  have hfound : (Infer.site? node).run.run p = (.ok (some site), p) := by
    rw [Infer.site?, Infer.run_env_bind, hsite]
    rfl
  let key := some (id l :: o.takes.map id)
  let w : Program := { p with env := { p.env with sites := p.env.sites.modify node fun s => { s with key } } }
  have hopened : Beside p w := .of_eq rfl rfl (fun _ _ => rfl) rfl rfl
  obtain ⟨i, a, q, hresolve, hbeside, hspares, htype⟩ :=
    e.run_resolveCall_operation hn (h.of_beside hopened) hl ho hsettled hobj hsuper hblock hname hdepth
  have hsite' : q.env.sites.get? node = some { site with key } := by
    rw [hspares.sites, Slots.get?_modify, if_pos rfl, hsite]
    rfl
  have hnode' : q.graph.get? node = some { label } := hspares.nodes node _ hnode
  obtain ⟨entry, hentry⟩ :=
    (h.of_beside (hopened.trans hbeside)).primitive o.result (NumericTower.known_operationsAt hn hl ho).2
  have hne : a.result ≠ node := by
    intro heq
    have hnone : q.graph.typeOf a.result = 0 := heq ▸ Graph.typeOf_of_get? hnode'
    exact (Table.Single.of_primitive hentry).ne_zero (htype.symm.trans hnone)
  rw [← htype] at hentry
  obtain ⟨p', hretarget, hbeside', htype'⟩ := e.run_retarget_new hsite' htargets hnode' hne hentry site.call.mark.loc
    site.call.mark.occ [.inst i]
  refine ⟨p', ?_, (hopened.trans hbeside).trans hbeside', htype'.trans htype⟩
  have hchange : (Infer.changeSite node fun s => { s with key }).run.run p = (.ok (), w) := rfl
  refine (Flow.run_bind_of_ok hfound _).trans ?_
  simp only [hkey, reduceCtorEq, if_false]
  refine (Flow.run_bind_of_ok hchange _).trans ?_
  exact (Flow.run_bind_of_ok (Flow.run_locating_of_ok _ hresolve) _).trans hretarget

/-- **A call of an operation is typed by the operation** once its receiver and its arguments are. -/
theorem run_call_operation (h : p.Serves n id l) {call : CallParts}
    (hcall : p.Awaits call (id l) (o.takes.map id)) (hname : call.name = o.name) (hdepth : p.env.depth < maxDepth)
    (s : ScopeId) (fuel : Nat) :
    ∃ p', (do
        let node ← Infer.newSite call s none
        TypeFlow.recalculate (fuel + 1) node : Infer Unit).run.run p = (.ok (), p') ∧ Beside p p' ∧
      p'.graph.typeOf (p.nodeOf call.tree) = id o.result := by
  obtain ⟨⟨obj, hobj, hrecv⟩, hargs, hblock, hnode⟩ := hcall
  obtain ⟨entry, hentry⟩ := h.primitive l (List.mem_cons_of_mem _ hl)
  have hknown : ∀ t, p.typeOf t ≠ 0 → p.nodeOf t ≠ 0 := by
    intro t ht h0
    have hzero : p.graph.typeOf (p.nodeOf t) = 0 := by rw [h0, Graph.typeOf, Graph.get?_zero]
    exact ht hzero
  have hrecv' : p.typeOf obj ≠ 0 := hrecv ▸ (Table.Single.of_primitive hentry).ne_zero
  have hargs' : ∀ t ∈ call.args, p.typeOf t ≠ 0 := by
    intro t ht
    have hmem : p.typeOf t ∈ o.takes.map id := hargs ▸ List.mem_map_of_mem ht
    obtain ⟨x, hx, hid⟩ := List.mem_map.mp hmem
    obtain ⟨arg, harg⟩ := h.primitive x (List.mem_cons_of_mem _ ((NumericTower.known_operationsAt hn hl ho).1 x hx))
    exact hid ▸ (Table.Single.of_primitive harg).ne_zero
  have hself : p.nodeOf call.tree ≠ 0 := by
    intro h0
    rw [h0] at hnode
    cases hnode
  let node := p.nodeOf call.tree
  let watched := p.nodeOf obj :: call.args.map p.nodeOf
  let site : Site := { call, scope := s, node, obj := p.nodeOf obj, args := call.args.map p.nodeOf }
  let w : Program :=
    { p with graph := p.graph.watch node watched, env := { p.env with sites := p.env.sites.set node site } }
  have hopen : (Infer.newSite call s none).run.run p = (.ok node, w) :=
    Infer.run_newSite hobj hself (hknown obj hrecv') (fun t ht => hknown t (hargs' t ht)) s
  have htypes : ∀ x, w.graph.typeOf x = p.graph.typeOf x := p.graph.typeOf_watch node watched
  have hopened : Beside p w := .of_eq rfl rfl (fun x _ => htypes x) rfl rfl
  -- the node of the call has no type yet, so it is none of those that are watched
  have hfresh : node ∉ watched := by
    have huntyped : ∀ t, p.nodeOf t = node → p.typeOf t = 0 := fun t ht =>
      (congrArg p.graph.typeOf ht).trans (Graph.typeOf_of_get? hnode)
    intro hmem
    rcases List.mem_cons.mp hmem with heq | hmem
    · exact hrecv' (huntyped obj heq.symm)
    · obtain ⟨t, ht, heq⟩ := List.mem_map.mp hmem
      exact hargs' t ht (huntyped t heq)
  have hnode' : w.graph.get? node = some { label := call.tree.label } :=
    (Graph.get?_watch_of_not_mem hfresh).trans hnode
  have hsite : w.env.sites.get? node = some site := by rw [Slots.get?_set, if_pos rfl]
  obtain ⟨p', hresolve, hbeside, htype⟩ := (engine fuel).run_resolveFor_operation hn hl ho hsettled
    (h.of_beside hopened) hsite rfl rfl hnode' (hknown obj hrecv') rfl hblock hname hdepth
  refine ⟨p', (Flow.run_bind_of_ok hopen _).trans ?_, hopened.trans hbeside, htype⟩
  have hfound : (Infer.site? node).run.run w = (.ok (some site), w) := by
    rw [Infer.site?, Infer.run_env_bind, hsite]
    rfl
  have hreceiver : (Infer.receiverType site).run.run w = (.ok (id l), w) := by
    have htype : w.graph.typeOf (p.nodeOf obj) = id l := (htypes _).trans hrecv
    rw [← htype, Infer.receiverType, if_neg (hknown obj hrecv')]
    rfl
  have hprepare : ((engine fuel).prepare site (id l)).run.run w = (.ok (), w) := by
    have hforeign : isForeign w.types site (id l) = false := by
      rw [isForeign, Table.kind?_primitive (show w.types.get? (id l) = _ from hentry)]
      exact Bool.and_false _
    rw [prepare, Flow.run_types_bind, hforeign]
    rfl
  have hargTypes : (Infer.typesOf? site.args).run.run w = (.ok (some (o.takes.map id)), w) := by
    have hmap : site.args.map w.graph.typeOf = o.takes.map id := by
      rw [← hargs, List.map_map]
      exact List.map_congr_left fun t _ => htypes _
    rw [← hmap]
    refine Infer.run_typesOf? fun x hx => ?_
    obtain ⟨t, ht, rfl⟩ := List.mem_map.mp hx
    rw [htypes]
    exact hargs' t ht
  have hstep : TypeFlow.recalculate (fuel + 1) node = (engine fuel).resolveSite node := rfl
  rw [hstep]
  refine (Flow.run_bind_of_ok hfound _).trans ?_
  refine (Flow.run_bind_of_ok hreceiver _).trans ?_
  rw [if_neg (Table.Single.of_primitive hentry).ne_zero]
  refine (Flow.run_bind_of_ok hprepare _).trans ?_
  exact (Flow.run_bind_of_ok hargTypes _).trans hresolve

end Engine

/-! ### Which operations share a name -/

/-- No comparison is an arithmetic operator. -/
theorem Standard.not_mem_comparisons : ∀ op ∈ arithmetic, op ∉ comparisons := by decide

namespace NumericTower

variable {n : NumericTower} {l r : String}

/-- An arithmetic operation with a kind is the only one on file for it. -/
theorem settled_arithmetic {op : String} (hop : op ∈ Standard.arithmetic) {o : Operation} (ho : o ∈ n.operationsAt l)
    (hkey : o.key = Operation.key ⟨op, [r], n.promote l r⟩) (htakes : o.takes = [r]) : o.result = n.promote l r := by
  obtain ⟨a, -, ⟨op', -, rfl⟩ | ⟨op', hop', rfl⟩ | rfl⟩ := mem_operationsAt.mp ho
  · rw [List.singleton_inj.mp htakes]
  · obtain rfl : op' = op := congrArg GroupKey.name hkey
    exact absurd hop' (Standard.not_mem_comparisons _ hop)
  · cases htakes

/-- A comparison with a kind is the only one on file for it. -/
theorem settled_comparison {op : String} (hop : op ∈ Standard.comparisons) {o : Operation} (ho : o ∈ n.operationsAt l)
    (hkey : o.key = Operation.key ⟨op, [r], "Bool"⟩) (htakes : o.takes = [r]) : o.result = "Bool" := by
  obtain ⟨a, -, ⟨op', hop', rfl⟩ | ⟨op', -, rfl⟩ | rfl⟩ := mem_operationsAt.mp ho
  · obtain rfl : op' = op := congrArg GroupKey.name hkey
    exact absurd hop (Standard.not_mem_comparisons _ hop')
  · rfl
  · cases htakes

/-- A conversion is the only one on file under its name if no other kind has this name in lower case. -/
theorem settled_conversion (hlower : ∀ a ∈ n.names, Text.lower a = Text.lower r → a = r) {o : Operation}
    (ho : o ∈ n.operationsAt l) (hkey : o.key = Operation.key ⟨"to_" ++ Text.lower r, [], r⟩) (htakes : o.takes = []) :
    o.result = r := by
  obtain ⟨a, ha, ⟨op', -, rfl⟩ | ⟨op', -, rfl⟩ | rfl⟩ := mem_operationsAt.mp ho
  · cases htakes
  · cases htakes
  · refine hlower a ha ?_
    have hname : "to_" ++ Text.lower a = "to_" ++ Text.lower r := congrArg GroupKey.name hkey
    simpa [← String.toList_inj] using hname

end NumericTower

/-- Whenever the receiver and the arguments of a call by a name were typed as given, typing the call succeeds with a
type `out`. This goes for calls that nest less deep than calls may. -/
def Program.CallsAs (p : Program) (name : String) (recv : TypeId) (args : List TypeId) (out : TypeId) : Prop :=
  ∀ (call : CallParts) (s : ScopeId) (fuel : Nat) (p₀ : Program),
    ((engine (fuel + 1)).visitOption s call.obj >>= fun _ =>
      (engine (fuel + 1)).visitAll s call.args).run.run p₀ = (.ok (), p) →
    p.Awaits call recv args → call.name = name → p.env.depth < maxDepth →
    ∃ p', ((engine (fuel + 1)).visitPlainCall s call).run.run p₀ = (.ok (), p') ∧ Beside p p' ∧
      p'.graph.typeOf (p.nodeOf call.tree) = out

/-- What a kind offers can be called. -/
theorem Program.Serves.callsAs {p : Program} {n : NumericTower} {id : String → TypeId} {l : String} {o : Operation}
    (h : p.Serves n id l) (hn : n.Valid) (hl : l ∈ n.names) (ho : o ∈ n.operationsAt l)
    (hsettled : ∀ o' ∈ n.operationsAt l, o'.key = o.key → o'.takes = o.takes → o'.result = o.result) :
    p.CallsAs o.name (id l) (o.takes.map id) (id o.result) := by
  intro call s fuel p₀ hparts hcall hname hdepth
  obtain ⟨p', hrun, hbeside, htype⟩ := Engine.run_call_operation hn hl ho hsettled h hcall hname hdepth s fuel
  refine ⟨p', ?_, hbeside, htype⟩
  have hplain : (engine (fuel + 1)).visitPlainCall s call =
      ((engine (fuel + 1)).visitOption s call.obj >>= fun _ => (engine (fuel + 1)).visitAll s call.args) >>=
        fun _ => Infer.newSite call s none >>= fun node => recalculate (fuel + 1) node := by
    rw [bind_assoc]
    rfl
  rw [hplain]
  exact (Flow.run_bind_of_ok hparts _).trans hrun

/-- **The tower that was configured is what programs see.** -/
theorem Standard.numeric_tower {n : NumericTower} {x : Expander} {p : Program} (hvalid : n.validate = .ok ())
    (hrun : (defineNumeric n).run.run (Program.initial x) = (.ok (), p)) :
    (∀ l ∈ n.names, ∀ r ∈ n.names, n.promote l r ∈ n.names) ∧
    (∀ l ∈ n.names, n.Clear l → p.Serves n p.types.named l) ∧
    (∀ (q : Program) (l : String), l ∈ n.names → q.Serves n p.types.named l → ∀ r ∈ n.names,
      (∀ op ∈ arithmetic, q.CallsAs op (p.types.named l) [p.types.named r] (p.types.named (n.promote l r))) ∧
      (∀ op ∈ comparisons, q.CallsAs op (p.types.named l) [p.types.named r] (p.types.named "Bool")) ∧
      ((∀ a ∈ n.names, Text.lower a = Text.lower r → a = r) →
        q.CallsAs ("to_" ++ Text.lower r) (p.types.named l) [] (p.types.named r))) ∧
    (n.promotions = [] → ∀ l ∈ n.kinds, ∀ r ∈ n.kinds, ∃ k ∈ n.kinds, n.promote l.name r.name = k.name ∧
      (k = l ∨ k = r) ∧ (k.float = true ↔ l.float = true ∨ r.float = true) ∧
      (∀ a, a = l ∨ a = r → a.float = k.float → a.size ≤ k.size) ∧
      ∀ m ∈ n.kinds, n.promote (n.promote l.name r.name) m.name = n.promote l.name (n.promote r.name m.name)) := by
  have hn := NumericTower.valid_of_validate hvalid
  refine ⟨fun l hl r hr => hn.promote_mem hl hr, fun l hl hclear => ?_, fun q l hl hq r hr => ⟨fun op hop => ?_,
    fun op hop => ?_, fun hlower => ?_⟩, fun hnone l hl r hr => ?_⟩
  · obtain ⟨k, hk, rfl⟩ := List.mem_map.mp hl
    exact serves_defineNumeric hn hrun hk hclear
  · exact hq.callsAs hn hl (o := ⟨op, [r], n.promote l r⟩)
      (NumericTower.mem_operationsAt.mpr ⟨r, hr, .inl ⟨op, hop, rfl⟩⟩)
      fun o ho hkey htakes => NumericTower.settled_arithmetic hop ho hkey htakes
  · exact hq.callsAs hn hl (o := ⟨op, [r], "Bool"⟩)
      (NumericTower.mem_operationsAt.mpr ⟨r, hr, .inr (.inl ⟨op, hop, rfl⟩)⟩)
      fun o ho hkey htakes => NumericTower.settled_comparison hop ho hkey htakes
  · exact hq.callsAs hn hl (o := ⟨"to_" ++ Text.lower r, [], r⟩)
      (NumericTower.mem_operationsAt.mpr ⟨r, hr, .inr (.inr rfl)⟩)
      fun o ho hkey htakes => NumericTower.settled_conversion hlower ho hkey htakes
  · refine ⟨l.wider r, NumericTower.Valid.wider_mem hl hr, hn.promote_name hnone hl hr, NumericKind.wider_eq_or l r, ?_,
      fun a ha => NumericKind.size_le_wider ha, fun m hm => hn.promote_assoc hnone hl hr hm⟩
    rw [NumericKind.float_wider, Bool.or_eq_true]

/-! ### Small towers -/

namespace NumericTower

/-- The program after a tower was declared and a tree was typed. -/
def typed (n : NumericTower) (t : Source) : Program :=
  ((Standard.defineNumeric n >>= fun _ => Program.infer t).run.run (Program.initial .none)).2

/-- The names of the types of the trees that were typed. -/
def rootTypes (p : Program) : List String :=
  p.env.roots.map fun t => p.types.name (p.typeOf t)

/-- A literal of a kind. -/
def one (kind : String) : Source :=
  .node none (.intLiteral "1" kind)

/-- A call on a literal of a kind. -/
def calling (kind name : String) (args : List Source) : Source :=
  .node none (.call (some (one kind)) name (some args) none true)

/-- An integer kind and a wider float kind. -/
def mixed : NumericTower :=
  { kinds := [{ name := "Num", size := 4, signed := true }, { name := "Real", size := 8, float := true, signed := true }]
    intLiteral := "Num", floatLiteral := "Real" }

/-- The kinds of this tower offer each other's operations, and this is what calls on literals get. -/
theorem calls_mixed : ∃ p : Program,
    (Standard.defineNumeric mixed).run.run (Program.initial .none) = (.ok (), p) ∧
    mixed.promote "Num" "Real" ∈ mixed.names ∧ p.Serves mixed p.types.named "Num" ∧
    p.CallsAs "+" (p.types.named "Num") [p.types.named "Real"] (p.types.named "Real") ∧
    rootTypes (mixed.typed (calling "Num" "+" [one "Real"])) = ["Real"] ∧
    rootTypes (mixed.typed (calling "Num" "<" [one "Real"])) = ["Bool"] ∧
    rootTypes (mixed.typed (calling "Real" "to_num" [])) = ["Num"] := by
  have hok : ((Standard.defineNumeric mixed).run.run (Program.initial .none)).1.toOption = some () := by decide +kernel
  have hrun := Flow.run_of_toOption hok
  obtain ⟨hpromote, hserves, hcalls, -⟩ := Standard.numeric_tower (by decide) hrun
  have hnum : "Num" ∈ mixed.names := by decide
  have hreal : "Real" ∈ mixed.names := by decide
  have hclear : ∀ x ∈ "Bool" :: mixed.names, "Num" ++ "::" ++ x ∉ mixed.names := by decide
  exact ⟨_, hrun, hpromote _ hnum _ hreal, hserves _ hnum hclear,
    (hcalls _ _ hnum (hserves _ hnum hclear) _ hreal).1 "+" (by decide), by decide +kernel⟩

/-- An integer kind and a wider one under another name. -/
def pair (wider : String) : NumericTower :=
  { kinds := [{ name := "Num", size := 4, signed := true }, { name := wider, size := 8, signed := true }]
    intLiteral := "Num", floatLiteral := wider }

/-- **Names that the check accepts can clash.** Of two kinds with the same name in lower case the later one takes over the
conversion, so no kind converts to the other one any more. A kind in the namespace of another one hides what it is
called after, be it `Bool`, the result of comparisons, or the other kind itself, which then does not take itself as
an argument. -/
theorem clashing_kinds :
    ((pair "NUM").validate = .ok () ∧
      ((Standard.defineNumeric (pair "NUM")).run.run (Program.initial .none)).1.toOption = some () ∧
      rootTypes ((pair "NUM").typed (calling "Num" ("to_" ++ Text.lower "Num") [])) = ["NUM"]) ∧
    ((pair "Num::Bool").validate = .ok () ∧
      ((Standard.defineNumeric (pair "Num::Bool")).run.run (Program.initial .none)).1.toOption = some () ∧
      rootTypes ((pair "Num::Bool").typed (calling "Num" "<" [one "Num"])) = ["Num::Bool"]) ∧
    ((pair "Num::Num").validate = .ok () ∧
      ((Standard.defineNumeric (pair "Num::Num")).run.run (Program.initial .none)).1.toOption = some () ∧
      rootTypes ((pair "Num::Num").typed (calling "Num" "+" [one "Num"])) = ["?"]) := by
  decide +kernel

end NumericTower

end TypeFlow
