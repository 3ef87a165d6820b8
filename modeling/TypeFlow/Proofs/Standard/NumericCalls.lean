import TypeFlow.Proofs.Flow.Wiring
import TypeFlow.Proofs.Overload.Matching
import TypeFlow.Proofs.Standard.Served

/-!
# Calls between numbers

A call on a kind with kinds as arguments, in a program in which the kind offers its operations (`Program.Serves`).
Candidates for kinds accept exactly these kinds, so of the overloads that are on file for the call one for the kinds
of its arguments is chosen (`Overload.run_select_kinds`). Its instance is either a new one, which gets the declared
result as the receiver sees it, or one that was remembered, which got it before
(`Engine.run_instantiate_operation`). No other call changes what is offered: the table, the overload groups and the
types that are known stay (`Program.Beside`).
-/

namespace TypeFlow

/-! ### Which operation is chosen -/

namespace Overload

-- the kinds that are known under `names` are primitives, do not fit each other and are seen from the owner
variable {r : Resolver} {t : Table} {owner : TypeId} {id : String → TypeId} {names : List String}
  (hprimitive : ∀ x ∈ names, ∃ e, t.get? (id x) = some (.primitive e))
  (hapart : ∀ x ∈ names, ∀ y ∈ names, t.implements (id x) (id y) = true → x = y)
  (hsees : ∀ x ∈ names, r t owner [x] = some (id x))

include hprimitive hapart hsees

/-- Restricting a kind by the name of a kind keeps it if they are the same. -/
theorem run_restrict_kind {x y : String} (hx : x ∈ names) (hy : y ∈ names) :
    ((restrict r owner (id y) (.ofName x)).run []).run t = ((if x = y then id y else 0, []), t) := by
  obtain ⟨e, he⟩ := hprimitive x hx
  obtain ⟨e', he'⟩ := hprimitive y hy
  have hrestrict : (Table.restrict (id y) (id x)).run t = (if x = y then id y else 0, t) := by
    rw [Table.restrict, Table.run_get_bind, Table.restrictUpTo, Table.run_get_bind,
      if_neg (Table.Single.of_primitive he').ne_zero]
    split
    · rename_i hsame
      rcases hsame with hzero | hsame
      · exact absurd hzero (Table.Single.of_primitive he).ne_zero
      · have hxy : x = y := by
          refine (hapart y hy x hx ?_).symm
          rw [hsame, Table.implements, Table.implementsUpTo, if_pos rfl]
        rw [if_pos hxy]
        rfl
    · rename_i hother
      have hxy : x ≠ y := fun hxy => hother (.inr (hxy ▸ rfl))
      have hfits : t.implements (id y) (id x) = false :=
        Bool.eq_false_iff.mpr fun hfits => hxy (hapart y hy x hx hfits).symm
      rw [he, he', if_neg hxy]
      simp only [hfits]
      rfl
  rw [TypeExpr.ofName, run_restrict_unbound (by simp [freeName?, Bindings.get?]), Table.run_get_bind, hsees x hx]
  simp only [Table.run_bind, hrestrict]
  rfl

/-- The arguments that parameters for kinds accept are of these kinds. -/
theorem run_restrictArgs_kinds {xs ys : List String} (hxs : ∀ x ∈ xs, x ∈ names) (hys : ∀ y ∈ ys, y ∈ names)
    (hlength : xs.length = ys.length) :
    ((restrictArgs r owner (ys.map id) (xs.map fun x => some (.ofName x))).run []).run t =
      ((if xs = ys then some (ys.map id) else none, []), t) := by
  induction ys generalizing xs with
  | nil =>
    obtain rfl := List.length_eq_zero_iff.mp hlength
    rfl
  | cons y ys ih =>
    cases xs with
    | nil => cases hlength
    | cons x xs =>
      obtain ⟨hx, hxs⟩ := List.forall_mem_cons.mp hxs
      obtain ⟨hy, hys⟩ := List.forall_mem_cons.mp hys
      obtain ⟨e, he⟩ := hprimitive y hy
      have hfirst : ((restrictParam r owner (id y) (some (.ofName x))).run []).run t =
          ((if x = y then id y else 0, []), t) := run_restrict_kind hprimitive hapart hsees hx hy
      rw [List.map_cons, List.map_cons, run_restrictArgs_cons, Table.run_bind, hfirst]
      by_cases hxy : x = y
      · rw [if_pos hxy, if_neg (Table.Single.of_primitive he).ne_zero, Table.run_bind,
          ih hxs hys (Nat.succ.inj hlength)]
        by_cases hrest : xs = ys
        · rw [if_pos hrest, if_pos (congrArg₂ List.cons hxy hrest)]
          rfl
        · rw [if_neg hrest, if_neg fun h => hrest (List.cons.inj h).2]
          rfl
      · rw [if_neg hxy, if_pos rfl, if_neg fun h => hxy (List.cons.inj h).1]
        rfl

variable {ι : Type} {cs : List (Candidate ι)} {ys : List String}

/-- **Among candidates for kinds one for the kinds of the arguments is chosen.** -/
theorem run_select_kinds (hys : ∀ y ∈ ys, y ∈ names)
    (hcs : ∀ c ∈ cs, ∃ o : Operation, c.signature = o.definition.signature owner ∧ (∀ x ∈ o.takes, x ∈ names) ∧
      o.takes.length = ys.length)
    (hsome : ∃ c ∈ cs, ∃ o : Operation, c.signature = o.definition.signature owner ∧ o.takes = ys) :
    ∃ c ∈ cs, (∃ o : Operation, c.signature = o.definition.signature owner ∧ o.takes = ys) ∧
      (select r cs owner (ys.map id)).run t = (⟨[⟨c, ys.map id, []⟩], none⟩, t) := by
  have hmatch : ∀ c ∈ cs, ∀ o : Operation, c.signature = o.definition.signature owner →
      («match» r c owner (ys.map id)).run t =
        (if o.takes = ys then some ⟨c, ys.map id, []⟩ else none, t) := by
    intro c hc o hsignature
    obtain ⟨o', hsignature', hknown, hlength⟩ := hcs c hc
    have hsame : o.takes = o'.takes := by
      refine Operation.takes_eq owner ?_
      rw [← hsignature, hsignature']
      exact sameRestrictions_refl _
    have hparams : c.signature.params.map Prod.snd = o.takes.map fun x => some (.ofName x) := by
      rw [hsignature, o.params_signature, List.map_map]
      rfl
    have hcount : ¬ c.signature.params.length < (ys.map id).length := by
      rw [hsignature, o.params_signature, List.length_map, List.length_map, hsame, hlength]
      exact lt_irrefl _
    rw [«match», if_neg hcount, Table.run_bind, hparams,
      run_restrictArgs_kinds hprimitive hapart hsees (hsame ▸ hknown) hys (hsame ▸ hlength)]
    by_cases ho : o.takes = ys
    · rw [if_pos ho, if_pos ho]
      rfl
    · rw [if_neg ho, if_neg ho]
      rfl
  have hseveral : (ys.map id).any (isSeveral t) = false := by
    rw [List.any_eq_false]
    intro i hi
    obtain ⟨y, hy, rfl⟩ := List.mem_map.mp hi
    obtain ⟨e, he⟩ := hprimitive y (hys y hy)
    simp [isSeveral, Table.kind?_primitive he]
  have hfirst : ∃ c ∈ cs, (∃ o : Operation, c.signature = o.definition.signature owner ∧ o.takes = ys) ∧
      (matching r true owner (ys.map id) cs).run t = ([⟨c, ys.map id, []⟩], t) := by
    clear hseveral
    induction cs with
    | nil =>
      obtain ⟨c, hc, -⟩ := hsome
      cases hc
    | cons c cs ih =>
      obtain ⟨o, hsignature, hknown, hlength⟩ := hcs c List.mem_cons_self
      have hrun := hmatch c List.mem_cons_self o hsignature
      rw [matching, Table.run_bind, hrun]
      by_cases ho : o.takes = ys
      · rw [if_pos ho]
        exact ⟨c, List.mem_cons_self, ⟨o, hsignature, ho⟩, rfl⟩
      · have hrest : ∃ c ∈ cs, ∃ o : Operation, c.signature = o.definition.signature owner ∧ o.takes = ys := by
          obtain ⟨c', hc', o', hsignature', ho'⟩ := hsome
          rcases List.mem_cons.mp hc' with rfl | hc'
          · refine absurd ?_ ho
            rw [← ho']
            refine Operation.takes_eq owner ?_
            rw [← hsignature, hsignature']
            exact sameRestrictions_refl _
          · exact ⟨c', hc', o', hsignature', ho'⟩
        obtain ⟨c', hc', hfound, hlater⟩ := ih (fun d hd => hcs d (List.mem_cons_of_mem c hd)) hrest
          fun d hd => hmatch d (List.mem_cons_of_mem c hd)
        rw [if_neg ho]
        exact ⟨c', List.mem_cons_of_mem c hc', hfound, hlater⟩
  obtain ⟨c, hc, hfound, hmatching⟩ := hfirst
  refine ⟨c, hc, hfound, ?_⟩
  rw [select, Table.run_get_bind, hseveral, Table.run_bind, Bool.not_false, hmatching]
  rfl

end Overload

/-! ### Looking an operation up -/

namespace Infer

variable {p : Program} {recv : TypeId} {e : PrimitiveEntry} {site : Site} {args : List TypeId}

/-- A call on a primitive that declares methods with the key of the call resolves against these. -/
theorem run_lookup_primitive (he : p.types.get? recv = some (.primitive e)) (hsuper : site.super = none) {g : Group}
    (hg : p.env.group? recv (keyOf site args) = some g) :
    (lookup site recv args).run.run p = (.ok (g, recv), p) := by
  have hchain : (lookupChain recv).run p.types = (p.types.ancestors recv, p.types) := by
    rw [lookupChain, Table.run_get_bind, he]
    rfl
  obtain ⟨rest, hrest⟩ := p.types.exists_ancestors_eq (Table.Single.of_primitive he).ne_zero
  have hfind : (findGroup? recv (keyOf site args)).run.run p = (.ok (some g), p) := by
    have hrun : (p.env.findGroup? recv (keyOf site args)).run p.types = (some g, p.types) := by
      rw [Env.findGroup?, Table.run_bind, hchain, hrest]
      simp only [List.findSome?_cons, hg]
      rfl
    rw [findGroup?, run_env_bind]
    change (Except.ok ((p.env.findGroup? recv (keyOf site args)).run p.types).1,
      { p with types := ((p.env.findGroup? recv (keyOf site args)).run p.types).2 }) = _
    rw [hrun]
  have hnew : isNew p.types (keyOf site args).name recv = false := by
    rw [isNew, Table.kind?_primitive he]
    exact Bool.and_false _
  have hdeclared : (lookupDeclared? site recv (keyOf site args)).run.run p = (.ok (some (g, recv)), p) := by
    have hinherited : (do
        if isNew (← Flow.types) (keyOf site args).name recv && g.owner ≠ recv then isSynthetic g
        else return false : Infer Bool).run.run p = (.ok false, p) := by
      rw [Flow.run_types_bind, hnew]
      rfl
    refine (Flow.run_bind_of_ok hfind _).trans ?_
    exact (Flow.run_bind_of_ok hinherited _).trans rfl
  rw [lookup, hsuper]
  exact (Flow.run_bind_of_ok hdeclared _).trans rfl

end Infer

/-! ### Typing an operation -/

/-- A node of known type is one of the graph. -/
theorem Graph.exists_of_typeOf {g : Graph} {x : NodeId} (h : g.typeOf x ≠ 0) :
    ∃ n, g.get? x = some n ∧ n.type = g.typeOf x := by
  cases hn : g.get? x with
  | none => exact absurd (by rw [typeOf, hn]) h
  | some n => exact ⟨n, rfl, (typeOf_of_get? hn).symm⟩

theorem Graph.lt_size_of_get? {g : Graph} {x : NodeId} {n : Graph.Node} (h : g.get? x = some n) : x < g.size :=
  (isSome_get?_iff.mp (Option.isSome_of_eq_some h)).2

namespace Flow

/-- Nothing follows from giving a type to a node that nothing observes. -/
theorem run_propagate_unobserved {κ : Type} (h : Hooks κ) {w : World κ} {id : NodeId} {n : Graph.Node}
    (hn : w.graph.get? id = some n) (hobservers : n.observers = []) : (propagate h id).run.run w = (.ok (), w) := by
  have hqueue : w.graph.queueObservers id = ([], w.graph) := by
    rw [Graph.queueObservers, hn]
    simp only [hobservers, Graph.queueUp]
  have hrun : (propagate h id).run.run w = (serveAll h h.budget (w.graph.queueObservers id).1).run.run
      { w with graph := (w.graph.queueObservers id).2 } := rfl
  rw [hrun, hqueue]
  cases h.budget <;> rfl

/-- A node that has no type yet and that nothing observes is given one. -/
theorem run_setType_new {κ : Type} (h : Hooks κ) {w : World κ} {id : NodeId} {label : String} {t : TypeId} (ht : t ≠ 0)
    (hn : w.graph.get? id = some { label }) :
    (setType h id t).run.run w = (.ok (), { w with graph := w.graph.retype id t }) := by
  have hrun : (setType h id t).run.run w = (do
      assign id { label } t
      propagate h id : Flow κ Unit).run.run w := by
    rw [setType, run_get_bind, hn]
    simp only [Ne.symm ht, if_false]
    rfl
  have hretyped : (w.graph.retype id t).get? id = some { label, type := t } := by
    rw [Graph.retype, Graph.get?_modify, if_pos rfl, hn]
    rfl
  rw [hrun, run_bind_of_ok (assign_eq id { label } t w)]
  exact run_propagate_unobserved h hretyped rfl

end Flow

namespace Infer

variable {p : Program}

/-- The body of a primitive gets the next occurrence. -/
theorem run_place_primitive (name : String) (p : Program) :
    ∃ notes, (place (.node none (.primitive name))).run.run p =
        (.ok (.node ⟨none, p.env.notes.size⟩ (.primitive name)), { p with env := { p.env with notes } }) ∧
      notes[p.env.notes.size]? = some {} := by
  have hplace : (Source.place (.node none (.primitive name))).run p.env.notes.size =
      (.node ⟨none, p.env.notes.size⟩ (.primitive name), p.env.notes.size + 1) := rfl
  refine ⟨p.env.notes ++ Array.replicate (p.env.notes.size + 1 - p.env.notes.size) ({ node := 0 } : Note), ?_, by simp⟩
  rw [place, run_env_bind, hplace]
  rfl

/-- The node of a tree that has none yet is a new one. -/
theorem run_nodeOf_new {t : Placed} (ht : p.env.notes[t.mark.occ]? = some {}) : ∃ notes, (nodeOf t).run.run p =
    (.ok p.graph.size, { p with graph := (p.graph.add t.label).2, env := { p.env with notes } }) := by
  have hnote : (note t.mark.occ).run.run p = (.ok ({ node := 0 } : Note), p) := by
    rw [note, run_env_bind, ht]
    rfl
  exact ⟨(p.env.changeNote t.mark.occ fun n => { n with node := p.graph.size }).notes, (Flow.run_bind_of_ok hnote _).trans rfl⟩

/-- A declared result that is a name stands for what the receiver sees under it. -/
theorem run_resolveDeclared_name {inst : Instance} (hfree : inst.free = []) {name : String} {t : TypeId}
    (ht : Table.resolveType? p.types inst.owner [name] = some t) :
    (resolveDeclared inst (.ofName name)).run.run p = (.ok t, p) := by
  have hbound : boundIn inst.free (.ofName name) = none := by
    rw [hfree]
    rfl
  have hrun : (Flow.onTypes (Overload.resolve Table.resolveType? inst.owner (.ofName name)) : Infer _).run.run p =
      (.ok (some t), p) := by
    change (Except.ok ((Overload.resolve Table.resolveType? inst.owner (.ofName name)).run p.types).1,
      { p with types := ((Overload.resolve Table.resolveType? inst.owner (.ofName name)).run p.types).2 }) = _
    rw [Overload.run_resolve_ofName, ht]
  rw [resolveDeclared, hbound]
  exact (Flow.run_bind_of_ok hrun _).trans rfl

end Infer

namespace Engine

open Program (Beside Spares)

variable (e : Engine) {p : Program} {o : Operation} {t : TypeId}

/-- An instance of an operation gets the result type of the operation. -/
theorem run_typePrimitive {i : InstanceId} {a : Instance} {m : Method} {label : String}
    (ha : p.env.instances[i]? = some a) (hfree : a.free = []) (hm : p.env.methods[a.method]? = some m)
    (hdef : m.definition = o.definition) (hresult : p.graph.get? a.result = some { label })
    (ht : Table.resolveType? p.types a.owner [o.result] = some t) (hne : t ≠ 0) :
    ∃ p', (e.typePrimitive i).run.run p = (.ok (), p') ∧ Beside p p' ∧ p'.graph.typeOf a.result = t ∧
      p'.env.sites = p.env.sites ∧ ∀ x n, x ≠ a.result → p.graph.get? x = some n → p'.graph.get? x = some n := by
  have hinst : (Infer.instanceOf i).run.run p = (.ok a, p) := by
    rw [Infer.instanceOf, Infer.run_env_bind, ha]
    rfl
  have hmethod : (Infer.method a.method).run.run p = (.ok m, p) := by
    rw [Infer.method, Infer.run_env_bind, hm]
    rfl
  have hdeclared : (Flow.locating m.definition.loc (Infer.resolveDeclared a (.ofName o.result))).run.run p =
      (.ok t, p) :=
    Flow.run_locating_of_ok _ (Infer.run_resolveDeclared_name hfree ht)
  obtain ⟨notes, hplace, hnew⟩ := Infer.run_place_primitive o.name p
  let body : Placed := .node ⟨none, p.env.notes.size⟩ (.primitive o.name)
  let w : Program := { p with env := { p.env with
    notes, instances := p.env.instances.modify i fun x => { x with body := some body } } }
  have hwrite : (Infer.write i (.node none (.primitive o.name))).run.run p = (.ok body, w) :=
    (Flow.run_bind_of_ok hplace _).trans rfl
  obtain ⟨notes', hnode⟩ := Infer.run_nodeOf_new (p := w) (t := body) hnew
  let w' : Program := { w with graph := (w.graph.add body.label).2, env := { w.env with notes := notes' } }
  have hadded : w'.graph.get? p.graph.size = some { label := body.label } := by
    rw [Graph.get?_add, if_pos rfl]
  have hset : (e.setType body t).run.run w =
      (.ok (), { w' with graph := w'.graph.retype p.graph.size t }) :=
    (Flow.run_bind_of_ok hnode _).trans (Flow.run_setType_new e.hooks hne hadded)
  let p' : Program := { w' with graph := (w'.graph.retype p.graph.size t).freeze a.result t }
  have hrun : (e.typePrimitive i).run.run p = (.ok (), p') := by
    rw [typePrimitive, Flow.run_bind_of_ok hinst, Flow.run_bind_of_ok hmethod]
    rw [hdef] at hdeclared ⊢
    refine (Flow.run_bind_of_ok hdeclared _).trans ?_
    refine (Flow.run_bind_of_ok hwrite _).trans ?_
    exact (Flow.run_bind_of_ok hset _).trans rfl
  have hgraph : p'.graph = ((p.graph.add body.label).2.retype p.graph.size t).freeze a.result t := rfl
  have hbody : a.result ≠ p.graph.size := Nat.ne_of_lt (Graph.lt_size_of_get? hresult)
  have hkept : ∀ x n, x ≠ a.result → p.graph.get? x = some n → p'.graph.get? x = some n := by
    intro x n hother hn
    have hfresh : x ≠ p.graph.size := Nat.ne_of_lt (Graph.lt_size_of_get? hn)
    rw [hgraph, Graph.freeze, Graph.get?_modify, if_neg hother, Graph.retype, Graph.get?_modify, if_neg hfresh,
      Graph.get?_add, if_neg hfresh, hn]
  have hold : ∀ x, p.graph.typeOf x ≠ 0 → p'.graph.typeOf x = p.graph.typeOf x := by
    intro x hx
    obtain ⟨n, hn, -⟩ := Graph.exists_of_typeOf hx
    have hother : x ≠ a.result := by
      rintro rfl
      exact hx (Graph.typeOf_of_get? hresult)
    rw [Graph.typeOf, Graph.typeOf, hkept x n hother hn, hn]
  have hfrozen : p'.graph.typeOf a.result = t := by
    rw [hgraph, Graph.typeOf, Graph.freeze, Graph.get?_modify, if_pos rfl, Graph.retype, Graph.get?_modify, if_neg hbody,
      Graph.get?_add, if_neg hbody, hresult]
    rfl
  refine ⟨p', hrun, ⟨rfl, rfl, hold, fun j b hb => ?_, fun j m hm => ⟨m, hm, rfl, rfl, fun _ _ h => .inl h⟩⟩, hfrozen,
    rfl, hkept⟩
  have hmodified : p'.env.instances[j]? = if i = j then some { b with body := some body } else some b := by
    change (p.env.instances.modify i fun x => { x with body := some body })[j]? = _
    rw [Array.getElem?_modify, hb]
    split <;> rfl
  rw [hmodified]
  split
  · exact ⟨_, rfl, rfl⟩
  · exact ⟨_, rfl, rfl⟩

/-- **Every call of an operation has the result type of the operation**, be it the first one with these types or not. -/
theorem run_instantiate_operation {site : Site} {owner : TypeId} {args : List TypeId} {c : Candidate MethodId}
    {m : Method} (hm : p.env.methods[c.id]? = some m) (hdef : m.definition = o.definition) (hkind : m.kind = .primitive)
    (hmemo : ∀ key i, assoc? m.memo key = some i → p.Typed m key i) (hblock : site.call.block = none)
    (hdepth : p.env.depth < maxDepth) (ht : Table.resolveType? p.types owner [o.result] = some t) (hne : t ≠ 0) :
    ∃ (i : InstanceId) (a : Instance) (p' : Program),
      (e.instantiate site owner ⟨c, args, []⟩).run.run p = (.ok i, p') ∧ Beside p p' ∧ Spares p p' ∧
      p'.env.instances[i]? = some a ∧ p'.graph.typeOf a.result = t := by
  have hmethod : (Infer.method c.id).run.run p = (.ok m, p) := by
    rw [Infer.method, Infer.run_env_bind, hm]
    rfl
  have hresult : m.definition.result = some (.ofName o.result) := by
    rw [hdef]
    rfl
  cases hknown : assoc? m.memo (owner :: args) with
  | some i =>
    obtain ⟨a, ha, -, hout⟩ := hmemo _ i hknown
    refine ⟨i, a, p, ?_, .of_eq rfl rfl (fun _ _ => rfl) rfl rfl, ⟨rfl, fun _ _ h => h⟩, ha, ?_⟩
    · refine (Flow.run_bind_of_ok hmethod _).trans ?_
      simp only [hblock, Option.isNone_none, if_true, hknown]
      rfl
    · exact Option.some.inj ((hout _ hresult).symm.trans ht)
  | none =>
    let label := describeCall p.types owner m.definition.name args
    let i := p.env.instances.size
    let a : Instance :=
      { method := c.id, owner, args, free := [], result := p.graph.size, signature := label }
    let w : Program :=
      { p with graph := (p.graph.add label).2, env := { p.env with instances := p.env.instances.push a } }
    let m' : Method := { m with memo := (owner :: args, i) :: m.memo }
    let w' : Program :=
      { w with env := { w.env with methods := w.env.methods.modify c.id fun m =>
        { m with memo := (owner :: args, i) :: m.memo } } }
    have hnew : (Infer.newInstance c.id owner args []).run.run p = (.ok i, w) := by
      rw [Infer.newInstance, Flow.run_types_bind, Flow.run_bind_of_ok hmethod]
      rfl
    have hm' : w'.env.methods[c.id]? = some m' := by
      change (p.env.methods.modify c.id _)[c.id]? = _
      rw [Array.getElem?_modify, if_pos rfl, hm]
      rfl
    have hadded : w'.graph.get? a.result = some { label } := by rw [Graph.get?_add, if_pos rfl]
    obtain ⟨p', hprimitive, hbeside, htype, hsites, hkept⟩ := e.run_typePrimitive (p := w') (i := i) (a := a) (m := m')
      (o := o) (by simp [w', w, i]) rfl hm' hdef hadded ht hne
    obtain ⟨a', ha', hresult'⟩ := hbeside.instances i a (by simp [w', w, i])
    have hold : ∀ x, p.graph.typeOf x ≠ 0 → p'.graph.typeOf x = p.graph.typeOf x := by
      intro x hx
      have hw : w'.graph.typeOf x = p.graph.typeOf x := congrFun (Graph.typeOf_add p.graph label) x
      rw [hbeside.typeOf x (by rwa [hw]), hw]
    refine ⟨i, a', p', ?_, ⟨hbeside.types, hbeside.groups, hold, fun j b hb => ?_, fun j m₀ hm₀ => ?_⟩,
      ⟨hsites, fun x b hb => ?_⟩, ha', ?_⟩
    · refine (Flow.run_bind_of_ok hmethod _).trans ?_
      simp only [hblock, Option.isNone_none, if_true, hknown]
      rw [Infer.run_env_bind, if_neg (Nat.not_le.mpr hdepth)]
      refine (Flow.run_bind_of_ok hnew _).trans ?_
      have hremember : (Infer.changeMethod c.id fun m => { m with memo := (owner :: args, i) :: m.memo }).run.run w =
          (.ok (), w') := rfl
      refine (Flow.run_bind_of_ok hremember _).trans ?_
      rw [hkind]
      exact (Flow.run_bind_of_ok hprimitive _).trans rfl
    · have hlt : j < p.env.instances.size := (Array.getElem?_eq_some_iff.mp hb).1
      refine hbeside.instances j b ?_
      change (p.env.instances.push a)[j]? = some b
      rw [Array.getElem?_push, if_neg (Nat.ne_of_lt hlt), hb]
    · have hw : w'.env.methods[j]? = if c.id = j then some m' else some m₀ := by
        change (p.env.methods.modify c.id _)[j]? = _
        rw [Array.getElem?_modify, hm₀]
        split
        · rename_i hj
          rw [hj] at hm
          rw [Option.map_some, Option.some.inj (hm₀.symm.trans hm)]
        · rfl
      split at hw
      · rename_i hj
        rw [hj] at hm
        obtain rfl := Option.some.inj (hm₀.symm.trans hm)
        obtain ⟨m'', hm'', hdef'', hkind'', hmemo''⟩ := hbeside.methods j m' hw
        refine ⟨m'', hm'', hdef'', hkind'', fun key' i' hi' => ?_⟩
        rcases hmemo'' key' i' hi' with hi' | htyped
        · by_cases hkey : owner :: args = key'
          · right
            have hsame : assoc? m'.memo key' = some i := by
              rw [assoc?, List.find?_cons_of_pos (by simpa using hkey)]
              rfl
            obtain rfl := Option.some.inj (hsame.symm.trans hi')
            refine ⟨a', ha', ?_, fun out hout => ?_⟩
            · rwa [hresult', htype]
            · rw [hdef'', hresult] at hout
              rw [hbeside.types, ← hkey, hresult', htype, ← ht, (TypeTerm.named.inj (Option.some.inj hout)).1]
              rfl
          · left
            rw [assoc?, List.find?_cons_of_neg (by simpa using hkey)] at hi'
            exact hi'
        · exact .inr htyped
      · exact hbeside.methods j m₀ hw
    · have hlt := Graph.lt_size_of_get? hb
      refine hkept x b (Nat.ne_of_lt hlt) ?_
      rw [Graph.get?_add, if_neg (Nat.ne_of_lt hlt), hb]
    · rw [hresult', htype]

variable {n : NumericTower} {id : String → TypeId} {l : String}

/-- **A call of an operation that a kind offers resolves**, to an instance with the type of the operation. -/
theorem run_resolveCall_operation (hn : n.Valid) (h : p.Serves n id l) (hl : l ∈ n.names) (ho : o ∈ n.operationsAt l)
    (hsettled : ∀ o' ∈ n.operationsAt l, o'.key = o.key → o'.takes = o.takes → o'.result = o.result)
    {site : Site} (hobj : site.obj ≠ 0) (hsuper : site.super = none) (hblock : site.call.block = none)
    (hname : site.call.name = o.name) (hdepth : p.env.depth < maxDepth) :
    ∃ (i : InstanceId) (a : Instance) (p' : Program), (e.resolveCall site (id l) (o.takes.map id)).run.run p = (.ok ([a.result], [.inst i]), p') ∧
      Beside p p' ∧ Spares p p' ∧ p'.graph.typeOf a.result = id o.result := by
  obtain ⟨htakes, hresult⟩ := NumericTower.known_operationsAt hn hl ho
  obtain ⟨entry, hentry⟩ := h.primitive l (List.mem_cons_of_mem _ hl)
  obtain ⟨out, hout⟩ := h.primitive o.result hresult
  obtain ⟨g, hg, ⟨c₀, hc₀, hsignature₀⟩, hperforms⟩ := h.offers o ho
  -- the candidate that is chosen is filed under the same name and takes the same kinds
  have hcs : ∀ c ∈ g.candidates, ∃ o' : Operation, c.signature = o'.definition.signature (id l) ∧
      (∀ x ∈ o'.takes, x ∈ n.names) ∧ o'.takes.length = o.takes.length := by
    intro c hc
    obtain ⟨o', ho', hkey, hperform⟩ := hperforms c hc
    exact ⟨o', hperform.signature, (NumericTower.known_operationsAt hn hl ho').1, congrArg GroupKey.arity hkey⟩
  obtain ⟨c, hc, ⟨o₁, hsignature, htakes₁⟩, hselect⟩ := Overload.run_select_kinds
    (fun x hx => h.primitive x (List.mem_cons_of_mem _ hx)) h.apart
    (fun x hx => h.sees x (List.mem_cons_of_mem _ hx)) htakes hcs ⟨c₀, hc₀, o, hsignature₀, rfl⟩
  obtain ⟨o', ho', hkey, hsignature', m, hm, hdef, hkind, hmemo⟩ := hperforms c hc
  have hsame : o'.takes = o.takes := by
    rw [← htakes₁]
    refine Operation.takes_eq (id l) ?_
    rw [← hsignature, hsignature']
    exact Overload.sameRestrictions_refl _
  have hsees : Table.resolveType? p.types (id l) [o'.result] = some (id o.result) := by
    rw [hsettled o' ho' hkey hsame]
    exact h.sees _ hresult
  obtain ⟨i, a, p', hinstance, hbeside, hspares, ha, htype⟩ : ∃ (i : InstanceId) (a : Instance) (p' : Program),
      (e.instantiate site (id l) ⟨c, o.takes.map id, []⟩).run.run p = (.ok i, p') ∧ Beside p p' ∧ Spares p p' ∧
        p'.env.instances[i]? = some a ∧ p'.graph.typeOf a.result = id o.result :=
    e.run_instantiate_operation hm hdef hkind hmemo hblock hdepth hsees (Table.Single.of_primitive hout).ne_zero
  refine ⟨i, a, p', ?_, hbeside, hspares, htype⟩
  have hkeyOf : Infer.keyOf site (o.takes.map id) = o.key := by
    rw [Infer.keyOf, hname, hblock, List.length_map]
    rfl
  rw [← hkeyOf] at hg
  have hlookup := Infer.run_lookup_primitive hentry hsuper hg
  have hmatches : (Infer.matchCall site (id l) (o.takes.map id)).run.run p =
      (.ok (id l, ⟨[⟨c, o.takes.map id, []⟩], none⟩), p) := by
    refine (Flow.run_bind_of_ok hlookup _).trans ?_
    rw [Flow.run_onTypes_bind, hselect]
    rfl
  have hforeign : isForeign p.types site (id l) = false := by
    rw [isForeign, Table.kind?_primitive hentry]
    exact Bool.and_false _
  have hfound : (Infer.instanceOf i).run.run p' = (.ok a, p') := by
    rw [Infer.instanceOf, Infer.run_env_bind, ha]
    rfl
  rw [resolveCall, Flow.run_types_bind, hforeign, if_neg Bool.false_ne_true, if_neg hobj,
    (Table.Single.of_primitive hentry).concrete_eq]
  refine (Flow.run_bind_of_ok hmatches _).trans ?_
  simp only [Matches.branches, bne_self_eq_false, Bool.false_eq_true, if_false]
  refine (Flow.run_bind_of_ok hinstance _).trans ?_
  exact (Flow.run_bind_of_ok hfound _).trans rfl

end Engine

end TypeFlow

