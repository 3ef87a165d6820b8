import TypeFlow.Proofs.Flow.Run
import TypeFlow.Proofs.Flow.Scripts
import TypeFlow.Proofs.Flow.Wiring

/-!
# Nodes that are up to date

`Steady F w` says that every node of the world `w` is up to date, except where an observer in the list `F`
still waits to be served: a node has the type that its dependencies make of it, or nothing is made of
them, and a call was resolved for the types that its node watches.

What the dependencies of a node make is computed from the table at hand, and the table grows all the
time. A node that is up to date stays so, since the computation can be repeated (`Fresh`,
`repeats_made`).

This module has what each change of the graph does to steadiness. Changes of types and of dependencies
put the nodes they concern on the list; all others leave the list alone.
-/

namespace TypeFlow.Flow

open TypeFlow.Graph (Observer Node)
open Table (Later Repeats)

variable {κ : Type}

/-! ### What dependencies make -/

/-- What the dependencies of a node make, as a computation on types; zero if nothing is known of them. -/
def made (responds : TypeId → String → TableM Bool) (g : Graph) (n : Node) : TableM TypeId := do
  let m ← Table.merge (n.deps.map g.typeOf)
  if m = 0 then return 0 else image responds n m

theorem evaluate_eq (h : Hooks κ) (w : World κ) (n : Node) :
    evaluate h w n = (made (h.responds w.env) w.graph n).run w.types := by
  rw [evaluate, made, Table.run_bind]
  split
  · rename_i h0
    exact Prod.ext h0 rfl
  · rfl

/-- Only the dependencies, their types and what is made of them count. -/
theorem made_congr {g g' : Graph} {n n' : Node} (hdeps : n'.deps = n.deps)
    (hmapping : n'.mapping = n.mapping) (hfilter : n'.filter = n.filter)
    (htypes : ∀ d ∈ n.deps, g'.typeOf d = g.typeOf d) (responds : TypeId → String → TableM Bool) :
    made responds g' n' = made responds g n := by
  have himage : image responds n' = image responds n := by
    funext m
    rw [image, image, hmapping, hfilter]
  rw [made, made, hdeps, List.map_congr_left htypes, himage]

/-- Which methods a class has does not count where no filter asks for them. -/
theorem made_responds {t : Table} (g : Graph) {n : Node} (hn : ∀ f, n.filter = some f → f.Reads t)
    (responds responds' : TypeId → String → TableM Bool) : made responds g n = made responds' g n := by
  have himage : image responds n = image responds' n := by
    funext m
    unfold image
    cases hf : n.filter with
    | none => rfl
    | some f =>
      cases f with
      | respondsTo name => exact (hn _ hf).elim
      | _ => rfl
  rw [made, made, himage]

/-- What is made of a type can be made again. -/
theorem repeats_image {t : Table} (h : t.WellFormed) (hl : t.Linked)
    (responds : TypeId → String → TableM Bool) {n : Node} {m : TypeId} (hm : m < t.size)
    (hn : ∀ f, n.filter = some f → f.Reads t) :
    Repeats t (image responds n m) fun t₁ r => r < t₁.size := by
  unfold image
  split
  · exact .pure fun t₁ h₁ => h₁.lt_size hm
  · exact Table.repeats_pointerOf hm
  · refine (Table.repeats_array h hm).bind fun t₁ r h₁ hr => ?_
    obtain ⟨a, rfl, ha⟩ := hr
    exact .pure fun t₂ h₂ => h₂.lt_size ha
  · exact Table.repeats_metaclassOf hm
  · split
    · exact .pure fun t₁ h₁ => h₁.lt_size hm
    · rename_i f hf
      exact Filter.repeats_apply h hl responds (hn f hf) hm

theorem repeats_made {t : Table} (responds : TypeId → String → TableM Bool)
    {g : Graph} {n : Node} (htyped : ∀ d, g.typeOf d < t.size)
    (hn : ∀ t₁ f, Later t t₁ → n.filter = some f → f.Reads t₁) :
    Repeats t (made responds g n) fun t₁ r => r < t₁.size := by
  refine (Table.repeats_merge fun id hid => ?_).bind fun t₁ m h₁ hm => ?_
  · obtain ⟨d, -, rfl⟩ := List.mem_map.mp hid
    exact htyped d
  · split
    · exact .pure fun t₂ _ => t₂.size_pos
    · exact repeats_image h₁.wellFormed h₁.linked responds hm fun f => hn t₁ f h₁

/-! ### Sane worlds -/

/-- A world that operations may have led to. -/
structure Sane (w : World κ) : Prop where
  wellFormed : w.types.WellFormed
  linked : w.types.Linked
  typed : ∀ x, w.graph.typeOf x < w.types.size
  slot : ∀ x n, w.graph.view x = some n → n.slot = none
  filter : ∀ x n f, w.graph.view x = some n → n.filter = some f → f.Reads w.types
  wired : ∀ x, ∀ d ∈ w.graph.depsOf x, d ≠ x ∧ ⟨x, .update⟩ ∈ w.graph.observersOf d
  observers : ∀ d, ∀ o ∈ w.graph.observersOf d, IsNode w.graph o.node

variable {w : World κ}

/-- In a sane world, what the dependencies of a node make can be made again. -/
theorem Sane.repeats_made (hw : Sane w) (responds : TypeId → String → TableM Bool) {x : NodeId}
    {n : Node} (hn : w.graph.view x = some n) :
    Repeats w.types (made responds w.graph n) fun t₁ r => r < t₁.size :=
  Flow.repeats_made responds hw.typed fun _ f h₁ hf => (hw.filter x n f hn hf).later h₁

theorem Sane.of_later (hw : Sane w) {t : Table} (ht : Later w.types t) :
    Sane { w with types := t } :=
  ⟨ht.wellFormed, ht.linked, fun x => ht.lt_size (hw.typed x), hw.slot,
    fun x n f hn hf => (hw.filter x n f hn hf).later ht, hw.wired, hw.observers⟩

/-- A node that has what its dependencies make, now and with any further types. -/
def Fresh (w : World κ) (n : Node) : Prop :=
  ∀ responds t, Later w.types t →
    ((made responds w.graph n).run t).1 = 0 ∨ ((made responds w.graph n).run t).1 = n.type

theorem Fresh.congr {w' : World κ} {n n' : Node} (hn : Fresh w n) (htypes : w'.types = w.types)
    (hmade : ∀ responds, made responds w'.graph n' = made responds w.graph n)
    (htype : n'.type = n.type) : Fresh w' n' := by
  intro responds t ht
  rw [htypes] at ht
  rw [hmade, htype]
  exact hn responds t ht

/-- What the dependencies of a node have made is made of them again, with any further types. -/
theorem Sane.evaluate_again (hw : Sane w) (h : Hooks κ) {x : NodeId} {n : Node}
    (hn : w.graph.get? x = some n) :
    Later w.types (evaluate h w n).2 ∧ (evaluate h w n).1 < (evaluate h w n).2.size ∧
      ∀ responds t, Later (evaluate h w n).2 t →
        ((made responds w.graph n.unmarked).run t).1 = (evaluate h w n).1 := by
  have hview := Graph.view_of_get? hn
  have hmarks : made (h.responds w.env) w.graph n.unmarked = made (h.responds w.env) w.graph n :=
    made_congr rfl rfl rfl (fun _ _ => rfl) _
  have hrep := hw.repeats_made (h.responds w.env) hview
  have hself : Later w.types w.types := .refl hw.wellFormed hw.linked
  have hadds := hrep.adds w.types hself
  rw [evaluate_eq, ← hmarks]
  refine ⟨.of_adds hw.linked hadds, hadds.2.2, fun responds t ht => ?_⟩
  rw [made_responds w.graph (fun f => hw.filter x _ f hview) responds (h.responds w.env)]
  exact hrep.again w.types t hself ht

/-! ### Steady worlds -/

/-- Whether the type of a node is fixed. -/
def IsFrozen (g : Graph) (x : NodeId) : Prop :=
  ∃ n, g.view x = some n ∧ n.frozen = true

/-- Every node is up to date, except where an observer on the list waits. -/
structure Steady (F : List Observer) (w : World (Trace κ)) : Prop where
  sane : Sane w
  fresh : ∀ x n, w.graph.view x = some n → n.frozen = false → n.deps ≠ [] →
    Fresh w n ∨ ⟨x, .update⟩ ∈ F
  seen : ∀ d x, ⟨x, .recalc⟩ ∈ w.graph.observersOf d →
    IsFrozen w.graph d ∨ w.env.seen x d = w.graph.typeOf d ∨ ⟨x, .recalc⟩ ∈ F

namespace Steady

variable {w w' : World (Trace κ)} {F F' : List Observer} {x id : NodeId}

theorem mono (hs : Steady F w) (hsub : ∀ o ∈ F, o ∈ F') : Steady F' w :=
  ⟨hs.sane, fun x n hn hf hd => (hs.fresh x n hn hf hd).imp_right (hsub _),
    fun d x hx => (hs.seen d x hx).imp_right (Or.imp_right (hsub _))⟩

/-- A node that is up to date need not be on the list. -/
theorem unlist (hs : Steady (⟨x, .update⟩ :: F) w)
    (hx : ∀ n, w.graph.view x = some n → n.frozen = false → n.deps ≠ [] → Fresh w n) :
    Steady F w := by
  refine ⟨hs.sane, fun y n hn hf hd => ?_, fun d y hy => ?_⟩
  · by_cases hyx : y = x
    · exact .inl (hx n (hyx ▸ hn) hf hd)
    · refine (hs.fresh y n hn hf hd).imp_right fun hin => ?_
      exact (List.mem_cons.mp hin).resolve_left (by simpa using hyx)
  · refine (hs.seen d y hy).imp_right (Or.imp_right fun hin => ?_)
    exact (List.mem_cons.mp hin).resolve_left (by simp)

/-- Queues and the own state of the hooks do not matter. -/
theorem of_view (hs : Steady F w) (htypes : w'.types = w.types) (hview : w'.graph.view = w.graph.view)
    (hseen : w'.env.seen = w.env.seen) : Steady F w' := by
  have htype := Graph.typeOf_of_view_eq hview
  have hdeps := Graph.depsOf_of_view_eq hview
  have hobs := Graph.observersOf_of_view_eq hview
  obtain ⟨⟨hwf, hl, htyped, hslot, hfilter, hwired, hnodes⟩, hfresh, hsee⟩ := hs
  refine ⟨⟨htypes ▸ hwf, htypes ▸ hl, ?_, ?_, ?_, ?_, fun d o ho => ?_⟩, fun x n hn hf hd => ?_, ?_⟩
  · rw [htype, htypes]
    exact htyped
  · rw [hview]
    exact hslot
  · rw [hview, htypes]
    exact hfilter
  · rw [hdeps, hobs]
    exact hwired
  · rw [hobs] at ho
    rw [IsNode, hview]
    exact hnodes d o ho
  · rw [hview] at hn
    refine (hfresh x n hn hf hd).imp_left fun hn => hn.congr htypes (fun responds => ?_) rfl
    exact made_congr rfl rfl rfl (fun d _ => by rw [htype]) responds
  · rw [hobs, hseen, htype]
    intro d x hx
    rw [IsFrozen, hview]
    exact hsee d x hx

/-- Further types do not matter. -/
theorem of_later (hs : Steady F w) {t : Table} (ht : Later w.types t) :
    Steady F { w with types := t } :=
  ⟨hs.sane.of_later ht, fun x n hn hf hd =>
    (hs.fresh x n hn hf hd).imp_left fun hn responds t' ht' => hn responds t' (ht.trans ht'), hs.seen⟩

/-- A call that is resolved is up to date. -/
theorem resolved (hs : Steady (⟨x, .recalc⟩ :: F) w) : Steady F (resolved x w) := by
  refine ⟨⟨hs.sane.wellFormed, hs.sane.linked, hs.sane.typed, hs.sane.slot, hs.sane.filter,
    hs.sane.wired, hs.sane.observers⟩, fun y n hn hf hd => ?_, fun d y hy => ?_⟩
  · refine (hs.fresh y n hn hf hd).imp_right fun hin => ?_
    exact (List.mem_cons.mp hin).resolve_left (by simp)
  · by_cases hyx : y = x
    · exact .inr (.inl (if_pos hyx))
    · refine (hs.seen d y hy).imp_right (Or.imp (fun hsame => ?_) fun hin => ?_)
      · exact (if_neg hyx).trans hsame
      · exact (List.mem_cons.mp hin).resolve_left (by simpa using hyx)

/-- A node that gets the type that its dependencies make, or that has none, concerns its observers. -/
theorem retype (hs : Steady (⟨id, .update⟩ :: F) w) (hid : IsNode w.graph id) {r : TypeId}
    (hr : r < w.types.size)
    (hmade : ∀ n, w.graph.view id = some n → n.deps ≠ [] → ∀ responds t, Later w.types t →
      ((made responds w.graph n).run t).1 = r) :
    Steady (F ++ w.graph.observersOf id) { w with graph := w.graph.retype id r } := by
  have htype := Graph.typeOf_retype hid r
  have hdeps := Graph.depsOf_retype w.graph id r
  have hobs := Graph.observersOf_retype w.graph id r
  have hother : ∀ d, d ≠ id → (w.graph.retype id r).typeOf d = w.graph.typeOf d := fun d hd => by
    rw [htype, if_neg hd]
  have hview : ∀ x n', (w.graph.retype id r).view x = some n' →
      ∃ n, w.graph.view x = some n ∧ n'.deps = n.deps ∧ n'.mapping = n.mapping ∧
        n'.filter = n.filter ∧ n'.frozen = n.frozen ∧ n'.slot = n.slot := by
    intro x n' hn'
    rw [Graph.view_retype] at hn'
    split at hn'
    · obtain ⟨n, hn, rfl⟩ := Option.map_eq_some_iff.mp hn'
      exact ⟨n, hn, rfl, rfl, rfl, rfl, rfl⟩
    · exact ⟨n', hn', rfl, rfl, rfl, rfl, rfl⟩
  refine ⟨⟨hs.sane.wellFormed, hs.sane.linked, fun x => ?_, fun x n' hn' => ?_,
    fun x n' f hn' hf => ?_, ?_, fun d o ho => ?_⟩, fun x n' hn' hf hd => ?_, fun d x hx => ?_⟩
  · show (w.graph.retype id r).typeOf x < _
    rw [htype]
    split
    · exact hr
    · exact hs.sane.typed x
  · obtain ⟨n, hn, -, -, -, -, hslot⟩ := hview x n' hn'
    exact hslot.trans (hs.sane.slot x n hn)
  · obtain ⟨n, hn, -, -, hfilter, -⟩ := hview x n' hn'
    exact hs.sane.filter x n f hn (hfilter ▸ hf)
  · show ∀ x, ∀ d ∈ (w.graph.retype id r).depsOf x, _ ∧ _ ∈ (w.graph.retype id r).observersOf d
    rw [hdeps, hobs]
    exact hs.sane.wired
  · have ho : o ∈ (w.graph.retype id r).observersOf d := ho
    rw [hobs] at ho
    show ((w.graph.retype id r).view o.node).isSome
    have hsize : (w.graph.retype id r).size = w.graph.size := Graph.size_modify _ _ _
    rw [Graph.isSome_view_congr hsize]
    exact hs.sane.observers d o ho
  · obtain ⟨n, hn, hdeps', hmapping, hfilter, hfrozen, -⟩ := hview x n' hn'
    have hmem : ∀ d ∈ n.deps, d ∈ w.graph.depsOf x := by
      intro d hd
      rwa [Graph.depsOf_of_view hn]
    by_cases hin : id ∈ n.deps
    · exact .inr (List.mem_append_right _ (hs.sane.wired x id (hmem id hin)).2)
    · have hsame : ∀ responds, made responds (w.graph.retype id r) n' = made responds w.graph n :=
        made_congr hdeps' hmapping hfilter fun d hd => hother d fun heq => hin (heq ▸ hd)
      by_cases hx : x = id
      · subst hx
        refine .inl fun responds t ht => .inr ?_
        have htype' : n'.type = r := by
          rw [← Graph.typeOf_of_view hn', htype, if_pos rfl]
        rw [hsame, htype']
        exact hmade n hn (hdeps' ▸ hd) responds t ht
      · refine (hs.fresh x n hn (hfrozen ▸ hf) (hdeps' ▸ hd)).imp (fun hfr => ?_) fun hin' => ?_
        · refine hfr.congr rfl hsame ?_
          rw [← Graph.typeOf_of_view hn', ← Graph.typeOf_of_view hn]
          exact hother x hx
        · refine List.mem_append_left _ ((List.mem_cons.mp hin').resolve_left ?_)
          simpa using hx
  · have hx : ⟨x, .recalc⟩ ∈ (w.graph.retype id r).observersOf d := hx
    rw [hobs] at hx
    by_cases hd : d = id
    · exact .inr (.inr (List.mem_append_right _ (hd ▸ hx)))
    · rcases hs.seen d x hx with ⟨n, hn, hf⟩ | hsame | hin
      · refine .inl ⟨n, ?_, hf⟩
        show (w.graph.retype id r).view d = some n
        rw [Graph.view_retype, if_neg hd, hn]
      · exact .inr (.inl (hsame.trans (hother d hd).symm))
      · refine .inr (.inr (List.mem_append_left _ ((List.mem_cons.mp hin).resolve_left ?_)))
        simp

/-- A source may be changed without notice, as long as its type stays, or is fixed before any node
depends on it. -/
theorem of_source (hs : Steady F w) {g : Graph} (hsize : g.size = w.graph.size)
    (hdeps : g.depsOf = w.graph.depsOf) (hobs : g.observersOf = w.graph.observersOf)
    (hother : ∀ x, x ≠ id → g.view x = w.graph.view x) (hsource : w.graph.depsOf id = [])
    (hself : ∀ n, g.view id = some n → n.slot = none ∧ (∀ f, n.filter = some f → f.Reads w.types) ∧
      n.type < w.types.size)
    (htold : (g.typeOf id = w.graph.typeOf id ∧ (IsFrozen w.graph id → IsFrozen g id)) ∨
      (IsFrozen g id ∧ ∀ o ∈ w.graph.observersOf id, o.edge = .recalc)) :
    Steady F { w with graph := g } := by
  have htype : ∀ x, x ≠ id → g.typeOf x = w.graph.typeOf x := fun x hx =>
    Graph.typeOf_congr (hother x hx)
  refine ⟨⟨hs.sane.wellFormed, hs.sane.linked, fun x => ?_, fun x n hn => ?_, fun x n f hn hf => ?_,
    ?_, fun d o ho => ?_⟩, fun x n hn hf hd => ?_, fun d x hx => ?_⟩
  · show g.typeOf x < _
    by_cases hx : x = id
    · subst hx
      cases hn : g.view x with
      | none =>
        rw [Graph.typeOf_eq, hn]
        exact Table.size_pos _
      | some n =>
        rw [Graph.typeOf_of_view hn]
        exact (hself n hn).2.2
    · rw [htype x hx]
      exact hs.sane.typed x
  · by_cases hx : x = id
    · exact (hself n (hx ▸ hn)).1
    · exact hs.sane.slot x n (hother x hx ▸ hn)
  · by_cases hx : x = id
    · exact (hself n (hx ▸ hn)).2.1 f hf
    · exact hs.sane.filter x n f (hother x hx ▸ hn) hf
  · show ∀ x, ∀ d ∈ g.depsOf x, _ ∧ _ ∈ g.observersOf d
    rw [hdeps, hobs]
    exact hs.sane.wired
  · have ho : o ∈ g.observersOf d := ho
    rw [hobs] at ho
    show (g.view o.node).isSome
    rw [Graph.isSome_view_congr hsize]
    exact hs.sane.observers d o ho
  · have hmem : ∀ d ∈ n.deps, d ∈ w.graph.depsOf x := by
      intro d hd
      rwa [← hdeps, Graph.depsOf_of_view hn]
    have hx : x ≠ id := by
      rintro rfl
      rw [← hdeps, Graph.depsOf_of_view hn] at hsource
      exact hd hsource
    have hn : g.view x = some n := hn
    rw [hother x hx] at hn
    refine (hs.fresh x n hn hf hd).imp_left fun hfr => hfr.congr rfl (fun responds => ?_) rfl
    refine made_congr rfl rfl rfl (fun d hd => ?_) responds
    by_cases hdid : d = id
    · subst hdid
      rcases htold with ⟨hsame, -⟩ | ⟨-, hnone⟩
      · exact hsame
      · have hedge := hnone _ (hs.sane.wired x d (hmem d hd)).2
        exact absurd hedge (by simp)
    · exact htype d hdid
  · have hx : ⟨x, .recalc⟩ ∈ g.observersOf d := hx
    rw [hobs] at hx
    show IsFrozen g d ∨ _ = g.typeOf d ∨ _
    by_cases hd : d = id
    · subst hd
      rcases htold with ⟨hsame, hfrozen⟩ | ⟨hfrozen, -⟩
      · rw [hsame]
        exact (hs.seen d x hx).imp_left hfrozen
      · exact .inl hfrozen
    · rw [htype d hd, IsFrozen, hother d hd]
      exact hs.seen d x hx

/-- A change of a source that is not about its wiring. -/
theorem modify_source (hs : Steady F w) {f : Node → Node} (hf : ∀ n, (f n).unmarked = f n.unmarked)
    (hdeps : ∀ n, (f n).deps = n.deps) (hobs : ∀ n, (f n).observers = n.observers)
    (hslot : ∀ n, (f n).slot = n.slot) (hid : IsNode w.graph id) (hsource : w.graph.depsOf id = [])
    (hfilter : ∀ n p, (f n).filter = some p → n.filter = some p ∨ p.Reads w.types)
    (htold : (∀ n, (f n).type = n.type ∧ (f n).frozen = n.frozen) ∨
      (∀ n, (f n).type < w.types.size ∧ (f n).frozen = true) ∧
        ∀ o ∈ w.graph.observersOf id, o.edge = .recalc) :
    Steady F { w with graph := w.graph.modify id f } := by
  have hview := Graph.view_modify w.graph id id hf
  rw [if_pos rfl] at hview
  obtain ⟨m, hm⟩ := Option.isSome_iff_exists.mp hid
  rw [hm, Option.map_some] at hview
  refine hs.of_source (Graph.size_modify _ _ _) (Graph.depsOf_modify _ _ hf hdeps)
    (Graph.observersOf_modify _ _ hf hobs) (fun x hx => ?_) hsource (fun n hn => ?_) ?_
  · rw [Graph.view_modify w.graph id x hf, if_neg hx]
  · obtain rfl := Option.some.inj (hview.symm.trans hn)
    refine ⟨(hslot m).trans (hs.sane.slot id m hm), fun p hp => ?_, ?_⟩
    · exact (hfilter m p hp).elim (hs.sane.filter id m p hm) fun hreads => hreads
    · rcases htold with hsame | ⟨hnew, -⟩
      · rw [(hsame m).1, ← Graph.typeOf_of_view hm]
        exact hs.sane.typed id
      · exact (hnew m).1
  · refine htold.imp (fun hsame => ⟨?_, ?_⟩) fun hnew => ⟨⟨f m, hview, (hnew.1 m).2⟩, hnew.2⟩
    · rw [Graph.typeOf_of_view hview, Graph.typeOf_of_view hm, (hsame m).1]
    · rintro ⟨m', hm', hfrozen⟩
      obtain rfl := Option.some.inj (hm.symm.trans hm')
      exact ⟨f m, hview, (hsame m).2.trans hfrozen⟩

/-- Other dependencies of a node concern the node. -/
theorem rewires (hs : Steady F w) {g : Graph} (hid : IsNode w.graph id)
    (hg : Graph.Rewires w.graph g id) : Steady (⟨id, .update⟩ :: F) { w with graph := g } := by
  refine ⟨⟨hs.sane.wellFormed, hs.sane.linked, fun x => ?_, fun x n' hn' => ?_,
    fun x n' f hn' hf => ?_, fun x d hd => ?_, fun d o ho => ?_⟩, fun x n' hn' hf hd => ?_,
    fun d x hx => ?_⟩
  · show g.typeOf x < _
    rw [hg.typeOf_eq]
    exact hs.sane.typed x
  · obtain ⟨n, hn, ha⟩ := hg.exists_alike hn'
    exact ha.slot.trans (hs.sane.slot x n hn)
  · obtain ⟨n, hn, ha⟩ := hg.exists_alike hn'
    exact hs.sane.filter x n f hn (ha.filter ▸ hf)
  · have hd : d ∈ g.depsOf x := hd
    by_cases hx : x = id
    · subst hx
      exact hg.wired (hs.sane.wired x) d hd
    · rw [hg.deps_other x hx] at hd
      obtain ⟨hne, hmem⟩ := hs.sane.wired x d hd
      exact ⟨hne, (hg.observers_other d _ (by simpa using hx)).mpr hmem⟩
  · have ho : o ∈ g.observersOf d := ho
    show (g.view o.node).isSome
    rw [Graph.isSome_view_congr hg.size]
    by_cases heq : o = ⟨id, .update⟩
    · rw [heq]
      exact hid
    · exact hs.sane.observers d o ((hg.observers_other d o heq).mp ho)
  · by_cases hx : x = id
    · exact .inr (hx ▸ List.mem_cons_self)
    · obtain ⟨n, hn, ha⟩ := hg.exists_alike hn'
      have hdeps : n'.deps = n.deps := by
        rw [← Graph.depsOf_of_view hn', ← Graph.depsOf_of_view hn]
        exact hg.deps_other x hx
      refine (hs.fresh x n hn (ha.frozen ▸ hf) (hdeps ▸ hd)).imp (fun hfr => ?_) fun hin =>
        List.mem_cons_of_mem _ hin
      exact hfr.congr rfl (made_congr hdeps ha.mapping ha.filter fun d _ => hg.typeOf_eq d) ha.type
  · have hx : ⟨x, .recalc⟩ ∈ g.observersOf d := hx
    rw [hg.observers_other d _ (by simp)] at hx
    rcases hs.seen d x hx with ⟨n, hn, hf⟩ | hsame | hin
    · have hfrozen := hg.map_eq Node.frozen (fun _ => rfl) d
      rw [hn, Option.map_some, hf] at hfrozen
      obtain ⟨n', hn', hf'⟩ := Option.map_eq_some_iff.mp hfrozen
      exact .inl ⟨n', hn', hf'⟩
    · exact .inr (.inl (hsame.trans (hg.typeOf_eq d).symm))
    · exact .inr (.inr (List.mem_cons_of_mem _ hin))

/-- Watching further nodes, the types of which are noted. -/
theorem watches (hs : Steady F w) {g : Graph} {watched : List NodeId} (hid : IsNode w.graph id)
    (hg : Graph.Watches w.graph g ⟨id, .recalc⟩ watched) :
    Steady F { w with graph := g, env := (Operation.watch id watched).noted w } := by
  have htypeOf : ∀ x, g.typeOf x = w.graph.typeOf x := fun x => by
    rw [Graph.typeOf_eq, Graph.typeOf_eq, hg.map_eq Node.type fun _ => rfl]
  have hdepsOf : ∀ x, g.depsOf x = w.graph.depsOf x := fun x => by
    rw [Graph.depsOf, Graph.depsOf, hg.map_eq Node.deps fun _ => rfl]
  refine ⟨⟨hs.sane.wellFormed, hs.sane.linked, fun x => ?_, fun x n' hn' => ?_,
    fun x n' f hn' hf => ?_, fun x d hd => ?_, fun d o ho => ?_⟩, fun x n' hn' hf hd => ?_,
    fun d x hx => ?_⟩
  · show g.typeOf x < _
    rw [htypeOf]
    exact hs.sane.typed x
  · obtain ⟨n, hn, ha, -⟩ := hg.exists_alike hn'
    exact ha.slot.trans (hs.sane.slot x n hn)
  · obtain ⟨n, hn, ha, -⟩ := hg.exists_alike hn'
    exact hs.sane.filter x n f hn (ha.filter ▸ hf)
  · have hd : d ∈ g.depsOf x := hd
    rw [hdepsOf] at hd
    obtain ⟨hne, hmem⟩ := hs.sane.wired x d hd
    exact ⟨hne, (hg.observers d _).mpr (.inl hmem)⟩
  · show (g.view o.node).isSome
    rw [Graph.isSome_view_congr hg.size]
    rcases (hg.observers d o).mp ho with ho | ⟨rfl, -⟩
    · exact hs.sane.observers d o ho
    · exact hid
  · obtain ⟨n, hn, ha, hdeps⟩ := hg.exists_alike hn'
    refine (hs.fresh x n hn (ha.frozen ▸ hf) (hdeps ▸ hd)).imp_left fun hfr => ?_
    exact hfr.congr rfl (made_congr hdeps ha.mapping ha.filter fun d _ => htypeOf d) ha.type
  · show IsFrozen g d ∨ (if x = id ∧ d ∈ watched ∧ _ then _ else _) = g.typeOf d ∨ _
    rw [htypeOf]
    by_cases hold : ⟨x, .recalc⟩ ∈ w.graph.observersOf d
    · -- an edge that was there keeps what was seen
      rw [if_neg (by rintro ⟨rfl, -, hnew⟩; exact hnew hold)]
      refine (hs.seen d x hold).imp_left ?_
      rintro ⟨n, hn, hf⟩
      have hfrozen := hg.map_eq Node.frozen (fun _ => rfl) d
      rw [hn, Option.map_some, hf] at hfrozen
      obtain ⟨n', hn', hf'⟩ := Option.map_eq_some_iff.mp hfrozen
      exact ⟨n', hn', hf'⟩
    · obtain ⟨heq, hmem, -⟩ := ((hg.observers d _).mp hx).resolve_left hold
      obtain rfl : x = id := congrArg Observer.node heq
      exact .inr (.inl (if_pos ⟨rfl, hmem, hold⟩))

/-- A new node concerns nobody. -/
theorem newNode (hs : Steady F w) (label : String) :
    Steady F { w with graph := (w.graph.add label).2 } := by
  have htype := Graph.typeOf_add w.graph label
  have hdeps := Graph.depsOf_add w.graph label
  have hobs := Graph.observersOf_add w.graph label
  have hview : ∀ x n, (w.graph.add label).2.view x = some n →
      n = { label } ∨ w.graph.view x = some n := by
    intro x n hn
    rw [Graph.view_add] at hn
    split at hn
    · exact .inl (Option.some.inj hn).symm
    · exact .inr hn
  refine ⟨⟨hs.sane.wellFormed, hs.sane.linked, ?_, fun x n hn => ?_, fun x n f hn hf => ?_, ?_,
    fun d o ho => ?_⟩, fun x n hn hf hd => ?_, fun d x hx => ?_⟩
  · show ∀ x, (w.graph.add label).2.typeOf x < _
    rw [htype]
    exact hs.sane.typed
  · rcases hview x n hn with rfl | hn
    · rfl
    · exact hs.sane.slot x n hn
  · rcases hview x n hn with rfl | hn
    · cases hf
    · exact hs.sane.filter x n f hn hf
  · show ∀ x, ∀ d ∈ (w.graph.add label).2.depsOf x, _ ∧ _ ∈ (w.graph.add label).2.observersOf d
    rw [hdeps, hobs]
    exact hs.sane.wired
  · have ho : o ∈ (w.graph.add label).2.observersOf d := ho
    rw [hobs] at ho
    obtain ⟨hpos, hlt⟩ := Graph.isSome_view_iff.mp (hs.sane.observers d o ho)
    refine Graph.isSome_view_iff.mpr ⟨hpos, ?_⟩
    rw [Graph.size_add]
    exact Nat.lt_succ_of_lt hlt
  · rcases hview x n hn with rfl | hn
    · exact absurd rfl hd
    · refine (hs.fresh x n hn hf hd).imp_left fun hfr => hfr.congr rfl ?_ rfl
      exact made_congr rfl rfl rfl fun d _ => by rw [htype]
  · have hx : ⟨x, .recalc⟩ ∈ (w.graph.add label).2.observersOf d := hx
    rw [hobs] at hx
    show _ ∨ _ = (w.graph.add label).2.typeOf d ∨ _
    rw [htype]
    refine (hs.seen d x hx).imp_left ?_
    rintro ⟨n, hn, hf⟩
    refine ⟨n, ?_, hf⟩
    rw [Graph.view_add, if_neg (Nat.ne_of_lt (Graph.lt_size_of_view hn).2), hn]

end Steady

end TypeFlow.Flow
