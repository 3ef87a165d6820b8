import TypeFlow.Proofs.Types.Built
import TypeFlow.Proofs.Flow.Steady

/-!
# Propagation loses nothing

Queues nest: resolving a call again performs operations, whose propagations leave alone what waits in an
outer queue already. `Pending g F` says that all that waits in the graph `g` is on the list `F`, which
stands for the outer queues. Every operation, however it ends, keeps this for every list (its own queue
is served, or given up with the failure that ends it), and one that does not fail keeps the world steady
except for the list (`Quiet`). With the empty list this is what holds after an operation from outside
(`runEach_quiet`): nothing waits, and if nothing has failed so far, every node and every call is up to
date.

The proof goes along the nesting. If the hooks at one depth are quiet, so are propagation, the operations
and scripts that use them, and the hooks one deeper.
-/

namespace TypeFlow.Flow

open TypeFlow.Graph (Observer Node Pending)
open Table (Later)

variable {κ α : Type} {h : Hooks (Trace κ)} {w w' : World (Trace κ)} {F : List Observer}

/-- How a computation ends: all that waits is on the list, and a world that was steady except for the
list `F₀` is steady except for the list `F` unless the computation has failed. -/
structure Quiet (F₀ F : List Observer) (w : World (Trace κ)) (r : Except Failure α)
    (w' : World (Trace κ)) : Prop where
  pending : Pending w'.graph F
  steady : ∀ a, r = .ok a → Steady F₀ w → Steady F w'

/-- Hooks that leave a call up to date. -/
def QuietHooks (h : Hooks (Trace κ)) : Prop :=
  ∀ (F : List Observer) (w : World (Trace κ)) (x : NodeId), Pending w.graph F →
    Ends w (h.recalc x) (Quiet (⟨x, .recalc⟩ :: F) F w)

theorem Quiet.error {F₀ : List Observer} {e : Failure} (hl : Pending w'.graph F) :
    Quiet (α := α) F₀ F w (.error e) w' :=
  ⟨hl, fun _ ha => by cases ha⟩

/-! ### Serving observers -/

/-- What serving an observer does. -/
structure Served (F : List Observer) (o : Observer) (w : World (Trace κ)) (r : Except Failure Bool)
    (w' : World (Trace κ)) : Prop where
  pending : Pending w'.graph F
  same : r = .ok false → Steady (o :: F) w → Steady F w'
  changed : r = .ok true → Steady (o :: F) w → Steady (F ++ w'.graph.observersOf o.node) w'

/-- Computing a node again makes it fresh, and concerns its observers if it changes. -/
theorem ends_recompute (hp : Pending w.graph F) (x : NodeId) :
    Ends w (recompute h x) (Served F ⟨x, .update⟩ w) := by
  by_cases hx : w.graph.depsOf x = []
  · have hrun : (recompute h x).run.run w = (.ok false, w) :=
      recompute_of_no_deps fun n hn => by rw [← Graph.depsOf_of_get? hn, hx]
    rw [Ends, hrun]
    refine ⟨hp, fun _ hs => hs.unlist fun n hn _ hd => ?_, fun htrue => by cases htrue⟩
    rw [Graph.depsOf_of_view hn] at hx
    exact absurd hx hd
  · obtain ⟨d, hd⟩ := List.exists_mem_of_ne_nil _ hx
    obtain ⟨m, hm⟩ := Graph.exists_view_of_mem_depsOf hd
    obtain ⟨n, hn, rfl⟩ := Graph.get?_of_view hm
    have hdeps : n.deps ≠ [] := by rwa [← Graph.depsOf_of_get? hn]
    have honly : ∀ {m}, w.graph.view x = some m → m = n.unmarked := fun hm' =>
      Option.some.inj (hm'.symm.trans hm)
    rw [Ends, recompute_eq hn hdeps, settle_eq]
    split
    · rename_i hsame
      refine ⟨hp, fun _ hs => ?_, fun htrue => by cases htrue⟩
      obtain ⟨hlater, -, hagain⟩ := hs.sane.evaluate_again h hn
      refine (hs.of_later hlater).unlist fun m hm' _ _ responds t ht => ?_
      rw [honly hm', hagain responds t ht]
      exact hsame
    · split
      · rename_i hfrozen
        split
        · refine ⟨hp, fun _ hs => ?_, fun htrue => by cases htrue⟩
          obtain ⟨hlater, -, -⟩ := hs.sane.evaluate_again h hn
          refine (hs.of_later hlater).unlist fun m hm' hf _ => ?_
          rw [honly hm'] at hf
          exact absurd (hfrozen.symm.trans hf) (by simp)
        · exact ⟨hp, fun hok => (by cases hok), fun hok => by cases hok⟩
      · refine ⟨fun o ho => hp o ((Graph.waiting_retype _ _ _).mp ho), fun hfalse => (by cases hfalse),
          fun _ hs => ?_⟩
        obtain ⟨hlater, hlt, hagain⟩ := hs.sane.evaluate_again h hn
        have hslot : n.slot = none := hs.sane.slot x n.unmarked hm
        have hnode : IsNode w.graph x := by
          rw [IsNode, hm]
          rfl
        show Steady (F ++ (w.graph.retype x _).observersOf x) _
        rw [writeSlot_of_none hslot, Graph.observersOf_retype]
        refine (hs.of_later hlater).retype hnode hlt fun m hm' _ responds t ht => ?_
        rw [honly hm']
        exact hagain responds t ht

theorem ends_serve (hh : QuietHooks h) (hp : Pending w.graph F) (o : Observer) :
    Ends w (serve h o) (Served F o w) := by
  obtain ⟨x, e⟩ := o
  cases e with
  | update => exact ends_recompute hp x
  | recalc =>
    refine Ends.bind (fun _ w₁ hrun => ?_) fun e w₁ hrun => ?_
    · have hq := (hh F w x hp).of_run hrun
      exact Ends.pure ⟨hq.pending, fun _ hs => hq.steady () rfl hs, fun htrue => by cases htrue⟩
    · have hq := (hh F w x hp).of_run hrun
      exact ⟨hq.pending, fun hok => (by cases hok), fun hok => by cases hok⟩

/-- Queueing the observers of a node puts them on the list, unless they are on it. -/
theorem queueObservers_quiet {G more : List Observer} {g : Graph} {x : NodeId}
    (hp : Pending w.graph G) (hres : w.graph.queueObservers x = (more, g)) :
    Pending g (G ++ more) ∧
      (Steady (G ++ w.graph.observersOf x) w → Steady (G ++ more) { w with graph := g }) := by
  rw [Graph.queueObservers_eq] at hres
  obtain ⟨hwait, hall⟩ := Graph.waiting_queueUp w.graph (w.graph.observersOf x)
  have hview := Graph.view_queueUp w.graph (w.graph.observersOf x)
  rw [hres] at hwait hall hview
  have hpend : Pending g (G ++ more) := by
    intro o ho
    rcases (hwait o).mp ho with ho | ho
    · exact List.mem_append_left _ (hp o ho)
    · exact List.mem_append_right _ ho
  refine ⟨hpend, fun hs => ?_⟩
  have hs' : Steady (G ++ more) w := by
    refine hs.mono fun o ho => ?_
    rcases List.mem_append.mp ho with ho | ho
    · exact List.mem_append_left _ ho
    · exact hpend o (hall o ho (hs.sane.observers x o ho))
  exact hs'.of_view rfl hview rfl

/-- **A queue is served or given up**, and what is on the list besides is left alone. -/
theorem ends_serveAll (hh : QuietHooks h) {fuel : Nat} {queue : List Observer}
    (hp : Pending w.graph (F ++ queue)) :
    Ends w (serveAll h fuel queue) (Quiet (F ++ queue) F w) := by
  -- a queue that is given up no longer waits
  have hdrain : ∀ {g : Graph} {q : List Observer}, Pending g (F ++ q) → Pending (g.drain q) F := by
    intro g q hq o ho
    obtain ⟨hwait, hnot⟩ := Graph.waiting_of_drain ho
    exact (List.mem_append.mp (hq o hwait)).resolve_right hnot
  have hnil : ∀ {v : World (Trace κ)}, Pending v.graph (F ++ []) →
      Quiet (F ++ []) F v (.ok ()) v := by
    intro v hv
    rw [List.append_nil] at hv ⊢
    exact ⟨hv, fun _ _ hs => hs⟩
  induction fuel generalizing w queue with
  | zero =>
    cases queue with
    | nil => exact Ends.pure (hnil hp)
    | cons o queue => exact Ends.changeGraph_bind (Ends.throw (.error (hdrain hp)))
  | succ fuel ih =>
    cases queue with
    | nil => exact Ends.pure (hnil hp)
    | cons o queue =>
      rw [serveAll]
      refine Ends.changeGraph_bind (Ends.attempt_bind ?_)
      generalize hw₁ : ({ w with graph := w.graph.unqueue o } : World (Trace κ)) = w₁
      have hp₁ : Pending w₁.graph (F ++ queue) := by
        rw [← hw₁]
        intro p hwait
        obtain ⟨hne, hwait⟩ := (Graph.waiting_unqueue _ _ _).mp hwait
        rcases List.mem_append.mp (hp p hwait) with hin | hin
        · exact List.mem_append_left _ hin
        · exact List.mem_append_right _ ((List.mem_cons.mp hin).resolve_left hne)
      have hs₁ : Steady (F ++ o :: queue) w → Steady (o :: (F ++ queue)) w₁ := by
        intro hs
        rw [← hw₁]
        refine (hs.mono fun p hin => ?_).of_view rfl (Graph.view_unqueue _ _) rfl
        simpa [or_left_comm] using hin
      refine (ends_serve hh hp₁ o).imp fun r w₂ hr => ?_
      match r, hr with
      | .error e, hr => exact Ends.changeGraph_bind (Ends.throw (.error (hdrain hr.pending)))
      | .ok false, hr =>
        refine (ih hr.pending).imp fun r' w' hq => ⟨hq.pending, fun a ha hs => ?_⟩
        exact hq.steady a ha (hr.same rfl (hs₁ hs))
      | .ok true, hr =>
        refine Ends.onGraph_bind ?_
        rcases hres : w₂.graph.queueObservers o.node with ⟨more, g⟩
        obtain ⟨hp₃, hs₃⟩ := queueObservers_quiet hr.pending hres
        rw [List.append_assoc F queue more] at hp₃ hs₃
        refine (ih (w := { w₂ with graph := g }) hp₃).imp fun r' w' hq =>
          ⟨hq.pending, fun a ha hs => hq.steady a ha (hs₃ (hr.changed rfl (hs₁ hs)))⟩

/-- A change of a node that was announced is told to its observers. -/
theorem ends_propagate (hh : QuietHooks h) (hp : Pending w.graph F) (x : NodeId) :
    Ends w (propagate h x) (Quiet (F ++ w.graph.observersOf x) F w) := by
  refine Ends.onGraph_bind ?_
  rcases hres : w.graph.queueObservers x with ⟨more, g⟩
  obtain ⟨hp₁, hs₁⟩ := queueObservers_quiet hp hres
  refine (ends_serveAll (w := { w with graph := g }) hh hp₁).imp fun r w' hq => ?_
  exact ⟨hq.pending, fun a ha hs => hq.steady a ha (hs₁ hs)⟩

/-! ### Operations -/

/-- Giving a type to a node without dependencies. -/
theorem ends_setType (hh : QuietHooks h) (hp : Pending w.graph F) {id : NodeId} {type : TypeId}
    (hdeps : w.graph.depsOf id = []) (htype : type < w.types.size) :
    Ends w (setType h id type) (Quiet F F w) := by
  refine Ends.get_bind ?_
  cases hn : w.graph.get? id with
  | none => exact Ends.pure ⟨hp, fun _ _ hs => hs⟩
  | some n =>
    simp only
    split
    · exact Ends.pure ⟨hp, fun _ _ hs => hs⟩
    · split
      · rw [Ends, frozenFailure, bind_assoc, run_types_bind]
        exact .error hp
      · refine Ends.bind (fun _ w₁ hrun => ?_) fun e w₁ hrun => ?_
        · rw [assign_eq] at hrun
          obtain ⟨-, rfl⟩ := Prod.mk.inj hrun
          have hp₁ : Pending (w.graph.retype id type) F := fun o ho =>
            hp o ((Graph.waiting_retype _ _ _).mp ho)
          refine (ends_propagate hh hp₁ id).imp fun r w' hq =>
            ⟨hq.pending, fun a ha hs => hq.steady a ha ?_⟩
          have hview := Graph.view_of_get? hn
          have hslot : n.slot = none := hs.sane.slot id n.unmarked hview
          have hnode : IsNode w.graph id := by
            rw [IsNode, hview]
            rfl
          show Steady (F ++ (w.graph.retype id type).observersOf id) _
          rw [writeSlot_of_none hslot, Graph.observersOf_retype]
          refine (hs.mono fun o ho => List.mem_cons_of_mem _ ho).retype hnode htype ?_
          intro m hm hne
          rw [Graph.depsOf_of_view hm] at hdeps
          exact absurd hdeps hne
        · rw [assign_eq] at hrun
          cases hrun

/-- Making a node depend on others. Its dependencies may have been changed before, if any is new. -/
theorem ends_dependOn (hh : QuietHooks h) (hp : Pending w.graph F) {id : NodeId} {deps : List NodeId}
    (hid : IsNode w.graph id) (hdeps : ∀ d ∈ deps, d < w.graph.size) {F₀ : List Observer}
    (hF : F₀ = F ∨ F₀ = ⟨id, .update⟩ :: F ∧ ∃ d ∈ deps, d ≠ 0 ∧ d ≠ id ∧ d ∉ w.graph.depsOf id) :
    Ends w (dependOn h id deps) (Quiet F₀ F w) := by
  obtain ⟨hg, hmem, hsame⟩ := Graph.addDeps_wires hid hdeps
  have hr : Graph.Rewires w.graph (w.graph.addDeps id deps).2 id := hg.rewires fun d hd =>
    ((hmem d).mp hd).imp_right fun hnew => hnew.2.2
  have hnode : IsNode (w.graph.addDeps id deps).2 id := by
    rw [IsNode, Graph.isSome_view_congr hg.size]
    exact hid
  refine Ends.onGraph_bind ?_
  rcases hres : w.graph.addDeps id deps with ⟨added, g⟩
  rw [hres] at hmem hsame hr hnode
  cases added with
  | false =>
    obtain rfl : g = w.graph := hsame rfl
    refine Ends.pure ⟨hp, fun _ _ hs => ?_⟩
    rcases hF with rfl | ⟨-, d, hd, h0, hne, hnew⟩
    · exact hs
    · exact absurd ((hmem d).mpr (.inr ⟨hd, h0, hne⟩)) hnew
  | true =>
    have hs₁ : Steady F₀ w → Steady (⟨id, .update⟩ :: F) { w with graph := g } := by
      intro hs
      refine (hs.rewires hid hr).mono fun o ho => ?_
      rcases hF with rfl | ⟨rfl, -⟩
      · exact ho
      · simpa using ho
    have hp₁ : Pending g F := fun o ho => hp o ((hr.waiting o).mp ho)
    have hrec := ends_recompute (h := h) (w := { w with graph := g }) hp₁ id
    simp only [if_true]
    refine Ends.bind (fun changed w₂ hrun => ?_) fun e w₂ hrun => ?_
    · have hserved := hrec.of_run hrun
      cases changed with
      | false => exact Ends.pure ⟨hserved.pending, fun _ _ hs => hserved.same rfl (hs₁ hs)⟩
      | true =>
        refine (ends_propagate hh hserved.pending id).imp fun r w' hq =>
          ⟨hq.pending, fun a ha hs => hq.steady a ha (hserved.changed rfl (hs₁ hs))⟩
    · exact .error (hrec.of_run hrun).pending

/-- Changes of a single node that touch no mark. -/
theorem ends_modify (hp : Pending w.graph F) {id : NodeId} {f : Node → Node}
    (hf : ∀ n e, (f n).isQueued e = n.isQueued e)
    (hs : Steady F w → Steady F { w with graph := w.graph.modify id f }) :
    Ends w (changeGraph (·.modify id f)) (Quiet F F w) :=
  Ends.changeGraph ⟨fun o ho => hp o ((Graph.waiting_modify _ _ hf).mp ho), fun _ _ => hs⟩

/-- **Every operation that makes sense is quiet**, provided the hooks are. -/
theorem ends_run (hh : QuietHooks h) (hp : Pending w.graph F) {op : Operation}
    (hop : op.Permitted w) : Ends { w with env := op.noted w } (op.run h) (Quiet F F w) := by
  cases op with
  | newNode label =>
    refine Ends.onGraph_bind (Ends.pure ⟨fun o ho => ?_, fun _ _ hs => hs.newNode label⟩)
    exact hp o ((Graph.waiting_add _ _).mp ho)
  | freeze id type =>
    obtain ⟨hid, hdeps, hobs, htype⟩ := hop
    refine ends_modify hp (fun _ e => by cases e <;> rfl) fun hs => ?_
    exact hs.modify_source (fun _ => rfl) (fun _ => rfl) (fun _ => rfl) (fun _ => rfl) hid hdeps
      (fun _ _ hp => .inl hp) (.inr ⟨fun _ => ⟨htype, rfl⟩, hobs⟩)
  | setMapping id mapping =>
    obtain ⟨hid, hdeps⟩ := hop
    refine ends_modify hp (fun _ e => by cases e <;> rfl) fun hs => ?_
    exact hs.modify_source (fun _ => rfl) (fun _ => rfl) (fun _ => rfl) (fun _ => rfl) hid hdeps
      (fun _ _ hp => .inl hp) (.inl fun _ => ⟨rfl, rfl⟩)
  | setFilter id filter =>
    obtain ⟨hid, hdeps, hreads⟩ := hop
    refine ends_modify hp (fun _ e => by cases e <;> rfl) fun hs => ?_
    refine hs.modify_source (fun _ => rfl) (fun _ => rfl) (fun _ => rfl) (fun _ => rfl) hid hdeps
      (fun _ p hp => .inr ?_) (.inl fun _ => ⟨rfl, rfl⟩)
    obtain rfl := Option.some.inj hp
    exact hreads
  | setType id type => exact ends_setType hh hp hop.2.1 hop.2.2
  | bind id deps => exact ends_dependOn hh hp hop.1 hop.2 (.inl rfl)
  | watch id watched =>
    have hg := Graph.watch_watches w.graph id watched
    exact Ends.changeGraph ⟨fun o ho => hp o ((hg.waiting o).mp ho), fun _ _ hs =>
      hs.watches hop.1 hg⟩
  | rebind id dropped added =>
    obtain ⟨hid, hadded, d, hd, h0, hne, hnew⟩ := hop
    obtain ⟨hr, hmem⟩ := Graph.dropDeps_rewires w.graph id dropped
    have hid' : IsNode (w.graph.dropDeps id dropped) id := by
      rw [IsNode, Graph.isSome_view_congr hr.size]
      exact hid
    have hnew' : d ∉ (w.graph.dropDeps id dropped).depsOf id := fun hin =>
      hnew.elim ((hmem d).mp hin).2 fun hnot => hnot ((hmem d).mp hin).1
    have hp' : Pending (w.graph.dropDeps id dropped) F := fun o ho => hp o ((hr.waiting o).mp ho)
    refine Ends.changeGraph_bind ?_
    refine (ends_dependOn (w := { w with graph := w.graph.dropDeps id dropped }) hh hp' hid'
      (fun e he => by rw [hr.size]; exact hadded e he)
      (.inr ⟨rfl, d, hd, h0, hne, hnew'⟩)).imp fun r w' hq => ?_
    exact ⟨hq.pending, fun a ha hs => hq.steady a ha (hs.rewires hid hr)⟩

/-- So is one that is left out where it makes no sense. -/
theorem ends_perform (hh : QuietHooks h) (hp : Pending w.graph F) (op : Operation) :
    Ends w (op.perform h) (Quiet F F w) := by
  refine Ends.get_bind ?_
  split
  · rename_i hop
    exact ends_run hh hp hop
  · exact Ends.pure ⟨hp, fun _ _ hs => hs⟩

/-! ### Scripts and hooks -/

/-- A script is quiet, since each of its steps is. -/
theorem Script.ends_run (hh : QuietHooks h) (script : Script κ) (hp : Pending w.graph F) :
    Ends w (script.run h) (Quiet F F w) := by
  induction script generalizing w with
  | done => exact Ends.pure ⟨hp, fun _ _ hs => hs⟩
  | fail failure => exact Ends.throw (.error hp)
  | look next ih => exact Ends.get_bind (ih w hp)
  | note change next ih =>
    refine Ends.imp (ih (w := { w with env := { w.env with own := change w.env.own } }) hp) ?_
    exact fun r w' hq => ⟨hq.pending, fun a ha hs => hq.steady a ha (hs.of_view rfl rfl rfl)⟩
  | perform op next ih =>
    refine Ends.bind (fun _ w₁ hrun => ?_) fun e w₁ hrun => ?_
    · have hq := (ends_perform hh hp op).of_run hrun
      refine (ih hq.pending).imp fun r w' hq' => ⟨hq'.pending, fun a ha hs => ?_⟩
      exact hq'.steady a ha (hq.steady () rfl hs)
    · exact .error ((ends_perform hh hp op).of_run hrun).pending

/-- **Hooks that follow scripts are quiet at every depth.** -/
theorem quietHooks (responds : Trace κ → TypeId → String → TableM Bool) (budget : Nat)
    (script : NodeId → Script κ) (depth : Nat) :
    QuietHooks (hooks responds budget script depth) := by
  induction depth with
  | zero => exact fun F w x hp => Ends.throw (.error hp)
  | succ depth ih =>
    intro F w x hp
    refine Ends.imp ((script x).ends_run (w := resolved x w) ih hp) fun r w' hq => ?_
    exact ⟨hq.pending, fun a ha hs => hq.steady a ha hs.resolved⟩

/-! ### Runs -/

theorem steady_empty {t : Table} (h : t.WellFormed) (hl : t.Linked) (env : Trace κ) :
    Steady [] ⟨t, {}, env⟩ := by
  have hview : ∀ x, Graph.view {} x = none := by
    intro x
    rw [← Option.not_isSome_iff_eq_none, Graph.isSome_view_iff]
    rintro ⟨hpos, hlt⟩
    exact Nat.ne_of_gt hpos (Nat.lt_one_iff.mp hlt)
  have hobs : ∀ x, Graph.observersOf {} x = [] := fun x => by rw [Graph.observersOf, hview]; rfl
  refine ⟨⟨h, hl, fun x => ?_, fun x n hn => ?_, fun x n f hn => ?_, fun x d hd => ?_, fun d o ho => ?_⟩,
    fun x n hn => ?_, fun d x hx => ?_⟩
  · rw [Graph.typeOf_eq, hview]
    exact t.size_pos
  · exact absurd hn (by rw [hview]; simp)
  · exact absurd hn (by rw [hview]; simp)
  · obtain ⟨n, hn⟩ := Graph.exists_view_of_mem_depsOf hd
    exact absurd hn (by rw [hview]; simp)
  · exact absurd ho (by rw [hobs]; simp)
  · exact absurd hn (by rw [hview]; simp)
  · exact absurd hx (by rw [hobs]; simp)

/-- After any operations nothing waits, and if none has failed the world is steady. -/
theorem runEach_steady (hh : QuietHooks h) (ops : List Operation) (hp : Pending w.graph []) :
    Pending (runEach (·.perform h) ops w).2.graph [] ∧
      ((∀ r ∈ (runEach (·.perform h) ops w).1, r = .ok ()) → Steady [] w →
        Steady [] (runEach (·.perform h) ops w).2) := by
  induction ops generalizing w with
  | nil => exact ⟨hp, fun _ hs => hs⟩
  | cons op ops ih =>
    have hq : Quiet [] [] w _ _ := ends_perform hh hp op
    obtain ⟨hp', hs'⟩ := ih hq.pending
    rw [runEach]
    refine ⟨hp', fun hok hs => ?_⟩
    obtain ⟨hfirst, hrest⟩ := List.forall_mem_cons.mp hok
    exact hs' hrest (hq.steady () hfirst hs)

/-- **Propagation loses nothing.** Whatever operations are performed one after the other, and whatever
the hooks do in between, how deep they nest and whether or not they fail: afterwards nothing waits in a
queue. If no operation has failed, a node whose type is not fixed has what its dependencies make of it,
unless that is nothing, and the call at a node that watches another one was resolved for the type that
this has, unless that was fixed. -/
theorem runEach_quiet {t : Table} (hbuilt : t.Built)
    (responds : Trace κ → TypeId → String → TableM Bool) (budget : Nat) (script : NodeId → Script κ)
    (depth : Nat) (own : κ) (ops : List Operation) :
    let h := hooks responds budget script depth
    let run := runEach (·.perform h) ops ⟨t, {}, ⟨own, fun _ _ => 0⟩⟩
    (∀ x n, run.2.graph.get? x = some n → n.queuedUpdate = false ∧ n.queuedRecalc = false) ∧
    ((∀ r ∈ run.1, r = .ok ()) →
      (∀ x n, run.2.graph.get? x = some n → n.frozen = false → n.deps ≠ [] →
        (evaluate h run.2 n).1 = 0 ∨ (evaluate h run.2 n).1 = n.type) ∧
      (∀ d x, ⟨x, .recalc⟩ ∈ run.2.graph.observersOf d →
        IsFrozen run.2.graph d ∨ run.2.env.seen x d = run.2.graph.typeOf d)) := by
  have hstart := steady_empty (κ := κ) hbuilt.wellFormed hbuilt.linked ⟨own, fun _ _ => 0⟩
  have hnone : Pending ({} : Graph) [] := by
    rintro o ⟨n, hn, -⟩
    obtain ⟨hpos, hlt⟩ := Graph.isSome_get?_iff.mp (Option.isSome_of_mem hn)
    exact absurd (Nat.lt_one_iff.mp hlt) (Nat.ne_of_gt hpos)
  obtain ⟨hp, hs⟩ := runEach_steady (w := ⟨t, {}, ⟨own, fun _ _ => 0⟩⟩)
    (quietHooks responds budget script depth) ops hnone
  refine ⟨fun x n hn => ⟨?_, ?_⟩, fun hok => ?_⟩
  · by_contra hq
    exact absurd (hp ⟨x, .update⟩ ⟨n, hn, by simpa [Node.isQueued] using hq⟩) (by simp)
  · by_contra hq
    exact absurd (hp ⟨x, .recalc⟩ ⟨n, hn, by simpa [Node.isQueued] using hq⟩) (by simp)
  · obtain ⟨hsane, hfresh, hseen⟩ := hs hok hstart
    refine ⟨fun x n hn hf hd => ?_, fun d x hx => ?_⟩
    · have hnew := (hfresh x n.unmarked (Graph.view_of_get? hn) hf hd).resolve_right (by simp)
      rw [evaluate_eq]
      exact hnew _ _ (.refl hsane.wellFormed hsane.linked)
    · exact (hseen d x hx).imp_right fun h => h.resolve_right (by simp)

/-- A call that is resolved when the node it watches gets a type, and that binds a third node then. -/
theorem runEach_quiet_nested :
    let ops : List Operation :=
      [.newNode "a", .newNode "b", .newNode "c", .watch 2 [1], .setType 1 Builtin.string]
    let h := hooks (fun _ _ _ => pure false) 10 (fun _ => .perform (.bind 3 [1]) .done) 2
    let run := runEach (·.perform h) ops ⟨.initial, {}, ⟨(), fun _ _ => 0⟩⟩
    (∀ r ∈ run.1, r = .ok ()) ∧ run.2.graph.depsOf 3 = [1] ∧
      (∀ x n, run.2.graph.get? x = some n → n.queuedUpdate = false ∧ n.queuedRecalc = false) ∧
      (∀ x n, run.2.graph.get? x = some n → n.frozen = false → n.deps ≠ [] →
        (evaluate h run.2 n).1 = 0 ∨ (evaluate h run.2 n).1 = n.type) := by
  intro ops h run
  have hok : run.1 = [.ok (), .ok (), .ok (), .ok (), .ok ()] := rfl
  have hall : ∀ r ∈ run.1, r = .ok () := by
    rw [hok]
    simp
  obtain ⟨hflags, hrest⟩ := runEach_quiet .initial (fun _ _ _ => pure false) 10
    (fun _ => .perform (.bind 3 [1]) .done) 2 () ops
  exact ⟨hall, rfl, hflags, (hrest hall).1⟩

end TypeFlow.Flow
