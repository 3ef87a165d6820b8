import TypeFlow.Proofs.Inference.Retaining

/-!
# Typing steps as acts

A typing step is `Evolving` if its runs are made of acts, keep connected what is, and remember what is looked up
by a name, also those that fail; `EvolvingFrom P` asks this only of runs that start where `P` holds. A step that is `Detached` leaves everything but types and nodes alone. The
rules follow the way steps are put together, and are applied to propagation here.
`TypeFlow.Proofs.Inference.Steps` goes on to the steps that resolve no call and type no tree,
`TypeFlow.Proofs.Inference.Typing` to the engine.
-/

namespace TypeFlow

/-! ### Rules -/

section

variable {α β γ : Type}

/-- Every run of a typing step advances the program, also one that fails. -/
def Evolving (m : Infer α) : Prop :=
  ∀ p, Advances p (m.run.run p).2

namespace Evolving

theorem advances {m : Infer α} (hm : Evolving m) {p p' : Program} {r : Except Failure α}
    (h : m.run.run p = (r, p')) : Advances p p' := by
  have hp := hm p
  rwa [h] at hp

theorem proceeds {m : Infer α} (hm : Evolving m) {p p' : Program} {r : Except Failure α}
    (h : m.run.run p = (r, p')) : Proceeds p p' :=
  (hm.advances h).toProceeds

theorem acts {m : Infer α} (hm : Evolving m) {p p' : Program} {r : Except Failure α}
    (h : m.run.run p = (r, p')) : Acts p p' :=
  (hm.proceeds h).acts

theorem of_run {m : Infer α} (hm : Evolving m) {p p' : Program} {r : Except Failure α}
    (h : m.run.run p = (r, p')) : Evolves p p' :=
  (hm.acts h).evolves

theorem pure (a : α) : Evolving (pure a : Infer α) :=
  fun _ => .refl

theorem throw (f : Failure) : Evolving (throw f : Infer α) :=
  fun _ => .refl

theorem bind {m : Infer α} {k : α → Infer β} (hm : Evolving m) (hk : ∀ a, Evolving (k a)) :
    Evolving (m >>= k) := by
  intro p
  have hrun : (m >>= k).run.run p = (ExceptT.bindCont k (m.run.run p).1).run (m.run.run p).2 := rfl
  have hfirst := hm p
  rw [hrun]
  -- a step that fails leaves what it did, and nothing follows
  cases hres : (m.run.run p).1 with
  | ok a => exact hfirst.trans (hk a _)
  | error f => exact hfirst

theorem attempt {m : Infer α} (hm : Evolving m) : Evolving (Flow.attempt m) :=
  hm

theorem locating {m : Infer α} (hm : Evolving m) (loc : Option Location) :
    Evolving (Flow.locating loc m) :=
  fun _ => Flow.Ends.locating (R := fun _ => Advances _) (fun _ _ h => hm.advances h) fun _ _ h => hm.advances h

theorem forIn {l : List γ} {f : γ → PUnit → Infer (ForInStep PUnit)}
    (hf : ∀ x, Evolving (f x ⟨⟩)) : Evolving (forIn l ⟨⟩ f) := by
  induction l with
  | nil => exact pure _
  | cons x l ih =>
    rw [List.forIn_cons]
    refine (hf x).bind fun r => ?_
    split
    · exact pure _
    · exact ih

theorem onTypes {c : TableM α} (hc : Table.Widening c) : Evolving (Flow.onTypes c : Infer α) :=
  fun p => .beside (.change (.types (hc p.types)) rfl) rfl rfl rfl (.of_named rfl)

theorem onGraph {c : Graph → α × Graph} (hc : ∀ g : Graph, g.Keeps (c g).2) :
    Evolving (Flow.onGraph c : Infer α) :=
  fun p => .graph (hc p.graph)

theorem changeGraph {f : Graph → Graph} (hf : ∀ g : Graph, g.Keeps (f g)) :
    Evolving (Flow.changeGraph f : Infer Unit) :=
  fun p => .graph (hf p.graph)

/-- A change of the environment that concerns neither sites nor what is opened for calls, nor methods and
instances, nor anything that is looked up by a name. -/
theorem changeEnv {f : Env → Env} (hs : ∀ e, (f e).sites = e.sites)
    (ho : ∀ e, (f e).opened = e.opened) (hc : ∀ e, (f e).catalogue = e.catalogue)
    (hn : ∀ e, (f e).named = e.named) : Evolving (Infer.changeEnv f) :=
  fun p => .beside (.change (.books (hs _) (congrArg Prod.fst (ho p.env))) (hc _)) rfl (hs _)
    (congrArg Prod.snd (ho p.env)) (.of_named (hn _))

end Evolving

theorem evolving_get : Evolving (get : Infer Program) :=
  fun _ => .refl

/-- A typing step concerns types and nodes only. -/
def Detached (m : Infer α) : Prop :=
  ∀ p, (m.run.run p).2.env = p.env

namespace Detached

theorem of_run {m : Infer α} (hm : Detached m) {p p' : Program} {r : Except Failure α}
    (h : m.run.run p = (r, p')) : p'.env = p.env := by
  have hp := hm p
  rwa [h] at hp

theorem pure (a : α) : Detached (pure a : Infer α) :=
  fun _ => rfl

theorem throw (f : Failure) : Detached (throw f : Infer α) :=
  fun _ => rfl

theorem bind {m : Infer α} {k : α → Infer β} (hm : Detached m) (hk : ∀ a, Detached (k a)) :
    Detached (m >>= k) := by
  intro p
  have hrun : (m >>= k).run.run p = (ExceptT.bindCont k (m.run.run p).1).run (m.run.run p).2 := rfl
  have hfirst := hm p
  rw [hrun]
  cases (m.run.run p).1 with
  | ok a => exact (hk a _).trans hfirst
  | error f => exact hfirst

theorem onTypes (c : TableM α) : Detached (Flow.onTypes c : Infer α) :=
  fun _ => rfl

theorem locating {m : Infer α} (hm : Detached m) (loc : Option Location) : Detached (Flow.locating loc m) :=
  fun p => Flow.Ends.locating (R := fun _ p' => p'.env = p.env) (fun _ _ h => hm.of_run h) fun _ _ h => hm.of_run h

end Detached

/-- Every run of a typing step that starts where `P` holds advances the program. -/
def EvolvingFrom (P : Program → Prop) (m : Infer α) : Prop :=
  ∀ p, P p → Advances p (m.run.run p).2

theorem Evolving.from {m : Infer α} (hm : Evolving m) (P : Program → Prop) : EvolvingFrom P m :=
  fun p _ => hm p

/-- Whatever acts keep true. -/
def Program.Lasting (P : Program → Prop) : Prop :=
  ∀ p p', Acts p p' → P p → P p'

theorem Program.lasting_names (id : MethodId) : Lasting (·.Names id) :=
  fun _ _ h => h.names

namespace EvolvingFrom

variable {P : Program → Prop}

theorem advances {m : Infer α} (hm : EvolvingFrom P m) {p p' : Program} (hp : P p)
    {r : Except Failure α} (h : m.run.run p = (r, p')) : Advances p p' := by
  have hadvances := hm p hp
  rwa [h] at hadvances

theorem proceeds {m : Infer α} (hm : EvolvingFrom P m) {p p' : Program} (hp : P p)
    {r : Except Failure α} (h : m.run.run p = (r, p')) : Proceeds p p' :=
  (hm.advances hp h).toProceeds

theorem acts {m : Infer α} (hm : EvolvingFrom P m) {p p' : Program} (hp : P p) {r : Except Failure α}
    (h : m.run.run p = (r, p')) : Acts p p' :=
  (hm.proceeds hp h).acts

theorem attempt {m : Infer α} (hm : EvolvingFrom P m) : EvolvingFrom P (Flow.attempt m) :=
  hm

/-- What follows starts where the first step ends. -/
theorem andThen {m : Infer α} {k : α → Infer β} {Q : α → Program → Prop} (hm : EvolvingFrom P m)
    (hQ : ∀ p a p', P p → m.run.run p = (.ok a, p') → Q a p') (hk : ∀ a, EvolvingFrom (Q a) (k a)) :
    EvolvingFrom P (m >>= k) := by
  intro p hp
  have hrun : (m >>= k).run.run p = (ExceptT.bindCont k (m.run.run p).1).run (m.run.run p).2 := rfl
  have hfirst := hm p hp
  rw [hrun]
  cases hres : (m.run.run p).1 with
  | ok a => exact hfirst.trans (hk a _ (hQ p a _ hp (Prod.ext hres rfl)))
  | error f => exact hfirst

theorem bind {m : Infer α} {k : α → Infer β} (hP : Program.Lasting P) (hm : EvolvingFrom P m)
    (hk : ∀ a, EvolvingFrom P (k a)) : EvolvingFrom P (m >>= k) := by
  refine hm.andThen (fun p a p' hp hrun => ?_) hk
  exact hP p p' (hm.acts hp hrun) hp

end EvolvingFrom

end

/-! ### Propagation -/

namespace Flow

theorem evolving_types : Evolving (types : Infer Table) :=
  fun _ => .refl

theorem evolving_typeOf (id : NodeId) : Evolving (typeOf id : Infer TypeId) :=
  fun _ => .refl

theorem evolving_newNode (label : String) : Evolving (newNode label : Infer NodeId) :=
  .onGraph fun g => .add g label

theorem evolving_freeze (id : NodeId) (t : TypeId) : Evolving (freeze id t : Infer Unit) :=
  .changeGraph fun g => .modify_beside g id fun _ => rfl

/-- Hooks that evolve the program. -/
structure Tame (h : Hooks Env) : Prop where
  recalc : ∀ x, Evolving (h.recalc x)
  responds : ∀ e c name, Table.Widening (h.responds e c name)

variable {h : Hooks Env}

theorem evolving_frozenFailure (n : Graph.Node) (t : TypeId) :
    Evolving (frozenFailure n t : Infer Failure) :=
  evolving_types.bind fun _ => .pure _

theorem evolving_assign (id : NodeId) (n : Graph.Node) (t : TypeId) :
    Evolving (assign id n t : Infer Unit) := by
  refine .bind (.changeGraph fun g => .modify_beside g id fun _ => rfl) fun _ => ?_
  split
  · exact .pure _
  · exact .onTypes (Table.widening_setIVar _ _ _)

theorem evolving_settle (id : NodeId) (n : Graph.Node) (t : TypeId) :
    Evolving (settle id n t : Infer Bool) := by
  unfold settle
  split
  · exact .pure _
  · split
    · refine evolving_types.bind fun _ => ?_
      split
      · exact .pure _
      · exact (evolving_frozenFailure n t).bind fun _ => .throw _
    · exact (evolving_assign id n t).bind fun _ => .pure _

section

variable (hresponds : ∀ e c name, Table.Widening (h.responds e c name))
include hresponds

theorem evolving_mapped (n : Graph.Node) (t : TypeId) : Evolving (mapped h n t) := by
  unfold Flow.mapped
  split
  · exact .pure _
  · exact .onTypes (Table.widening_intern _)
  · refine .bind (.onTypes (Table.widening_instantiate _ _)) fun a => ?_
    split <;> exact .pure _
  · exact .onTypes (Table.widening_intern _)
  · split
    · exact .pure _
    · exact evolving_get.bind fun p => .onTypes (Filter.widening_apply (hresponds p.env) _ _)

theorem evolving_recompute (id : NodeId) : Evolving (recompute h id) := by
  refine evolving_get.bind fun p => ?_
  simp only
  split
  · exact .pure _
  · split
    · exact .pure _
    · refine .bind (.onTypes (Table.widening_merge _)) fun t => ?_
      split
      · exact .pure _
      · exact (evolving_mapped hresponds _ _).bind fun _ => evolving_settle _ _ _

end

theorem Tame.recompute (hh : Tame h) (id : NodeId) : Evolving (recompute h id) :=
  evolving_recompute hh.responds id

theorem Tame.serve (hh : Tame h) (o : Graph.Observer) : Evolving (serve h o) := by
  unfold Flow.serve
  split
  · exact hh.recompute _
  · exact (hh.recalc _).bind fun _ => .pure _

theorem Tame.serveAll (hh : Tame h) (fuel : Nat) (queue : List Graph.Observer) :
    Evolving (serveAll h fuel queue) := by
  induction fuel generalizing queue with
  | zero =>
    cases queue with
    | nil => exact .pure _
    | cons o queue => exact .bind (.changeGraph fun g => .drain g _) fun _ => .throw _
  | succ fuel ih =>
    cases queue with
    | nil => exact .pure _
    | cons o queue =>
      refine .bind (.changeGraph fun g => .unqueue g o) fun _ => (hh.serve o).attempt.bind fun r => ?_
      split
      · exact .bind (.changeGraph fun g => .drain g _) fun _ => .throw _
      · exact ih queue
      · exact .bind (.onGraph fun g => .queueObservers g _) fun more => ih _

theorem Tame.propagate (hh : Tame h) (id : NodeId) : Evolving (propagate h id) :=
  .bind (.onGraph fun g => .queueObservers g id) fun queue => hh.serveAll _ queue

theorem Tame.setType (hh : Tame h) (id : NodeId) (t : TypeId) : Evolving (setType h id t) := by
  refine evolving_get.bind fun p => ?_
  split
  · exact .pure _
  · split
    · exact .pure _
    · split
      · exact (evolving_frozenFailure _ _).bind fun _ => .throw _
      · exact (evolving_assign _ _ _).bind fun _ => hh.propagate id

/-- What follows once dependencies are added. -/
theorem Tame.refresh (hh : Tame h) (id : NodeId) (added : Bool) : Evolving (do
    if added then
      if ← Flow.recompute h id then Flow.propagate h id) := by
  split
  · refine (hh.recompute id).bind fun changed => ?_
    split
    · exact hh.propagate id
    · exact .pure _
  · exact .pure _

theorem Tame.dependOn (hh : Tame h) (id : NodeId) (deps : List NodeId) :
    Evolving (dependOn h id deps) :=
  .bind (.onGraph fun g => .addDeps g id deps) fun added => hh.refresh id added

end Flow

end TypeFlow
