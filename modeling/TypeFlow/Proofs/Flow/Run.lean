import TypeFlow.Flow.Propagation
import TypeFlow.Proofs.Flow.Nodes

/-!
# Running computations on a world

`Ends w x Q` says how a computation ends: run on the world `w`, it ends with an outcome, which may be a
failure, and a world that satisfy `Q`. Every computation ends, so that this is total correctness; a
failure keeps the world that was reached.

Computing a node again is the one step of propagation that changes a type. It splits into what the
dependencies of the node make (`evaluate`), which only adds types, and what is done with that
(`settle_eq`).
-/

namespace TypeFlow.Flow

variable {κ α β : Type} {w : World κ}

/-! ### Rules -/

/-- Run on `w`, the computation ends in `Q`. -/
def Ends (w : World κ) (x : Flow κ α) (Q : Except Failure α → World κ → Prop) : Prop :=
  Q (x.run.run w).1 (x.run.run w).2

namespace Ends

variable {Q : Except Failure β → World κ → Prop} {R : Except Failure α → World κ → Prop}

theorem pure {a : α} (h : R (.ok a) w) : Ends w (pure a) R :=
  h

theorem throw {e : Failure} (h : R (.error e) w) : Ends w (throw e) R :=
  h

theorem imp {R' : Except Failure α → World κ → Prop} {x : Flow κ α} (hx : Ends w x R)
    (h : ∀ r w', R r w' → R' r w') : Ends w x R' :=
  h _ _ hx

/-- A failure ends a sequence; otherwise the rest is run where the first part has ended. -/
theorem bind {x : Flow κ α} {f : α → Flow κ β}
    (hok : ∀ a w', x.run.run w = (.ok a, w') → Ends w' (f a) Q)
    (herr : ∀ e w', x.run.run w = (.error e, w') → Q (.error e) w') : Ends w (x >>= f) Q := by
  have hrun : (x >>= f).run.run w =
      (ExceptT.bindCont f (x.run.run w).1).run (x.run.run w).2 := rfl
  rw [Ends, hrun]
  rcases heq : x.run.run w with ⟨r, w'⟩
  cases r with
  | ok a => exact hok a w' heq
  | error e => exact herr e w' heq

theorem get_bind {f : World κ → Flow κ β} (h : Ends w (f w) Q) : Ends w (get >>= f) Q :=
  h

theorem onGraph_bind {c : Graph → α × Graph} {f : α → Flow κ β}
    (h : Ends { w with graph := (c w.graph).2 } (f (c w.graph).1) Q) : Ends w (onGraph c >>= f) Q :=
  h

theorem changeGraph_bind {c : Graph → Graph} {f : Unit → Flow κ β}
    (h : Ends { w with graph := c w.graph } (f ()) Q) : Ends w (changeGraph c >>= f) Q :=
  h

theorem changeGraph {c : Graph → Graph} {Q : Except Failure Unit → World κ → Prop}
    (h : Q (.ok ()) { w with graph := c w.graph }) : Ends w (changeGraph c) Q :=
  h

theorem attempt_bind {x : Flow κ α} {f : Except Failure α → Flow κ β}
    (h : Ends w x fun r w' => Ends w' (f r) Q) : Ends w (attempt x >>= f) Q :=
  h

/-- A failure that passes by a node gets its location; nothing else changes. -/
theorem locating {x : Flow κ α} {loc : Option Location} (hok : ∀ a w', x.run.run w = (.ok a, w') → R (.ok a) w')
    (herr : ∀ e w', x.run.run w = (.error e, w') → R (.error (e.locate loc)) w') :
    Ends w (locating loc x) R := by
  have hrun : (Flow.locating loc x).run.run w =
      ((x.run.run w).1.mapError (·.locate loc), (x.run.run w).2) := by
    simp only [Flow.locating, ExceptT.run_mk, StateT.run_bind]
    rcases x.run.run w with ⟨_ | _, _⟩ <;> rfl
  rw [Ends, hrun]
  rcases heq : x.run.run w with ⟨r, w'⟩
  cases r with
  | ok a => exact hok a w' heq
  | error e => exact herr e w' heq

/-- What is known of a run is how it ends. -/
theorem of_run {x : Flow κ α} {r : Except Failure α} {w' : World κ} (hx : Ends w x R)
    (h : x.run.run w = (r, w')) : R r w' := by
  rw [Ends, h] at hx
  exact hx

end Ends

theorem run_get_bind (f : World κ → Flow κ β) (w : World κ) :
    (get >>= f).run.run w = (f w).run.run w :=
  rfl

theorem run_types_bind (f : Table → Flow κ β) (w : World κ) :
    (types >>= f).run.run w = (f w.types).run.run w :=
  rfl

theorem run_bind_of_ok {x : Flow κ α} {a : α} {w w' : World κ} (hx : x.run.run w = (.ok a, w'))
    (f : α → Flow κ β) : (x >>= f).run.run w = (f a).run.run w' := by
  have hrun : (x >>= f).run.run w =
      (ExceptT.bindCont f (x.run.run w).1).run (x.run.run w).2 := rfl
  rw [hrun, hx]
  rfl

theorem run_bind_of_error {x : Flow κ α} {e : Failure} {w w' : World κ}
    (hx : x.run.run w = (.error e, w')) (f : α → Flow κ β) :
    (x >>= f).run.run w = (.error e, w') := by
  have hrun : (x >>= f).run.run w =
      (ExceptT.bindCont f (x.run.run w).1).run (x.run.run w).2 := rfl
  rw [hrun, hx]
  rfl

/-- A sequence that does not fail consists of parts that do not fail. -/
theorem exists_of_run_bind {x : Flow κ α} {f : α → Flow κ β} {b : β} {w w' : World κ}
    (h : (x >>= f).run.run w = (.ok b, w')) :
    ∃ a w₁, x.run.run w = (.ok a, w₁) ∧ (f a).run.run w₁ = (.ok b, w') := by
  have hrun : (x >>= f).run.run w =
      (ExceptT.bindCont f (x.run.run w).1).run (x.run.run w).2 := rfl
  rw [hrun] at h
  rcases hx : x.run.run w with ⟨r, w₁⟩
  rw [hx] at h
  cases r with
  | ok a => exact ⟨a, w₁, rfl, h⟩
  | error e => cases h

/-- A run is known by its answer and by where it ends. -/
theorem run_of_toOption {x : Flow κ α} {a : α} {w : World κ}
    (h : (x.run.run w).1.toOption = some a) : x.run.run w = (.ok a, (x.run.run w).2) := by
  refine Prod.ext ?_ rfl
  cases hres : (x.run.run w).1 with
  | ok b =>
    rw [hres] at h
    exact congrArg Except.ok (Option.some.inj h)
  | error e =>
    rw [hres] at h
    cases h

theorem exists_failure_of_run {x : Flow κ α} {w : World κ} (h : (x.run.run w).1.toOption.isNone) :
    ∃ e, x.run.run w = (.error e, (x.run.run w).2) := by
  cases hres : (x.run.run w).1 with
  | ok b =>
    rw [hres] at h
    cases h
  | error e => exact ⟨e, Prod.ext hres rfl⟩

theorem run_onTypes_bind (m : TableM α) (f : α → Flow κ β) (w : World κ) :
    (onTypes m >>= f).run.run w =
      (f (m.run w.types).1).run.run { w with types := (m.run w.types).2 } :=
  rfl

theorem run_locating_of_ok {m : Flow κ α} {a : α} {w w' : World κ} (loc : Option Location)
    (h : m.run.run w = (.ok a, w')) : (locating loc m).run.run w = (.ok a, w') := by
  have hrun : (locating loc m).run.run w = ((m.run.run w).1.mapError (·.locate loc), (m.run.run w).2) := by
    simp only [locating, ExceptT.run_mk, StateT.run_bind]
    rcases m.run.run w with ⟨_ | _, _⟩ <;> rfl
  rw [hrun, h]
  rfl

/-- A step that does not fail is one that needs no location. -/
theorem run_of_locating {m : Flow κ α} {loc : Option Location} {a : α} {w w' : World κ}
    (h : (locating loc m).run.run w = (.ok a, w')) : m.run.run w = (.ok a, w') := by
  rcases hm : m.run.run w with ⟨r, w₁⟩
  have hends : Ends w (locating loc m) fun r' w₂ => ∀ b, r' = .ok b → r = .ok b ∧ w₂ = w₁ := by
    refine .locating (fun b w₂ hb c hc => ?_) fun f w₂ _ c hc => nomatch hc
    obtain ⟨rfl, rfl⟩ := Prod.mk.inj (hb.symm.trans hm)
    exact ⟨hc, rfl⟩
  obtain ⟨rfl, rfl⟩ := hends.of_run h a rfl
  rfl

/-! ### Computing a node again -/

/-- What a node makes of the joined type of its dependencies, as a computation on types. -/
def image (responds : TypeId → String → TableM Bool) (n : Graph.Node) (t : TypeId) :
    TableM TypeId :=
  match n.mapping with
  | .merge => pure t
  | .pointer => Table.pointerOf t
  | .array => do
    match ← Table.instantiate Builtin.array [t] with
    | .ok a => return a
    | .error _ => return 0
  | .metaclass => Table.metaclassOf t
  | .filtered =>
    match n.filter with
    | none => pure t
    | some f => f.apply responds t

theorem mapped_eq (h : Hooks κ) (n : Graph.Node) (t : TypeId) (w : World κ) :
    (mapped h n t).run.run w = (.ok ((image (h.responds w.env) n t).run w.types).1,
      { w with types := ((image (h.responds w.env) n t).run w.types).2 }) := by
  unfold mapped image
  cases n.mapping with
  | array =>
    simp only [run_onTypes_bind, StateT.run_bind]
    rcases (Table.instantiate Builtin.array [t]).run w.types with ⟨_ | a, t'⟩ <;> rfl
  | filtered => cases n.filter <;> rfl
  | _ => rfl

/-- What the dependencies of a node make, zero if nothing is known of them, and the types that are
there afterwards. -/
def evaluate (h : Hooks κ) (w : World κ) (n : Graph.Node) : TypeId × Table :=
  let joined := (Table.merge (n.deps.map w.graph.typeOf)).run w.types
  if joined.1 = 0 then joined else (image (h.responds w.env) n joined.1).run joined.2

/-- The types after the one of a node was written to its instance variable. -/
def writeSlot (n : Graph.Node) (t : TypeId) (types : Table) : Table :=
  match n.slot with
  | none => types
  | some (owner, name) => ((Table.modifyObject owner (·.setIVar name t)).run types).2

theorem writeSlot_of_none {n : Graph.Node} (hslot : n.slot = none) (t : TypeId) (types : Table) :
    writeSlot n t types = types := by
  rw [writeSlot, hslot]

theorem assign_eq (id : NodeId) (n : Graph.Node) (t : TypeId) (w : World κ) :
    (assign id n t).run.run w =
      (.ok (), { w with types := writeSlot n t w.types, graph := w.graph.retype id t }) := by
  unfold assign writeSlot
  cases n.slot with
  | none => rfl
  | some slot => rfl

/-- What is done with the type that the dependencies of a node make. -/
theorem settle_eq (id : NodeId) (n : Graph.Node) (t : TypeId) (w : World κ) :
    (settle id n t).run.run w =
      if t = 0 ∨ t = n.type then (.ok false, w)
      else if n.frozen then
        if w.types.implements t n.type then (.ok false, w)
        else (.error (.frozen ⟨n.label, w.types.name n.type, w.types.name t⟩), w)
      else
        (.ok true, { w with types := writeSlot n t w.types, graph := w.graph.retype id t }) := by
  unfold settle
  split
  · rfl
  · split
    · rw [run_types_bind]
      split
      · rfl
      · rw [frozenFailure, bind_assoc, run_types_bind]
        rfl
    · exact run_bind_of_ok (assign_eq id n t w) _

/-- A node without dependencies stays as it is. -/
theorem recompute_of_no_deps {h : Hooks κ} {id : NodeId}
    (hd : ∀ n, w.graph.get? id = some n → n.deps = []) :
    (recompute h id).run.run w = (.ok false, w) := by
  rw [recompute, run_get_bind]
  simp only
  split
  · rfl
  · rename_i n hn
    simp only [hd n hn]
    rfl

/-- To compute a node again is to settle what its dependencies make. -/
theorem recompute_eq {h : Hooks κ} {id : NodeId} {n : Graph.Node} (hn : w.graph.get? id = some n)
    (hd : n.deps ≠ []) :
    (recompute h id).run.run w =
      (settle id n (evaluate h w n).1).run.run { w with types := (evaluate h w n).2 } := by
  have hempty : n.deps.isEmpty = false := by simpa using hd
  rw [recompute, run_get_bind]
  simp only [hn, hempty, Bool.false_eq_true, if_false, run_onTypes_bind, evaluate]
  split
  · rename_i h0
    simp only [h0, settle, true_or, if_true]
  · exact run_bind_of_ok (mapped_eq h n _ _) _

end TypeFlow.Flow
