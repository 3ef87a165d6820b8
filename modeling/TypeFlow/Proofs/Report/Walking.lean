import Mathlib.Order.Bounds.Defs
import Mathlib.Data.Finset.Card
import Mathlib.Data.List.Nodup
import TypeFlow.Report.Reachability

/-!
# Walks end and find what is reachable

`Program.Walks` is a walk as it goes, without a bound on how deep it nests. A walk never enters the body of
an instance twice, which is all it remembers of where it was. So it ends if trees, expansions and subcalls
alone do not lead into each other forever (`Program.Nests`): there are only so many bodies to enter, and
`Program.walk` nests deep enough for all of them (`Program.Shallow.walks`).

What a walk that enters every node has found when it ends is closed under everything that leads on
(`Walks.covers`), and nothing else is found (`Walks.within`).
-/

namespace TypeFlow

namespace Program

variable {p : Program} {enter : Placed → Bool}

/-! ### Walks -/

/-- A walk over several things leads from what was walked before to what was walked then. -/
inductive Walks (p : Program) (enter : Placed → Bool) : Walked → List Pending → Walked → Prop
  | nil (w : Walked) : Walks p enter w [] w
  /-- A node that is walked into: what it leads to is walked before the rest. -/
  | node {w w₁ w' : Walked} {t : Placed} {rest : List Pending} (h : enter t = true)
    (inner : Walks p enter { w with nodes := t :: w.nodes } (p.pendingAfter t) w₁)
    (outer : Walks p enter w₁ rest w') : Walks p enter w (.tree t :: rest) w'
  /-- A node that is not walked into. -/
  | leaf {w w' : Walked} {t : Placed} {rest : List Pending} (h : enter t = false)
    (outer : Walks p enter { w with nodes := t :: w.nodes } rest w') : Walks p enter w (.tree t :: rest) w'
  /-- A body that is walked for the first time. -/
  | body {w w₁ w' : Walked} {i : InstanceId} {b : Placed} {rest : List Pending} (hb : p.bodyOf? i = some b)
    (hi : i ∉ w.bodies) (inner : Walks p enter { w with bodies := i :: w.bodies } [.tree b] w₁)
    (outer : Walks p enter w₁ rest w') : Walks p enter w (.body i :: rest) w'
  /-- An instance without a body, or whose body was walked. -/
  | done {w w' : Walked} {i : InstanceId} {rest : List Pending} (h : ∀ b, p.bodyOf? i = some b → i ∈ w.bodies)
    (outer : Walks p enter w rest w') : Walks p enter w (.body i :: rest) w'

namespace Walks

variable {w w₁ w' w'' : Walked} {xs ys : List Pending}

theorem append (h : p.Walks enter w xs w') (h' : p.Walks enter w' ys w'') : p.Walks enter w (xs ++ ys) w'' := by
  induction h with
  | nil => exact h'
  | node h inner _ _ ih => exact .node h inner (ih h')
  | leaf h _ ih => exact .leaf h (ih h')
  | body hb hi inner _ _ ih => exact .body hb hi inner (ih h')
  | done h _ ih => exact .done h (ih h')

/-- **No body is walked twice.** -/
theorem nodup (h : p.Walks enter w xs w') (hw : w.bodies.Nodup) : w'.bodies.Nodup := by
  induction h with
  | nil => exact hw
  | node _ _ _ ihinner ihouter => exact ihouter (ihinner hw)
  | leaf _ _ ih => exact ih hw
  | body _ hi _ _ ihinner ihouter => exact ihouter (ihinner (List.nodup_cons.mpr ⟨hi, hw⟩))
  | done _ _ ih => exact ih hw

theorem nodes_subset (h : p.Walks enter w xs w') : w.nodes ⊆ w'.nodes := by
  induction h with
  | nil => exact List.Subset.refl _
  | node _ _ _ ihinner ihouter => exact fun t ht => ihouter (ihinner (List.mem_cons_of_mem _ ht))
  | leaf _ _ ih => exact fun t ht => ih (List.mem_cons_of_mem _ ht)
  | body _ _ _ _ ihinner ihouter => exact fun t ht => ihouter (ihinner ht)
  | done _ _ ih => exact ih

theorem bodies_subset (h : p.Walks enter w xs w') : w.bodies ⊆ w'.bodies := by
  induction h with
  | nil => exact List.Subset.refl _
  | node _ _ _ ihinner ihouter => exact fun t ht => ihouter (ihinner ht)
  | leaf _ _ ih => exact ih
  | body _ _ _ _ ihinner ihouter => exact fun t ht => ihouter (ihinner (List.mem_cons_of_mem _ ht))
  | done _ _ ih => exact ih

end Walks

/-! ### What a walk finds -/

/-- Something was walked. -/
def Walked.Covers (p : Program) (w : Walked) : Pending → Prop
  | .tree t => t ∈ w.nodes
  | .body i => ∀ b, p.bodyOf? i = some b → i ∈ w.bodies

theorem Walked.Covers.mono {w w' : Walked} {x : Pending} (h : w.Covers p x) (hnodes : w.nodes ⊆ w'.nodes)
    (hbodies : w.bodies ⊆ w'.bodies) : w'.Covers p x := by
  cases x with
  | tree t => exact hnodes h
  | body i => exact fun b hb => hbodies (h b hb)

/-- A walk covers what some of its nodes lead to, and the trees of some of its bodies. -/
structure Walked.Closes (p : Program) (w : Walked) (ts : List Placed) (is : List InstanceId) : Prop where
  nodes : ∀ t ∈ w.nodes, t ∉ ts → ∀ x ∈ p.pendingAfter t, w.Covers p x
  bodies : ∀ i ∈ w.bodies, i ∉ is → ∀ b, p.bodyOf? i = some b → b ∈ w.nodes

namespace Walks

variable {w w₁ w' : Walked} {xs : List Pending}

theorem covers_later (h : p.Walks enter w xs w') {x : Pending} (hx : w.Covers p x) : w'.Covers p x :=
  hx.mono h.nodes_subset h.bodies_subset

/-- What was closed before the rest was walked is closed then. -/
theorem closes_trans {ts : List Placed} {is : List InstanceId} (h : p.Walks enter w₁ xs w')
    (hfirst : w₁.Closes p ts is) (hrest : w'.Closes p w₁.nodes w₁.bodies) : w'.Closes p ts is where
  nodes t ht hnew x hx := by
    by_cases hold : t ∈ w₁.nodes
    · exact h.covers_later (hfirst.nodes t hold hnew x hx)
    · exact hrest.nodes t ht hold x hx
  bodies i hi hnew b hb := by
    by_cases hold : i ∈ w₁.bodies
    · exact h.nodes_subset (hfirst.bodies i hold hnew b hb)
    · exact hrest.bodies i hi hold b hb

/-- **A walk that enters every node covers everything** that it is over or that it comes to. -/
theorem covers (h : p.Walks (fun _ => true) w xs w') :
    w'.Closes p w.nodes w.bodies ∧ ∀ x ∈ xs, w'.Covers p x := by
  induction h with
  | nil w => exact ⟨⟨fun t ht hnew => absurd ht hnew, fun i hi hnew => absurd hi hnew⟩,
    fun x hx => absurd hx List.not_mem_nil⟩
  | @node w w₁ w' t rest _ inner outer ihinner ihouter =>
    obtain ⟨hinner, hparts⟩ := ihinner
    have hthrough : w₁.Closes p w.nodes w.bodies := by
      refine ⟨fun u hu hnew x hx => ?_, hinner.bodies⟩
      by_cases hut : u = t
      · exact hparts x (hut ▸ hx)
      · exact hinner.nodes u hu (by simp [hut, hnew]) x hx
    refine ⟨closes_trans outer hthrough ihouter.1, fun x hx => ?_⟩
    rcases List.mem_cons.mp hx with rfl | hx
    · exact outer.nodes_subset (inner.nodes_subset List.mem_cons_self)
    · exact ihouter.2 x hx
  | leaf h _ _ => cases h
  | @body w w₁ w' i b rest hb _ inner outer ihinner ihouter =>
    obtain ⟨hinner, hbody⟩ := ihinner
    have hthrough : w₁.Closes p w.nodes w.bodies := by
      refine ⟨hinner.nodes, fun j hj hnew c hc => ?_⟩
      by_cases hji : j = i
      · obtain rfl := Option.some.inj (hb.symm.trans (hji ▸ hc))
        exact hbody _ List.mem_cons_self
      · exact hinner.bodies j hj (by simp [hji, hnew]) c hc
    refine ⟨closes_trans outer hthrough ihouter.1, fun x hx => ?_⟩
    rcases List.mem_cons.mp hx with rfl | hx
    · exact fun _ _ => outer.bodies_subset (inner.bodies_subset List.mem_cons_self)
    · exact ihouter.2 x hx
  | @done w w' i rest hdone outer ih =>
    refine ⟨ih.1, fun x hx => ?_⟩
    rcases List.mem_cons.mp hx with rfl | hx
    · exact fun b hb => outer.bodies_subset (hdone b hb)
    · exact ih.2 x hx

/-- **A walk comes to nothing else** than what it is over leads to. -/
theorem within {P : Pending → Prop} (hafter : ∀ t, P (.tree t) → ∀ x ∈ p.pendingAfter t, P x)
    (hbody : ∀ i b, P (.body i) → p.bodyOf? i = some b → P (.tree b)) (h : p.Walks enter w xs w')
    (hw : ∀ t ∈ w.nodes, P (.tree t)) (hxs : ∀ x ∈ xs, P x) : ∀ t ∈ w'.nodes, P (.tree t) := by
  induction h with
  | nil => exact hw
  | @node w _ _ t rest _ _ _ ihinner ihouter =>
    have ht := hxs _ List.mem_cons_self
    refine ihouter (ihinner (fun u hu => ?_) (hafter t ht)) fun x hx => hxs x (List.mem_cons_of_mem _ hx)
    exact (List.mem_cons.mp hu).elim (fun h => h ▸ ht) (hw u)
  | @leaf w _ t rest _ _ ih =>
    refine ih (fun u hu => ?_) fun x hx => hxs x (List.mem_cons_of_mem _ hx)
    exact (List.mem_cons.mp hu).elim (fun h => h ▸ hxs _ List.mem_cons_self) (hw u)
  | @body _ _ _ i b rest hb _ _ _ ihinner ihouter =>
    have hi := hbody i b (hxs _ List.mem_cons_self) hb
    refine ihouter (ihinner hw fun x hx => ?_) fun x hx => hxs x (List.mem_cons_of_mem _ hx)
    exact List.mem_singleton.mp hx ▸ hi
  | done _ _ ih => exact ih hw fun x hx => hxs x (List.mem_cons_of_mem _ hx)

end Walks

/-! ### Walks end -/

/-- Below a tree, nodes nest less than so deep, where bodies of instances do not count. -/
def Nests (p : Program) : Nat → Placed → Prop
  | 0, _ => False
  | h + 1, t => ∀ c, .tree c ∈ p.pendingAfter t → p.Nests h c

theorem Nests.mono {h h' : Nat} {t : Placed} (ht : p.Nests h t) (hle : h ≤ h') : p.Nests h' t := by
  induction h generalizing h' t with
  | zero => cases ht
  | succ h ih =>
    cases h' with
    | zero => omega
    | succ h' => exact fun c hc => ih (ht c hc) (by omega)

/-- How many instances there are whose bodies were not walked. -/
def unwalked (p : Program) (w : Walked) : Nat :=
  (Finset.range p.env.instances.size \ w.bodies.toFinset).card

theorem unwalked_le {w w' : Walked} (h : w.bodies ⊆ w'.bodies) : p.unwalked w' ≤ p.unwalked w :=
  Finset.card_le_card (Finset.sdiff_subset_sdiff (Finset.Subset.refl _) fun _ hi =>
    List.mem_toFinset.mpr (h (List.mem_toFinset.mp hi)))

theorem lt_size_of_bodyOf? {i : InstanceId} {b : Placed} (h : p.bodyOf? i = some b) : i < p.env.instances.size := by
  obtain ⟨a, ha, -⟩ := Option.bind_eq_some_iff.mp h
  exact (Array.getElem?_eq_some_iff.mp ha).1

/-- To walk a body leaves fewer of them. -/
theorem unwalked_lt {w w' : Walked} {i : InstanceId} {b : Placed} (hb : p.bodyOf? i = some b) (hi : i ∉ w.bodies)
    (h : w'.bodies = i :: w.bodies) : p.unwalked w' < p.unwalked w := by
  refine Finset.card_lt_card ((Finset.ssubset_iff_of_subset ?_).mpr ⟨i, ?_, ?_⟩)
  · refine Finset.sdiff_subset_sdiff (Finset.Subset.refl _) fun j hj => ?_
    rw [h]
    exact List.mem_toFinset.mpr (List.mem_cons_of_mem i (List.mem_toFinset.mp hj))
  · simpa [hi] using lt_size_of_bodyOf? hb
  · simp [h]

/-- Nesting `fuel` deep is enough for something, if bodies nest less than `depth` deep. -/
def Fits (p : Program) (depth fuel : Nat) (w : Walked) : Pending → Prop
  | .tree t => ∃ h, p.Nests h t ∧ p.unwalked w * (depth + 1) + h ≤ fuel
  | .body _ => p.unwalked w * (depth + 1) ≤ fuel

/-- A body that is about to be walked fits one level deeper. -/
theorem fits_body {depth fuel : Nat} {w : Walked} {i : InstanceId} {b : Placed} (hb : p.bodyOf? i = some b)
    (hi : i ∉ w.bodies) (hnests : p.Nests depth b) (h : p.Fits depth fuel w (.body i)) :
    ∃ fuel', fuel = fuel' + 1 ∧ p.Fits depth fuel' { w with bodies := i :: w.bodies } (.tree b) := by
  have hfewer : p.unwalked { w with bodies := i :: w.bodies } < p.unwalked w := unwalked_lt hb hi rfl
  have hstep := Nat.mul_le_mul_right (depth + 1) (Nat.succ_le_of_lt hfewer)
  rw [Nat.succ_mul] at hstep
  have hfuel : p.unwalked w * (depth + 1) ≤ fuel := h
  cases fuel with
  | zero => omega
  | succ fuel => exact ⟨fuel, rfl, depth, hnests, by omega⟩

theorem Fits.mono {depth fuel : Nat} {w w' : Walked} {x : Pending} (h : p.Fits depth fuel w x)
    (hw : w.bodies ⊆ w'.bodies) : p.Fits depth fuel w' x := by
  have hle : p.unwalked w' * (depth + 1) ≤ p.unwalked w * (depth + 1) :=
    Nat.mul_le_mul_right _ (unwalked_le hw)
  cases x with
  | tree t =>
    obtain ⟨d, hd, hfuel⟩ := h
    exact ⟨d, hd, by omega⟩
  | body i => exact hle.trans h

/-- A walk with a bound is a walk, if one thing after the other is walked as it goes. -/
theorem walks_foldl {depth fuel : Nat} (hone : ∀ w x, p.Fits depth fuel w x →
      p.Walks enter w [x] (p.walkFrom enter fuel w x)) (xs : List Pending) (w : Walked)
    (hxs : ∀ x ∈ xs, p.Fits depth fuel w x) : p.Walks enter w xs (xs.foldl (p.walkFrom enter fuel) w) := by
  induction xs generalizing w with
  | nil => exact .nil w
  | cons x xs ih =>
    have hfirst := hone w x (hxs x List.mem_cons_self)
    exact hfirst.append (ih _ fun y hy => (hxs y (List.mem_cons_of_mem x hy)).mono hfirst.bodies_subset)

/-- **A walk with a bound that is deep enough goes to its end.** Each body that is entered leaves fewer of
them. -/
theorem walks_walkFrom {depth : Nat} (hbodies : ∀ i b, p.bodyOf? i = some b → p.Nests depth b) (fuel : Nat)
    (w : Walked) (x : Pending) (hx : p.Fits depth fuel w x) :
    p.Walks enter w [x] (p.walkFrom enter fuel w x) := by
  induction fuel generalizing w x with
  | zero =>
    cases x with
    | tree t =>
      obtain ⟨h, ht, hfuel⟩ := hx
      obtain rfl : h = 0 := by omega
      cases ht
    | body i =>
      refine .done (fun b hb => ?_) (.nil w)
      by_contra hi
      obtain ⟨fuel, hfuel, -⟩ := fits_body hb hi (hbodies i b hb) hx
      cases hfuel
  | succ fuel ih =>
    cases x with
    | tree t =>
      obtain ⟨h, ht, hfuel⟩ := hx
      cases h with
      | zero => cases ht
      | succ h =>
        rw [walkFrom]
        by_cases henter : enter t = true
        · rw [if_pos henter]
          refine .node henter (walks_foldl ih _ _ fun y hy => ?_) (.nil _)
          cases y with
          | tree c => exact ⟨h, ht c hy, Nat.le_of_succ_le_succ hfuel⟩
          | body i => exact Nat.le_trans (Nat.le_add_right _ h) (Nat.le_of_succ_le_succ hfuel)
        · rw [if_neg henter]
          exact .leaf (Bool.eq_false_iff.mpr henter) (.nil _)
    | body i =>
      rw [walkFrom]
      split
      · rename_i hnone
        exact .done (fun b hb => absurd (hnone.symm.trans hb) (by simp)) (.nil w)
      · rename_i b hb
        by_cases hi : i ∈ w.bodies
        · rw [if_pos (List.contains_iff_mem.mpr hi)]
          exact .done (fun _ _ => hi) (.nil w)
        · rw [if_neg fun h => hi (List.contains_iff_mem.mp h)]
          obtain ⟨fuel', hfuel, hfits⟩ := fits_body hb hi (hbodies i b hb) hx
          cases hfuel
          exact .body hb hi (ih _ _ hfits) (.nil _)

/-- No tree of a program nests deeper than twice the number of its occurrences. -/
structure Shallow (p : Program) : Prop where
  roots : ∀ t ∈ p.env.roots, p.Nests (2 * p.env.notes.size) t
  bodies : ∀ i b, p.bodyOf? i = some b → p.Nests (2 * p.env.notes.size) b

/-- **The walk of a program ends**: it is what a walk without bound finds. -/
theorem Shallow.walks (h : p.Shallow) (enter : Placed → Bool) : ∃ w,
    p.Walks enter {} (p.env.roots.map .tree) w ∧ p.walk enter = w.nodes.reverse := by
  refine ⟨_, walks_foldl (walks_walkFrom h.bodies p.walkDepth) _ _ fun x hx => ?_, rfl⟩
  obtain ⟨t, ht, rfl⟩ := List.mem_map.mp hx
  refine ⟨_, h.roots t ht, ?_⟩
  have hall : p.unwalked {} ≤ p.env.instances.size :=
    (Finset.card_le_card Finset.sdiff_subset).trans (Finset.card_range _).le
  have hdepth : p.walkDepth = p.env.instances.size * (2 * p.env.notes.size + 1) + (2 * p.env.notes.size + 1) :=
    Nat.succ_mul _ _
  rw [hdepth]
  exact Nat.add_le_add (Nat.mul_le_mul_right _ hall) (Nat.le_succ _)

end Program

end TypeFlow
