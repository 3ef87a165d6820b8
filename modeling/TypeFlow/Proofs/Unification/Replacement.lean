import Mathlib.Algebra.BigOperators.Group.Finset.Basic
import Mathlib.Algebra.GroupWithZero.Nat
import Mathlib.Algebra.Order.BigOperators.Group.Finset
import TypeFlow.Proofs.Types.Arising
import TypeFlow.Proofs.Types.Concrete

/-!
# Types that become others

Unification makes a derived type anew from what stands for its components, and goes on from there. `Becomes` says
which types can come of this: a representative; the type of the same sort with components that became others; the
union of what became of some members, different ones of different members; or what became of a single member.

A type that was given up for another one (`gone`) is never a representative, and this is what makes the relation
a step downwards: count the entries that a derived type is built from, stopping at the representatives
(`weight`). No representative counts, so what a type became counts less, unless it is the type itself
(`Becomes.weight_lt`). In particular types never become each other in a circle, and no component becomes the type
it is a component of.

Objects count as one, whatever they are made of, and derived types are made of older ones. So this does not
depend on what is put into objects, and survives whatever else is done to a table (`Becomes.mono`).
-/

namespace TypeFlow.Table

variable {t t' t'' : Table} {reps reps' : List TypeId} {gone gone' : TypeId → Prop} {x y v c : TypeId}

/-! ### Becoming another type -/

/-- The sorts of derived types that have one component. -/
def Unary (k : TypeId → Entry) : Prop :=
  k = .pointer ∨ k = .metaclass ∨ k = .hierarchy

/-- The type is in the table and no union. -/
def Plain (t : Table) (id : TypeId) : Prop :=
  ∃ e, t.get? id = some e ∧ e.kind ≠ .union

/-- **What a type becomes** when the types `gone` are given up for others, with the representatives `reps`. -/
inductive Becomes (t : Table) (reps : List TypeId) (gone : TypeId → Prop) : TypeId → TypeId → Prop
  | refl (x : TypeId) : Becomes t reps gone x x
  | trans {x y z : TypeId} : Becomes t reps gone x y → Becomes t reps gone y z → Becomes t reps gone x z
  | rep {x r : TypeId} : gone x → r ∈ reps → ((∃ ms, t.get? x = some (.union ms)) ∨ t.Plain r) →
    Becomes t reps gone x r
  | unary {k : TypeId → Entry} {x v c d : TypeId} : gone x → Unary k → t.get? x = some (k c) →
    t.get? v = some (k d) → Becomes t reps gone c d → Becomes t reps gone x v
  | union {x v : TypeId} {ms ns : List TypeId} (f : TypeId → TypeId) : gone x → t.get? x = some (.union ms) →
    t.get? v = some (.union ns) → (∀ a ∈ ns, ∀ b ∈ ns, f a = f b → a = b) → (∀ w ∈ ns, f w ∈ ms) →
    (∀ w ∈ ns, Becomes t reps gone (f w) w) → Becomes t reps gone x v
  | member {x v m : TypeId} {ms : List TypeId} : gone x → t.get? x = some (.union ms) → m ∈ ms →
    Becomes t reps gone m v → Becomes t reps gone x v

theorem Unary.kind_ne {k : TypeId → Entry} (h : Unary k) (c : TypeId) : (k c).kind ≠ .union := by
  rcases h with rfl | rfl | rfl <;> exact nofun

theorem Unary.isDerived {k : TypeId → Entry} (h : Unary k) (c : TypeId) : (k c).IsDerived := by
  rcases h with rfl | rfl | rfl <;> trivial

theorem Unary.parts_eq {k : TypeId → Entry} (h : Unary k) (c : TypeId) : (k c).parts = [c] := by
  rcases h with rfl | rfl | rfl <;> rfl

theorem not_union_of_plain (h : t.Plain x) (ms : List TypeId) : t.get? x ≠ some (.union ms) := by
  obtain ⟨e, he, hk⟩ := h
  rintro heq
  exact hk (Option.some.inj (he.symm.trans heq) ▸ rfl)

theorem Retains.plain (h : Retains t t') (hx : t.Plain x) : t'.Plain x := by
  obtain ⟨e, he, hk⟩ := hx
  obtain ⟨e', he', hkind, -⟩ := h.get he
  exact ⟨e', he', hkind ▸ hk⟩

namespace Becomes

/-- More representatives and more types that are given up, in a table that was worked on. -/
theorem mono (h : Becomes t reps gone x v) (hr : Retains t t') (hreps : reps ⊆ reps')
    (hgone : ∀ z, gone z → gone' z) : Becomes t' reps' gone' x v := by
  induction h with
  | refl x => exact .refl x
  | trans _ _ ih ih' => exact .trans ih ih'
  | rep hx hr' hk =>
    refine .rep (hgone _ hx) (hreps hr') (hk.imp ?_ hr.plain)
    rintro ⟨ms, hms⟩
    exact ⟨ms, hr.get_derived hms trivial⟩
  | unary hx hk hc hd _ ih =>
    exact .unary (hgone _ hx) hk (hr.get_derived hc (hk.isDerived _)) (hr.get_derived hd (hk.isDerived _)) ih
  | union f hx hms hns hf hmem _ ih =>
    exact .union f (hgone _ hx) (hr.get_derived hms trivial) (hr.get_derived hns trivial) hf hmem ih
  | member hx hms hm _ ih => exact .member (hgone _ hx) (hr.get_derived hms trivial) hm ih

/-- What is no union becomes no union. -/
theorem plain (h : Becomes t reps gone x v) (hx : t.Plain x) : t.Plain v := by
  induction h with
  | refl => exact hx
  | trans _ _ ih ih' => exact ih' (ih hx)
  | rep _ _ hk => exact hk.resolve_left fun ⟨ms, hms⟩ => not_union_of_plain hx ms hms
  | unary _ hk _ hd => exact ⟨_, hd, hk.kind_ne _⟩
  | union _ _ hms => exact absurd hms (not_union_of_plain hx _)
  | member _ hms => exact absurd hms (not_union_of_plain hx _)

end Becomes

/-! ### Weight -/

/-- The components of a derived type, as far as they are older; none of an object. -/
def below (t : Table) (id : TypeId) : List TypeId :=
  match t.get? id with
  | some (.object _) => []
  | some e => e.parts.filter (· < id)
  | none => []

theorem lt_of_mem_below (h : c ∈ t.below x) : c < x := by
  unfold below at h
  split at h
  · exact absurd h (by simp)
  · simpa using (List.mem_filter.mp h).2
  · exact absurd h (by simp)

theorem Grounded.below_eq (h : Grounded t) {e : Entry} (he : t.get? x = some e) (hd : e.IsDerived) :
    t.below x = e.parts := by
  have hall : e.parts.filter (· < x) = e.parts := by
    simpa [List.filter_eq_self] using h.older he hd
  rw [below, he]
  cases e with
  | object o => exact hd.elim
  | _ => exact hall

/-- The number of entries that a type is built from, where representatives do not count. -/
def weight (t : Table) (reps : List TypeId) (id : TypeId) : Nat :=
  if id ∈ reps then 0 else 1 + ((t.below id).attach.map fun c => 1 + weight t reps c.1).sum
termination_by id
decreasing_by exact lt_of_mem_below c.2

theorem weight_rep (h : x ∈ reps) : t.weight reps x = 0 := by
  rw [weight, if_pos h]

theorem weight_eq (h : x ∉ reps) :
    t.weight reps x = 1 + ((t.below x).map fun c => 1 + t.weight reps c).sum := by
  rw [weight, if_neg h]
  simp

theorem weight_pos (h : x ∉ reps) : 0 < t.weight reps x := by
  rw [weight_eq h]
  exact Nat.lt_add_right _ Nat.one_pos

/-- A component counts less than the type. -/
theorem Grounded.weight_part_lt (h : Grounded t) (hx : x ∉ reps) {e : Entry} (he : t.get? x = some e)
    (hd : e.IsDerived) (hc : c ∈ e.parts) : t.weight reps c < t.weight reps x := by
  rw [weight_eq hx, h.below_eq he hd]
  have hle := List.single_le_sum (by simp) _ (List.mem_map_of_mem (f := fun c => 1 + t.weight reps c) hc)
  omega

/-- A union counts its members. -/
theorem Grounded.weight_union (h : Grounded t) (hx : x ∉ reps) {ms : List TypeId}
    (hms : t.get? x = some (.union ms)) :
    t.weight reps x = 1 + ∑ m ∈ ms.toFinset, (1 + t.weight reps m) := by
  have hnodup : ms.Nodup := (h.union hms).increasing.imp Nat.ne_of_lt
  rw [weight_eq hx, h.below_eq hms trivial, List.sum_toFinset _ hnodup]
  rfl

/-- A union of what became of different members counts no more, and less unless it has the same members. -/
theorem Grounded.weight_union_lt (h : Grounded t) {ms ns : List TypeId} (hx : x ∉ reps) (hv : v ∉ reps)
    (hms : t.get? x = some (.union ms)) (hns : t.get? v = some (.union ns)) {f : TypeId → TypeId}
    (hf : ∀ a ∈ ns, ∀ b ∈ ns, f a = f b → a = b) (hmem : ∀ w ∈ ns, f w ∈ ms)
    (hw : ∀ w ∈ ns, f w = w ∨ t.weight reps w < t.weight reps (f w)) :
    x = v ∨ t.weight reps v < t.weight reps x := by
  have hle : ∀ w ∈ ns.toFinset, 1 + t.weight reps w ≤ 1 + t.weight reps (f w) := by
    intro w hmw
    rcases hw w (List.mem_toFinset.mp hmw) with heq | hlt
    · rw [heq]
    · exact Nat.add_le_add_left (Nat.le_of_lt hlt) 1
  have himage : ∑ w ∈ ns.toFinset, (1 + t.weight reps (f w)) =
      ∑ m ∈ ns.toFinset.image f, (1 + t.weight reps m) := by
    have hinj : Set.InjOn f ns.toFinset := fun a ha b hb =>
      hf a (List.mem_toFinset.mp ha) b (List.mem_toFinset.mp hb)
    rw [Finset.sum_image hinj]
  have hsub : ns.toFinset.image f ⊆ ms.toFinset := by
    intro m hm
    obtain ⟨w, hmw, rfl⟩ := Finset.mem_image.mp hm
    exact List.mem_toFinset.mpr (hmem w (List.mem_toFinset.mp hmw))
  have hsum : ∑ w ∈ ns.toFinset, (1 + t.weight reps (f w)) ≤ ∑ m ∈ ms.toFinset, (1 + t.weight reps m) :=
    himage ▸ Finset.sum_le_sum_of_subset hsub
  rw [h.weight_union hx hms, h.weight_union hv hns]
  by_cases hsame : ∀ w ∈ ns, f w = w
  · by_cases hback : ms.toFinset ⊆ ns.toFinset
    · -- the same members
      refine .inl (h.interned hms ?_ trivial)
      rw [hns]
      refine congrArg (fun l => some (Entry.union l)) ?_
      refine eq_of_increasing (h.union hns).increasing (h.union hms).increasing fun m => ⟨fun hm => ?_, fun hm => ?_⟩
      · exact hsame m hm ▸ hmem m hm
      · exact List.mem_toFinset.mp (hback (List.mem_toFinset.mpr hm))
    · -- a member was dropped
      obtain ⟨m, hm, hnot⟩ := Finset.not_subset.mp hback
      have hns_sub : ns.toFinset ⊆ ms.toFinset := by
        intro w hmw
        have hw := List.mem_toFinset.mp hmw
        exact List.mem_toFinset.mpr (hsame w hw ▸ hmem w hw)
      have hlt := Finset.sum_lt_sum_of_subset (f := fun m => 1 + t.weight reps m) hns_sub hm hnot
        (Nat.lt_add_right _ Nat.one_pos) fun _ _ _ => Nat.zero_le _
      exact .inr (Nat.add_lt_add_left hlt 1)
  · -- a member became another one
    simp only [not_forall] at hsame
    obtain ⟨w, hmw, hne⟩ := hsame
    have hlt := Finset.sum_lt_sum hle ⟨w, List.mem_toFinset.mpr hmw,
      Nat.add_lt_add_left ((hw w hmw).resolve_left hne) 1⟩
    exact .inr (Nat.add_lt_add_left (Nat.lt_of_lt_of_le hlt hsum) 1)

/-- **What a type became counts less**, unless it is the type. -/
theorem Becomes.weight_lt (h : Grounded t) (hgone : ∀ z, gone z → z ∉ reps)
    (hb : Becomes t reps gone x v) : x = v ∨ t.weight reps v < t.weight reps x := by
  induction hb with
  | refl => exact .inl rfl
  | trans _ _ ih ih' =>
    rcases ih with rfl | hlt
    · exact ih'
    · rcases ih' with rfl | hlt'
      · exact .inr hlt
      · exact .inr (Nat.lt_trans hlt' hlt)
  | rep hx hr _ => exact .inr (weight_rep hr ▸ weight_pos (hgone _ hx))
  | @unary k x v c d hx hk hc hd _ ih =>
    by_cases hv : v ∈ reps
    · exact .inr (weight_rep hv ▸ weight_pos (hgone x hx))
    · rcases ih with rfl | hlt
      · exact .inl (h.interned hc hd (hk.isDerived _))
      · refine .inr ?_
        rw [weight_eq hv, weight_eq (hgone x hx), h.below_eq hc (hk.isDerived _), h.below_eq hd (hk.isDerived _),
          hk.parts_eq, hk.parts_eq]
        simpa using hlt
  | @union x v ms ns f hx hms hns hf hmem _ ih =>
    by_cases hv : v ∈ reps
    · exact .inr (weight_rep hv ▸ weight_pos (hgone x hx))
    · exact h.weight_union_lt (hgone x hx) hv hms hns hf hmem ih
  | @member x v m ms hx hms hm _ ih =>
    have hlt := h.weight_part_lt (hgone x hx) hms trivial hm
    rcases ih with rfl | hlt'
    · exact .inr hlt
    · exact .inr (Nat.lt_trans hlt' hlt)

end TypeFlow.Table
