import TypeFlow.Proofs.Types.Inferred

/-!
# Inheritance

The ancestors of a type are what it inherits from, directly or through others (`mem_ancestors_iff`). In a
well-formed table they are known, and all superclasses of a class are among them.

A class fits a target that is no union exactly if the target, or the class the target is the hierarchy
of, is among its ancestors (`WellFormed.implements_object_iff`). Therefore what a class fits is fit by
every class that has it among its ancestors (`WellFormed.implements_of_mem_ancestors`), in particular
by every class that stands below it.
-/

namespace TypeFlow.Table

variable {t : Table}

/-! ### Ancestors of known types -/

namespace WellFormed

theorem ancestors_lt (h : WellFormed t) (hl : Linked t) {id x : TypeId} (hid : id < t.size)
    (hx : x ∈ t.ancestors id) : x < t.size ∧ x ≠ 0 := by
  obtain ⟨hne, hreach⟩ := mem_ancestors_iff.mp hx
  clear hx
  induction hreach with
  | refl => exact ⟨hid, hne⟩
  | tail _ hbc ih => exact ⟨h.inheritsFrom_lt hl ih.1 _ hbc.1, hbc.2⟩

/-- A superclass is an ancestor: a generic instance inherits from its template, which has the same
superclass. -/
theorem superclass_mem_ancestors (h : WellFormed t) {id : TypeId}
    (hs : t.superclass id ≠ 0) : t.superclass id ∈ t.ancestors id := by
  cases ho : t.object? id with
  | none => simp [Table.superclass, ho] at hs
  | some o =>
    have hget := object?_eq_some_iff.mp ho
    have hsuper : t.superclass id = o.superclass := by rw [Table.superclass, ho]
    rw [hsuper] at hs ⊢
    refine mem_ancestors_iff.mpr ⟨Nat.ne_of_gt (pos_of_get? hget), ?_⟩
    have hparent : ∀ {x : TypeId} {p : ObjectEntry}, t.get? x = some (.object p) → p.generic = 0 →
        t.parent x = p.superclass := by
      intro x p hp hg
      simp [parent, hp, hg]
    by_cases hg : o.generic = 0
    · refine .single ⟨List.mem_append_right _ ?_, hs⟩
      rw [hparent hget hg, List.mem_singleton]
    · obtain ⟨g, hi⟩ := h.template hget hg
      have hplain : g.generic = 0 := by
        have htemp := hi.generic
        simp only [ObjectEntry.isTemplate, Bool.and_eq_true, beq_iff_eq] at htemp
        exact htemp.2
      refine .head (b := o.generic) ⟨List.mem_append_right _ ?_, hg⟩ (.single ⟨?_, hs⟩)
      · simp [parent, hget, hg]
      · rw [hi.superclass]
        refine List.mem_append_right _ ?_
        rw [hparent hi.template hplain, List.mem_singleton]

/-- Whatever is above a class is among its ancestors. -/
theorem mem_ancestors_of_below (h : WellFormed t) {a b : TypeId} (hne : a ≠ 0) (hab : Below t a b) : b ∈ t.ancestors a := by
  obtain ⟨n, hn, rfl⟩ := hab
  induction n with
  | zero => exact self_mem_ancestors hne
  | succ n ih =>
    have hzero := h.tiered.climb_ne_zero hne hn
    rw [climb_succ_right] at hzero ⊢
    exact ancestors_trans (ih (Nat.le_of_succ_le hn)) (h.superclass_mem_ancestors hzero)

end WellFormed

/-! ### What fits where -/

/-- The type that has to be among the ancestors of what fits a target. -/
def goal (t : Table) (target : TypeId) : TypeId :=
  match t.get? target with
  | some (.hierarchy base) => base
  | _ => target

namespace WellFormed

theorem fits_iff (h : WellFormed t) {id target : TypeId} (hid : id < t.size) :
    t.fits id target = true ↔ t.goal target ∈ t.ancestors id := by
  have hfits : t.fits id target = ((t.ancestors id).contains (t.goal target) ||
      ((t.object? id).isSome && (t.object? (t.goal target)).isSome && t.equal id (t.goal target))) :=
    rfl
  rw [hfits, Bool.or_eq_true, List.contains_iff_mem]
  refine or_iff_left_of_imp fun hequal => ?_
  simp only [Bool.and_eq_true, h.equal_iff] at hequal
  obtain ⟨⟨hsome, -⟩, heq⟩ := hequal
  rw [← heq]
  refine self_mem_ancestors ?_
  rintro rfl
  simp at hsome

/-- One step of the comparison of a type with a target, without counting steps. -/
theorem implements_eq (h : WellFormed t) (hl : Linked t) {id target : TypeId} (hid : id < t.size)
    (htarget : target < t.size) :
    t.implements id target =
      if id = target then true
      else if id = 0 ∨ target = 0 then false
      else
        match t.get? target, t.get? id with
        | some (.union ms), _ => ms.any (t.implements id ·)
        | _, some (.union ms) => ms.all (t.implements · target)
        | _, some (.hierarchy base) => t.implements base target
        | some (.metaclass b), some (.metaclass a) => t.implements a b
        | _, some (.metaclass _) => false
        | _, _ => t.fits id target := by
  have hsteps : t.implements id target = t.implementsUpTo (2 * t.size + 2) id target :=
    h.implementsUpTo_eq h hl (.refl t) hid htarget (by lia) (by lia)
  rw [hsteps]
  rfl

/-- What fits a union fits one of its members. -/
theorem implements_union_iff (h : WellFormed t) (hl : Linked t) {id target : TypeId}
    {ms : List TypeId} (hid : id < t.size) (hflat : ∀ ns, t.get? id ≠ some (.union ns))
    (hne : id ≠ 0) (hms : t.get? target = some (.union ms)) :
    t.implements id target = true ↔ ∃ m ∈ ms, t.implements id m = true := by
  have hid' : id ≠ target := by
    rintro rfl
    exact hflat ms hms
  have htarget : target ≠ 0 := Nat.ne_of_gt (pos_of_get? hms)
  rw [h.implements_eq hl hid (lt_size_of_get? hms), if_neg hid', if_neg (by simp [hne, htarget])]
  simp [hms]

/-- **A class fits a target that is no union exactly if the target is among its ancestors**, or the
class that the target is the hierarchy of. -/
theorem implements_object_iff (h : WellFormed t) (hl : Linked t) {id target : TypeId}
    {o : ObjectEntry} (ho : t.get? id = some (.object o)) (htarget : target < t.size)
    (hflat : ∀ ms, t.get? target ≠ some (.union ms)) :
    t.implements id target = true ↔ t.goal target ∈ t.ancestors id := by
  have hid := lt_size_of_get? ho
  have hne : id ≠ 0 := Nat.ne_of_gt (pos_of_get? ho)
  rw [h.implements_eq hl hid htarget]
  split
  · rename_i heq
    subst heq
    have hgoal : t.goal id = id := by simp [goal, ho]
    simpa [hgoal] using self_mem_ancestors hne
  · split
    · rename_i hzero
      obtain rfl := hzero.resolve_left hne
      refine iff_of_false (by simp) fun hmem => ?_
      exact (h.ancestors_lt hl hid hmem).2 rfl
    · rw [← h.fits_iff hid]
      split
      · rename_i hms
        exact absurd hms (hflat _)
      all_goals simp_all

/-- **What a class fits is fit by all that have it among their ancestors.** -/
theorem implements_of_mem_ancestors (h : WellFormed t) (hl : Linked t) {a b target : TypeId}
    {o p : ObjectEntry} (ha : t.get? a = some (.object o)) (hb : t.get? b = some (.object p))
    (hab : b ∈ t.ancestors a) (htarget : target < t.size) (hfit : t.implements b target = true) :
    t.implements a target = true := by
  induction target using Nat.strongRecOn with
  | ind target ih =>
    by_cases hunion : ∃ ms, t.get? target = some (.union ms)
    · obtain ⟨ms, hms⟩ := hunion
      have hclass : ∀ {x : TypeId} {o : ObjectEntry}, t.get? x = some (.object o) →
          (t.implements x target = true ↔ ∃ m ∈ ms, t.implements x m = true) := fun hx =>
        h.implements_union_iff hl (lt_size_of_get? hx) (by simp [hx])
          (Nat.ne_of_gt (pos_of_get? hx)) hms
      obtain ⟨m, hm, hfit⟩ := (hclass hb).mp hfit
      have hlt : m < target := h.links_lt hms m hm
      exact (hclass ha).mpr ⟨m, hm, ih m hlt (Nat.lt_trans hlt htarget) hfit⟩
    · have hflat := not_exists.mp hunion
      rw [h.implements_object_iff hl ha htarget hflat]
      exact ancestors_trans hab
        ((h.implements_object_iff hl hb htarget hflat).mp hfit)

end WellFormed

end TypeFlow.Table
