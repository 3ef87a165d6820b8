import TypeFlow.Proofs.Types.Inheritance

/-!
# The classes of a type

`subtree` lists a class and what stands below it, following the lists of subclasses. These lead to
larger numbers, so the search is never cut off (`WellFormed.subtree_eq`), and what it finds are the
classes from which a chain of lists leads up (`WellFormed.mem_subtree_iff`). Of the classes below `b` in
the sense of superclasses it finds those with no generic instance on the way
(`Shaped.mem_subtree_of_below`).

The classes of a type are those of its parts (`mem_concrete_iff`). They are in increasing order, so that
two types have the same classes, in the same order, as soon as they have the same members
(`eq_of_increasing`). None of this changes when types are added.
-/

namespace TypeFlow.Table

variable {t t' : Table}

/-! ### What stands below a class -/

theorem subtreeUpTo_succ (t : Table) (fuel : Nat) (id : TypeId) :
    t.subtreeUpTo (fuel + 1) id = id :: (t.listedBelow id).flatMap (t.subtreeUpTo fuel) :=
  rfl

/-- What stands in the list of a class is known and has a larger number. -/
theorem WellFormed.listedBelow_lt (h : WellFormed t) (hl : Linked t) {id c : TypeId}
    (hc : c ∈ t.listedBelow id) : id < c ∧ c < t.size := by
  cases ho : t.object? id with
  | none => simp [listedBelow, ho] at hc
  | some o =>
    have hget := object?_eq_some_iff.mp ho
    rw [listedBelow_of_object hget] at hc
    obtain ⟨s, hs, hsuper⟩ := hl.below hget c hc
    exact ⟨hsuper ▸ h.links_lt hs s.superclass (by simp [Entry.links]), lt_size_of_get? hs⟩

/-- The search below a class never runs out of steps. -/
theorem WellFormed.subtreeUpTo_fuel (h : WellFormed t) (hl : Linked t) {fuel fuel' : Nat}
    {id : TypeId} (hf : t.size - id ≤ fuel) (hf' : t.size - id ≤ fuel') :
    t.subtreeUpTo fuel id = t.subtreeUpTo fuel' id := by
  -- a type beyond the table has no list
  have hbeyond : t.size - id = 0 → t.listedBelow id = [] := by
    intro hle
    refine List.eq_nil_iff_forall_not_mem.mpr fun c hc => ?_
    have := h.listedBelow_lt hl hc
    lia
  induction fuel generalizing fuel' id with
  | zero =>
    have hnil := hbeyond (Nat.le_zero.mp hf)
    cases fuel' with
    | zero => rfl
    | succ fuel' => rw [subtreeUpTo_succ, hnil]; rfl
  | succ fuel ih =>
    cases fuel' with
    | zero =>
      rw [subtreeUpTo_succ, hbeyond (Nat.le_zero.mp hf')]
      rfl
    | succ fuel' =>
      rw [subtreeUpTo_succ, subtreeUpTo_succ]
      refine congrArg (id :: ·) (List.flatMap_congr fun c hc => ?_)
      have hlt := h.listedBelow_lt hl hc
      refine ih (by lia) (by lia) fun hle => ?_
      lia

/-- A class stands before what stands below it. -/
theorem WellFormed.subtree_eq (h : WellFormed t) (hl : Linked t) (id : TypeId) :
    t.subtree id = id :: (t.listedBelow id).flatMap t.subtree := by
  have hsteps : t.subtree id = t.subtreeUpTo (t.size + 1) id :=
    h.subtreeUpTo_fuel hl (Nat.sub_le _ _) (Nat.le_succ_of_le (Nat.sub_le _ _))
  rw [hsteps]
  rfl

/-- **What is found below a class are the classes from which a chain of lists leads up to it.** -/
theorem WellFormed.mem_subtree_iff (h : WellFormed t) (hl : Linked t) {base c : TypeId} :
    c ∈ t.subtree base ↔ Relation.ReflTransGen (fun x y => y ∈ t.listedBelow x) base c := by
  constructor
  · intro hc
    -- the numbers increase along the lists, so there are at most as many steps as larger types
    obtain ⟨n, hn⟩ : ∃ n, t.size - base ≤ n := ⟨_, le_rfl⟩
    induction n generalizing base with
    | zero =>
      rw [h.subtree_eq hl, List.mem_cons, List.mem_flatMap] at hc
      rcases hc with rfl | ⟨d, hd, -⟩
      · exact .refl
      · have hlt := h.listedBelow_lt hl hd
        lia
    | succ n ih =>
      rw [h.subtree_eq hl, List.mem_cons, List.mem_flatMap] at hc
      rcases hc with rfl | ⟨d, hd, hc⟩
      · exact .refl
      · have hlt := h.listedBelow_lt hl hd
        exact .head hd (ih hc (by lia))
  · intro hreach
    induction hreach using Relation.ReflTransGen.head_induction_on with
    | refl =>
      rw [h.subtree_eq hl]
      exact List.mem_cons_self
    | head hxy _ ih =>
      rw [h.subtree_eq hl]
      exact List.mem_cons_of_mem _ (List.mem_flatMap.mpr ⟨_, hxy, ih⟩)

theorem WellFormed.self_mem_subtree (h : WellFormed t) (hl : Linked t) (base : TypeId) :
    base ∈ t.subtree base :=
  (h.mem_subtree_iff hl).mpr .refl

theorem Grown.subtreeUpTo_eq (hg : Grown t t') (h : WellFormed t) (hl : Linked t) {fuel : Nat}
    {id : TypeId} (hid : id < t.size) : t'.subtreeUpTo fuel id = t.subtreeUpTo fuel id := by
  induction fuel generalizing id with
  | zero => rfl
  | succ fuel ih =>
    rw [subtreeUpTo_succ, subtreeUpTo_succ, hg.listedBelow_eq hid]
    exact congrArg (id :: ·) (List.flatMap_congr fun c hc => ih (h.listedBelow_lt hl hc).2)

theorem Grown.subtree_eq (hg : Grown t t') (h : WellFormed t) (hl : Linked t) {id : TypeId}
    (hid : id < t.size) : t'.subtree id = t.subtree id := by
  have hsize := hg.size_le
  have hsteps : t.subtreeUpTo t'.size id = t.subtreeUpTo t.size id :=
    h.subtreeUpTo_fuel hl (by lia) (Nat.sub_le _ _)
  rw [subtree, subtree, hg.subtreeUpTo_eq h hl hid, hsteps]

/-! ### The two directions -/

namespace Shaped

/-- What stands below a class is a class, and has it among its superclasses. -/
theorem below_of_mem_subtree (hs : Shaped t) (h : WellFormed t) (hl : Linked t) {base c : TypeId}
    (hbase : ∃ o, t.get? base = some (.object o)) (hc : c ∈ t.subtree base) :
    (∃ o, t.get? c = some (.object o)) ∧ Below t c base := by
  have hreach := (h.mem_subtree_iff hl).mp hc
  clear hc
  induction hreach with
  | refl => exact ⟨hbase, .refl t base⟩
  | @tail x y _ hxy ih =>
    obtain ⟨s, hget, hsuper, -⟩ := hs.plain hxy
    obtain ⟨⟨p, hp⟩, hbelow⟩ := ih
    have hclass : t.superclass y = x := by
      rw [Table.superclass, object?_eq_some_iff.mpr hget]
      exact hsuper
    refine ⟨⟨s, hget⟩, h.tiered.below_trans ⟨1, ?_, hclass⟩ hbelow⟩
    rw [h.tiered.depth_eq, if_neg (hclass ▸ Nat.ne_of_gt (pos_of_get? hp))]
    lia

/-- **A class is found from above unless there is a generic instance on the way.** -/
theorem mem_subtree_of_below (hs : Shaped t) (h : WellFormed t) (hl : Linked t) {c a : TypeId}
    (hca : Below t c a)
    (hway : ∀ g o, Below t c g → t.depth a < t.depth g → t.get? g = some (.object o) →
      o.generic = 0) : c ∈ t.subtree a := by
  obtain ⟨n, hn, ha⟩ := hca
  refine (h.mem_subtree_iff hl).mpr ?_
  induction n generalizing c with
  | zero =>
    obtain rfl : c = a := ha
    exact .refl
  | succ n ih =>
    have hd : t.depth c ≠ 0 := by lia
    have hsuper : t.superclass c ≠ 0 := fun h0 => hd (h.tiered.depth_eq_zero_iff.mpr h0)
    have hdepth := h.tiered.depth_superclass hd
    have hup : Below t c (t.superclass c) := ⟨1, by lia, rfl⟩
    cases ho : t.object? c with
    | none => simp [Table.superclass, ho] at hsuper
    | some o =>
      have hget := object?_eq_some_iff.mp ho
      have hsame : t.superclass c = o.superclass := by rw [Table.superclass, ho]
      have hda : t.depth a = t.depth c - (n + 1) := by rw [← ha, h.tiered.depth_climb hn]
      have hplain : o.generic = 0 := hway c o (.refl t c) (by lia) hget
      refine .tail (ih (c := t.superclass c) ?_ (by lia) ha) ?_
      · exact fun g p hg => hway g p (h.tiered.below_trans hup hg)
      · rw [hsame] at hsuper ⊢
        exact hs.listed hget hplain hsuper

end Shaped

/-! ### The classes of a type -/

/-- The classes of a part. -/
def classes (t : Table) : Part → List TypeId
  | .one id => [id]
  | .whole base => t.subtree base

theorem mem_concrete_iff_members {id c : TypeId} :
    c ∈ t.concrete id ↔ ∃ m ∈ t.members id, c ∈ t.classes (t.part m) := by
  simp only [concrete, mem_sortedUnique, List.mem_flatMap]
  refine exists_congr fun m => and_congr_right fun _ => ?_
  cases he : t.get? m with
  | none => simp [part, classes, he]
  | some e => cases e <;> simp [part, classes, he]

/-- **The classes of a type are those of its parts.** -/
theorem mem_concrete_iff {id c : TypeId} :
    c ∈ t.concrete id ↔ ∃ p ∈ t.parts id, c ∈ t.classes p := by
  rw [mem_concrete_iff_members]
  constructor
  · rintro ⟨m, hm, hc⟩
    exact ⟨_, ⟨m, hm, rfl⟩, hc⟩
  · rintro ⟨_, ⟨m, hm, rfl⟩, hc⟩
    exact ⟨m, hm, hc⟩

theorem concrete_increasing (t : Table) (id : TypeId) : (t.concrete id).Pairwise (· < ·) :=
  sortedUnique_increasing _

/-- Increasing lists are determined by their members. -/
theorem eq_of_increasing {xs ys : List TypeId} (hx : xs.Pairwise (· < ·)) (hy : ys.Pairwise (· < ·))
    (hmem : ∀ c, c ∈ xs ↔ c ∈ ys) : xs = ys :=
  ((List.perm_ext_iff_of_nodup (nodup_of_increasing hx) (nodup_of_increasing hy)).mpr
    hmem).eq_of_pairwise (fun _ _ _ _ hab hba => absurd hab (Nat.lt_asymm hba)) hx hy

@[simp] theorem concrete_zero (t : Table) : t.concrete 0 = [] := rfl

theorem Grown.classes_eq (hg : Grown t t') (h : WellFormed t) (hl : Linked t) {p : Part}
    (hp : p.base < t.size) : t'.classes p = t.classes p := by
  cases p with
  | one id => rfl
  | whole base => exact hg.subtree_eq h hl hp

/-- The classes of a known type stay the same. -/
theorem Grown.concrete_eq (hg : Grown t t') (h : WellFormed t) (hl : Linked t) {id : TypeId}
    (hid : id < t.size) : t'.concrete id = t.concrete id := by
  refine eq_of_increasing (t'.concrete_increasing id) (t.concrete_increasing id) fun c => ?_
  rw [mem_concrete_iff, mem_concrete_iff, hg.toExtends.parts_eq h hid]
  refine exists_congr fun p => and_congr_right fun hp => ?_
  rw [hg.classes_eq h hl (h.known_parts hid p hp)]

/-- A type that is neither a union nor a hierarchy. -/
structure Single (t : Table) (id : TypeId) : Prop where
  ne_zero : id ≠ 0
  lt_size : id < t.size
  no_union : ∀ ms, t.get? id ≠ some (.union ms)
  no_hierarchy : ∀ base, t.get? id ≠ some (.hierarchy base)

theorem Single.concrete_eq {id : TypeId} (h : Single t id) : t.concrete id = [id] := by
  refine eq_of_increasing (t.concrete_increasing id) (by simp) fun c => ?_
  rw [mem_concrete_iff_members, members_of_not_union h.ne_zero h.no_union]
  simp [part_of_not_hierarchy h.no_hierarchy, classes]

theorem Single.of_object {id : TypeId} {o : ObjectEntry} (h : t.get? id = some (.object o)) :
    Single t id :=
  ⟨Nat.ne_of_gt (pos_of_get? h), lt_size_of_get? h, by simp [h], by simp [h]⟩

theorem Single.of_grown (hg : Grown t t') {id : TypeId} (h : Single t id) : Single t' id := by
  refine ⟨h.ne_zero, hg.lt_size h.lt_size, ?_, ?_⟩
  · rw [hg.get?_eq h.lt_size]
    exact h.no_union
  · rw [hg.get?_eq h.lt_size]
    exact h.no_hierarchy

theorem WellFormed.noReturn_ne_object (h : WellFormed t) (o : ObjectEntry) :
    t.get? Builtin.noReturn ≠ some (.object o) := by
  intro ho
  have hprim : initial.get? Builtin.noReturn =
      some (.primitive ⟨"NoReturn", 0, Builtin.value, none⟩) := rfl
  obtain ⟨e, he, hcore⟩ := h.builtins.core hprim
  obtain rfl := Option.some.inj (he.symm.trans ho)
  simp [Entry.core] at hcore

namespace Shaped

/-- Every class of a type stands for itself. -/
theorem single_of_mem_concrete (hs : Shaped t) (h : WellFormed t) (hl : Linked t) {id c : TypeId}
    (hid : id < t.size) (hc : c ∈ t.concrete id) : Single t c := by
  obtain ⟨m, hm, hc⟩ := mem_concrete_iff_members.mp hc
  cases hp : t.part m with
  | one x =>
    obtain rfl := part_eq_one hp
    rw [hp] at hc
    obtain rfl : c = m := by simpa [classes] using hc
    obtain ⟨hpos, hlt⟩ := h.members_lt_size hid hm
    refine ⟨Nat.ne_of_gt hpos, hlt, fun ms => h.members_flat hm ms, fun base hbase => ?_⟩
    rw [part_of_hierarchy hbase] at hp
    exact absurd hp (by simp)
  | whole base =>
    rw [hp] at hc
    obtain ⟨⟨o, ho⟩, -⟩ :=
      hs.below_of_mem_subtree h hl (hs.bases (part_eq_whole_iff.mp hp)) hc
    exact .of_object ho

/-- What never yields a value is a class of itself only. -/
theorem eq_noReturn_of_mem_concrete (hs : Shaped t) (h : WellFormed t) (hl : Linked t)
    {id : TypeId} (hc : Builtin.noReturn ∈ t.concrete id) : id = Builtin.noReturn := by
  obtain ⟨m, hm, hc⟩ := mem_concrete_iff_members.mp hc
  cases hp : t.part m with
  | one x =>
    obtain rfl := part_eq_one hp
    rw [hp] at hc
    obtain rfl : Builtin.noReturn = m := by simpa [classes] using hc
    unfold members at hm
    split at hm
    · rename_i ms hms
      exact absurd hm (h.union hms).absorbed
    · split at hm
      · exact absurd hm (by simp)
      · exact (List.mem_singleton.mp hm).symm
  | whole base =>
    rw [hp] at hc
    obtain ⟨⟨o, ho⟩, -⟩ :=
      hs.below_of_mem_subtree h hl (hs.bases (part_eq_whole_iff.mp hp)) hc
    exact absurd ho (h.noReturn_ne_object o)

end Shaped

end TypeFlow.Table
