import TypeFlow.Proofs.Types.Ancestors
import TypeFlow.Proofs.Types.Narrowing

/-!
# What additional types leave alone

Questions about known types have the same answers in every larger table. This is not evident where a
search is cut off after a number of steps that depends on the size of the table. In each case the cut
is never reached: the ancestors of a type are found one after the other, and there are no more of them
than types (`visitAncestors_fuel`), and a comparison of two types follows links, which lead to smaller
numbers (`WellFormed.implementsUpTo_eq`).
-/

namespace TypeFlow.Table

variable {t t' : Table}

/-! ### Ancestors -/

theorem WellFormed.builtin_lt (h : WellFormed t) {id : TypeId} (hid : id < initial.size) :
    id < t.size :=
  h.builtins.lt_size hid

/-- What a known type inherits from is known. -/
theorem WellFormed.parent_lt (h : WellFormed t) {id : TypeId} (hid : id < t.size) :
    t.parent id < t.size := by
  have hlink : ∀ {e : Entry} {c : TypeId}, t.get? id = some e → c ∈ e.links → c < t.size :=
    fun he hc => Nat.lt_trans (h.links_lt he _ hc) hid
  unfold parent
  split
  · rename_i p hp
    exact hlink hp (by simp [Entry.links])
  · rename_i o ho
    split
    · exact hlink ho (by simp [Entry.links])
    · exact hlink ho (by simp [Entry.links])
  · exact h.builtin_lt (by decide)
  · exact h.builtin_lt (by decide)
  · exact t.size_pos

theorem WellFormed.inheritsFrom_lt (h : WellFormed t) (hl : Linked t) {id : TypeId}
    (hid : id < t.size) : ∀ c ∈ t.inheritsFrom id, c < t.size := by
  intro c hc
  rcases List.mem_append.mp hc with hc | hc
  · split at hc
    · rename_i o ho
      obtain ⟨s, hs, -⟩ := hl.included (object?_eq_some_iff.mp ho) c hc
      exact lt_size_of_get? hs
    · exact absurd hc (by simp)
  · rw [List.mem_singleton.mp hc]
    exact h.parent_lt hid

theorem Grown.inheritsFrom_eq (hg : Grown t t') {id : TypeId} (hid : id < t.size) :
    t'.inheritsFrom id = t.inheritsFrom id := by
  rw [inheritsFrom, inheritsFrom, hg.object?_eq hid, parent, parent, hg.get?_eq hid]

theorem Grown.visitAncestors_eq (hg : Grown t t') (h : WellFormed t) (hl : Linked t) {fuel : Nat}
    {seen : List TypeId} {id : TypeId} (hid : id < t.size) :
    t'.visitAncestors fuel seen id = t.visitAncestors fuel seen id := by
  induction fuel generalizing seen id with
  | zero => rfl
  | succ fuel ih =>
    rw [visitAncestors, visitAncestors, hg.inheritsFrom_eq hid]
    split
    · rfl
    · refine List.foldl_ext _ _ _ fun now c hc => ih (h.inheritsFrom_lt hl hid c hc)

/-- The ancestors of a known type stay the same. -/
theorem Grown.ancestors_eq (hg : Grown t t') (h : WellFormed t) (hl : Linked t) {id : TypeId}
    (hid : id < t.size) : t'.ancestors id = t.ancestors id := by
  have hle := t.unseen_le []
  have hsize := hg.size_le
  have hfuel : t.visitAncestors (t'.size + 1) [] id = t.visitAncestors (t.size + 1) [] id :=
    visitAncestors_fuel (by omega) (by omega) id
  rw [ancestors, ancestors, hg.visitAncestors_eq h hl hid, hfuel]

/-! ### What fits where -/

theorem Grown.fits_eq (hg : Grown t t') (h : WellFormed t) (h' : WellFormed t') (hl : Linked t)
    {id target : TypeId} (hid : id < t.size) (htarget : target < t.size) :
    t'.fits id target = t.fits id target := by
  have hequal : ∀ a b, t'.equal a b = t.equal a b := by
    intro a b
    rw [Bool.eq_iff_iff, h'.equal_iff, h.equal_iff]
  unfold fits
  rw [hg.get?_eq htarget, hg.ancestors_eq h hl hid, hg.object?_eq hid]
  split
  · rename_i b hb
    have hlt : b < t.size := Nat.lt_trans (h.links_lt hb b (by simp [Entry.links])) htarget
    simp only [hg.object?_eq hlt, hequal]
  · simp only [hg.object?_eq htarget, hequal]

/-- Whether a type fits a target is decided in as many steps as their numbers allow, and stays so. -/
theorem WellFormed.implementsUpTo_eq (h : WellFormed t) (h' : WellFormed t') (hl : Linked t)
    (hg : Grown t t') {fuel fuel' : Nat} {id target : TypeId} (hid : id < t.size)
    (htarget : target < t.size) (hf : id + target < fuel) (hf' : id + target < fuel') :
    t'.implementsUpTo fuel' id target = t.implementsUpTo fuel id target := by
  induction fuel generalizing fuel' id target with
  | zero => exact absurd hf (Nat.not_lt_zero _)
  | succ fuel ih =>
    cases fuel' with
    | zero => exact absurd hf' (Nat.not_lt_zero _)
    | succ fuel' =>
      -- both components of a link are smaller, so the answers for them agree
      have hrec : ∀ {a b : TypeId}, a ≤ id → b ≤ target → a + b < id + target →
          t'.implementsUpTo fuel' a b = t.implementsUpTo fuel a b := by
        intro a b ha hb hab
        refine ih (Nat.lt_of_le_of_lt ha hid) (Nat.lt_of_le_of_lt hb htarget) ?_ ?_
        · exact Nat.lt_of_lt_of_le hab (Nat.le_of_lt_succ hf)
        · exact Nat.lt_of_lt_of_le hab (Nat.le_of_lt_succ hf')
      rw [implementsUpTo, implementsUpTo, hg.get?_eq hid, hg.get?_eq htarget]
      split
      · rfl
      · split
        · rfl
        · split
          · rename_i ms _ hms
            rw [Bool.eq_iff_iff, List.any_eq_true, List.any_eq_true]
            refine exists_congr fun m => and_congr_right fun hm => ?_
            have hlt : m < target := h.links_lt hms m hm
            rw [hrec le_rfl hlt.le (Nat.add_lt_add_left hlt _)]
          · rename_i ms hms _
            rw [Bool.eq_iff_iff, List.all_eq_true, List.all_eq_true]
            refine forall₂_congr fun m hm => ?_
            have hlt : m < id := h.links_lt hms m hm
            rw [hrec hlt.le le_rfl (Nat.add_lt_add_right hlt _)]
          · rename_i base hbase _
            have hlt : base < id := h.links_lt hbase base (by simp [Entry.links])
            exact hrec hlt.le le_rfl (Nat.add_lt_add_right hlt _)
          · rename_i b a hb ha
            have hlt : a < id := h.links_lt ha a (by simp [Entry.links])
            have hlt' : b < target := h.links_lt hb b (by simp [Entry.links])
            exact hrec hlt.le hlt'.le (Nat.add_lt_add hlt hlt')
          · rfl
          · exact hg.fits_eq h h' hl hid htarget

/-- Whether a known type fits a known target stays the same. -/
theorem Grown.implements_eq (hg : Grown t t') (h : WellFormed t) (h' : WellFormed t')
    (hl : Linked t) {id target : TypeId} (hid : id < t.size) (htarget : target < t.size) :
    t'.implements id target = t.implements id target := by
  have hsize := hg.size_le
  refine h.implementsUpTo_eq h' hl hg hid htarget ?_ ?_ <;> lia

/-- The flattened members of known types stay the same. -/
theorem Grown.flatten_eq (hg : Grown t t') (h : WellFormed t) (h' : WellFormed t')
    {ids : List TypeId} (hids : ∀ id ∈ ids, id < t.size) : t'.flatten ids = t.flatten ids := by
  have hmembers : ids.flatMap t'.members = ids.flatMap t.members :=
    List.flatMap_congr fun id hid => hg.toExtends.members_eq (hids id hid)
  have hnd : ∀ rest, ([].reverse ++ sortedUnique rest).Nodup := fun rest =>
    nodup_of_increasing (sortedUnique_increasing rest)
  simp only [flatten, hmembers, h.dropEqual_eq (hnd _), h'.dropEqual_eq (hnd _)]

end TypeFlow.Table
