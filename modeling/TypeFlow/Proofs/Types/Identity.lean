import Mathlib.Data.List.Sort
import TypeFlow.Types.Equality
import TypeFlow.Proofs.Types.Representation

/-!
# Structural equality is identity

On a well-formed table two types are structurally equal only if they are the same type
(`WellFormed.equal_iff`). Types may be cyclic through instance variables, but a comparison of two
different types never gets there: classes with the same name are the same, so two different objects
that agree on their names are instances of one template and differ in some argument; and what a type
is made of has a lower number, so that the first difference is found by descent.

The comparison threads the pairs it has assumed equal. Along a descent these are pairs of larger
types, so none of them is ever met again, and a component that is found equal leaves the assumptions
alone.
-/

namespace TypeFlow.Table

variable {t : Table}

/-! ### Comparisons that tell different types apart -/

/-- A comparison that finds every type equal to itself and assumes nothing for it. -/
def Comparison.Reflexive (eq : Comparison) : Prop :=
  ∀ a as, eq a a as = (true, as)

/-- A comparison that tells the types `cs` from all others under the assumptions `as`. -/
def Comparison.Separates (eq : Comparison) (cs : List TypeId) (as : Assumptions) : Prop :=
  ∀ c ∈ cs, ∀ d, c ≠ d → (eq c d as).1 = false

section

variable {eq : Comparison} {as : Assumptions}

theorem compareAll_zip_ne (hr : eq.Reflexive) :
    ∀ {xs ys : List TypeId} (rest : List (Option (TypeId × TypeId))), xs.length = ys.length →
      xs ≠ ys → eq.Separates xs as → (compareAll eq ((xs.zip ys).map some ++ rest) as).1 = false
  | [], [], _, _, hne, _ => absurd rfl hne
  | x :: xs, y :: ys, rest, hlen, hne, hs => by
    simp only [List.zip_cons_cons, List.map_cons, List.cons_append, compareAll]
    by_cases hxy : x = y
    · subst hxy
      rw [hr x as]
      refine compareAll_zip_ne hr rest (by simpa using hlen) (fun h => hne (by rw [h])) ?_
      exact fun c hc => hs c (List.mem_cons_of_mem _ hc)
    · have hfalse := hs x List.mem_cons_self y hxy
      generalize eq x y as = r at hfalse
      obtain ⟨b, as'⟩ := r
      obtain rfl : b = false := hfalse
      rfl

theorem compareAny_of_separates (hr : eq.Reflexive) {a : TypeId} (hs : eq.Separates [a] as) :
    ∀ ys : List TypeId, compareAny eq a ys as = if a ∈ ys then some as else none
  | [] => by simp [compareAny]
  | y :: ys => by
    rw [compareAny]
    by_cases hay : a = y
    · subst hay
      simp [hr a as]
    · have hfalse := hs a List.mem_cons_self y hay
      generalize eq a y as = r at hfalse
      obtain ⟨b, as'⟩ := r
      obtain rfl : b = false := hfalse
      simp only [compareAny_of_separates hr hs ys, List.mem_cons, hay, false_or]

theorem compareMembers_of_separates (hr : eq.Reflexive) {ys : List TypeId} :
    ∀ {xs : List TypeId}, eq.Separates xs as → (compareMembers eq ys xs as).1 = true → xs ⊆ ys
  | [], _, _ => List.nil_subset _
  | x :: xs, hs, h => by
    have hx : eq.Separates [x] as := fun c hc => hs c (by
      rw [List.mem_singleton.mp hc]
      exact List.mem_cons_self)
    rw [compareMembers, compareAny_of_separates hr hx ys] at h
    by_cases hmem : x ∈ ys
    · rw [if_pos hmem] at h
      exact List.cons_subset.mpr ⟨hmem, compareMembers_of_separates hr
        (fun c hc => hs c (List.mem_cons_of_mem _ hc)) h⟩
    · rw [if_neg hmem] at h
      exact absurd h (by simp)

end

/-- Increasing lists of one length of which one holds the other are equal. -/
theorem eq_of_increasing_of_subset {xs ys : List TypeId} (hx : xs.Pairwise (· < ·))
    (hy : ys.Pairwise (· < ·)) (hsub : xs ⊆ ys) (hlen : ys.length ≤ xs.length) : xs = ys := by
  have hnodup : xs.Nodup := hx.imp fun h => Nat.ne_of_lt h
  have hperm : xs.Perm ys := (List.subperm_of_subset hnodup hsub).perm_of_length_le hlen
  exact hperm.eq_of_pairwise (fun a b _ _ hab hba => absurd hab (Nat.lt_asymm hba)) hx hy

/-! ### Objects -/

/-- A template is no instance. -/
theorem generic_eq_zero_of_isTemplate {g : ObjectEntry} (hg : g.isTemplate) : g.generic = 0 := by
  simp only [ObjectEntry.isTemplate, Bool.and_eq_true, beq_iff_eq] at hg
  exact hg.2

/-- An instance has at least one argument. -/
theorem IsInstance.madeFor_ne_nil {o g : ObjectEntry} (h : IsInstance t o g) : o.madeFor ≠ [] := by
  intro hnil
  have hargs := h.args
  have hg := h.generic
  simp only [ObjectEntry.isTemplate, Bool.and_eq_true, Bool.not_eq_true', List.isEmpty_eq_false_iff]
    at hg
  rw [hnil, List.length_nil, eq_comm, List.length_eq_zero_iff] at hargs
  exact hg.1 hargs

/-- Two different objects that agree on their names and the number of their arguments are instances
of one template and differ in their arguments. -/
theorem WellFormed.instances_of_ne (h : WellFormed t) {a b : TypeId} {x y : ObjectEntry}
    (ha : t.get? a = some (.object x)) (hb : t.get? b = some (.object y)) (hab : a ≠ b)
    (hname : x.name = y.name) (hlen : x.typeArgs.length = y.typeArgs.length) :
    x.generic = y.generic ∧ x.typeArgs ≠ y.typeArgs := by
  have hx := h.args ha
  have hy := h.args hb
  by_cases hxg : x.generic = 0
  · by_cases hyg : y.generic = 0
    · exact absurd (h.named ha hb hxg hyg hname) hab
    · obtain ⟨g, hi⟩ := h.template hb hyg
      rw [hx, h.plain ha hxg, hy, List.length_nil, eq_comm, List.length_eq_zero_iff] at hlen
      exact absurd hlen hi.madeFor_ne_nil
  · obtain ⟨g, hi⟩ := h.template ha hxg
    by_cases hyg : y.generic = 0
    · rw [hx, hy, h.plain hb hyg, List.length_nil, List.length_eq_zero_iff] at hlen
      exact absurd hlen hi.madeFor_ne_nil
    · obtain ⟨g', hi'⟩ := h.template hb hyg
      have hgen : x.generic = y.generic :=
        h.named hi.template hi'.template (generic_eq_zero_of_isTemplate hi.generic)
          (generic_eq_zero_of_isTemplate hi'.generic) (by rw [← hi.name, hname, hi'.name])
      refine ⟨hgen, fun hargs => hab ?_⟩
      exact h.instances ha hb hxg hgen (by rw [← hx, hargs, hy])

/-! ### Descent -/

/-- The shapes of two different types differ, if the comparison of components tells those of the
first type apart. -/
theorem WellFormed.compareShapes_ne (h : WellFormed t) {a b : TypeId} {x y : Entry}
    (ha : t.get? a = some x) (hb : t.get? b = some y) (hab : a ≠ b) {eq : Comparison}
    {as : Assumptions} (hr : eq.Reflexive) (hs : eq.Separates x.links as) :
    (compareShapes eq x y as).1 = false := by
  -- equal derived entries would be the same type
  have hne : x.IsDerived → x ≠ y := fun hd hxy => hab (h.interned ha (hxy ▸ hb) hd)
  have hone : ∀ c d : TypeId, c ∈ x.links → c ≠ d → (eq c d as).1 = false :=
    fun c d hc hcd => hs c hc d hcd
  cases x with
  | object x =>
    cases y with
    | object y =>
      rw [compareShapes]
      split
      · rename_i hcond
        obtain ⟨hgen, hargs⟩ := h.instances_of_ne ha hb hab hcond.1 hcond.2.2.1
        rw [objectPairs, if_pos hgen, List.nil_append]
        refine compareAll_zip_ne hr _ hcond.2.2.1 hargs fun c hc => hs c ?_
        rw [h.args ha] at hc
        simp [Entry.links, hc]
      · rfl
    | _ => rfl
  | pointer p =>
    cases y with
    | pointer q => exact hone p q List.mem_cons_self fun hpq => hne trivial (by rw [hpq])
    | _ => rfl
  | metaclass p =>
    cases y with
    | metaclass q => exact hone p q List.mem_cons_self fun hpq => hne trivial (by rw [hpq])
    | _ => rfl
  | hierarchy p =>
    cases y with
    | hierarchy q => exact hone p q List.mem_cons_self fun hpq => hne trivial (by rw [hpq])
    | _ => rfl
  | union xs =>
    cases y with
    | union ys =>
      rw [compareShapes]
      split
      · rename_i hlen
        rw [← Bool.not_eq_true]
        intro htrue
        have hsub := compareMembers_of_separates hr hs htrue
        exact hne trivial (by rw [eq_of_increasing_of_subset (h.union ha).increasing
          (h.union hb).increasing hsub (le_of_eq hlen.symm)])
      · rfl
    | _ => rfl
  | _ => rfl

theorem compareUpTo_self (t : Table) (fuel : Nat) : Comparison.Reflexive (t.compareUpTo fuel) := by
  intro a as
  cases fuel with
  | zero => rfl
  | succ fuel => simp [compareUpTo]

/-- Different types are told apart once the depth exceeds the first of them, as long as the
assumptions are about larger types. -/
theorem WellFormed.compareUpTo_ne (h : WellFormed t) :
    ∀ {fuel : Nat} {a b : TypeId} {as : Assumptions}, a ≠ b → a < fuel → (∀ p ∈ as, a < p.1) →
      (t.compareUpTo fuel a b as).1 = false
  | fuel + 1, a, b, as, hab, hlt, has => by
    rw [compareUpTo, if_neg hab]
    split
    · rename_i x y ha hb
      split
      · rfl
      · rw [if_neg fun hmem => absurd (has _ hmem) (Nat.lt_irrefl a)]
        have hfalse : (compareShapes (t.compareUpTo fuel) x y ((a, b) :: as)).1 = false := by
          refine h.compareShapes_ne ha hb hab (t.compareUpTo_self fuel) fun c hc d hcd => ?_
          have hca : c < a := h.links_lt ha c hc
          refine h.compareUpTo_ne hcd (by lia) fun p hp => ?_
          rcases List.mem_cons.mp hp with rfl | hp
          · exact hca
          · exact Nat.lt_trans hca (has p hp)
        split
        · rename_i as' heq
          rw [heq] at hfalse
          exact absurd hfalse (by simp)
        · rfl
    · rfl

/-- **Structural equality is identity** on a well-formed table. -/
theorem WellFormed.equal_iff (h : WellFormed t) {a b : TypeId} : t.equal a b = true ↔ a = b := by
  constructor
  · intro heq
    by_contra hab
    rcases Nat.lt_or_ge a t.size with hlt | hge
    · have hfuel : a < t.size * t.size + 1 :=
        Nat.lt_succ_of_le (Nat.le_trans hlt.le (Nat.le_mul_of_pos_left _ t.size_pos))
      rw [equal, h.compareUpTo_ne hab hfuel (by simp)] at heq
      exact absurd heq (by simp)
    · have hnone : t.get? a = none := by
        rw [← Option.not_isSome_iff_eq_none, isSome_get?_iff]
        lia
      simp [equal, compareUpTo, hab, hnone] at heq
  · rintro rfl
    rw [equal, t.compareUpTo_self]

end TypeFlow.Table
