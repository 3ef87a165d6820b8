import Mathlib.Data.Finset.Card
import Mathlib.Logic.Relation
import TypeFlow.Proofs.Types.Representation
import TypeFlow.Types.Ancestry

/-!
# The search for ancestors

The ancestors of a type are found by a search that goes into everything a type inherits from and shares what
it has seen between all of its branches. `Visits` is this search as a relation, without a bound on its depth: a
derivation is a finite run, and there is at most one (`Visits.unique`). The bound of `visitAncestors` is never
reached, as every level sees one type more (`visits_visitAncestors`), so each fact about the search is an
induction over its runs. Together they say that the ancestors are what is inherited from, directly or through
others (`mem_ancestors_iff`).

Nothing is assumed of the table: links may lead anywhere, also around in circles.
-/

namespace TypeFlow.Table

variable {t : Table} {seen ids out : List TypeId} {id x y : TypeId}

/-- A type inherits from another one directly. -/
def Inherits (t : Table) (a b : TypeId) : Prop :=
  b ∈ t.inheritsFrom a ∧ b ≠ 0

/-- No type inherits. -/
theorem inheritsFrom_of_le (h : t.size ≤ id) : t.inheritsFrom id = [0] := by
  have hnone : t.get? id = none := by
    cases he : t.get? id with
    | none => rfl
    | some e => exact absurd (lt_size_of_get? he) (Nat.not_lt.mpr h)
  simp [inheritsFrom, object?, parent, hnone]

/-! ### Runs of the search -/

/-- A run of the search over some types, one after the other: what it has seen before and after. -/
inductive Visits (t : Table) : List TypeId → List TypeId → List TypeId → Prop
  | done (seen : List TypeId) : Visits t seen [] seen
  | skip {seen ids out : List TypeId} {id : TypeId} : id = 0 ∨ id ∈ seen → Visits t seen ids out →
      Visits t seen (id :: ids) out
  | visit {seen ids now out : List TypeId} {id : TypeId} : ¬ (id = 0 ∨ id ∈ seen) →
      Visits t (id :: seen) (t.inheritsFrom id) now → Visits t now ids out → Visits t seen (id :: ids) out

namespace Visits

/-- The search has one result. -/
theorem unique {out' : List TypeId} (h : t.Visits seen ids out) (h' : t.Visits seen ids out') :
    out = out' := by
  induction h generalizing out' with
  | done seen =>
    cases h'
    rfl
  | skip hold _ ih =>
    cases h' with
    | skip _ h' => exact ih h'
    | visit hnew _ _ => exact absurd hold hnew
  | visit hnew _ _ ih ihrest =>
    cases h' with
    | skip hold _ => exact absurd hold hnew
    | visit _ h' hrest =>
      obtain rfl := ih h'
      exact ihrest hrest

/-- The search puts what it finds before what it has seen, and that is inherited from. -/
theorem found (h : t.Visits seen ids out) :
    ∃ found, out = found ++ seen ∧
      ∀ x ∈ found, ∃ id ∈ ids, id ≠ 0 ∧ Relation.ReflTransGen t.Inherits id x := by
  induction h with
  | done seen => exact ⟨[], rfl, by simp⟩
  | skip _ _ ih =>
    obtain ⟨found, rfl, hfound⟩ := ih
    refine ⟨found, rfl, fun x hx => ?_⟩
    obtain ⟨c, hc, hreach⟩ := hfound x hx
    exact ⟨c, List.mem_cons_of_mem _ hc, hreach⟩
  | @visit seen ids now out id hnew _ _ ih ihrest =>
    have hid : id ≠ 0 := (not_or.mp hnew).1
    obtain ⟨below, rfl, hbelow⟩ := ih
    obtain ⟨found, rfl, hfound⟩ := ihrest
    refine ⟨found ++ below ++ [id], by simp, fun x hx => ?_⟩
    rcases List.mem_append.mp hx with hx | hx
    · rcases List.mem_append.mp hx with hx | hx
      · obtain ⟨c, hc, hreach⟩ := hfound x hx
        exact ⟨c, List.mem_cons_of_mem _ hc, hreach⟩
      · obtain ⟨c, hc, hc0, hreach⟩ := hbelow x hx
        exact ⟨id, List.mem_cons_self, hid, .head ⟨hc, hc0⟩ hreach⟩
    · obtain rfl := List.mem_singleton.mp hx
      exact ⟨x, List.mem_cons_self, hid, .refl⟩

theorem suffix (h : t.Visits seen ids out) : seen <:+ out := by
  obtain ⟨found, rfl, -⟩ := h.found
  exact List.suffix_append _ _

/-- The search sees nothing twice. -/
theorem nodup (h : t.Visits seen ids out) (hseen : seen.Nodup) : out.Nodup := by
  induction h with
  | done seen => exact hseen
  | skip _ _ ih => exact ih hseen
  | visit hnew _ _ ih ihrest => exact ihrest (ih (List.nodup_cons.mpr ⟨(not_or.mp hnew).2, hseen⟩))

/-- What is searched is found. -/
theorem mem (h : t.Visits seen ids out) (hid : id ∈ ids) (hne : id ≠ 0) : id ∈ out := by
  induction h with
  | done seen => exact absurd hid (by simp)
  | skip hold hrest ih =>
    rcases List.mem_cons.mp hid with rfl | hid
    · exact hrest.suffix.subset (hold.resolve_left hne)
    · exact ih hid
  | visit _ hfirst hrest _ ihrest =>
    rcases List.mem_cons.mp hid with rfl | hid
    · exact hrest.suffix.subset (hfirst.suffix.subset List.mem_cons_self)
    · exact ihrest hid

/-- What the search adds is closed under inheritance, though what it had seen before need not be. -/
theorem closed (h : t.Visits seen ids out) (hx : x ∈ out) (hnew : x ∉ seen) (hxy : t.Inherits x y) :
    y ∈ out := by
  induction h with
  | done seen => exact absurd hx hnew
  | skip _ _ ih => exact ih hx hnew
  | @visit seen ids now out id _ hfirst hrest ih ihrest =>
    by_cases hnow : x ∈ now
    · refine hrest.suffix.subset ?_
      by_cases hxid : x = id
      · subst hxid
        exact hfirst.mem hxy.1 hxy.2
      · exact ih hnow (by simp [hxid, hnew])
    · exact ihrest hx hnow

end Visits

/-! ### The bound of the search -/

/-- The number of types that a search has not seen. -/
def unseen (t : Table) (seen : List TypeId) : Nat :=
  ((Finset.range t.size).filter (· ∉ seen)).card

theorem unseen_le (t : Table) (seen : List TypeId) : t.unseen seen ≤ t.size :=
  (Finset.card_filter_le _ _).trans (Finset.card_range _).le

theorem unseen_anti {seen seen' : List TypeId} (hsub : seen ⊆ seen') :
    t.unseen seen' ≤ t.unseen seen := by
  refine Finset.card_le_card fun x hx => ?_
  obtain ⟨hlt, hnew⟩ := Finset.mem_filter.mp hx
  exact Finset.mem_filter.mpr ⟨hlt, fun hin => hnew (hsub hin)⟩

theorem unseen_cons_lt {seen : List TypeId} {id : TypeId} (hid : id < t.size) (hnew : id ∉ seen) :
    t.unseen (id :: seen) < t.unseen seen := by
  refine Finset.card_lt_card (Finset.ssubset_iff_subset_ne.mpr ⟨fun x hx => ?_, fun heq => ?_⟩)
  · obtain ⟨hlt, hnot⟩ := Finset.mem_filter.mp hx
    exact Finset.mem_filter.mpr ⟨hlt, fun hin => hnot (List.mem_cons_of_mem _ hin)⟩
  · have hmem : id ∈ (Finset.range t.size).filter (· ∉ seen) :=
      Finset.mem_filter.mpr ⟨Finset.mem_range.mpr hid, hnew⟩
    rw [← heq] at hmem
    exact (Finset.mem_filter.mp hmem).2 List.mem_cons_self

/-- **A search never runs out of steps**, as long as there are more than unseen types. -/
theorem visits_visitAncestors {fuel : Nat} (hf : t.unseen seen < fuel) (ids : List TypeId) :
    t.Visits seen ids (ids.foldl (t.visitAncestors fuel) seen) := by
  induction fuel generalizing seen ids with
  | zero => exact absurd hf (Nat.not_lt_zero _)
  | succ fuel ih =>
    induction ids generalizing seen with
    | nil => exact .done seen
    | cons id ids ihids =>
      rw [List.foldl_cons, visitAncestors]
      split
      · rename_i hold
        exact .skip hold (ihids hf)
      · rename_i hnew
        have hfirst : t.Visits (id :: seen) (t.inheritsFrom id)
            ((t.inheritsFrom id).foldl (t.visitAncestors fuel) (id :: seen)) := by
          rcases Nat.lt_or_ge id t.size with hlt | hge
          · have hless := unseen_cons_lt hlt (not_or.mp hnew).2
            exact ih (Nat.lt_of_lt_of_le hless (Nat.le_of_lt_succ hf)) _
          · -- what is not in the table inherits from nothing, so no step is needed below it
            rw [inheritsFrom_of_le hge]
            have hzero : t.visitAncestors fuel (id :: seen) 0 = id :: seen := by
              cases fuel <;> simp [visitAncestors]
            rw [List.foldl_cons, List.foldl_nil, hzero]
            exact .skip (.inl rfl) (.done _)
        refine .visit hnew hfirst (ihids (Nat.lt_of_le_of_lt (unseen_anti ?_) hf))
        exact ((List.suffix_cons id seen).trans hfirst.suffix).subset

/-- The steps that a search is allowed do not matter, as long as there are more than unseen types. -/
theorem visitAncestors_fuel {fuel fuel' : Nat} (hf : t.unseen seen < fuel) (hf' : t.unseen seen < fuel')
    (id : TypeId) : t.visitAncestors fuel seen id = t.visitAncestors fuel' seen id :=
  (visits_visitAncestors hf [id]).unique (visits_visitAncestors hf' [id])

/-! ### Ancestors -/

/-- The ancestors of a type are the result of the search from it. -/
theorem visits_ancestors (t : Table) (id : TypeId) : t.Visits [] [id] (t.ancestors id).reverse := by
  rw [ancestors, List.reverse_reverse]
  exact visits_visitAncestors (Nat.lt_succ_of_le (t.unseen_le [])) [id]

/-- **The ancestors of a type are itself and all it inherits from**, directly or through others. -/
theorem mem_ancestors_iff : x ∈ t.ancestors id ↔ id ≠ 0 ∧ Relation.ReflTransGen t.Inherits id x := by
  have hrun := t.visits_ancestors id
  rw [← List.mem_reverse]
  constructor
  · intro hx
    obtain ⟨found, heq, hfound⟩ := hrun.found
    obtain ⟨c, hc, hne, hreach⟩ := hfound x (by simpa [heq] using hx)
    obtain rfl := List.mem_singleton.mp hc
    exact ⟨hne, hreach⟩
  · rintro ⟨hne, hx⟩
    induction hx with
    | refl => exact hrun.mem List.mem_cons_self hne
    | tail _ hbc ih => exact hrun.closed ih (by simp) hbc

theorem self_mem_ancestors (hne : id ≠ 0) : id ∈ t.ancestors id :=
  mem_ancestors_iff.mpr ⟨hne, .refl⟩

/-- The ancestors of an ancestor are ancestors. -/
theorem ancestors_trans {a b c : TypeId} (hab : b ∈ t.ancestors a) (hbc : c ∈ t.ancestors b) :
    c ∈ t.ancestors a := by
  obtain ⟨hne, hreach⟩ := mem_ancestors_iff.mp hab
  exact mem_ancestors_iff.mpr ⟨hne, hreach.trans (mem_ancestors_iff.mp hbc).2⟩

/-- No type is found twice. -/
theorem nodup_ancestors (t : Table) (id : TypeId) : (t.ancestors id).Nodup :=
  List.nodup_reverse.mp ((t.visits_ancestors id).nodup List.nodup_nil)

/-- The nearest ancestor of a type is the type itself. -/
theorem exists_ancestors_eq (t : Table) (hid : id ≠ 0) : ∃ rest, t.ancestors id = id :: rest := by
  have hrun := t.visits_ancestors id
  generalize hout : (t.ancestors id).reverse = out at hrun
  cases hrun with
  | skip hold => exact absurd hold (by simp [hid])
  | visit _ hfirst hrest =>
    obtain ⟨found, hfound⟩ := hfirst.suffix
    cases hrest
    exact ⟨found.reverse, List.reverse_injective (by rw [hout, ← hfound]; simp)⟩

end TypeFlow.Table
