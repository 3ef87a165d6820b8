import TypeFlow.Types.Subtyping
import TypeFlow.Proofs.Types.Merge

/-!
# Narrowing types

Narrowing follows what is declared below a class, which is not part of its core. `Linked` says that
the classes found there are the ones whose superclass it is, and that what a class includes are
modules; additions of types keep this (`Linked.of_grown`). If these classes are known at all (`Listed`),
narrowing only adds types, and gives a type of the table.
-/

namespace TypeFlow.Table

variable {t t' : Table}

/-- What is declared below a class has it as its superclass, and what it includes are modules. -/
structure Linked (t : Table) : Prop where
  below : ∀ {id : TypeId} {o : ObjectEntry}, t.get? id = some (.object o) → ∀ c ∈ o.subclasses,
    ∃ s, t.get? c = some (.object s) ∧ s.superclass = id
  included : ∀ {id : TypeId} {o : ObjectEntry}, t.get? id = some (.object o) → ∀ m ∈ o.includes,
    ∃ s, t.get? m = some (.object s) ∧ s.isModule = true

/-- Additional types have nothing declared in them. -/
theorem Linked.of_grown (hg : Grown t t') (h : Linked t) : Linked t' := by
  have hcases : ∀ {id : TypeId} {o : ObjectEntry}, t'.get? id = some (.object o) →
      t.get? id = some (.object o) ∨ (o.subclasses = [] ∧ o.includes = []) := by
    intro id o ho
    rcases Nat.lt_or_ge id t.size with hlt | hge
    · exact .inl (hg.get?_eq hlt ▸ ho)
    · exact .inr (hg.bare hge ho)
  refine ⟨fun ho c hc => ?_, fun ho m hm => ?_⟩
  · rcases hcases ho with ho | ⟨hnil, -⟩
    · obtain ⟨s, hs, hsuper⟩ := h.below ho c hc
      exact ⟨s, hg.get hs, hsuper⟩
    · exact absurd hc (by simp [hnil])
  · rcases hcases ho with ho | ⟨-, hnil⟩
    · obtain ⟨s, hs, hmod⟩ := h.included ho m hm
      exact ⟨s, hg.get hs, hmod⟩
    · exact absurd hm (by simp [hnil])

/-- What stands below a class is known. This is all that narrowing needs. -/
def Listed (t : Table) : Prop :=
  ∀ (id : TypeId) (o : ObjectEntry), t.get? id = some (.object o) → ∀ c ∈ o.subclasses, c < t.size

theorem Linked.listed (h : Linked t) : Listed t := by
  intro id o ho c hc
  obtain ⟨s, hs, -⟩ := h.below ho c hc
  exact lt_size_of_get? hs

theorem Listed.of_grown (hg : Grown t t') (h : Listed t) : Listed t' := by
  intro id o ho c hc
  rcases Nat.lt_or_ge id t.size with hlt | hge
  · exact hg.lt_size (h id o (hg.get?_eq hlt ▸ ho) c hc)
  · exact absurd hc (by simp [(hg.bare hge ho).1])

/-- The classes declared below a class are known. -/
theorem Listed.subclasses_lt (h : Listed t) {base c : TypeId}
    (hc : c ∈ ((t.object? base).map ObjectEntry.subclasses).getD []) : c < t.size := by
  cases ho : t.object? base with
  | none => simp [ho] at hc
  | some o =>
    simp only [ho, Option.map_some, Option.getD_some] at hc
    exact h base o (object?_eq_some_iff.mp ho) c hc

namespace WellFormed

theorem adds_unionOf_known (h : WellFormed t) {ids : List TypeId} (hids : ∀ id ∈ ids, id < t.size) :
    Adds t (unionOf ids) fun t' id => id < t'.size :=
  (h.adds_unionOf hids).imp fun _ _ _ _ hid => hid.1

/-- The union of what is left of several types. -/
theorem adds_union_mapM (h : WellFormed t) {ids : List TypeId} {f : TypeId → TableM TypeId}
    (hf : ∀ id ∈ ids, ∀ t', WellFormed t' → Grown t t' → Adds t' (f id) fun t'' m => m < t''.size) :
    Adds t (do let parts ← ids.mapM f; unionOf (parts.filter (· ≠ 0))) fun t' m => m < t'.size := by
  refine (Adds.mapM h hf fun _ _ _ _ _ _ _ _ hg hm => hg.lt_size hm).bind ?_
  rintro t₁ parts h₁ - ⟨hparts, -⟩
  refine h₁.adds_unionOf_known fun m hm => ?_
  obtain ⟨-, -, hlt⟩ := hparts m (List.mem_of_mem_filter hm)
  exact hlt

theorem adds_restrictBelow (h : WellFormed t) (hl : Listed t) (restriction : TypeId) {fuel : Nat}
    {base : TypeId} (hbase : base < t.size) :
    Adds t (restrictBelow restriction fuel base) fun t' m => m < t'.size := by
  induction fuel generalizing t base with
  | zero => exact Adds.pure h t.size_pos
  | succ fuel ih =>
    refine Adds.get_bind ?_
    simp only
    split
    · exact (h.adds_hierarchyOf hbase).imp fun _ _ _ _ hid => lt_size_of_get? hid
    · refine h.adds_union_mapM fun c hc t' h' hg => ih h' (hl.of_grown hg) ?_
      exact hg.lt_size (hl.subclasses_lt hc)

theorem adds_restrictUpTo (h : WellFormed t) (hl : Listed t) {fuel : Nat} {id restriction : TypeId}
    (hid : id < t.size) (hr : restriction < t.size) :
    Adds t (restrictUpTo fuel id restriction) fun t' m => m < t'.size := by
  induction fuel generalizing t id restriction with
  | zero => exact Adds.pure h t.size_pos
  | succ fuel ih =>
    have hunion : ∀ {x : TypeId} {ms : List TypeId}, t.get? x = some (.union ms) →
        ∀ m ∈ ms, m < t.size := by
      intro x ms hx m hm
      obtain ⟨e, he⟩ := (h.union hx).known m hm
      exact lt_size_of_get? he
    refine Adds.get_bind ?_
    split
    · exact Adds.pure h t.size_pos
    · split
      · exact Adds.pure h hid
      · split
        · exact Adds.pure h hid
        · rename_i ms hms _
          exact h.adds_union_mapM fun m hm t' h' hg =>
            ih h' (hl.of_grown hg) (hg.lt_size (hunion hms m hm)) (hg.lt_size hr)
        · rename_i base hbase _
          have hlt : base < id := h.links_lt hbase base (by simp [Entry.links])
          exact h.adds_restrictBelow hl restriction (Nat.lt_trans hlt hid)
        · rename_i ms hms _ _
          exact h.adds_union_mapM fun m hm t' h' hg =>
            ih h' (hl.of_grown hg) (hg.lt_size hid) (hg.lt_size (hunion hms m hm))
        · refine Adds.pure h ?_
          split
          · exact hid
          · exact t.size_pos

/-- **Narrowing only adds types**, and gives a type of the table. -/
theorem adds_restrict (h : WellFormed t) (hl : Listed t) {id restriction : TypeId}
    (hid : id < t.size) (hr : restriction < t.size) :
    Adds t (restrict id restriction) fun t' m => m < t'.size :=
  Adds.get_bind (h.adds_restrictUpTo hl hid hr)

theorem adds_filter_members (h : WellFormed t) {id : TypeId} (hid : id < t.size)
    (keep : TypeId → Bool) :
    Adds t (unionOf ((t.members id).filter keep)) fun t' m => m < t'.size :=
  h.adds_unionOf_known fun _ hm => (h.members_lt_size hid (List.mem_of_mem_filter hm)).2

theorem adds_filterBy (h : WellFormed t) {id target : TypeId} (hid : id < t.size) :
    Adds t (filterBy id target) fun t' m => m < t'.size :=
  Adds.get_bind (h.adds_filter_members hid _)

theorem adds_without (h : WellFormed t) {id drop : TypeId} (hid : id < t.size) :
    Adds t (without id drop) fun t' m => m < t'.size :=
  Adds.get_bind (h.adds_filter_members hid _)

end WellFormed

end TypeFlow.Table
