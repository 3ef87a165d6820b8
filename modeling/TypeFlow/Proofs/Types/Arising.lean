import TypeFlow.Proofs.Types.ClassTree
import TypeFlow.Proofs.Types.Regular

/-!
# Tables that arise

Apart from the operations there is one thing that happens to a table: unification replaces the type arguments of
objects. `Arises` is every table that both lead to, in any order. Type arguments may then be tied together in
circles, as instance variables may, and no longer tell the instances of a template apart. The table is still
`Grounded`, and a superclass is older than its class.
-/

namespace TypeFlow.Table

variable {t t' : Table}

/-- Replaces a type argument of an object. -/
def setTypeArg (id : TypeId) (i : Nat) (arg : TypeId) : TableM Unit :=
  modifyObject id fun o => { o with typeArgs := o.typeArgs.set i arg }

/-- One step: an operation about types of the table, a new object, or the replacement of a type argument. -/
inductive Alters (t : Table) : Table → Prop
  | operation (op : Operation) : (∀ id ∈ op.ids, id < t.size) → Alters t (op.run.run t).2
  | newObject (name : String) (superclass : TypeId) : superclass < t.size →
      Alters t ((Table.newObject name superclass).run t).2
  | setTypeArg (id : TypeId) (i : Nat) (arg : TypeId) : arg < t.size →
      Alters t ((Table.setTypeArg id i arg).run t).2

/-- A table that such steps lead to. -/
inductive Arises : Table → Prop
  | initial : Arises initial
  | step {t t' : Table} : Arises t → Alters t t' → Arises t'

theorem Reaches.arises (h : Reaches initial t) : Arises t := by
  induction h with
  | refl => exact .initial
  | step op _ hop ih => exact ih.step (.operation op hop)
  | newObject name superclass _ hsuper ih => exact ih.step (.newObject name superclass hsuper)

/-! ### What stays -/

/-- Every type keeps its sort, and a derived type its entry. -/
structure Retains (t t' : Table) : Prop where
  get : ∀ {id : TypeId} {e : Entry}, t.get? id = some e →
    ∃ e', t'.get? id = some e' ∧ e'.kind = e.kind ∧ (e.IsDerived → e' = e)

theorem Retains.refl (t : Table) : Retains t t :=
  ⟨fun he => ⟨_, he, rfl, fun _ => rfl⟩⟩

theorem Retains.trans (h : Retains t t') {t'' : Table} (h' : Retains t' t'') : Retains t t'' := by
  refine ⟨fun he => ?_⟩
  obtain ⟨e', he', hk, hd⟩ := h.get he
  obtain ⟨e'', he'', hk', hd'⟩ := h'.get he'
  refine ⟨e'', he'', hk'.trans hk, fun hderived => ?_⟩
  obtain rfl := hd hderived
  exact hd' hderived

theorem Extends.retains (h : Extends t t') : Retains t t' := by
  refine ⟨fun he => ?_⟩
  obtain ⟨e', he', hc⟩ := h.core he
  refine ⟨e', he', ?_, fun hd => Option.some.inj (he'.symm.trans (h.get_derived he hd))⟩
  rw [← Entry.kind_core, hc, Entry.kind_core]

theorem Retains.get_derived (h : Retains t t') {id : TypeId} {e : Entry} (he : t.get? id = some e)
    (hd : e.IsDerived) : t'.get? id = some e := by
  obtain ⟨e', he', -, hsame⟩ := h.get he
  exact hsame hd ▸ he'

/-! ### Replaced type arguments -/

/-- What became of an entry when a type argument was replaced. -/
theorem get?_setTypeArg (t : Table) (id : TypeId) (i : Nat) (arg : TypeId) {x : TypeId} {e : Entry}
    (he : ((setTypeArg id i arg).run t).2.get? x = some e) :
    t.get? x = some e ∨ ∃ o, t.get? x = some (.object o) ∧
      e = .object { o with typeArgs := o.typeArgs.set i arg } := by
  rw [setTypeArg, get?_modifyObject] at he
  split at he
  · obtain ⟨y, hy, rfl⟩ := Option.map_eq_some_iff.mp he
    cases y with
    | object o => exact .inr ⟨o, hy, rfl⟩
    | _ => exact .inl hy
  · exact .inl he

theorem retains_setTypeArg (t : Table) (id : TypeId) (i : Nat) (arg : TypeId) :
    Retains t ((setTypeArg id i arg).run t).2 := by
  refine ⟨fun {x e} he => ?_⟩
  rw [setTypeArg, get?_modifyObject]
  split
  · rw [he, Option.map_some]
    cases e with
    | object o => exact ⟨_, rfl, rfl, fun hd => hd.elim⟩
    | _ => exact ⟨_, rfl, rfl, fun _ => rfl⟩
  · exact ⟨e, he, rfl, fun _ => rfl⟩

theorem size_setTypeArg (t : Table) (id : TypeId) (i : Nat) (arg : TypeId) :
    ((setTypeArg id i arg).run t).2.size = t.size := by
  cases id with
  | zero => rfl
  | succ n => exact congrArg (· + 1) Array.size_modify

namespace Grounded

/-- A superclass is older than its class. -/
theorem tiered (h : Grounded t) : Tiered t := by
  refine ⟨fun {id} hs => ?_⟩
  cases ho : t.object? id with
  | none => exact absurd (by simp [Table.superclass, ho]) hs
  | some o =>
    have hsuper : t.superclass id = o.superclass := by simp [Table.superclass, ho]
    exact hsuper ▸ h.superclass (object?_eq_some_iff.mp ho)

/-- A type argument may be replaced by any type of the table. -/
theorem setTypeArg (h : Grounded t) (id : TypeId) (i : Nat) {arg : TypeId} (harg : arg < t.size) :
    Grounded ((Table.setTypeArg id i arg).run t).2 := by
  have hsize := t.size_setTypeArg id i arg
  have hback : ∀ {x : TypeId} {e : Entry}, ((Table.setTypeArg id i arg).run t).2.get? x = some e →
      e.IsDerived → t.get? x = some e := by
    intro x e he hd
    rcases t.get?_setTypeArg id i arg he with he | ⟨o, -, rfl⟩
    · exact he
    · exact hd.elim
  have hobject : ∀ {x : TypeId} {o : ObjectEntry}, ((Table.setTypeArg id i arg).run t).2.get? x =
      some (.object o) → ∃ p : ObjectEntry, t.get? x = some (.object p) ∧ o.ivars = p.ivars ∧
        o.subclasses = p.subclasses ∧ o.superclass = p.superclass := by
    intro x o ho
    rcases t.get?_setTypeArg id i arg ho with ho | ⟨p, hp, heq⟩
    · exact ⟨o, ho, rfl, rfl, rfl⟩
    · obtain rfl := Entry.object.inj heq
      exact ⟨p, hp, rfl, rfl, rfl⟩
  constructor
  · refine ⟨fun {x ms} hms => ?_, fun ha hb hd => h.interned (hback ha hd) (hback hb hd) hd, fun ho => ?_⟩
    · have hu := h.union (hback hms trivial)
      refine ⟨hu.several, hu.increasing, fun m hm => ?_, fun m hm ns hns => ?_, hu.absorbed⟩
      · obtain ⟨e, he⟩ := hu.known m hm
        obtain ⟨e', he', -⟩ := (t.retains_setTypeArg id i arg).get he
        exact ⟨e', he'⟩
      · exact hu.flat m hm ns (hback hns trivial)
    · obtain ⟨p, hp, hivars, -⟩ := hobject ho
      exact hivars ▸ h.ivars hp
  · obtain ⟨e, he, -⟩ := (t.retains_setTypeArg id i arg).get h.noReturn
    rcases t.get?_setTypeArg id i arg he with hsame | ⟨o, ho, -⟩
    · rw [he, ← hsame, h.noReturn]
    · exact absurd (ho.symm.trans h.noReturn) (by simp)
  · exact fun he hd => h.older (hback he hd) hd
  · intro x o ho c hc
    obtain ⟨p, hp, -, hsub, -⟩ := hobject ho
    exact hsize ▸ h.listed x p hp c (hsub ▸ hc)
  · intro x o ho
    obtain ⟨p, hp, -, -, hsuper⟩ := hobject ho
    exact hsuper ▸ h.superclass hp
  · intro x e he c hc
    rw [hsize]
    rcases t.get?_setTypeArg id i arg he with he | ⟨o, ho, rfl⟩
    · exact h.closed x e he c hc
    · have hold := h.closed x _ ho
      rcases List.mem_cons.mp hc with rfl | hc
      · exact hold _ List.mem_cons_self
      · rcases List.mem_append.mp hc with hc | hc
        · rcases List.mem_or_eq_of_mem_set hc with hc | rfl
          · exact hold c (List.mem_cons_of_mem _ (List.mem_append_left _ hc))
          · exact harg
        · exact hold c (List.mem_cons_of_mem _ (List.mem_append_right _ hc))

end Grounded

/-- Every step keeps what holds of a grounded table. -/
theorem Alters.grounded (ha : Alters t t') (h : Grounded t) : Grounded t' := by
  cases ha with
  | operation op hop => exact (Operation.lasts kept_grounded h hop).1
  | newObject name superclass hsuper => exact (kept_grounded.newObject h name hsuper).1
  | setTypeArg id i arg harg => exact h.setTypeArg id i harg

theorem Alters.retains (ha : Alters t t') (h : Grounded t) : Retains t t' ∧ t.size ≤ t'.size := by
  cases ha with
  | operation op hop =>
    obtain ⟨-, hx⟩ := Operation.lasts kept_grounded h hop
    exact ⟨hx.retains, hx.size_le⟩
  | newObject name superclass hsuper =>
    obtain ⟨-, hx⟩ := kept_grounded.newObject h name hsuper
    exact ⟨hx.retains, hx.size_le⟩
  | setTypeArg id i arg harg => exact ⟨t.retains_setTypeArg id i arg, (t.size_setTypeArg id i arg).ge⟩

/-- **Every table that arises is grounded.** -/
theorem Arises.grounded (h : Arises t) : Grounded t := by
  induction h with
  | initial => exact regular_initial.grounded
  | step _ ha ih => exact ha.grounded ih

end TypeFlow.Table
