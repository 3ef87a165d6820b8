import TypeFlow.Proofs.Types.Regular

/-!
# Tables in which names are declared once

`Nominal` is every table that is reached from the built-in types by operations about types of the table,
where a class or module is declared only under a name that nothing is known by, and superclasses are
classes. Beyond that nothing is demanded: anything may be included anywhere, instance variables may be set
to anything, and derived types may be made of anything.

Such a table is well-formed (`Nominal.wellFormed`), although what a class includes need not be a module
there. So structural equality is identity on it.
-/

namespace TypeFlow.Table

variable {t t' : Table}

/-- What is demanded of a declaration: a class or module gets a name that nothing is known by, and stands
below a class. -/
def Operation.Fresh (t : Table) : Operation → Prop
  | defineClass name superclass _ =>
    t.lookup? name = none ∧ (superclass = 0 ∨ t.IsClass superclass)
  | defineModule name => t.lookup? name = none
  | _ => True

/-- A table in which names are declared once. -/
inductive Nominal : Table → Prop
  | initial : Nominal initial
  | step {t : Table} (op : Operation) : Nominal t → (∀ id ∈ op.ids, id < t.size) → op.Fresh t →
      Nominal (op.run.run t).2

/-- A declaration of something other than an object keeps the invariant. -/
theorem Declares.wellFormed_plain {e : Entry} {name : String} (hd : Declares t t' e name)
    (h : WellFormed t) (hnd : ¬ e.IsDerived) (ho : ∀ o, e ≠ .object o)
    (hlinks : ∀ c ∈ e.links, c < t.size) : WellFormed t' :=
  hd.wellFormed h (Admits.of_links hnd ho hlinks) fun o heq => absurd heq (ho o)

theorem WellFormed.of_modifyObject (h : WellFormed t) (id : TypeId) {f : ObjectEntry → ObjectEntry}
    (hf : ∀ o, (Entry.object (f o)).core = (Entry.object o).core) :
    WellFormed ((modifyObject id f).run t).2 :=
  h.of_sameCores (SameCores.of_modifyObject t id hf)

/-- **An operation that declares no name twice keeps a table well-formed.** -/
theorem Operation.Fresh.wellFormed {op : Operation} (hop : op.Fresh t) (h : WellFormed t)
    (hl : Listed t) (hknown : ∀ id ∈ op.ids, id < t.size) : WellFormed (op.run.run t).2 := by
  cases op with
  | definePrimitive name size parent numeric =>
    refine Declares.wellFormed_plain (e := .primitive ⟨name, size, parent, numeric⟩) ⟨rfl, rfl⟩ h
      ?_ ?_ hknown
    · simp [Entry.IsDerived]
    · simp
  | defineClass name superclass typeParams =>
    obtain ⟨hname, hsuper⟩ := hop
    have ha : Admits t (.object { name, superclass, typeParams }) :=
      .of_fresh rfl rfl rfl (h.newName_of_lookup? hname) hsuper
    have hd : Declares t ⟨t.entries.push (.object { name, superclass, typeParams }),
        (name, t.size) :: t.names⟩ (.object { name, superclass, typeParams }) name := ⟨rfl, rfl⟩
    have hpushed := hd.wellFormed h ha (by rintro _ ⟨⟩; rfl)
    -- the list below the superclass is not part of what the invariant is about
    exact hpushed.of_modifyObject superclass fun o => rfl
  | defineModule name =>
    have ha : Admits t (.object { name, isModule := true }) :=
      .of_fresh rfl rfl rfl (h.newName_of_lookup? hop) (.inl rfl)
    have hd : Declares t ((Table.defineModule name).run t).2 (.object { name, isModule := true })
        name := ⟨rfl, rfl⟩
    exact hd.wellFormed h ha (by rintro _ ⟨⟩; rfl)
  | defineLib name =>
    refine Declares.wellFormed_plain (e := .lib name) ⟨rfl, rfl⟩ h ?_ ?_ ?_
    · simp [Entry.IsDerived]
    · simp
    · simp [Entry.links]
  | defineStruct lib name isUnion members =>
    refine Declares.wellFormed_plain (e := .struct ⟨name, lib, isUnion, members⟩) ⟨rfl, rfl⟩ h
      ?_ ?_ ?_
    · simp [Entry.IsDerived]
    · simp
    · simpa [Entry.links] using hknown lib List.mem_cons_self
  | defineConst owner name value =>
    refine Declares.wellFormed_plain (e := .const name owner value) ⟨rfl, rfl⟩ h ?_ ?_ hknown
    · simp [Entry.IsDerived]
    · simp
  | register name id =>
    exact h.of_sameCores ⟨fun _ => rfl, fun hn => lookup?_cons_isSome rfl hn⟩
  | «include» id module =>
    refine h.of_modifyObject id fun o => ?_
    split <;> rfl
  | setIVar id name type => exact h.of_modifyObject id fun o => rfl
  | addMember id name type =>
    refine h.of_sameCores ⟨fun x => (core_addMember id x name type).1, fun {n} hn => ?_⟩
    cases id <;> exact hn
  | pointerOf id => exact (h.adds_pointerOf (hknown id (by simp [ids]))).1
  | metaclassOf id => exact (h.adds_metaclassOf (hknown id (by simp [ids]))).1
  | hierarchyOf id => exact (h.adds_hierarchyOf (hknown id (by simp [ids]))).1
  | typeVarOf name => exact (h.adds_typeVarOf name).1
  | instantiate template args =>
    exact (h.adds_instantiate fun a ha => hknown a (List.mem_cons_of_mem _ ha)).1
  | merge ids => exact (h.adds_merge hknown).1
  | unionOf ids => exact (h.adds_unionOf hknown).1
  | restrict id restriction =>
    exact (h.adds_restrict hl (hknown id (by simp [ids])) (hknown restriction (by simp [ids]))).1
  | filterBy id target => exact (h.adds_filterBy (hknown id (by simp [ids]))).1
  | without id drop => exact (h.adds_without (hknown id (by simp [ids]))).1

namespace Nominal

/-- Whatever holds of all tables holds of these. -/
theorem regular (h : Nominal t) : Regular t := by
  induction h with
  | initial => exact regular_initial
  | step op _ hknown _ ih => exact (Operation.lasts kept_regular ih hknown).1

/-- **A table in which names are declared once is well-formed.** -/
theorem wellFormed (h : Nominal t) : WellFormed t := by
  induction h with
  | initial => exact wellFormed_initial
  | step op hn hknown hop ih => exact hop.wellFormed ih hn.regular.listed hknown

end Nominal

end TypeFlow.Table
