import TypeFlow.Proofs.Types.Narrowing

/-!
# Tables as they are built

`Built` is every table that is reached from the built-in types by operations as inference uses them
(`Operation`): declarations, changes of what is declared, and the making of derived types. What is
demanded of an operation (`Operation.Allowed`) is little: it is about types of the table, classes and
modules get names that nothing is known by, superclasses are classes, and only modules are included.
Unnamed objects are not made.

Every built table is well-formed and linked (`Built.wellFormed`, `Built.linked`): each operation keeps
both (`Operation.keeps`), and the built-in types have both.
-/

namespace TypeFlow.Table

variable {t t' : Table}

/-! ### Operations -/

/-- An operation on a table. -/
inductive Operation where
  | definePrimitive (name : String) (size : Int) (parent : TypeId) (numeric : Option Numeric)
  | defineClass (name : String) (superclass : TypeId) (typeParams : List String)
  | defineModule (name : String)
  | defineLib (name : String)
  | defineStruct (lib : TypeId) (name : String) (isUnion : Bool) (members : List (String × TypeId))
  | defineConst (owner : TypeId) (name : String) (value : Nat)
  | register (name : String) (id : TypeId)
  | «include» (id module : TypeId)
  | setIVar (id : TypeId) (name : String) (type : TypeId)
  | addMember (id : TypeId) (name : String) (type : TypeId)
  | pointerOf (id : TypeId)
  | metaclassOf (id : TypeId)
  | hierarchyOf (id : TypeId)
  | typeVarOf (name : String)
  | instantiate (template : TypeId) (args : List TypeId)
  | merge (ids : List TypeId)
  | unionOf (ids : List TypeId)
  | restrict (id restriction : TypeId)
  | filterBy (id target : TypeId)
  | without (id drop : TypeId)

/-- Performs an operation. -/
def Operation.run : Operation → TableM Unit
  | definePrimitive name size parent numeric => discard (Table.definePrimitive name size parent numeric)
  | defineClass name superclass typeParams => discard (Table.defineClass name superclass typeParams)
  | defineModule name => discard (Table.defineModule name)
  | defineLib name => discard (Table.defineLib name)
  | defineStruct lib name isUnion members => discard (Table.defineStruct lib name isUnion members)
  | defineConst owner name value => discard (Table.defineConst owner name value)
  | register name id => Table.register name id
  | «include» id module => Table.«include» id module
  | setIVar id name type => modifyObject id (·.setIVar name type)
  | addMember id name type => Table.addMember id name type
  | pointerOf id => discard (Table.pointerOf id)
  | metaclassOf id => discard (Table.metaclassOf id)
  | hierarchyOf id => discard (Table.hierarchyOf id)
  | typeVarOf name => discard (Table.typeVarOf name)
  | instantiate template args => discard (Table.instantiate template args)
  | merge ids => discard (Table.merge ids)
  | unionOf ids => discard (Table.unionOf ids)
  | restrict id restriction => discard (Table.restrict id restriction)
  | filterBy id target => discard (Table.filterBy id target)
  | without id drop => discard (Table.without id drop)

/-- Whether a type is a class. -/
def IsClass (t : Table) (id : TypeId) : Prop :=
  ∃ o, t.get? id = some (.object o) ∧ o.isModule = false

/-- Whether a type is a module. -/
def IsModule (t : Table) (id : TypeId) : Prop :=
  ∃ o, t.get? id = some (.object o) ∧ o.isModule = true

/-- What is demanded of an operation. No type, which is zero, counts as known. -/
def Operation.Allowed (t : Table) : Operation → Prop
  | definePrimitive _ _ parent _ => parent < t.size
  | defineClass name superclass _ =>
    t.lookup? name = none ∧ (superclass = 0 ∨ t.IsClass superclass)
  | defineModule name => t.lookup? name = none
  | defineLib _ => True
  | defineStruct lib _ _ _ => lib < t.size
  | defineConst owner _ _ => owner < t.size
  | register _ _ => True
  | «include» _ module => t.IsModule module
  | setIVar _ _ _ => True
  | addMember _ _ _ => True
  | pointerOf id => id < t.size
  | metaclassOf id => id < t.size
  | hierarchyOf id => id < t.size
  | typeVarOf _ => True
  | instantiate _ args => ∀ a ∈ args, a < t.size
  | merge ids => ∀ id ∈ ids, id < t.size
  | unionOf ids => ∀ id ∈ ids, id < t.size
  | restrict id restriction => id < t.size ∧ restriction < t.size
  | filterBy id _ => id < t.size
  | without id _ => id < t.size

/-- A table that is reached from the built-in types by allowed operations. -/
inductive Built : Table → Prop
  | initial : Built initial
  | step {t : Table} (op : Operation) : Built t → op.Allowed t → Built (op.run.run t).2

/-! ### Declarations -/

theorem lookup?_cons_isSome {name n : String} {id : TypeId} (hn : t'.names = (n, id) :: t.names)
    (h : (t.lookup? name).isSome) : (t'.lookup? name).isSome := by
  rw [lookup?, hn, List.find?_cons]
  split
  · rfl
  · exact h

/-- What declaring a class, a module, a primitive and the like has in common: one entry and one
name are added. -/
structure Declares (t t' : Table) (e : Entry) (name : String) : Prop where
  entries : t'.entries = t.entries.push e
  names : t'.names = (name, t.size) :: t.names

namespace Declares

variable {e : Entry} {name : String}

theorem toExtends (hd : Declares t t' e name) : Extends t t' :=
  Extends.of_push hd.entries fun h => lookup?_cons_isSome hd.names h

theorem wellFormed (hd : Declares t t' e name) (h : WellFormed t) (ha : Admits t e)
    (ho : ∀ o, e = .object o → o.name = name) : WellFormed t' := by
  refine h.of_push hd.entries (fun hn => lookup?_cons_isSome hd.names hn) (fun o heq => ?_) ha
  rw [lookup?, hd.names, ho o heq]
  simp

theorem linked (hd : Declares t t' e name) (h : Linked t)
    (ho : ∀ o, e = .object o → o.subclasses = [] ∧ o.includes = []) : Linked t' := by
  refine ⟨fun hget c hc => ?_, fun hget m hm => ?_⟩
  · rcases get?_of_push_cases hd.entries hget with ⟨-, heq⟩ | hget
    · exact absurd hc (by simp [(ho _ heq.symm).1])
    · obtain ⟨s, hs, hsuper⟩ := h.below hget c hc
      exact ⟨s, get?_of_push_old hd.entries hs, hsuper⟩
  · rcases get?_of_push_cases hd.entries hget with ⟨-, heq⟩ | hget
    · exact absurd hm (by simp [(ho _ heq.symm).2])
    · obtain ⟨s, hs, hmod⟩ := h.included hget m hm
      exact ⟨s, get?_of_push_old hd.entries hs, hmod⟩

end Declares

/-- An entry that is neither derived nor an object may be added as soon as it is about known types. -/
theorem Admits.of_links {e : Entry} (hd : ¬ e.IsDerived) (ho : ∀ o, e ≠ .object o)
    (hl : ∀ c ∈ e.links, c < t.size) : Admits t e := by
  refine ⟨hl, fun h => absurd h hd, ?_, ?_, ?_, ?_, ?_⟩
  · rintro ms rfl
    exact absurd trivial hd
  all_goals exact fun o heq => absurd heq (ho o)

/-- A class or module with a new name may be added. -/
theorem Admits.of_fresh {o : ObjectEntry} (hg : o.generic = 0) (hm : o.madeFor = [])
    (ha : o.typeArgs = []) (hn : t.NewName o.name)
    (hs : o.superclass = 0 ∨ t.IsClass o.superclass) : Admits t (.object o) := by
  have hlt : o.superclass < t.size := by
    rcases hs with hs | ⟨s, hs, -⟩
    · exact hs ▸ t.size_pos
    · exact lt_size_of_get? hs
  refine ⟨?_, fun h => absurd h (by simp [Entry.IsDerived]), by simp, ?_, ?_, ?_, ?_⟩
  · intro c hc
    simp only [Entry.links, hg, hm, List.mem_cons, List.not_mem_nil, or_false] at hc
    rcases hc with rfl | rfl
    · exact hlt
    · exact t.size_pos
  · rintro _ ⟨⟩
    rw [ha, hm]
  · rintro _ ⟨⟩ hne
    exact hs.resolve_left hne
  · rintro _ ⟨⟩ -
    exact ⟨hm, hn⟩
  · rintro _ ⟨⟩ hne
    exact absurd hg hne

/-! ### Changes -/

/-- An entry of a modified table was one before. -/
theorem get?_modify {id x : TypeId} {f : Entry → Entry} {n : Nat} (hid : id = n + 1)
    (ht : t'.entries = t.entries.modify n f) :
    t'.get? x = if x = id then (t.get? x).map f else t.get? x := by
  subst hid
  match x with
  | 0 => simp
  | k + 1 =>
    simp only [get?_succ, ht, Array.getElem?_modify, Nat.add_right_cancel_iff]
    by_cases hk : n = k
    · simp [hk]
    · simp [hk, Ne.symm hk]

theorem get?_modifyObject (id x : TypeId) (f : ObjectEntry → ObjectEntry) :
    ((modifyObject id f).run t).2.get? x = if x = id then
      (t.get? x).map fun
        | .object o => .object (f o)
        | e => e
      else t.get? x := by
  match id with
  | 0 =>
    match x with
    | 0 => rfl
    | n + 1 => rfl
  | n + 1 => exact get?_modify rfl rfl

theorem names_modifyObject (id : TypeId) (f : ObjectEntry → ObjectEntry) :
    ((modifyObject id f).run t).2.names = t.names := by
  cases id <;> rfl

/-- A change of objects that keeps their cores. -/
theorem SameCores.of_modifyObject (t : Table) (id : TypeId) {f : ObjectEntry → ObjectEntry}
    (hf : ∀ o, (Entry.object (f o)).core = (Entry.object o).core) :
    SameCores t ((modifyObject id f).run t).2 := by
  refine ⟨fun x => ?_, fun {name} hn => ?_⟩
  · rw [get?_modifyObject]
    split
    · rw [Option.map_map]
      refine congrArg (Option.map · _) (funext fun e => ?_)
      cases e with
      | object o => exact hf o
      | _ => rfl
    · rfl
  · rw [lookup?, names_modifyObject]
    exact hn

/-- A change of objects keeps the links, provided that what is added below a class has it as its
superclass and what is included are modules. -/
theorem Linked.of_modifyObject (h : Linked t) (id : TypeId) {f : ObjectEntry → ObjectEntry}
    (hf : ∀ o, (Entry.object (f o)).core = (Entry.object o).core)
    (hsub : ∀ o, ∀ c ∈ (f o).subclasses, c ∈ o.subclasses ∨
      ∃ s, t.get? c = some (.object s) ∧ s.superclass = id)
    (hinc : ∀ o, ∀ m ∈ (f o).includes, m ∈ o.includes ∨ t.IsModule m) :
    Linked ((modifyObject id f).run t).2 := by
  have hx := (SameCores.of_modifyObject t id hf).toExtends
  have hkeep : ∀ {x c : TypeId} {s : ObjectEntry}, t.get? c = some (.object s) →
      s.superclass = x → ∃ s', ((modifyObject id f).run t).2.get? c = some (.object s') ∧
        s'.superclass = x := by
    intro x c s hs hsuper
    obtain ⟨s', hs', -, hsuper', -⟩ := hx.object hs
    exact ⟨s', hs', hsuper'.trans hsuper⟩
  have hmod : ∀ {m : TypeId}, t.IsModule m → ((modifyObject id f).run t).2.IsModule m := by
    rintro m ⟨s, hs, hm⟩
    obtain ⟨s', hs', -, -, hm', -⟩ := hx.object hs
    exact ⟨s', hs', hm'.trans hm⟩
  -- an object of the changed table is an old one, or the changed one
  have hold : ∀ {x : TypeId} {o : ObjectEntry},
      ((modifyObject id f).run t).2.get? x = some (.object o) →
      t.get? x = some (.object o) ∨ (x = id ∧ ∃ p, t.get? x = some (.object p) ∧ o = f p) := by
    intro x o ho
    rw [get?_modifyObject] at ho
    split at ho
    · rename_i hxid
      obtain ⟨e, he, heq⟩ := Option.map_eq_some_iff.mp ho
      cases e with
      | object p => exact .inr ⟨hxid, p, he, (Entry.object.inj heq).symm⟩
      | _ => exact absurd heq (by simp)
    · exact .inl ho
  refine ⟨fun {x o} ho c hc => ?_, fun {x o} ho m hm => ?_⟩
  · rcases hold ho with ho | ⟨rfl, p, hp, rfl⟩
    · obtain ⟨s, hs, hsuper⟩ := h.below ho c hc
      exact hkeep hs hsuper
    · rcases hsub p c hc with hc | ⟨s, hs, hsuper⟩
      · obtain ⟨s, hs, hsuper⟩ := h.below hp c hc
        exact hkeep hs hsuper
      · exact hkeep hs hsuper
  · rcases hold ho with ho | ⟨rfl, p, hp, rfl⟩
    · exact hmod (h.included ho m hm)
    · rcases hinc p m hm with hm | hm
      · exact hmod (h.included hp m hm)
      · exact hmod hm

theorem get?_addMember (id x : TypeId) (name : String) (type : TypeId) :
    ((addMember id name type).run t).2.get? x = if x = id then
      (t.get? x).map fun
        | .struct s => .struct { s with members := s.members ++ [(name, type)] }
        | e => e
      else t.get? x := by
  match id with
  | 0 =>
    match x with
    | 0 => rfl
    | n + 1 => rfl
  | n + 1 => exact get?_modify rfl rfl

/-- New members of a foreign structure keep the cores and leave all objects alone. -/
theorem core_addMember (id x : TypeId) (name : String) (type : TypeId) :
    (((addMember id name type).run t).2.get? x).map Entry.core = (t.get? x).map Entry.core ∧
      ∀ o, ((addMember id name type).run t).2.get? x = some (.object o) ↔
        t.get? x = some (.object o) := by
  rw [get?_addMember]
  split
  · cases t.get? x with
    | none => simp
    | some e => cases e <;> simp [Entry.core]
  · simp

/-! ### Every operation keeps the invariants -/

/-- What operations keep. -/
structure Keeps (t t' : Table) : Prop where
  wellFormed : WellFormed t'
  linked : Linked t'
  extension : Extends t t'

theorem Adds.keeps {α : Type} {x : TableM α} {Q : Table → α → Prop} (hx : Adds t x Q)
    (hl : Linked t) : Keeps t (x.run t).2 :=
  ⟨hx.1, hl.of_grown hx.2.1, hx.2.1.toExtends⟩

/-- A declaration of something other than an object. -/
theorem Declares.keeps {e : Entry} {name : String} (hd : Declares t t' e name) (h : WellFormed t)
    (hl : Linked t) (hnd : ¬ e.IsDerived) (ho : ∀ o, e ≠ .object o)
    (hlinks : ∀ c ∈ e.links, c < t.size) : Keeps t t' :=
  ⟨hd.wellFormed h (Admits.of_links hnd ho hlinks) fun o heq => absurd heq (ho o),
    hd.linked hl fun o heq => absurd heq (ho o), hd.toExtends⟩

/-- A declaration of a class or module. -/
theorem Declares.keeps_object {o : ObjectEntry} {name : String}
    (hd : Declares t t' (.object o) name) (h : WellFormed t) (hl : Linked t)
    (ha : Admits t (.object o)) (hname : o.name = name) (hsub : o.subclasses = [])
    (hinc : o.includes = []) : Keeps t t' := by
  refine ⟨hd.wellFormed h ha ?_, hd.linked hl ?_, hd.toExtends⟩
  · rintro _ ⟨⟩
    exact hname
  · rintro _ ⟨⟩
    exact ⟨hsub, hinc⟩

theorem Keeps.modifyObject (hk : Keeps t t') (id : TypeId) {f : ObjectEntry → ObjectEntry}
    (hf : ∀ o, (Entry.object (f o)).core = (Entry.object o).core)
    (hsub : ∀ o, ∀ c ∈ (f o).subclasses, c ∈ o.subclasses ∨
      ∃ s, t'.get? c = some (.object s) ∧ s.superclass = id)
    (hinc : ∀ o, ∀ m ∈ (f o).includes, m ∈ o.includes ∨ t'.IsModule m) :
    Keeps t ((Table.modifyObject id f).run t').2 :=
  have hc := SameCores.of_modifyObject t' id hf
  ⟨hk.wellFormed.of_sameCores hc, hk.linked.of_modifyObject id hf hsub hinc,
    hk.extension.trans hc.toExtends⟩

/-- A class with a new name may be declared below a class. -/
theorem WellFormed.keeps_defineClass (h : WellFormed t) (hl : Linked t) {name : String}
    {superclass : TypeId} (typeParams : List String) (hname : t.NewName name)
    (hsuper : superclass = 0 ∨ t.IsClass superclass) :
    Keeps t ((defineClass name superclass typeParams).run t).2 := by
  have hd : Declares t ⟨t.entries.push (.object { name, superclass, typeParams }),
      (name, t.size) :: t.names⟩ (.object { name, superclass, typeParams }) name := ⟨rfl, rfl⟩
  have hk := hd.keeps_object h hl (Admits.of_fresh rfl rfl rfl hname hsuper) rfl rfl rfl
  -- the new class is then noted below its superclass
  refine hk.modifyObject superclass (fun o => rfl) (fun o c hc => ?_) fun o m hm => .inl hm
  rcases List.mem_append.mp hc with hc | hc
  · exact .inl hc
  · obtain rfl := List.mem_singleton.mp hc
    exact .inr ⟨_, (get?_of_push hd.entries t.size).trans (if_pos rfl), rfl⟩

/-- A module with a new name may be declared. -/
theorem WellFormed.keeps_defineModule (h : WellFormed t) (hl : Linked t) {name : String}
    (hname : t.NewName name) : Keeps t ((defineModule name).run t).2 :=
  Declares.keeps_object (o := { name, isModule := true }) ⟨rfl, rfl⟩ h hl
    (Admits.of_fresh rfl rfl rfl hname (.inl rfl)) rfl rfl rfl

/-- **Every allowed operation keeps the invariants.** -/
theorem Operation.keeps (h : WellFormed t) (hl : Linked t) {op : Operation} (ha : op.Allowed t) :
    Keeps t (op.run.run t).2 := by
  have hrefl : Keeps t t := ⟨h, hl, Extends.refl t⟩
  cases op with
  | definePrimitive name size parent numeric =>
    refine Declares.keeps (e := .primitive ⟨name, size, parent, numeric⟩) ⟨rfl, rfl⟩ h hl ?_ ?_ ?_
    · simp [Entry.IsDerived]
    · simp
    · simpa [Entry.links, Allowed] using ha
  | defineClass name superclass typeParams =>
    exact h.keeps_defineClass hl typeParams (h.newName_of_lookup? ha.1) ha.2
  | defineModule name => exact h.keeps_defineModule hl (h.newName_of_lookup? ha)
  | defineLib name =>
    refine Declares.keeps (e := .lib name) ⟨rfl, rfl⟩ h hl ?_ ?_ ?_
    · simp [Entry.IsDerived]
    · simp
    · simp [Entry.links]
  | defineStruct lib name isUnion members =>
    refine Declares.keeps (e := .struct ⟨name, lib, isUnion, members⟩) ⟨rfl, rfl⟩ h hl ?_ ?_ ?_
    · simp [Entry.IsDerived]
    · simp
    · simpa [Entry.links, Allowed] using ha
  | defineConst owner name value =>
    refine Declares.keeps (e := .const name owner value) ⟨rfl, rfl⟩ h hl ?_ ?_ ?_
    · simp [Entry.IsDerived]
    · simp
    · simpa [Entry.links, Allowed] using ha
  | register name id =>
    have hc : SameCores t ⟨t.entries, (name, id) :: t.names⟩ :=
      ⟨fun _ => rfl, fun hn => lookup?_cons_isSome rfl hn⟩
    exact ⟨h.of_sameCores hc, ⟨fun ho => hl.below ho, fun ho => hl.included ho⟩, hc.toExtends⟩
  | «include» id module =>
    refine hrefl.modifyObject id (fun o => ?_) (fun o c hc => ?_) fun o m hm => ?_
    · split <;> rfl
    · split at hc <;> exact .inl hc
    · split at hm
      · exact .inl hm
      · rcases List.mem_append.mp hm with hm | hm
        · exact .inl hm
        · exact .inr (List.mem_singleton.mp hm ▸ ha)
  | setIVar id name type =>
    exact hrefl.modifyObject id (fun o => rfl) (fun o c hc => .inl hc) fun o m hm => .inl hm
  | addMember id name type =>
    have hget := fun x => core_addMember (t := t) id x name type
    have hc : SameCores t ((Table.addMember id name type).run t).2 := by
      refine ⟨fun x => (hget x).1, fun {n} hn => ?_⟩
      cases id <;> exact hn
    refine ⟨h.of_sameCores hc, ⟨fun {x o} ho c hcs => ?_, fun {x o} ho m hm => ?_⟩, hc.toExtends⟩
    · obtain ⟨s, hs, hsuper⟩ := hl.below (((hget x).2 o).mp ho) c hcs
      exact ⟨s, ((hget c).2 s).mpr hs, hsuper⟩
    · obtain ⟨s, hs, hmod⟩ := hl.included (((hget x).2 o).mp ho) m hm
      exact ⟨s, ((hget m).2 s).mpr hs, hmod⟩
  | pointerOf id => exact (h.adds_pointerOf ha).keeps hl
  | metaclassOf id => exact (h.adds_metaclassOf ha).keeps hl
  | hierarchyOf id => exact (h.adds_hierarchyOf ha).keeps hl
  | typeVarOf name => exact (h.adds_typeVarOf name).keeps hl
  | instantiate template args => exact (h.adds_instantiate ha).keeps hl
  | merge ids => exact (h.adds_merge ha).keeps hl
  | unionOf ids => exact (h.adds_unionOf ha).keeps hl
  | restrict id restriction => exact (h.adds_restrict hl.listed ha.1 ha.2).keeps hl
  | filterBy id target => exact (h.adds_filterBy ha).keeps hl
  | without id drop => exact (h.adds_without ha).keeps hl

/-! ### Built tables -/

/-- The built-in classes and modules with their numbers. -/
def builtinObjects : List (ObjectEntry × TypeId) :=
  (initial.entries.toList.zipIdx 1).filterMap fun
    | (.object o, id) => some (o, id)
    | _ => none

theorem mem_initial {id : TypeId} {e : Entry} :
    initial.get? id = some e ↔ (e, id) ∈ initial.entries.toList.zipIdx 1 := by
  rw [List.mem_zipIdx_iff_le_and_getElem?_sub]
  match id with
  | 0 => simp
  | n + 1 => simp

theorem mem_builtinObjects {id : TypeId} {o : ObjectEntry} :
    initial.get? id = some (.object o) ↔ (o, id) ∈ builtinObjects := by
  rw [mem_initial, builtinObjects, List.mem_filterMap]
  constructor
  · exact fun h => ⟨_, h, rfl⟩
  · rintro ⟨⟨e, x⟩, hmem, heq⟩
    cases e with
    | object p => simp_all
    | _ => simp at heq

/-- The built-in types are made of earlier ones, and none of them is derived. -/
theorem initial_links : ∀ x ∈ initial.entries.toList.zipIdx 1,
    (∀ c ∈ x.1.links, c < x.2) ∧ (x.1.kind = .primitive ∨ x.1.kind = .object) := by
  decide

/-- The built-in classes and modules are declared plainly, and their links go both ways. -/
theorem builtinObjects_plain : ∀ x ∈ builtinObjects,
    x.1.generic = 0 ∧ x.1.madeFor = [] ∧ x.1.typeArgs = [] ∧ x.1.includes = [] ∧
      (initial.lookup? x.1.name).isSome ∧
      (x.1.superclass = 0 ∨ ∃ s ∈ builtinObjects, s.2 = x.1.superclass ∧ s.1.isModule = false) ∧
      ∀ c ∈ x.1.subclasses, ∃ s ∈ builtinObjects, s.2 = c ∧ s.1.superclass = x.2 := by
  decide

theorem builtinObjects_named : ∀ x ∈ builtinObjects, ∀ y ∈ builtinObjects,
    x.1.name = y.1.name → x.2 = y.2 := by
  decide

theorem wellFormed_initial : WellFormed initial := by
  have hderived : ∀ {id : TypeId} {e : Entry}, initial.get? id = some e → ¬ e.IsDerived := by
    intro id e he hd
    have := (initial_links _ (mem_initial.mp he)).2
    cases e <;> simp_all [Entry.IsDerived, Entry.kind]
  have hplain : ∀ {id : TypeId} {o : ObjectEntry}, initial.get? id = some (.object o) → _ :=
    fun ho => builtinObjects_plain _ (mem_builtinObjects.mp ho)
  exact {
    builtins := Extends.refl _
    links_lt := fun he => (initial_links _ (mem_initial.mp he)).1
    interned := fun ha _ hd => absurd hd (hderived ha)
    union := fun hu => absurd trivial (hderived hu)
    args := fun ho => by rw [(hplain ho).2.1, (hplain ho).2.2.1]
    plain := fun ho _ => (hplain ho).2.1
    named := fun ha hb _ _ hname =>
      builtinObjects_named _ (mem_builtinObjects.mp ha) _ (mem_builtinObjects.mp hb) hname
    known := fun ho => (hplain ho).2.2.2.2.1
    template := fun ho hg => absurd (hplain ho).1 hg
    instances := fun ho _ hg => absurd (hplain ho).1 hg
    superclass := fun ho hs => by
      obtain ⟨⟨s, x⟩, hmem, rfl, hm⟩ := (hplain ho).2.2.2.2.2.1.resolve_left hs
      exact ⟨s, mem_builtinObjects.mpr hmem, hm⟩ }

theorem linked_initial : Linked initial := by
  have hplain : ∀ {id : TypeId} {o : ObjectEntry}, initial.get? id = some (.object o) → _ :=
    fun ho => builtinObjects_plain _ (mem_builtinObjects.mp ho)
  refine ⟨fun ho c hc => ?_, fun ho m hm => ?_⟩
  · obtain ⟨⟨s, x⟩, hmem, rfl, hsuper⟩ := (hplain ho).2.2.2.2.2.2 c hc
    exact ⟨s, mem_builtinObjects.mpr hmem, hsuper⟩
  · rw [(hplain ho).2.2.2.1] at hm
    exact absurd hm (by simp)

/-- **Every built table is well-formed and linked.** -/
theorem Built.invariants (h : Built t) : WellFormed t ∧ Linked t := by
  induction h with
  | initial => exact ⟨wellFormed_initial, linked_initial⟩
  | step op _ ha ih =>
    have hk := Operation.keeps ih.1 ih.2 ha
    exact ⟨hk.wellFormed, hk.linked⟩

theorem Built.wellFormed (h : Built t) : WellFormed t :=
  h.invariants.1

theorem Built.linked (h : Built t) : Linked t :=
  h.invariants.2

end TypeFlow.Table
