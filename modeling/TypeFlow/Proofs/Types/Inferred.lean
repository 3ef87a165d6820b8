import TypeFlow.Proofs.Types.Built
import TypeFlow.Proofs.Types.Repeating

/-!
# Tables as inference leaves them

`Inferred` is every table that is reached from the built-in types by the operations of inference:
all of `Operation` except free type variables and hierarchies asked for directly, which are made by
joining and narrowing only. Compared with `Built`, a class or module may have any name that no other
class or module has.

The class tree of such a table can be read in both directions. `Shaped` says that a class stands in the
list of its superclass, that only classes which are no generic instances stand in such lists, and that a
hierarchy is about a class. Instances of generic classes have a superclass whose list does not name
them; this is the one place where the two directions differ, and what may be lost in a join is what
stands below such an instance.

Every operation keeps this (`Operation.Permitted.shaped`). For joining and narrowing it is carried along the
computation as a postcondition of `Adds`.
-/

namespace TypeFlow.Table

variable {t t' : Table}

/-! ### Operations of inference -/

/-- What is demanded of an operation of inference. -/
def Operation.Permitted (t : Table) : Operation → Prop
  | defineClass name superclass _ => t.NewName name ∧ (superclass = 0 ∨ t.IsClass superclass)
  | defineModule name => t.NewName name
  | hierarchyOf _ => False
  | typeVarOf _ => False
  | op => op.Allowed t

/-- A table that is reached from the built-in types by operations of inference. -/
inductive Inferred : Table → Prop
  | initial : Inferred initial
  | step {t : Table} (op : Operation) : Inferred t → op.Permitted t → Inferred (op.run.run t).2

/-! ### Runs of operations -/

/-- Performs operations one after the other. -/
def Operation.runAll : List Operation → Table → Table
  | [], t => t
  | op :: ops, t => runAll ops (op.run.run t).2

/-- Whether every operation of a list is permitted when its turn comes. -/
def Operation.AllPermitted : List Operation → Table → Prop
  | [], _ => True
  | op :: ops, t => op.Permitted t ∧ AllPermitted ops (op.run.run t).2

theorem Inferred.runAll {ops : List Operation} (h : Inferred t)
    (hp : Operation.AllPermitted ops t) : Inferred (Operation.runAll ops t) := by
  induction ops generalizing t with
  | nil => exact h
  | cons op ops ih => exact ih (.step op h hp.1) hp.2

theorem newName_iff {name : String} : t.NewName name ↔
    t.entries.all (fun
      | .object o => o.generic != 0 || o.name != name
      | _ => true) = true := by
  rw [Array.all_eq_true_iff_forall_mem]
  constructor
  · intro hn e he
    split
    · rename_i o
      obtain ⟨n, hn'⟩ := Array.mem_iff_getElem?.mp he
      have := hn (n + 1) o hn'
      simp only [Bool.or_eq_true, bne_iff_ne]
      exact or_iff_not_imp_left.mpr fun hg => this (not_not.mp hg)
    · rfl
  · intro hall id o ho hg
    obtain ⟨n, rfl⟩ : ∃ n, id = n + 1 := Nat.exists_eq_succ_of_ne_zero (Nat.ne_of_gt (pos_of_get? ho))
    simpa [hg] using hall _ (Array.mem_of_getElem? ho)

instance (name : String) : Decidable (t.NewName name) :=
  decidable_of_iff _ newName_iff.symm

theorem isClass_iff {id : TypeId} :
    t.IsClass id ↔ (t.object? id).map ObjectEntry.isModule = some false := by
  simp [IsClass, object?_eq_some_iff]

theorem isModule_iff {id : TypeId} :
    t.IsModule id ↔ (t.object? id).map ObjectEntry.isModule = some true := by
  simp [IsModule, object?_eq_some_iff]

instance (id : TypeId) : Decidable (t.IsClass id) :=
  decidable_of_iff _ isClass_iff.symm

instance (id : TypeId) : Decidable (t.IsModule id) :=
  decidable_of_iff _ isModule_iff.symm

instance Operation.decidablePermitted : (op : Operation) → Decidable (op.Permitted t)
  | definePrimitive _ _ parent _ => inferInstanceAs (Decidable (parent < t.size))
  | defineClass name superclass _ =>
    inferInstanceAs (Decidable (t.NewName name ∧ (superclass = 0 ∨ t.IsClass superclass)))
  | defineModule name => inferInstanceAs (Decidable (t.NewName name))
  | defineLib _ => isTrue trivial
  | defineStruct lib _ _ _ => inferInstanceAs (Decidable (lib < t.size))
  | defineConst owner _ _ => inferInstanceAs (Decidable (owner < t.size))
  | register _ _ => isTrue trivial
  | «include» _ module => inferInstanceAs (Decidable (t.IsModule module))
  | setIVar _ _ _ => isTrue trivial
  | addMember _ _ _ => isTrue trivial
  | pointerOf id => inferInstanceAs (Decidable (id < t.size))
  | metaclassOf id => inferInstanceAs (Decidable (id < t.size))
  | hierarchyOf _ => isFalse id
  | typeVarOf _ => isFalse id
  | instantiate _ args => inferInstanceAs (Decidable (∀ a ∈ args, a < t.size))
  | merge ids => inferInstanceAs (Decidable (∀ id ∈ ids, id < t.size))
  | unionOf ids => inferInstanceAs (Decidable (∀ id ∈ ids, id < t.size))
  | restrict id restriction => inferInstanceAs (Decidable (id < t.size ∧ restriction < t.size))
  | filterBy id _ => inferInstanceAs (Decidable (id < t.size))
  | without id _ => inferInstanceAs (Decidable (id < t.size))

instance Operation.decidableAllPermitted : (ops : List Operation) → (t : Table) →
    Decidable (AllPermitted ops t)
  | [], _ => isTrue trivial
  | op :: ops, t =>
    have := decidableAllPermitted ops (op.run.run t).2
    inferInstanceAs (Decidable (op.Permitted t ∧ _))

/-! ### The two directions of the class tree -/

/-- The classes that stand in the list of a class. -/
def listedBelow (t : Table) (id : TypeId) : List TypeId :=
  match t.object? id with
  | some o => o.subclasses
  | none => []

theorem listedBelow_of_object {id : TypeId} {o : ObjectEntry} (h : t.get? id = some (.object o)) :
    t.listedBelow id = o.subclasses := by
  rw [listedBelow, object?_eq_some_iff.mpr h]

theorem listedBelow_eq_getD (t : Table) (id : TypeId) :
    ((t.object? id).map ObjectEntry.subclasses).getD [] = t.listedBelow id := by
  rw [listedBelow]
  cases t.object? id <;> rfl

theorem Grown.listedBelow_eq (hg : Grown t t') {id : TypeId} (hid : id < t.size) :
    t'.listedBelow id = t.listedBelow id := by
  rw [listedBelow, listedBelow, hg.object?_eq hid]

/-- The class tree reads the same upwards and downwards, generic instances apart, and hierarchies are
about its classes. -/
structure Shaped (t : Table) : Prop where
  /-- A class that is no generic instance stands in the list of its superclass. -/
  listed : ∀ {id : TypeId} {o : ObjectEntry}, t.get? id = some (.object o) → o.generic = 0 →
    o.superclass ≠ 0 → id ∈ t.listedBelow o.superclass
  /-- What stands in the list of a class has it as its superclass and is no generic instance. -/
  plain : ∀ {id c : TypeId}, c ∈ t.listedBelow id →
    ∃ s, t.get? c = some (.object s) ∧ s.superclass = id ∧ s.generic = 0
  bases : ∀ {id base : TypeId}, t.get? id = some (.hierarchy base) →
    ∃ o, t.get? base = some (.object o)
  closed : ∀ {id : TypeId} {name : String}, t.get? id ≠ some (.typeVar name)

/-- What is asked of the entry of a type: a class that is no generic instance stands in the list of its
superclass, a hierarchy is about a class, and there are no type variables. -/
def Entered (t : Table) (id : TypeId) : Entry → Prop
  | .object o => o.generic = 0 → o.superclass ≠ 0 → id ∈ t.listedBelow o.superclass
  | .hierarchy base => ∃ o, t.get? base = some (.object o)
  | .typeVar _ => False
  | _ => True

namespace Shaped

/-- **What keeps the shape of a table**: every type was there before or is entered properly, and the
lists only gain classes that belong there. -/
theorem of_extends (h : Shaped t) (hx : Extends t t')
    (hentry : ∀ {id : TypeId} {e : Entry}, t'.get? id = some e →
      (∃ x, t.get? id = some x ∧ x.core = e.core) ∨ t'.Entered id e)
    (hkeep : ∀ {id c : TypeId}, c ∈ t.listedBelow id → c ∈ t'.listedBelow id)
    (hgain : ∀ {id c : TypeId}, c ∈ t'.listedBelow id → c ∈ t.listedBelow id ∨
      ∃ s, t'.get? c = some (.object s) ∧ s.superclass = id ∧ s.generic = 0) : Shaped t' := by
  refine ⟨fun {id o} ho hg hne => ?_, fun {id c} hc => ?_, fun {id base} hb => ?_, fun {id n} hv => ?_⟩
  · rcases hentry ho with ⟨x, hx, hcore⟩ | hnew
    · obtain ⟨p, rfl, -, hs, -, -, hgen, -⟩ := Entry.object_of_core_eq hcore
      rw [← hs]
      exact hkeep (h.listed hx (hgen.trans hg) (hs ▸ hne))
    · exact hnew hg hne
  · rcases hgain hc with hc | hnew
    · obtain ⟨s, hs, hsuper, hgen⟩ := h.plain hc
      obtain ⟨s', hs', -, hsuper', -, -, hgen', -⟩ := hx.object hs
      exact ⟨s', hs', hsuper'.trans hsuper, hgen'.trans hgen⟩
    · exact hnew
  · rcases hentry hb with ⟨x, hold, hcore⟩ | hnew
    · obtain rfl := Entry.eq_of_core_eq (d := .hierarchy base) trivial hcore
      obtain ⟨o, ho⟩ := h.bases hold
      obtain ⟨o', ho', -⟩ := hx.object ho
      exact ⟨o', ho'⟩
    · exact hnew
  · rcases hentry hv with ⟨x, hold, hcore⟩ | hnew
    · obtain rfl := Entry.eq_of_core_eq (d := .typeVar n) trivial hcore
      exact h.closed hold
    · exact hnew

/-! ### Adding and changing entries -/

/-- A new entry without list leaves all lists alone. -/
theorem listedBelow_of_push {e : Entry} (he : t'.entries = t.entries.push e)
    (hbare : ∀ o, e = .object o → o.subclasses = []) (id : TypeId) :
    t'.listedBelow id = t.listedBelow id := by
  by_cases hid : id = t.size
  · have hold : t.listedBelow id = [] := by
      have hnone : t.get? id = none := by
        rw [← Option.not_isSome_iff_eq_none, isSome_get?_iff]
        lia
      simp [listedBelow, object?, hnone]
    have hnew : t'.get? id = some e := by rw [get?_of_push he, if_pos hid]
    rw [hold]
    cases e with
    | object o => rw [listedBelow_of_object hnew, hbare o rfl]
    | _ => simp [listedBelow, object?, hnew]
  · rw [listedBelow, listedBelow, object?, object?, get?_of_push he, if_neg hid]

/-- A new type that is properly entered as it is. -/
theorem of_push (h : Shaped t) (hx : Extends t t') {e : Entry} (he : t'.entries = t.entries.push e)
    (hbare : ∀ o, e = .object o → o.subclasses = []) (hnew : t'.Entered t.size e) : Shaped t' := by
  have hlist := listedBelow_of_push he hbare
  refine h.of_extends hx (fun {id x} hget => ?_) (fun hc => ?_) fun hc => ?_
  · rcases get?_of_push_cases he hget with ⟨rfl, rfl⟩ | hget
    · exact .inr hnew
    · exact .inl ⟨x, hget, rfl⟩
  · rwa [hlist]
  · rw [hlist] at hc
    exact .inl hc

/-- A change that keeps the cores and the lists. -/
theorem of_sameCores (h : Shaped t) (hc : SameCores t t')
    (hlist : ∀ id, t'.listedBelow id = t.listedBelow id) : Shaped t' := by
  refine h.of_extends hc.toExtends (fun he => .inl (hc.old he)) (fun hmem => ?_) fun hmem => ?_
  · rwa [hlist]
  · rw [hlist] at hmem
    exact .inl hmem

theorem listedBelow_modifyObject (id : TypeId) (f : ObjectEntry → ObjectEntry) (x : TypeId) :
    ((modifyObject id f).run t).2.listedBelow x =
      match t.object? x with
      | some o => if x = id then (f o).subclasses else o.subclasses
      | none => [] := by
  rw [listedBelow, object?, object?, get?_modifyObject]
  by_cases hid : x = id
  · rw [if_pos hid]
    cases t.get? x with
    | none => rfl
    | some e => cases e <;> simp [hid]
  · rw [if_neg hid]
    cases t.get? x with
    | none => rfl
    | some e => cases e <;> simp [hid]

/-- A change of objects that leaves their lists alone. -/
theorem of_modifyObject (h : Shaped t) (id : TypeId) {f : ObjectEntry → ObjectEntry}
    (hf : ∀ o, (Entry.object (f o)).core = (Entry.object o).core)
    (hsub : ∀ o, (f o).subclasses = o.subclasses) : Shaped ((modifyObject id f).run t).2 := by
  refine h.of_sameCores (.of_modifyObject t id hf) fun x => ?_
  rw [listedBelow_modifyObject, listedBelow]
  cases t.object? x <;> simp [hsub]

/-- A new class is entered in the list of its superclass. -/
theorem defineClass (h : Shaped t) {name : String} {superclass : TypeId} (typeParams : List String)
    (hsuper : superclass = 0 ∨ t.IsClass superclass) :
    Shaped ((defineClass name superclass typeParams).run t).2 := by
  -- the class is added first, and noted below its superclass then
  obtain ⟨t₁, ht₁⟩ : ∃ t₁ : Table, t₁ =
      ⟨t.entries.push (.object { name, superclass, typeParams }), (name, t.size) :: t.names⟩ :=
    ⟨_, rfl⟩
  have he : t₁.entries = t.entries.push (.object { name, superclass, typeParams }) := by rw [ht₁]
  have hc := SameCores.of_modifyObject t₁ superclass
    (f := fun o => { o with subclasses := o.subclasses ++ [t.size] }) fun o => rfl
  have hrun : ((Table.defineClass name superclass typeParams).run t).2 =
      ((modifyObject superclass fun o => { o with subclasses := o.subclasses ++ [t.size] }).run t₁).2 := by
    rw [ht₁]
    rfl
  have hpush : Extends t t₁ := .of_push he fun hn => lookup?_cons_isSome (by rw [ht₁]) hn
  have hold : ∀ id, t₁.listedBelow id = t.listedBelow id :=
    listedBelow_of_push he (by rintro _ ⟨⟩; rfl)
  have hlist : ∀ {id c : TypeId}, c ∈ ((modifyObject superclass fun o =>
      { o with subclasses := o.subclasses ++ [t.size] }).run t₁).2.listedBelow id ↔
      c ∈ t.listedBelow id ∨ (id = superclass ∧ superclass ≠ 0 ∧ c = t.size) := by
    intro id c
    rw [← hold, listedBelow_modifyObject, listedBelow]
    cases ho : t₁.object? id with
    | none =>
      refine iff_of_false (by simp) ?_
      rintro (hc | ⟨rfl, hne, -⟩)
      · exact absurd hc (by simp)
      · obtain ⟨o, hs, -⟩ := hsuper.resolve_left hne
        rw [object?_eq_some_iff.mpr (get?_of_push_old he hs)] at ho
        exact absurd ho (by simp)
    | some o =>
      have hpos : id ≠ 0 := Nat.ne_of_gt (pos_of_get? (object?_eq_some_iff.mp ho))
      by_cases hid : id = superclass
      · subst hid
        simp [hpos]
      · simp [hid]
  have hnew : t₁.get? t.size = some (.object { name, superclass, typeParams }) :=
    (get?_of_push he t.size).trans (if_pos rfl)
  rw [hrun]
  refine h.of_extends (hpush.trans hc.toExtends) (fun {id e} hget => ?_)
    (fun hmem => hlist.mpr (.inl hmem)) fun {id c} hmem => ?_
  · obtain ⟨x, hx, hcore⟩ := hc.old hget
    rcases get?_of_push_cases he hx with ⟨rfl, rfl⟩ | hx
    · obtain ⟨o, rfl, -, hs, -⟩ := Entry.object_of_core_eq hcore.symm
      exact .inr fun _ hne => hlist.mpr (.inr ⟨hs, fun h0 => hne (hs.trans h0), rfl⟩)
    · exact .inl ⟨x, hx, hcore⟩
  · rcases hlist.mp hmem with hmem | ⟨rfl, -, rfl⟩
    · exact .inl hmem
    · obtain ⟨s, hs, -, hsup, -, -, hgen, -⟩ := hc.toExtends.object hnew
      exact .inr ⟨s, hs, hsup, hgen⟩

/-! ### Derived types -/

/-- Interning a derived type that is properly entered. -/
theorem intern (h : Shaped t) {e : Entry} (hd : e.IsDerived) (hnew : ∀ t', Extends t t' →
    t'.Entered t.size e) : Shaped ((intern e).run t).2 := by
  rw [Table.intern, run_get_bind]
  split
  · exact h
  · have hx : Extends t ((push e).run t).2 := .of_push rfl fun hn => hn
    refine h.of_push hx rfl ?_ (hnew _ hx)
    rintro o rfl
    exact hd.elim

theorem hierarchyOf (h : Shaped t) {base : TypeId} (hbase : ∃ o, t.get? base = some (.object o)) :
    Shaped ((hierarchyOf base).run t).2 := by
  refine h.intern trivial fun t' hx => ?_
  obtain ⟨o, ho⟩ := hbase
  obtain ⟨o', ho', -⟩ := hx.object ho
  exact ⟨o', ho'⟩

theorem internUnion (h : Shaped t) (ms : List TypeId) : Shaped ((internUnion ms).run t).2 := by
  match ms with
  | [] => exact h
  | [m] => exact h
  | m :: n :: ms => exact h.intern (e := .union (m :: n :: ms)) trivial fun _ _ => trivial

theorem unionOf (h : Shaped t) (ids : List TypeId) : Shaped ((unionOf ids).run t).2 :=
  h.internUnion (t.flatten ids)

/-- A generic instance is not entered in the list of its superclass, and need not be. -/
theorem instantiate (h : Shaped t) (template : TypeId) (args : List TypeId) :
    Shaped ((instantiate template args).run t).2 := by
  rw [Table.instantiate, run_get_bind]
  split
  · exact h
  · rename_i o ho
    have hne : template ≠ 0 := by
      rintro rfl
      simp at ho
    split
    · exact h
    · split
      · exact h.intern (e := .pointer (args.headD 0)) trivial fun _ _ => trivial
      · split
        · exact h
        · refine h.of_push (.of_push rfl fun hn => hn) rfl ?_ fun hg => absurd hg hne
          rintro _ ⟨⟩
          rfl

end Shaped

/-! ### Joining and narrowing -/

/-- What every computation of a list keeps is kept by all of them, one after the other. -/
theorem Adds.mapM_keeps {α γ : Type} {P : Table → Prop} (h : WellFormed t) (hP : P t)
    {f : γ → TableM α} {l : List γ}
    (hf : ∀ c ∈ l, ∀ t', WellFormed t' → Grown t t' → P t' → Adds t' (f c) fun t'' _ => P t'') :
    Adds t (l.mapM f) fun t' _ => P t' := by
  induction l generalizing t with
  | nil => exact .pure h hP
  | cons c l ih =>
    rw [List.mapM_cons]
    refine (hf c List.mem_cons_self t h (.refl t) hP).bind fun t₁ a h₁ hg₁ hP₁ => ?_
    refine (ih h₁ hP₁ fun d hd t' h' hg' => ?_).bind fun t₂ as h₂ _ hP₂ => .pure h₂ hP₂
    exact hf d (List.mem_cons_of_mem _ hd) t' h' (hg₁.trans hg')

namespace WellFormed

/-- What has an ancestor directly below a root is a class. -/
theorem object_of_topAncestor {id : TypeId} (h : WellFormed t) (htop : t.topAncestor id ≠ 0) :
    ∃ o, t.get? id = some (.object o) := by
  have hs : t.superclass id ≠ 0 := fun hs =>
    htop (h.tiered.topAncestor_eq_zero_iff.mpr (h.tiered.depth_eq_zero_iff.mpr hs))
  cases ho : t.object? id with
  | none => simp [Table.superclass, ho] at hs
  | some o => exact ⟨o, object?_eq_some_iff.mp ho⟩

/-- What sums up a family is about a class. -/
theorem object_of_sums (h : WellFormed t) {S : Set Part} {top : TypeId} {p : Part}
    (hne : (t.family S top).Nonempty) (hp : t.Sums (t.family S top) p) :
    ∃ o, t.get? p.base = some (.object o) :=
  h.object_of_topAncestor (h.sums_mem_family hne hp).1.topAncestor_ne

/-- Each family is about a class, so its hierarchy may be made. -/
theorem shaped_combine (h : WellFormed t) (hs : Shaped t) {ms : List TypeId} (hflat : Flat t ms) :
    Adds t (combine ms) fun t' _ => Shaped t' := by
  have hnd : ([] ++ ms).Nodup := by simpa using nodup_of_increasing hflat.increasing
  have hsplit := h.split_families (Split.nil t) hnd
  rw [List.nil_append] at hsplit
  refine Adds.get_bind ?_
  refine (Adds.mapM_keeps h hs fun f hf t' h' hg hs' => ?_).bind fun t₁ _ h₁ _ hs₁ => .pure h₁ hs₁
  obtain ⟨hne, hsum⟩ := hsplit.sums f hf
  have hfam := h.adds_family hflat hne hsum hg h'
  refine ⟨hfam.1, hfam.2.1, ?_⟩
  split
  · obtain ⟨o, ho⟩ := h.object_of_sums hne hsum
    rw [Family.base_part] at ho
    exact hs'.hierarchyOf ⟨o, hg.get ho⟩
  · exact hs'

theorem shaped_merge (h : WellFormed t) (hs : Shaped t) {ids : List TypeId}
    (hids : ∀ id ∈ ids, id < t.size) : Shaped ((merge ids).run t).2 := by
  rw [merge, run_get_bind]
  split
  · exact hs
  · rw [run_bind]
    exact (h.shaped_combine hs (h.flat_flatten hids)).2.2.internUnion _

theorem shaped_restrictBelow (h : WellFormed t) (hl : Linked t) (hs : Shaped t) {restriction : TypeId}
    {fuel : Nat} {base : TypeId} (hbase : ∃ o, t.get? base = some (.object o)) :
    Shaped ((restrictBelow restriction fuel base).run t).2 := by
  induction fuel generalizing t base with
  | zero => exact hs
  | succ fuel ih =>
    rw [restrictBelow, run_get_bind]
    simp only
    split
    · exact hs.hierarchyOf hbase
    · rw [run_bind, listedBelow_eq_getD]
      refine (Adds.mapM_keeps h hs fun c hc t' h' hg hs' => ?_).2.2.unionOf _
      obtain ⟨s, hget, -⟩ := hs.plain hc
      have hl' := hl.of_grown hg
      have hadds : Adds t' (restrictBelow restriction fuel c) _ :=
        h'.adds_restrictBelow hl'.listed restriction (hg.lt_size (lt_size_of_get? hget))
      exact ⟨hadds.1, hadds.2.1, ih h' hl' hs' ⟨s, hg.get hget⟩⟩

theorem shaped_restrictUpTo (h : WellFormed t) (hl : Linked t) (hs : Shaped t) {fuel : Nat}
    {id restriction : TypeId} (hid : id < t.size) (hr : restriction < t.size) :
    Shaped ((restrictUpTo fuel id restriction).run t).2 := by
  induction fuel generalizing t id restriction with
  | zero => exact hs
  | succ fuel ih =>
    have hunion : ∀ {ms : List TypeId} {a b : TypeId → TypeId},
        (∀ m ∈ ms, a m < t.size ∧ b m < t.size) →
        Shaped ((do let parts ← ms.mapM fun m => restrictUpTo fuel (a m) (b m)
                    Table.unionOf (parts.filter (· ≠ 0)) : TableM TypeId).run t).2 := by
      intro ms a b hms
      rw [run_bind]
      refine (Adds.mapM_keeps h hs fun m hm t' h' hg hs' => ?_).2.2.unionOf _
      have ha := hg.lt_size (hms m hm).1
      have hb := hg.lt_size (hms m hm).2
      have hl' := hl.of_grown hg
      have hadds : Adds t' (restrictUpTo fuel (a m) (b m)) _ := h'.adds_restrictUpTo hl'.listed ha hb
      exact ⟨hadds.1, hadds.2.1, ih h' hl' hs' ha hb⟩
    have hknown : ∀ {x : TypeId} {ms : List TypeId}, x < t.size → t.get? x = some (.union ms) →
        ∀ m ∈ ms, m < t.size := fun hx hms m hm => Nat.lt_trans (h.links_lt hms m hm) hx
    rw [restrictUpTo, run_get_bind]
    split
    · exact hs
    · split
      · exact hs
      · split
        · exact hs
        · rename_i ms hms _
          exact hunion fun m hm => ⟨hknown hid hms m hm, hr⟩
        · rename_i base hbase _
          exact h.shaped_restrictBelow hl hs (hs.bases hbase)
        · rename_i ms hms _ _
          exact hunion fun m hm => ⟨hid, hknown hr hms m hm⟩
        · exact hs

theorem shaped_restrict (h : WellFormed t) (hl : Linked t) (hs : Shaped t) {id restriction : TypeId}
    (hid : id < t.size) (hr : restriction < t.size) :
    Shaped ((restrict id restriction).run t).2 := by
  rw [restrict, run_get_bind]
  exact h.shaped_restrictUpTo hl hs hid hr

end WellFormed

/-! ### Every operation keeps the invariants -/

/-- Every permitted operation keeps the representation invariant and the links. -/
theorem Operation.Permitted.keeps (h : WellFormed t) (hl : Linked t) {op : Operation}
    (hp : op.Permitted t) : Keeps t (op.run.run t).2 := by
  cases op with
  | defineClass name superclass typeParams => exact h.keeps_defineClass hl typeParams hp.1 hp.2
  | defineModule name => exact h.keeps_defineModule hl hp
  | hierarchyOf id => exact hp.elim
  | typeVarOf name => exact hp.elim
  | _ => exact Operation.keeps h hl hp

/-- **Every permitted operation keeps the shape of the table.** -/
theorem Operation.Permitted.shaped (h : WellFormed t) (hl : Linked t) (hs : Shaped t)
    {op : Operation} (hp : op.Permitted t) : Shaped (op.run.run t).2 := by
  have hx : Extends t (op.run.run t).2 := (hp.keeps h hl).extension
  cases op with
  | definePrimitive name size parent numeric => exact hs.of_push hx rfl (by simp) trivial
  | defineClass name superclass typeParams => exact hs.defineClass typeParams hp.2
  | defineModule name =>
    refine hs.of_push hx rfl ?_ fun _ hne => absurd rfl hne
    rintro _ ⟨⟩
    rfl
  | defineLib name => exact hs.of_push hx rfl (by simp) trivial
  | defineStruct lib name isUnion members => exact hs.of_push hx rfl (by simp) trivial
  | defineConst owner name value => exact hs.of_push hx rfl (by simp) trivial
  | register name id =>
    have hc : SameCores t ⟨t.entries, (name, id) :: t.names⟩ :=
      ⟨fun _ => rfl, fun hn => lookup?_cons_isSome rfl hn⟩
    exact hs.of_sameCores hc fun _ => rfl
  | «include» id module =>
    refine hs.of_modifyObject id (fun o => ?_) fun o => ?_
    · split <;> rfl
    · split <;> rfl
  | setIVar id name type => exact hs.of_modifyObject id (fun o => rfl) fun o => rfl
  | addMember id name type =>
    have hget := fun x => core_addMember (t := t) id x name type
    refine hs.of_sameCores ⟨fun x => (hget x).1, fun hn => ?_⟩ fun x => ?_
    · cases id <;> exact hn
    · have hobj : ((Table.addMember id name type).run t).2.object? x = t.object? x :=
        Option.ext fun o => by simp only [object?_eq_some_iff, (hget x).2 o]
      rw [listedBelow, listedBelow]
      exact congrArg (fun o : Option ObjectEntry => match o with
        | some o => o.subclasses
        | none => []) hobj
  | pointerOf id => exact hs.intern (e := .pointer id) trivial fun _ _ => trivial
  | metaclassOf id => exact hs.intern (e := .metaclass id) trivial fun _ _ => trivial
  | hierarchyOf id => exact hp.elim
  | typeVarOf name => exact hp.elim
  | instantiate template args => exact hs.instantiate template args
  | merge ids => exact h.shaped_merge hs hp
  | unionOf ids => exact hs.unionOf ids
  | restrict id restriction => exact h.shaped_restrict hl hs hp.1 hp.2
  | filterBy id target => exact hs.unionOf _
  | without id drop => exact hs.unionOf _

/-- The built-in classes stand in the lists of their superclasses. -/
theorem builtinObjects_listed : ∀ x ∈ builtinObjects, x.1.superclass ≠ 0 →
    ∃ s ∈ builtinObjects, s.2 = x.1.superclass ∧ x.2 ∈ s.1.subclasses := by
  decide

theorem shaped_initial : Shaped initial := by
  have hkind : ∀ {id : TypeId} {e : Entry}, initial.get? id = some e →
      e.kind = .primitive ∨ e.kind = .object :=
    fun he => (initial_links _ (mem_initial.mp he)).2
  refine ⟨fun {id o} ho _ hne => ?_, fun {id c} hc => ?_, fun hb => ?_, fun hv => ?_⟩
  · obtain ⟨⟨s, x⟩, hs, hx, hmem⟩ := builtinObjects_listed _ (mem_builtinObjects.mp ho) hne
    obtain rfl : x = o.superclass := hx
    rw [listedBelow_of_object (mem_builtinObjects.mpr hs)]
    exact hmem
  · cases ho : initial.object? id with
    | none => simp [listedBelow, ho] at hc
    | some o =>
      have hget := object?_eq_some_iff.mp ho
      rw [listedBelow_of_object hget] at hc
      obtain ⟨s, hs, hsuper⟩ := linked_initial.below hget c hc
      exact ⟨s, hs, hsuper, (builtinObjects_plain _ (mem_builtinObjects.mp hs)).1⟩
  · exact absurd (hkind hb) (by simp [Entry.kind])
  · exact absurd (hkind hv) (by simp [Entry.kind])

/-- **Every inferred table is well-formed, linked and shaped.** -/
theorem Inferred.invariants (h : Inferred t) : WellFormed t ∧ Linked t ∧ Shaped t := by
  induction h with
  | initial => exact ⟨wellFormed_initial, linked_initial, shaped_initial⟩
  | step op _ hp ih =>
    obtain ⟨hwf, hl, hs⟩ := ih
    have hk := hp.keeps hwf hl
    exact ⟨hk.wellFormed, hk.linked, hp.shaped hwf hl hs⟩

end TypeFlow.Table
