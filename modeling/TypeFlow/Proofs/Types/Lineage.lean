import Mathlib.Data.List.Iterate
import Mathlib.Data.List.Sort
import TypeFlow.Proofs.Types.Ancestors
import TypeFlow.Proofs.Types.Arising
import TypeFlow.Proofs.Types.Equivalence

/-!
# Superclasses among the ancestors

Whatever tables arise, the parent of a type is older than the type, and a module has none (`Raised`). So
where only modules are included, the search for ancestors leaves the superclasses of a type in the order in which
they stand above it: what is included is a module, and leads to modules only (`Raised.isModule_of_reaches`), so
every other type is found by going from a type to its parent (`Raised.classes_visits`). Modules may come between
them, and a module that some class has for a parent may come early, when a nearer class includes it as well.

The main statement puts this next to what holds of any search: `Arises.ancestors_closure`.
-/

namespace TypeFlow

namespace Entry

/-- What an entry inherits from, apart from the modules it includes. -/
def above : Entry → TypeId
  | .primitive p => p.parent
  | .object o => if o.generic != 0 then o.generic else o.superclass
  | .pointer _ => Builtin.pointer
  | .struct _ => Builtin.value
  | _ => 0

/-- Whether an entry is a module. -/
def isModule : Entry → Bool
  | .object o => o.isModule
  | _ => false

@[simp] theorem above_core (e : Entry) : e.core.above = e.above := by
  cases e <;> rfl

@[simp] theorem isModule_core (e : Entry) : e.core.isModule = e.isModule := by
  cases e <;> rfl

/-- A derived type inherits from a built-in type or nothing. -/
theorem IsDerived.above_lt {e : Entry} (h : e.IsDerived) : e.above < Table.initial.size := by
  have hsize : Builtin.pointer < Table.initial.size := by decide
  cases e with
  | pointer _ => exact hsize
  | union _ | metaclass _ | hierarchy _ | typeVar _ => exact Nat.zero_lt_of_lt hsize
  | _ => exact h.elim

theorem IsDerived.isModule_eq {e : Entry} (h : e.IsDerived) : e.isModule = false := by
  cases e with
  | object _ => exact h.elim
  | _ => rfl

end Entry

namespace Table

variable {t t' : Table} {α β γ : Type}

theorem parent_of_get? {id : TypeId} {e : Entry} (h : t.get? id = some e) : t.parent id = e.above := by
  rw [parent, h]
  cases e <;> rfl

/-! ### Parents are older -/

/-- Every type is newer than its parent, and modules have none. -/
structure Raised (t : Table) : Prop where
  builtins : initial.size ≤ t.size
  above : ∀ {id : TypeId} {e : Entry}, t.get? id = some e → e.above < id
  modules : ∀ {id : TypeId} {e : Entry}, t.get? id = some e → e.isModule = true → e.above = 0

namespace Raised

theorem parent_le (h : t.Raised) (id : TypeId) : t.parent id ≤ id := by
  cases he : t.get? id with
  | none => simp [parent, he]
  | some e => exact parent_of_get? he ▸ Nat.le_of_lt (h.above he)

theorem parent_lt (h : t.Raised) {id : TypeId} (hid : id ≠ 0) : t.parent id < id := by
  cases he : t.get? id with
  | none => simpa [parent, he] using Nat.pos_of_ne_zero hid
  | some e => exact parent_of_get? he ▸ h.above he

theorem parent_eq_zero (h : t.Raised) {id : TypeId} (hm : t.IsModule id) : t.parent id = 0 := by
  obtain ⟨o, ho, hmod⟩ := hm
  rw [parent_of_get? ho]
  exact h.modules ho hmod

theorem of_push (h : t.Raised) {e : Entry} (he : t'.entries = t.entries.push e) (ha : e.above < t.size)
    (hm : e.isModule = true → e.above = 0) : t'.Raised where
  builtins := by
    have hsize : t'.size = t.size + 1 := by simp [size, he]
    exact h.builtins.trans (hsize ▸ Nat.le_succ _)
  above hx := by
    rcases get?_of_push_cases he hx with ⟨rfl, rfl⟩ | hx
    · exact ha
    · exact h.above hx
  modules hx hmod := by
    rcases get?_of_push_cases he hx with ⟨-, rfl⟩ | hx
    · exact hm hmod
    · exact h.modules hx hmod

theorem of_sameCores (h : t.Raised) (hc : SameCores t t') : t'.Raised where
  builtins := h.builtins.trans hc.toExtends.size_le
  above hx := by
    obtain ⟨x, hold, hcore⟩ := hc.old hx
    rw [← Entry.above_core, ← hcore, Entry.above_core]
    exact h.above hold
  modules hx hmod := by
    obtain ⟨x, hold, hcore⟩ := hc.old hx
    rw [← Entry.above_core, ← hcore, Entry.above_core]
    exact h.modules hold (by rw [← Entry.isModule_core, hcore, Entry.isModule_core, hmod])

theorem modifyObject (h : t.Raised) (id : TypeId) {f : ObjectEntry → ObjectEntry}
    (hf : ∀ o, (Entry.object (f o)).core = (Entry.object o).core) :
    ((Table.modifyObject id f).run t).2.Raised :=
  h.of_sameCores (SameCores.of_modifyObject t id hf)

/-- Type arguments say nothing of what stands above a type. -/
theorem setTypeArg (h : t.Raised) (id : TypeId) (i : Nat) (arg : TypeId) :
    ((Table.setTypeArg id i arg).run t).2.Raised where
  builtins := (t.size_setTypeArg id i arg).symm ▸ h.builtins
  above hx := by
    rcases t.get?_setTypeArg id i arg hx with hold | ⟨o, hold, rfl⟩
    · exact h.above hold
    · have habove := h.above hold
      exact habove
  modules hx hmod := by
    rcases t.get?_setTypeArg id i arg hx with hold | ⟨o, hold, rfl⟩
    · exact h.modules hold hmod
    · have hnone := h.modules hold hmod
      exact hnone

end Raised

/-! ### Computations that keep parents older -/

/-- Every run of the computation keeps parents older. -/
def Raising (x : TableM α) : Prop :=
  ∀ t, Raised t → Raised (x.run t).2

namespace Raising

theorem pure (a : α) : Raising (pure a) :=
  fun _ h => h

theorem get_bind {f : Table → TableM β} (hf : ∀ t, Raised t → Raised ((f t).run t).2) :
    Raising (get >>= f) :=
  fun t h => hf t h

theorem bind {x : TableM α} {f : α → TableM β} (hx : Raising x) (hf : ∀ a, Raising (f a)) :
    Raising (x >>= f) :=
  fun t h => hf _ _ (hx t h)

theorem mapM {f : γ → TableM α} {l : List γ} (hf : ∀ c, Raising (f c)) : Raising (l.mapM f) := by
  induction l with
  | nil => exact pure []
  | cons c l ih =>
    rw [List.mapM_cons]
    exact (hf c).bind fun a => ih.bind fun as => pure (a :: as)

theorem intern {e : Entry} (he : e.IsDerived) : Raising (intern e) := by
  refine get_bind fun t h => ?_
  split
  · exact h
  · refine h.of_push rfl (Nat.lt_of_lt_of_le he.above_lt h.builtins) fun hm => ?_
    exact absurd (he.isModule_eq.symm.trans hm) (by simp)

theorem internUnion (ids : List TypeId) : Raising (internUnion ids) :=
  match ids with
  | [] => .pure _
  | [_] => .pure _
  | _ :: _ :: _ => .intern trivial

theorem unionOf (ids : List TypeId) : Raising (unionOf ids) :=
  get_bind fun t => internUnion _ t

theorem merge (ids : List TypeId) : Raising (merge ids) := by
  refine get_bind fun t => ?_
  split
  · exact pure _ t
  · refine bind ?_ (fun _ => internUnion _) t
    refine get_bind fun t' => bind (mapM fun f => ?_) (fun _ => pure _) t'
    split
    · exact intern (by trivial)
    · exact pure _

theorem instantiate (template : TypeId) (args : List TypeId) : Raising (instantiate template args) := by
  refine get_bind fun t h => ?_
  split
  · exact h
  · rename_i o ho
    obtain ⟨hobj, -⟩ := Option.filter_eq_some_iff.mp ho
    have htemplate := object?_eq_some_iff.mp hobj
    split
    · exact h
    · split
      · exact bind (intern (e := .pointer (args.headD 0)) trivial) (fun _ => pure _) t h
      · split
        · exact h
        · -- an instance stands below its template
          refine h.of_push (e := .object {
            name := o.name, superclass := o.superclass, generic := template,
            madeFor := args, typeArgs := args }) rfl ?_ (by simp [Entry.isModule])
          simpa [Entry.above, Nat.ne_of_gt (pos_of_get? htemplate)] using lt_size_of_get? htemplate

theorem restrictBelow (restriction : TypeId) (fuel : Nat) (base : TypeId) :
    Raising (restrictBelow restriction fuel base) := by
  induction fuel generalizing base with
  | zero => exact pure _
  | succ fuel ih =>
    refine get_bind fun t => ?_
    split
    · exact intern (e := .hierarchy base) trivial t
    · exact bind (mapM ih) (fun parts => unionOf _) t

theorem restrictUpTo (fuel : Nat) (id restriction : TypeId) : Raising (restrictUpTo fuel id restriction) := by
  induction fuel generalizing id restriction with
  | zero => exact pure _
  | succ fuel ih =>
    refine get_bind fun t => ?_
    split
    · exact pure _ t
    · split
      · exact pure _ t
      · split
        · exact pure _ t
        · exact bind (mapM fun m => ih m restriction) (fun parts => unionOf _) t
        · exact restrictBelow _ _ _ t
        · exact bind (mapM fun m => ih id m) (fun parts => unionOf _) t
        · exact pure _ t

theorem restrict (id restriction : TypeId) : Raising (restrict id restriction) :=
  get_bind fun t => restrictUpTo _ _ _ t

end Raising

/-- **Every operation about types of the table keeps parents older.** -/
theorem Operation.raised (h : t.Raised) {op : Operation} (hop : ∀ id ∈ op.ids, id < t.size) :
    (op.run.run t).2.Raised := by
  have hpos : 0 < t.size := t.size_pos
  cases op with
  | definePrimitive name size parent numeric =>
    exact h.of_push (e := .primitive ⟨name, size, parent, numeric⟩) rfl (hop parent List.mem_cons_self)
      (by simp [Entry.isModule])
  | defineClass name superclass typeParams =>
    have hpush : Raised ⟨t.entries.push (.object { name, superclass, typeParams }), (name, t.size) :: t.names⟩ :=
      h.of_push rfl (hop superclass List.mem_cons_self) (by simp [Entry.isModule])
    exact hpush.modifyObject superclass fun o => rfl
  | defineModule name => exact h.of_push (e := .object { name, isModule := true }) rfl hpos fun _ => rfl
  | defineLib name => exact h.of_push (e := .lib name) rfl hpos (by simp [Entry.isModule])
  | defineStruct lib name isUnion members =>
    have hvalue : Builtin.value < t.size := Nat.lt_of_lt_of_le (by decide) h.builtins
    exact h.of_push (e := .struct ⟨name, lib, isUnion, members⟩) rfl hvalue (by simp [Entry.isModule])
  | defineConst owner name value =>
    exact h.of_push (e := .const name owner value) rfl hpos (by simp [Entry.isModule])
  | register name id => exact h.of_sameCores ⟨fun _ => rfl, fun hn => lookup?_cons_isSome rfl hn⟩
  | «include» id module =>
    refine h.modifyObject id fun o => ?_
    split <;> rfl
  | setIVar id name type => exact h.modifyObject id fun o => rfl
  | addMember id name type =>
    refine h.of_sameCores ⟨fun x => (core_addMember id x name type).1, fun hn => ?_⟩
    cases id <;> exact hn
  | pointerOf id => exact Raising.intern (e := .pointer id) trivial t h
  | metaclassOf id => exact Raising.intern (e := .metaclass id) trivial t h
  | hierarchyOf id => exact Raising.intern (e := .hierarchy id) trivial t h
  | typeVarOf name => exact Raising.intern (e := .typeVar name) trivial t h
  | instantiate template args => exact Raising.instantiate template args t h
  | merge ids => exact Raising.merge ids t h
  | unionOf ids => exact Raising.unionOf ids t h
  | restrict id restriction => exact Raising.restrict id restriction t h
  | filterBy id target => exact Raising.unionOf _ t h
  | without id drop => exact Raising.unionOf _ t h

theorem raised_initial : initial.Raised where
  builtins := Nat.le_refl _
  above he := by
    have hlt : ∀ x ∈ initial.entries.toList.zipIdx 1, x.1.above < x.2 := by decide
    exact hlt _ (mem_initial.mp he)
  modules he hm := by
    have hnone : ∀ x ∈ initial.entries.toList.zipIdx 1, x.1.isModule = true → x.1.above = 0 := by decide
    exact hnone _ (mem_initial.mp he) hm

theorem Arises.raised (h : Arises t) : t.Raised := by
  induction h with
  | initial => exact raised_initial
  | step _ halter ih =>
    cases halter with
    | operation op hop => exact Operation.raised ih hop
    | newObject name superclass hsuper =>
      exact ih.of_push (e := .object { name, superclass }) rfl hsuper (by simp [Entry.isModule])
    | setTypeArg id i arg _ => exact ih.setTypeArg id i arg

/-! ### Superclasses among what is found -/

theorem ne_zero_of_mem_ancestors {id x : TypeId} (hx : x ∈ t.ancestors id) : x ≠ 0 := by
  obtain ⟨hne, hreach⟩ := mem_ancestors_iff.mp hx
  cases hreach with
  | refl => exact hne
  | tail _ hbc => exact hbc.2

/-- Only modules are included. -/
def OnlyModulesIncluded (t : Table) : Prop :=
  ∀ id o, t.get? id = some (.object o) → ∀ m ∈ o.includes, t.IsModule m

theorem onlyModulesIncluded_iff :
    t.OnlyModulesIncluded ↔ t.entries.all (fun
      | .object o => o.includes.all fun m => decide (t.IsModule m)
      | _ => true) = true := by
  rw [Array.all_eq_true_iff_forall_mem]
  constructor
  · intro hmod e he
    split
    · rename_i o
      obtain ⟨n, hn⟩ := Array.mem_iff_getElem?.mp he
      simpa using hmod (n + 1) o hn
    · rfl
  · intro hall id o ho
    obtain ⟨n, rfl⟩ : ∃ n, id = n + 1 := Nat.exists_eq_succ_of_ne_zero (Nat.ne_of_gt (pos_of_get? ho))
    simpa using hall _ (Array.mem_of_getElem? ho)

instance : Decidable t.OnlyModulesIncluded :=
  decidable_of_iff _ onlyModulesIncluded_iff.symm

/-- What is found that is no module, in the same order. -/
def classesOf (t : Table) (ids : List TypeId) : List TypeId :=
  ids.filter fun id => ¬ t.IsModule id

@[simp] theorem mem_classesOf {ids : List TypeId} {id : TypeId} :
    id ∈ t.classesOf ids ↔ id ∈ ids ∧ ¬ t.IsModule id := by
  simp [classesOf]

@[simp] theorem classesOf_append (ids ids' : List TypeId) :
    t.classesOf (ids ++ ids') = t.classesOf ids ++ t.classesOf ids' :=
  List.filter_append _ _

theorem classesOf_singleton {id : TypeId} (h : ¬ t.IsModule id) : t.classesOf [id] = [id] := by
  simp [classesOf, h]

theorem classesOf_eq_nil {ids : List TypeId} (h : ∀ id ∈ ids, t.IsModule id) : t.classesOf ids = [] := by
  simpa [classesOf] using h

namespace Raised

variable {seen ids out : List TypeId}

/-- A type inherits from the modules it includes, and then from its parent. -/
theorem inheritsFrom_eq (hmod : t.OnlyModulesIncluded) (id : TypeId) :
    ∃ ms, t.inheritsFrom id = ms ++ [t.parent id] ∧ ∀ m ∈ ms, t.IsModule m := by
  refine ⟨_, rfl, fun m hm => ?_⟩
  split at hm
  · rename_i o ho
    exact hmod id o (object?_eq_some_iff.mp ho) m hm
  · exact absurd hm (by simp)

/-- A module inherits from modules only. -/
theorem isModule_of_reaches (h : t.Raised) (hmod : t.OnlyModulesIncluded) {a b : TypeId}
    (ha : t.IsModule a) (hab : Relation.ReflTransGen t.Inherits a b) : t.IsModule b := by
  induction hab with
  | refl => exact ha
  | @tail b c _ hbc ih =>
    obtain ⟨ms, heq, hms⟩ := inheritsFrom_eq hmod b
    rcases List.mem_append.mp (heq ▸ hbc.1) with hc | hc
    · exact hms c hc
    · rw [List.mem_singleton.mp hc, h.parent_eq_zero ih] at hbc
      exact absurd rfl hbc.2

/-- A search that starts from modules, or from no type, finds modules only. -/
theorem modules_visits (h : t.Raised) (hmod : t.OnlyModulesIncluded) (hrun : t.Visits seen ids out)
    (hids : ∀ id ∈ ids, id = 0 ∨ t.IsModule id) :
    ∃ found, out = found ++ seen ∧ ∀ x ∈ found, t.IsModule x := by
  obtain ⟨found, heq, hfound⟩ := hrun.found
  refine ⟨found, heq, fun x hx => ?_⟩
  obtain ⟨id, hid, hne, hreach⟩ := hfound x hx
  exact h.isModule_of_reaches hmod ((hids id hid).resolve_left hne) hreach

/-- **What a search finds that is no module are the first few types above the last one it starts from**, when
it starts from modules and that one. -/
theorem classes_visits (h : t.Raised) (hmod : t.OnlyModulesIncluded) (hrun : t.Visits seen ids out)
    {ms : List TypeId} {p : TypeId} (hids : ids = ms ++ [p]) (hms : ∀ m ∈ ms, t.IsModule m) :
    ∃ found n, out = found ++ seen ∧ (t.classesOf found).reverse = List.iterate t.parent p n := by
  induction hrun generalizing ms p with
  | done seen => exact absurd hids.symm (by simp)
  | @skip seen ids out id hold hrest ih =>
    cases ms with
    | nil =>
      obtain ⟨rfl, rfl⟩ := List.cons.inj hids
      cases hrest
      exact ⟨[], 0, rfl, rfl⟩
    | cons m ms =>
      obtain ⟨rfl, rfl⟩ := List.cons.inj hids
      exact ih rfl fun x hx => hms x (List.mem_cons_of_mem _ hx)
  | @visit seen ids now out id _ hfirst hrest ih ihrest =>
    obtain ⟨included, heq, hincluded⟩ := inheritsFrom_eq hmod id
    have hmodules : t.IsModule id → ∃ found, now = found ++ id :: seen ∧ ∀ x ∈ found, t.IsModule x := by
      refine fun hid => h.modules_visits hmod hfirst fun c hc => ?_
      rcases List.mem_append.mp (heq ▸ hc) with hc | hc
      · exact .inr (hincluded c hc)
      · exact .inl ((List.mem_singleton.mp hc).trans (h.parent_eq_zero hid))
    cases ms with
    | nil =>
      obtain ⟨rfl, rfl⟩ := List.cons.inj hids
      cases hrest
      by_cases hid : t.IsModule id
      · obtain ⟨found, rfl, hfound⟩ := hmodules hid
        refine ⟨found ++ [id], 0, by simp, ?_⟩
        rw [classesOf_eq_nil (by simpa [or_imp, forall_and] using ⟨hfound, hid⟩)]
        rfl
      · -- the search goes on from the parent
        obtain ⟨found, n, rfl, hfound⟩ := ih heq hincluded
        refine ⟨found ++ [id], n + 1, by simp, ?_⟩
        rw [classesOf_append, classesOf_singleton hid, List.reverse_append, hfound]
        rfl
    | cons m ms =>
      obtain ⟨rfl, rfl⟩ := List.cons.inj hids
      have hid : t.IsModule id := hms id List.mem_cons_self
      obtain ⟨below, rfl, hbelow⟩ := hmodules hid
      obtain ⟨found, n, rfl, hfound⟩ := ihrest rfl fun x hx => hms x (List.mem_cons_of_mem _ hx)
      refine ⟨found ++ below ++ [id], n, by simp, ?_⟩
      have hnone : t.classesOf (below ++ [id]) = [] :=
        classesOf_eq_nil (by simpa [or_imp, forall_and] using ⟨hbelow, hid⟩)
      rw [← hfound, List.append_assoc, classesOf_append, hnone, List.append_nil]

/-- **The ancestors that are no modules are the first few types above the type**, nearest first. -/
theorem classesOf_ancestors (h : t.Raised) (hmod : t.OnlyModulesIncluded) (id : TypeId) :
    ∃ n, t.classesOf (t.ancestors id) = List.iterate t.parent id n := by
  obtain ⟨found, n, heq, hfound⟩ :=
    h.classes_visits hmod (t.visits_ancestors id) (List.nil_append [id]).symm (by simp)
  refine ⟨n, ?_⟩
  rw [List.append_nil] at heq
  rw [← hfound, ← heq, classesOf, classesOf, List.filter_reverse, List.reverse_reverse]

/-- Going to parents leads to older types. -/
theorem iterate_le (h : t.Raised) (id : TypeId) (n : Nat) : t.parent^[n] id ≤ id := by
  induction n with
  | zero => exact Nat.le_refl _
  | succ n ih =>
    rw [Function.iterate_succ_apply']
    exact (h.parent_le _).trans ih

theorem iterate_lt (h : t.Raised) {id : TypeId} (hid : id ≠ 0) (n : Nat) : t.parent^[n + 1] id < id := by
  rw [Function.iterate_succ_apply]
  exact Nat.lt_of_le_of_lt (h.iterate_le _ n) (h.parent_lt hid)

theorem pairwise_iterate (h : t.Raised) {id : TypeId} {n : Nat} (hne : ∀ x ∈ List.iterate t.parent id n, x ≠ 0) :
    (List.iterate t.parent id n).Pairwise (· > ·) := by
  induction n generalizing id with
  | zero => exact .nil
  | succ n ih =>
    rw [List.iterate, List.forall_mem_cons] at hne
    refine .cons (fun x hx => ?_) (ih hne.2)
    obtain ⟨k, -, rfl⟩ := List.mem_iterate.mp hx
    exact Nat.lt_of_le_of_lt (h.iterate_le _ k) (h.parent_lt hne.1)

/-- What is above a type is among its ancestors. -/
theorem iterate_mem_ancestors (h : t.Raised) {id : TypeId} {n : Nat} (hne : t.parent^[n] id ≠ 0) :
    t.parent^[n] id ∈ t.ancestors id := by
  induction n with
  | zero => exact self_mem_ancestors hne
  | succ n ih =>
    rw [Function.iterate_succ_apply'] at hne ⊢
    have hzero : t.parent^[n] id ≠ 0 := by
      intro hzero
      rw [hzero] at hne
      exact hne (Nat.le_zero.mp (h.parent_le 0))
    refine ancestors_trans (ih hzero) (mem_ancestors_iff.mpr ⟨hzero, .single ⟨?_, hne⟩⟩)
    exact List.mem_append_right _ List.mem_cons_self

/-- **Nearer types come before farther ones** among the ancestors of a type, unless the farther one is a
module. -/
theorem pair_sublist_ancestors (h : t.Raised) (hmod : t.OnlyModulesIncluded) {id c : TypeId} {n : Nat}
    (hc : c ∈ t.ancestors id) (hd : t.parent^[n + 1] c ≠ 0) (hclass : ¬ t.IsModule (t.parent^[n + 1] c)) :
    [c, t.parent^[n + 1] c].Sublist (t.ancestors id) := by
  have hc0 : c ≠ 0 := by
    rintro rfl
    exact hd (Nat.le_zero.mp (h.iterate_le 0 _))
  have hcclass : ¬ t.IsModule c := by
    intro hm
    rw [Function.iterate_succ_apply, h.parent_eq_zero hm] at hd
    exact hd (Nat.le_zero.mp (h.iterate_le 0 _))
  have hmem : t.parent^[n + 1] c ∈ t.ancestors id := ancestors_trans hc (h.iterate_mem_ancestors hd)
  obtain ⟨m, hm⟩ := h.classesOf_ancestors hmod id
  -- the types above one another stand in decreasing order, and these two are among them
  have hdecreasing : (t.classesOf (t.ancestors id)).Pairwise (· > ·) := by
    have hne : ∀ x ∈ t.classesOf (t.ancestors id), x ≠ 0 := fun x hx =>
      ne_zero_of_mem_ancestors (mem_classesOf.mp hx).1
    rw [hm] at hne ⊢
    exact h.pairwise_iterate hne
  have hlt := h.iterate_lt hc0 n
  have hsub : [c, t.parent^[n + 1] c].Subperm (t.classesOf (t.ancestors id)) := by
    refine List.subperm_of_subset (by simpa using Nat.ne_of_gt hlt) fun x hx => ?_
    rcases List.mem_pair.mp hx with rfl | rfl
    · exact mem_classesOf.mpr ⟨hc, hcclass⟩
    · exact mem_classesOf.mpr ⟨hmem, hclass⟩
  have hpair : [c, t.parent^[n + 1] c].Pairwise (· > ·) := by simpa using hlt
  exact (List.sublist_of_subperm_of_pairwise hsub hpair hdecreasing).trans List.filter_sublist

end Raised

/-! ### The closure -/

/-- **The ancestors of a type are what can be reached from it** by going to parents and included modules. The
search for them has exactly one run, however the modules of the table include each other or themselves; it finds
the type first and nothing twice. The ancestors of an ancestor are ancestors. Going up from any ancestor, nearer
types come before farther ones, unless the farther one is a module. -/
theorem Arises.ancestors_closure (h : Arises t) (hmod : t.OnlyModulesIncluded) (id : TypeId) :
    (∀ out, t.Visits [] [id] out ↔ out.reverse = t.ancestors id) ∧
    (t.ancestors id).Nodup ∧
    (id ≠ 0 → ∃ rest, t.ancestors id = id :: rest) ∧
    (∀ b, b ∈ t.ancestors id ↔ id ≠ 0 ∧ Relation.ReflTransGen t.Inherits id b) ∧
    (∀ b ∈ t.ancestors id, t.ancestors b ⊆ t.ancestors id) ∧
    ∀ c ∈ t.ancestors id, ∀ n, t.parent^[n + 1] c ≠ 0 → ¬ t.IsModule (t.parent^[n + 1] c) →
      [c, t.parent^[n + 1] c].Sublist (t.ancestors id) := by
  refine ⟨fun out => ⟨fun hrun => ?_, ?_⟩, t.nodup_ancestors id, fun hid => t.exists_ancestors_eq hid,
    fun b => mem_ancestors_iff, fun b hb c hc => ancestors_trans hb hc,
    fun c hc n => h.raised.pair_sublist_ancestors hmod hc⟩
  · rw [hrun.unique (t.visits_ancestors id), List.reverse_reverse]
  · intro hout
    rw [← List.reverse_reverse out, hout]
    exact t.visits_ancestors id

/-- The modules 14 and 15, which include each other and the first of them itself, the class 16, which includes the
first, and 17 below it, which includes the second. -/
def wheels : Table :=
  Operation.runAll [
    .defineModule "M", .defineModule "N", .include 14 15, .include 15 14, .include 14 14,
    .defineClass "A" Builtin.object [], .include 16 14, .defineClass "B" 16 [], .include 17 15] initial

theorem ancestors_closure_wheels :
    Arises wheels ∧ wheels.OnlyModulesIncluded ∧
    wheels.ancestors 17 = [17, 15, 14, 16, Builtin.object] ∧ (wheels.ancestors 17).Nodup ∧
    [17, Builtin.object].Sublist (wheels.ancestors 17) := by
  have harises : Arises wheels := Reaches.arises (Reaches.refl.runAll (by decide +kernel))
  have hmod : wheels.OnlyModulesIncluded := by decide +kernel
  obtain ⟨-, hnodup, -, -, -, hchain⟩ := Arises.ancestors_closure harises hmod 17
  have hlist : wheels.ancestors 17 = [17, 15, 14, 16, Builtin.object] := by decide +kernel
  refine ⟨harises, hmod, hlist, hnodup, ?_⟩
  exact hchain 17 (hlist ▸ List.mem_cons_self) 1 (by decide +kernel) (by decide +kernel)

end Table

end TypeFlow
