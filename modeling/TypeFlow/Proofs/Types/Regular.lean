import TypeFlow.Proofs.Types.Built

/-!
# Tables after any operations

`Reaches` is what operations lead to if nothing is demanded of them except that they are about types
of the table: names may repeat, anything may be a superclass or be included, and objects without a name
are made. Structural equality is not identity on such tables, and the superclasses of a class need not
be classes.

What remains is `Regular`: a derived type is made of older types and determined by its entry; a union has at
least two members, which are increasing, flat and do not contain the type of what never yields a value; a
generic instance is determined by its template and arguments; and what an entry is made of is in the table.
Every operation keeps it, and what an entry was made with stays (`Operation.lasts`). The main statement is
`Reaches.representation`.

Unification rewrites type arguments, after which an instance is no longer determined by them. What is left then is
`Grounded`. All that is used of a table while operations run on it is that it is grounded, so the operations are
followed once, for every invariant that allows for new entries and for changes of what may change (`Kept`).

Joining drops members that equal an earlier one. All that counts here is that some members are left out
(`dropEqual_sublist`), so nothing is said about which.
-/

namespace TypeFlow.Table

variable {t t' : Table} {α β : Type}

/-! ### Tables that operations lead to -/

/-- The types that an operation is about. -/
def Operation.ids : Operation → List TypeId
  | definePrimitive _ _ parent _ => [parent]
  | defineClass _ superclass _ => [superclass]
  | defineModule _ => []
  | defineLib _ => []
  | defineStruct lib _ _ members => lib :: members.map Prod.snd
  | defineConst owner _ _ => [owner]
  | register _ id => [id]
  | «include» id module => [id, module]
  | setIVar id _ type => [id, type]
  | addMember id _ type => [id, type]
  | pointerOf id => [id]
  | metaclassOf id => [id]
  | hierarchyOf id => [id]
  | typeVarOf _ => []
  | instantiate template args => template :: args
  | merge ids => ids
  | unionOf ids => ids
  | restrict id restriction => [id, restriction]
  | filterBy id target => [id, target]
  | without id drop => [id, drop]

/-- A table that operations about types of the table lead to. -/
inductive Reaches (t : Table) : Table → Prop
  | refl : Reaches t t
  | step {t' : Table} (op : Operation) : Reaches t t' → (∀ id ∈ op.ids, id < t'.size) →
      Reaches t (op.run.run t').2
  | newObject {t' : Table} (name : String) (superclass : TypeId) : Reaches t t' →
      superclass < t'.size → Reaches t ((Table.newObject name superclass).run t').2

/-! ### The invariant -/

/-- What structural equality and interning rely on. -/
structure Tidy (t : Table) : Prop where
  /-- Unions are flat and sorted. -/
  union : ∀ {id : TypeId} {ms : List TypeId}, t.get? id = some (.union ms) → IsUnion t ms
  /-- A derived type is determined by its entry. -/
  interned : ∀ {a b : TypeId} {e : Entry}, t.get? a = some e → t.get? b = some e → e.IsDerived →
    a = b
  /-- The instance variables of an object have different names. -/
  ivars : ∀ {id : TypeId} {o : ObjectEntry}, t.get? id = some (.object o) →
    (o.ivars.map Prod.fst).Nodup

/-- Everything that an entry is compared through is in the table. -/
def Contained (t : Table) : Prop :=
  ∀ (id : TypeId) (e : Entry), t.get? id = some e → ∀ c ∈ e.compared, c < t.size

/-- **What holds of every table**, whatever was declared, also of one whose type arguments were rewritten. -/
structure Grounded (t : Table) : Prop extends Tidy t where
  /-- The type of what never yields a value is what it was. -/
  noReturn : t.get? Builtin.noReturn = some (.primitive ⟨"NoReturn", 0, Builtin.value, none⟩)
  /-- What a derived type is made of was there before it. -/
  older : ∀ {id : TypeId} {e : Entry}, t.get? id = some e → e.IsDerived → ∀ c ∈ e.parts, c < id
  /-- What stands below a class is known. -/
  listed : Listed t
  /-- A superclass is older than its class. -/
  superclass : ∀ {id : TypeId} {o : ObjectEntry}, t.get? id = some (.object o) → o.superclass < id
  /-- Whatever an entry is made of is known. -/
  closed : Contained t

/-- **What holds of every table that was only operated on.** -/
structure Regular (t : Table) : Prop extends Tidy t where
  /-- The built-in types are there. -/
  builtins : Extends initial t
  /-- What a derived type is made of was there before it. -/
  older : ∀ {id : TypeId} {e : Entry}, t.get? id = some e → e.IsDerived → ∀ c ∈ e.parts, c < id
  /-- The current type arguments of an object are those it was made for. -/
  args : ∀ {id : TypeId} {o : ObjectEntry}, t.get? id = some (.object o) → o.typeArgs = o.madeFor
  /-- A generic instance is determined by its template and its arguments. -/
  instances : ∀ {a b : TypeId} {o p : ObjectEntry}, t.get? a = some (.object o) →
    t.get? b = some (.object p) → o.generic ≠ 0 → o.generic = p.generic → o.madeFor = p.madeFor →
    a = b
  /-- What stands below a class is known. -/
  listed : Listed t
  /-- A superclass is older than its class. -/
  superclass : ∀ {id : TypeId} {o : ObjectEntry}, t.get? id = some (.object o) → o.superclass < id
  /-- Whatever an entry is made of is known. -/
  closed : Contained t

namespace Tidy

/-- A derived entry that is new, or any other one, may be added. -/
theorem of_push (h : Tidy t) {e : Entry} (he : t'.entries = t.entries.push e)
    (hd : e.IsDerived → ∀ id, t.get? id ≠ some e) (hu : ∀ ms, e = .union ms → IsUnion t ms)
    (ho : ∀ o, e = .object o → (o.ivars.map Prod.fst).Nodup) : Tidy t' where
  union {id ms} hms := by
    rcases get?_of_push_cases he hms with ⟨-, hx⟩ | hms
    · exact (hu ms hx.symm).of_push he
    · exact (h.union hms).of_push he
  interned {a b x} ha hb hx := by
    rcases get?_of_push_cases he ha with ⟨rfl, rfl⟩ | ha
    · rcases get?_of_push_cases he hb with ⟨rfl, -⟩ | hb
      · rfl
      · exact absurd hb (hd hx b)
    · rcases get?_of_push_cases he hb with ⟨rfl, rfl⟩ | hb
      · exact absurd ha (hd hx a)
      · exact h.interned ha hb hx
  ivars {id o} hid := by
    rcases get?_of_push_cases he hid with ⟨-, hx⟩ | hid
    · exact ho o hx.symm
    · exact h.ivars hid

/-- The members of a type are known and flat. -/
theorem known_members (h : Tidy t) {id m : TypeId} (hid : id < t.size) (hm : m ∈ t.members id) :
    (0 < m ∧ m < t.size) ∧ ∀ ns, t.get? m ≠ some (.union ns) := by
  by_cases hu : ∃ ms, t.get? id = some (.union ms)
  · obtain ⟨ms, hms⟩ := hu
    rw [members_of_union hms] at hm
    obtain ⟨e, he⟩ := (h.union hms).known m hm
    exact ⟨⟨pos_of_get? he, lt_size_of_get? he⟩, (h.union hms).flat m hm⟩
  · rw [not_exists] at hu
    rcases Nat.eq_zero_or_pos id with rfl | hpos
    · simp at hm
    · rw [members_of_not_union hpos.ne' hu, List.mem_singleton] at hm
      exact hm ▸ ⟨⟨hpos, hid⟩, hu⟩

end Tidy

/-- What is known stays known. -/
theorem lt_size_of_push {e : Entry} (he : t'.entries = t.entries.push e) {id : TypeId} (hid : id < t.size) :
    id < t'.size := by
  have hsize : t'.size = t.size + 1 := by simp [size, he]
  exact hsize ▸ Nat.lt_succ_of_lt hid

/-- An entry that may be added to a regular table. -/
structure Suits (t : Table) (e : Entry) : Prop where
  derived : e.IsDerived → ∀ id, t.get? id ≠ some e
  union : ∀ ms, e = .union ms → IsUnion t ms
  args : ∀ o, e = .object o → o.typeArgs = o.madeFor
  instances : ∀ o, e = .object o → o.generic ≠ 0 →
    ∀ id p, t.get? id = some (.object p) → o.generic = p.generic → o.madeFor ≠ p.madeFor
  bare : ∀ o, e = .object o → o.subclasses = [] ∧ o.ivars = []
  superclass : ∀ o, e = .object o → o.superclass < t.size
  known : ∀ c ∈ e.compared, c < t.size

/-- An entry that is neither derived nor an object suits every table. -/
theorem Suits.of_plain {e : Entry} (hd : ¬ e.IsDerived) (ho : ∀ o, e ≠ .object o) : Suits t e := by
  have hnone : e.compared = [] := by
    cases e with
    | object o => exact absurd rfl (ho o)
    | pointer p | union ms | metaclass c | hierarchy base | typeVar n => exact absurd trivial hd
    | _ => rfl
  refine ⟨fun h => absurd h hd, ?_, ?_, ?_, ?_, ?_, by simp [hnone]⟩
  · rintro ms rfl
    exact absurd trivial hd
  all_goals exact fun o heq => absurd heq (ho o)

/-- A new object that is no generic instance suits every table that its superclass is in. -/
theorem Suits.of_object {o : ObjectEntry} (hsuper : o.superclass < t.size) (hg : o.generic = 0)
    (hm : o.madeFor = []) (ha : o.typeArgs = []) (hs : o.subclasses = []) (hi : o.ivars = []) :
    Suits t (.object o) := by
  refine ⟨fun h => absurd h (by simp [Entry.IsDerived]), by simp, ?_, ?_, ?_, ?_, ?_⟩
  · rintro _ ⟨⟩
    rw [ha, hm]
  · rintro _ ⟨⟩ hne
    exact absurd hg hne
  · rintro _ ⟨⟩
    exact ⟨hs, hi⟩
  · rintro _ ⟨⟩
    exact hsuper
  · simpa [Entry.compared, Entry.parts, hg, ha, hi] using t.size_pos

/-- An object may change in what may change, as long as lists stay within the table and names stay distinct. -/
def Admissible (t t' : Table) : Prop :=
  ∀ {id : TypeId} {o : ObjectEntry}, t'.get? id = some (.object o) →
    (∀ c ∈ o.subclasses, c < t.size) ∧ (o.ivars.map Prod.fst).Nodup ∧ ∀ v ∈ o.ivars, v.2 < t.size

namespace Grounded

/-- A suitable entry may be added. -/
theorem of_push (h : Grounded t) {e : Entry} (he : t'.entries = t.entries.push e) (hs : Suits t e) :
    Grounded t' where
  toTidy := h.toTidy.of_push he hs.derived hs.union fun o ho => by simp [(hs.bare o ho).2]
  noReturn := get?_of_push_old he h.noReturn
  older {id x} hx hd c hc := by
    rcases get?_of_push_cases he hx with ⟨rfl, rfl⟩ | hx
    · exact hs.known c (hd.compared_eq ▸ hc)
    · exact h.older hx hd c hc
  listed id o ho c hc := by
    rcases get?_of_push_cases he ho with ⟨-, hx⟩ | ho
    · exact absurd hc (by simp [(hs.bare o hx.symm).1])
    · exact lt_size_of_push he (h.listed id o ho c hc)
  superclass {id o} ho := by
    rcases get?_of_push_cases he ho with ⟨rfl, hx⟩ | ho
    · exact hs.superclass o hx.symm
    · exact h.superclass ho
  closed id x hx c hc := by
    rcases get?_of_push_cases he hx with ⟨-, rfl⟩ | hx
    · exact lt_size_of_push he (hs.known c hc)
    · exact lt_size_of_push he (h.closed id x hx c hc)

/-- What may change may change. -/
theorem of_sameCores (h : Grounded t) (hc : SameCores t t') (hobj : Admissible t t') : Grounded t' where
  union {id ms} hms := by
    have hu := h.union (hc.old_derived hms trivial)
    refine ⟨hu.several, hu.increasing, fun m hm => ?_, fun m hm ns hns => ?_, hu.absorbed⟩
    · obtain ⟨e, he⟩ := hu.known m hm
      obtain ⟨e', he', -⟩ := hc.toExtends.core he
      exact ⟨e', he'⟩
    · exact hu.flat m hm ns (hc.old_derived hns trivial)
  interned ha hb hd := h.interned (hc.old_derived ha hd) (hc.old_derived hb hd) hd
  ivars ho := (hobj ho).2.1
  noReturn := by
    obtain ⟨e, he, hcore⟩ := hc.toExtends.core h.noReturn
    cases e with
    | primitive p => exact he.trans (congrArg some hcore)
    | _ => simp [Entry.core] at hcore
  older he hd := h.older (hc.old_derived he hd) hd
  listed _ _ ho c hcs := hc.toExtends.lt_size ((hobj ho).1 c hcs)
  superclass ho := by
    obtain ⟨o', ho', -, hsuper, -⟩ := hc.old_object ho
    exact hsuper ▸ h.superclass ho'
  closed id e he c hmem := by
    refine hc.toExtends.lt_size ?_
    cases e with
    | object o =>
      obtain ⟨o', ho', -, -, -, -, hgen, -, hargs⟩ := hc.old_object he
      have hold := h.closed id _ ho'
      simp only [Entry.compared, Entry.parts, hgen, hargs] at hold
      rcases List.mem_cons.mp hmem with rfl | hmem
      · exact hold _ List.mem_cons_self
      · rcases List.mem_append.mp hmem with hmem | hmem
        · exact hold c (List.mem_cons_of_mem _ (List.mem_append_left _ hmem))
        · obtain ⟨v, hv, rfl⟩ := List.mem_map.mp hmem
          exact (hobj he).2.2 v hv
    | pointer _ | union _ | metaclass _ | hierarchy _ =>
      exact h.closed id _ (hc.old_derived he trivial) c hmem
    | _ => exact absurd hmem (by simp [Entry.compared, Entry.parts])

/-- The type of an instance variable is known. -/
theorem ivar_lt (h : Grounded t) {id : TypeId} {o : ObjectEntry} (ho : t.get? id = some (.object o))
    {v : String × TypeId} (hv : v ∈ o.ivars) : v.2 < t.size := by
  refine h.closed id _ ho v.2 (List.mem_cons_of_mem _ (List.mem_append_right _ ?_))
  exact List.mem_map.mpr ⟨v, hv, rfl⟩

/-- What the objects of a grounded table list is known, and their names are distinct. -/
theorem admissible (h : Grounded t) : Admissible t t :=
  fun ho => ⟨h.listed _ _ ho, h.ivars ho, fun _ => h.ivar_lt ho⟩

end Grounded

namespace Regular

theorem grounded (h : Regular t) : Grounded t :=
  { h with
    noReturn := by
      have hprim : initial.get? Builtin.noReturn =
          some (.primitive ⟨"NoReturn", 0, Builtin.value, none⟩) := rfl
      obtain ⟨e, he, hc⟩ := h.builtins.core hprim
      cases e with
      | primitive p => exact he.trans (congrArg some hc)
      | _ => simp [Entry.core] at hc }

/-- A suitable entry may be added. -/
theorem of_push (h : Regular t) {e : Entry} (he : t'.entries = t.entries.push e)
    (hn : ∀ {name : String}, (t.lookup? name).isSome → (t'.lookup? name).isSome)
    (hs : Suits t e) : Regular t' :=
  { h.grounded.of_push he hs with
    builtins := h.builtins.trans (Extends.of_push he hn)
    args := fun {id o} ho => by
      rcases get?_of_push_cases he ho with ⟨-, hx⟩ | ho
      · exact hs.args o hx.symm
      · exact h.args ho
    instances := fun {a b o p} ha hb hg hgen hmade => by
      rcases get?_of_push_cases he ha with ⟨rfl, hx⟩ | ha
      · rcases get?_of_push_cases he hb with ⟨rfl, -⟩ | hb
        · rfl
        · exact absurd hmade (hs.instances o hx.symm hg b p hb hgen)
      · rcases get?_of_push_cases he hb with ⟨rfl, hx⟩ | hb
        · exact absurd hmade.symm (hs.instances p hx.symm (hgen ▸ hg) a o ha hgen.symm)
        · exact h.instances ha hb hg hgen hmade }

/-- What may change may change. -/
theorem of_sameCores (h : Regular t) (hc : SameCores t t') (hobj : Admissible t t') : Regular t' :=
  { h.grounded.of_sameCores hc hobj with
    builtins := h.builtins.trans hc.toExtends
    args := fun {id o} ho => by
      obtain ⟨o', ho', -, -, -, -, -, hm, ha⟩ := hc.old_object ho
      rw [← ha, ← hm]
      exact h.args ho'
    instances := fun {a b o p} ha hb hg hgen hmade => by
      obtain ⟨o', ho', -, -, -, -, hogen, hom, -⟩ := hc.old_object ha
      obtain ⟨p', hp', -, -, -, -, hpgen, hpm, -⟩ := hc.old_object hb
      exact h.instances ho' hp' (hogen ▸ hg) (hogen.trans (hgen.trans hpgen.symm))
        (hom.trans (hmade.trans hpm.symm)) }

end Regular

/-! ### Invariants of operations -/

/-- An invariant of grounded tables that allows for suitable entries to be added, and for what may change to
change. -/
structure Kept (I : Table → Prop) : Prop where
  grounded : ∀ {t : Table}, I t → Grounded t
  pushed : ∀ {t t' : Table} {e : Entry}, I t → t'.entries = t.entries.push e →
    (∀ {name : String}, (t.lookup? name).isSome → (t'.lookup? name).isSome) → Suits t e → I t'
  cores : ∀ {t t' : Table}, I t → SameCores t t' → Admissible t t' → I t'

theorem kept_grounded : Kept Grounded :=
  ⟨fun h => h, fun h he _ hs => h.of_push he hs, fun h hc hobj => h.of_sameCores hc hobj⟩

theorem kept_regular : Kept Regular :=
  ⟨fun h => h.grounded, fun h he hn hs => h.of_push he hn hs, fun h hc hobj => h.of_sameCores hc hobj⟩

variable {I : Table → Prop}

/-- A change of one object. -/
theorem Kept.modifyObject (hI : Kept I) (h : I t) (id : TypeId) {f : ObjectEntry → ObjectEntry}
    (hf : ∀ o, (Entry.object (f o)).core = (Entry.object o).core)
    (hsub : ∀ o, ∀ c ∈ (f o).subclasses, c ∈ o.subclasses ∨ c < t.size)
    (hivars : ∀ o, (o.ivars.map Prod.fst).Nodup → ((f o).ivars.map Prod.fst).Nodup)
    (htypes : ∀ o, ∀ v ∈ (f o).ivars, v ∈ o.ivars ∨ v.2 < t.size) :
    I ((Table.modifyObject id f).run t).2 := by
  have hg := hI.grounded h
  refine hI.cores h (SameCores.of_modifyObject t id hf) fun {x o} ho => ?_
  rw [get?_modifyObject] at ho
  split at ho
  · obtain ⟨e, he, heq⟩ := Option.map_eq_some_iff.mp ho
    cases e with
    | object p =>
      obtain rfl := Entry.object.inj heq
      refine ⟨fun c hc => ?_, hivars p (hg.ivars he), fun v hv => ?_⟩
      · exact (hsub p c hc).elim (hg.listed x p he c) fun hlt => hlt
      · exact (htypes p v hv).elim (hg.ivar_lt he) fun hlt => hlt
    | _ => exact absurd heq (by simp)
  · exact hg.admissible ho

/-! ### Computations that only add types -/

/-- Run on `t`, the computation only adds types, keeps the invariant `I`, and ends in `Q`. -/
def Makes (I : Table → Prop) (t : Table) (x : TableM α) (Q : Table → α → Prop) : Prop :=
  I (x.run t).2 ∧ Grown t (x.run t).2 ∧ Q (x.run t).2 (x.run t).1

namespace Makes

variable {Q : Table → α → Prop} {R : Table → β → Prop}

theorem pure (h : I t) {a : α} (hq : Q t a) : Makes I t (pure a) Q :=
  ⟨h, Grown.refl t, hq⟩

theorem bind {x : TableM α} {f : α → TableM β} (hx : Makes I t x Q)
    (hf : ∀ t' a, I t' → Grown t t' → Q t' a → Makes I t' (f a) R) : Makes I t (x >>= f) R := by
  obtain ⟨hr, hg, hq⟩ := hx
  obtain ⟨hr', hg', hr''⟩ := hf _ _ hr hg hq
  exact ⟨hr', hg.trans hg', hr''⟩

theorem get_bind {f : Table → TableM β} (hf : Makes I t (f t) R) : Makes I t (get >>= f) R :=
  hf

theorem imp {Q' : Table → α → Prop} {x : TableM α} (hx : Makes I t x Q)
    (hQ : ∀ t' a, Grown t t' → Q t' a → Q' t' a) : Makes I t x Q' :=
  ⟨hx.1, hx.2.1, hQ _ _ hx.2.1 hx.2.2⟩

/-- What holds of each result still holds of all of them at the end. -/
theorem mapM (h : I t) {γ : Type} {f : γ → TableM α} {l : List γ}
    (hf : ∀ c ∈ l, ∀ t', I t' → Grown t t' → Makes I t' (f c) Q)
    (hkeep : ∀ t' t'' a, Grown t' t'' → Q t' a → Q t'' a) :
    Makes I t (l.mapM f) fun t' as => ∀ a ∈ as, Q t' a := by
  induction l generalizing t with
  | nil => exact pure h (by simp)
  | cons c l ih =>
    rw [List.mapM_cons]
    refine bind (hf c List.mem_cons_self t h (Grown.refl t)) fun t₁ a h₁ hg₁ ha => ?_
    refine bind (ih h₁ fun d hd t' h' hg' => ?_) fun t₂ as h₂ hg₂ has => pure h₂ ?_
    · exact hf d (List.mem_cons_of_mem _ hd) t' h' (hg₁.trans hg')
    · exact List.forall_mem_cons.mpr ⟨hkeep t₁ t₂ a hg₂ ha, has⟩

end Makes

/-! ### Unions -/

/-- Members that may form a union or stand alone. -/
structure Joinable (t : Table) (ms : List TypeId) : Prop extends Flat t ms where
  absorbed : Builtin.noReturn ∈ ms → ms = [Builtin.noReturn]

/-- Equal members are left out. -/
theorem dropEqual_sublist (t : Table) (kept ids : List TypeId) :
    (t.dropEqual kept ids).Sublist (kept.reverse ++ ids) := by
  induction ids generalizing kept with
  | nil => simp [dropEqual]
  | cons id rest ih =>
    rw [dropEqual]
    split
    · exact (ih kept).trans (List.Sublist.append_left (List.sublist_cons_self id rest) _)
    · simpa using ih (id :: kept)

/-- Flattened members may form a union. -/
theorem Tidy.joinable_flatten (h : Tidy t) {ids : List TypeId} (hids : ∀ id ∈ ids, id < t.size) :
    Joinable t (t.flatten ids) := by
  have hmem : ∀ m ∈ ids.flatMap t.members, (0 < m ∧ m < t.size) ∧
      ∀ ns, t.get? m ≠ some (.union ns) := by
    intro m hm
    obtain ⟨id, hid, hm⟩ := List.mem_flatMap.mp hm
    exact h.known_members (hids id hid) hm
  unfold flatten
  generalize ids.flatMap t.members = all at hmem ⊢
  simp only
  have hsub := t.dropEqual_sublist [] (sortedUnique (all.filter (· ≠ Builtin.noReturn)))
  rw [List.reverse_nil, List.nil_append] at hsub
  generalize t.dropEqual [] _ = out at hsub ⊢
  have hout : ∀ m ∈ out, m ∈ all ∧ m ≠ Builtin.noReturn := by
    intro m hm
    simpa using hsub.subset hm
  split
  · split
    · rename_i hin
      exact ⟨⟨by simp, by simpa using (hmem _ hin).1, by simpa using (hmem _ hin).2⟩, fun _ => rfl⟩
    · exact ⟨⟨by simp, by simp, by simp⟩, by simp⟩
  · refine ⟨⟨(sortedUnique_increasing _).sublist hsub, fun m hm => ?_, fun m hm => ?_⟩, fun hm => ?_⟩
    · exact (hmem m (hout m hm).1).1
    · exact (hmem m (hout m hm).1).2
    · exact absurd rfl (hout _ hm).2

namespace Kept

/-- A suitable entry is the one of the new type, and nothing else changed. -/
theorem makes_push (hI : Kept I) (h : I t) {e : Entry} (hs : Suits t e)
    (hinc : ∀ o, e = .object o → o.includes = []) :
    Makes I t (push e) fun t' id => t'.get? id = some e := by
  have he : ((push e).run t).2.entries = t.entries.push e := rfl
  refine ⟨hI.pushed h he id hs, ⟨fun hx => get?_of_push_old he hx, rfl, fun {id o} hle ho => ?_⟩, ?_⟩
  · rcases get?_of_push_cases he ho with ⟨-, heq⟩ | ho
    · exact ⟨(hs.bare o heq.symm).1, hinc o heq.symm⟩
    · exact absurd (lt_size_of_get? ho) (Nat.not_lt.mpr hle)
  · exact (get?_of_push he t.size).trans (if_pos rfl)

/-- Interning gives the type with the wanted entry. -/
theorem makes_intern (hI : Kept I) (h : I t) {e : Entry} (hd : e.IsDerived)
    (hu : ∀ ms, e = .union ms → IsUnion t ms) (hl : ∀ c ∈ e.compared, c < t.size) :
    Makes I t (intern e) fun t' id => t'.get? id = some e := by
  refine Makes.get_bind ?_
  split
  · rename_i id hfind
    exact Makes.pure h (get?_of_find? hfind)
  · rename_i hfind
    have hobj : ∀ o, e ≠ .object o := by
      rintro o rfl
      exact hd
    refine hI.makes_push h ⟨fun _ => get?_ne_of_find? hfind, hu, ?_, ?_, ?_, ?_, hl⟩ ?_
    all_goals exact fun o ho => absurd ho (hobj o)

theorem makes_internUnion (hI : Kept I) (h : I t) {ms : List TypeId} (hj : Joinable t ms) :
    Makes I t (internUnion ms) fun t' id => id < t'.size := by
  match ms, hj with
  | [], _ => exact Makes.pure h t.size_pos
  | [m], hj => exact Makes.pure h (hj.known m List.mem_cons_self).2
  | m :: n :: ms, hj =>
    refine (hI.makes_intern h (e := .union (m :: n :: ms)) trivial ?_ fun x hx => (hj.known x hx).2).imp
      fun _ _ _ => lt_size_of_get?
    rintro _ ⟨⟩
    refine ⟨by simp, hj.increasing, fun x hx => ?_, hj.flat, fun hmem => ?_⟩
    · exact exists_get?_of_lt (hj.known x hx).1 (hj.known x hx).2
    · exact absurd (hj.absorbed hmem) (by simp)

theorem makes_unionOf (hI : Kept I) (h : I t) {ids : List TypeId} (hids : ∀ id ∈ ids, id < t.size) :
    Makes I t (unionOf ids) fun t' id => id < t'.size :=
  Makes.get_bind (hI.makes_internUnion h ((hI.grounded h).joinable_flatten hids))

end Kept

/-! ### Joins -/

/-- Superclasses are known. -/
theorem Grounded.superclass_lt (h : Grounded t) (id : TypeId) : t.superclass id < t.size := by
  rw [Table.superclass]
  split
  · rename_i o ho
    exact Nat.lt_trans (h.superclass (object?_eq_some_iff.mp ho)) (lt_size_of_get? (object?_eq_some_iff.mp ho))
  · exact t.size_pos

/-- The nearest common ancestor of known classes is known. -/
theorem Grounded.commonAncestor_lt (h : Grounded t) {a b : TypeId} (ha : a < t.size) :
    t.commonAncestor a b < t.size := by
  have hclimb : ∀ (n : Nat) (id : TypeId), id < t.size → t.climb n id < t.size := by
    intro n
    induction n with
    | zero => exact fun id hid => hid
    | succ n ih => exact fun id _ => ih _ (h.superclass_lt id)
  have hmeet : ∀ (n : Nat) (a b : TypeId), a < t.size → t.meet n a b < t.size := by
    intro n
    induction n with
    | zero => exact fun a b ha => ha
    | succ n ih =>
      intro a b ha
      rw [Table.meet]
      split
      · exact ha
      · exact ih _ _ (h.superclass_lt a)
  exact hmeet _ _ _ (hclimb _ _ ha)

/-- What was collected from the members `ms`: those that do not combine, and families of known ancestors;
one that does not stand for all classes below its ancestor is a single member. -/
def Collected (t : Table) (ms : List TypeId) (acc : List TypeId × List Family) : Prop :=
  (∀ m ∈ acc.1, m ∈ ms) ∧ ∀ f ∈ acc.2, (f.whole = false → f.ancestor ∈ ms) ∧ f.ancestor < t.size

theorem Collected.joinFamily (h : Grounded t) {ms : List TypeId} {fs : List Family} {top base : TypeId}
    {whole : Bool} (hfs : ∀ f ∈ fs, (f.whole = false → f.ancestor ∈ ms) ∧ f.ancestor < t.size)
    (hbase : (whole = false → base ∈ ms) ∧ base < t.size) :
    ∀ f ∈ t.joinFamily top base whole fs, (f.whole = false → f.ancestor ∈ ms) ∧ f.ancestor < t.size := by
  induction fs with
  | nil => simpa [Table.joinFamily] using hbase
  | cons g rest ih =>
    obtain ⟨hg, hrest⟩ := List.forall_mem_cons.mp hfs
    rw [Table.joinFamily]
    split
    · exact List.forall_mem_cons.mpr ⟨⟨by simp, h.commonAncestor_lt hg.2⟩, hrest⟩
    · exact List.forall_mem_cons.mpr ⟨hg, ih hrest⟩

theorem base_of_combinable? {m base : TypeId} (h : t.combinable? m = some (base, false)) :
    base = m := by
  unfold combinable? at h
  split at h
  · simp at h
  · split at h
    · simp at h
    · simp only [Option.some.injEq, Prod.mk.injEq, and_true] at h
      exact h.symm
  · simp at h

/-- What a known member contributes to a combination is known. -/
theorem Grounded.combinable?_lt (h : Grounded t) {m base : TypeId} {whole : Bool} (hm : m < t.size)
    (hc : t.combinable? m = some (base, whole)) : base < t.size := by
  unfold combinable? at hc
  split at hc
  · rename_i b hb
    obtain ⟨rfl, -⟩ := Prod.mk.inj (Option.some.inj hc)
    exact h.closed m _ hb b List.mem_cons_self
  · split at hc
    · simp at hc
    · obtain ⟨rfl, -⟩ := Prod.mk.inj (Option.some.inj hc)
      exact hm
  · simp at hc

theorem Collected.families (h : Grounded t) {ms rest : List TypeId} {acc : List TypeId × List Family}
    (hacc : Collected t ms acc) (hms : ∀ m ∈ ms, m < t.size) (hrest : ∀ m ∈ rest, m ∈ ms) :
    Collected t ms (t.families rest acc) := by
  induction rest generalizing acc with
  | nil => exact hacc
  | cons m rest ih =>
    obtain ⟨hm, hrest⟩ := List.forall_mem_cons.mp hrest
    obtain ⟨single, fs⟩ := acc
    have hsingle : Collected t ms (single ++ [m], fs) :=
      ⟨List.forall_mem_append.mpr ⟨hacc.1, by simpa using hm⟩, hacc.2⟩
    rw [Table.families]
    split
    · exact ih hsingle hrest
    · rename_i base whole hc
      split
      · exact ih hsingle hrest
      · refine ih ⟨hacc.1, Collected.joinFamily h hacc.2 ⟨?_, h.combinable?_lt (hms m hm) hc⟩⟩ hrest
        rintro rfl
        rw [base_of_combinable? hc]
        exact hm

namespace Kept

/-- Combining leaves members that may form a union. -/
theorem makes_combine (hI : Kept I) (h : I t) {ms : List TypeId} (hj : Joinable t ms) :
    Makes I t (combine ms) Joinable := by
  refine Makes.get_bind ?_
  have hcol : Collected t ms (t.families ms ([], [])) :=
    Collected.families (hI.grounded h) ⟨by simp, by simp⟩ (fun m hm => (hj.known m hm).2) fun m hm => hm
  by_cases hn : Builtin.noReturn ∈ ms
  · -- what never yields a value is then the only member, and does not combine
    have hprim : t.combinable? Builtin.noReturn = none := by
      rw [combinable?, (hI.grounded h).noReturn]
    obtain rfl := hj.absorbed hn
    simp only [families, hprim, List.nil_append, List.mapM_nil, pure_bind, List.append_nil]
    exact Makes.pure h hj
  · generalize t.families ms ([], []) = acc at hcol ⊢
    obtain ⟨single, fs⟩ := acc
    refine (Makes.mapM h (Q := fun t' m => Flat t' [m] ∧ m ≠ Builtin.noReturn) ?_ ?_).bind ?_
    · intro f hf t' h' hg
      split
      · have hlt := hg.lt_size (hcol.2 f hf).2
        refine (hI.makes_intern h' (e := .hierarchy f.ancestor) trivial (by simp)
          (List.forall_mem_singleton.mpr hlt)).imp ?_
        intro t'' id hg' hid
        refine ⟨⟨by simp, ?_, by simp [hid]⟩, ?_⟩
        · simpa using ⟨pos_of_get? hid, lt_size_of_get? hid⟩
        · rintro rfl
          exact absurd (hid.symm.trans (hg'.get (hI.grounded h').noReturn)) (by simp)
      · rename_i hw
        have hmem := (hcol.2 f hf).1 (by simpa using hw)
        refine Makes.pure h' ⟨Flat.of_grown hg ⟨by simp, ?_, ?_⟩, fun heq => hn (heq ▸ hmem)⟩
        · simpa using hj.known _ hmem
        · simpa using hj.flat _ hmem
    · exact fun t' t'' m hg hm => ⟨hm.1.of_grown hg, hm.2⟩
    · intro t' combined h' hg hcomb
      have hflat := hj.toFlat.of_grown hg
      have hall : ∀ m ∈ single ++ combined, Flat t' [m] ∧ m ≠ Builtin.noReturn := by
        refine List.forall_mem_append.mpr ⟨fun m hm => ?_, hcomb⟩
        have hm := hcol.1 m hm
        refine ⟨⟨by simp, by simpa using hflat.known m hm, by simpa using hflat.flat m hm⟩, ?_⟩
        exact fun heq => hn (heq ▸ hm)
      refine Makes.pure h' ⟨⟨sortedUnique_increasing _, fun m hm => ?_, fun m hm => ?_⟩, fun hm => ?_⟩
      · exact (hall m (mem_sortedUnique.mp hm)).1.known m List.mem_cons_self
      · exact (hall m (mem_sortedUnique.mp hm)).1.flat m List.mem_cons_self
      · exact absurd rfl (hall _ (mem_sortedUnique.mp hm)).2

theorem makes_merge (hI : Kept I) (h : I t) {ids : List TypeId} (hids : ∀ id ∈ ids, id < t.size) :
    Makes I t (merge ids) fun t' id => id < t'.size := by
  have hj := (hI.grounded h).joinable_flatten hids
  refine Makes.get_bind ?_
  split
  · exact Makes.pure h t.size_pos
  · exact (hI.makes_combine h hj).bind fun t' out h' _ hout => hI.makes_internUnion h' hout

/-! ### Generic instances -/

theorem makes_instantiate (hI : Kept I) (h : I t) (template : TypeId) {args : List TypeId}
    (hargs : ∀ a ∈ args, a < t.size) : Makes I t (instantiate template args) fun _ _ => True := by
  refine Makes.get_bind ?_
  split
  · exact Makes.pure h trivial
  · rename_i o ho
    obtain ⟨hobj, -⟩ := Option.filter_eq_some_iff.mp ho
    have hget := object?_eq_some_iff.mp hobj
    have hpos : template ≠ 0 := Nat.ne_of_gt (pos_of_get? hget)
    split
    · exact Makes.pure h trivial
    · split
      · have hhead : args.headD 0 < t.size := by
          cases args with
          | nil => exact t.size_pos
          | cons a as => exact hargs a List.mem_cons_self
        exact (hI.makes_intern h (e := .pointer (args.headD 0)) trivial (by simp)
          (List.forall_mem_singleton.mpr hhead)).bind fun t' p h' _ _ => Makes.pure h' trivial
      · split
        · exact Makes.pure h trivial
        · rename_i hinst
          refine (hI.makes_push h ⟨by simp [Entry.IsDerived], by simp, ?_, ?_, ?_, ?_, ?_⟩ ?_).bind
            fun t' _ h' _ _ => Makes.pure h' trivial
          · rintro _ ⟨⟩
            rfl
          · rintro _ ⟨⟩ - id q hq hgen hmade
            exact ne_of_instance? hpos hinst hq hgen.symm hmade.symm
          · rintro _ ⟨⟩
            exact ⟨rfl, rfl⟩
          · rintro _ ⟨⟩
            have hsuper := (hI.grounded h).superclass hget
            exact Nat.lt_trans hsuper (lt_size_of_get? hget)
          · simpa [Entry.compared, Entry.parts] using ⟨lt_size_of_get? hget, hargs⟩
          · rintro _ ⟨⟩
            rfl

/-! ### Narrowing -/

theorem makes_union_mapM (hI : Kept I) (h : I t) {ids : List TypeId} {f : TypeId → TableM TypeId}
    (hf : ∀ id ∈ ids, ∀ t', I t' → Grown t t' → Makes I t' (f id) fun t'' m => m < t''.size) :
    Makes I t (do let parts ← ids.mapM f; unionOf (parts.filter (· ≠ 0))) fun t' m => m < t'.size := by
  refine (Makes.mapM h hf fun _ _ _ hg hm => hg.lt_size hm).bind fun t' parts h' _ hparts => ?_
  exact hI.makes_unionOf h' fun m hm => hparts m (List.mem_of_mem_filter hm)

theorem makes_restrictBelow (hI : Kept I) (h : I t) (restriction : TypeId) {fuel : Nat} {base : TypeId}
    (hbase : base < t.size) : Makes I t (restrictBelow restriction fuel base) fun t' m => m < t'.size := by
  induction fuel generalizing t base with
  | zero => exact Makes.pure h t.size_pos
  | succ fuel ih =>
    refine Makes.get_bind ?_
    simp only
    split
    · exact (hI.makes_intern h (e := .hierarchy base) trivial (by simp)
        (List.forall_mem_singleton.mpr hbase)).imp fun _ _ _ => lt_size_of_get?
    · exact hI.makes_union_mapM h fun c hc t' h' hg => ih h' (hg.lt_size ((hI.grounded h).listed.subclasses_lt hc))

theorem makes_restrictUpTo (hI : Kept I) (h : I t) {fuel : Nat} {id restriction : TypeId}
    (hid : id < t.size) (hr : restriction < t.size) :
    Makes I t (restrictUpTo fuel id restriction) fun t' m => m < t'.size := by
  induction fuel generalizing t id restriction with
  | zero => exact Makes.pure h t.size_pos
  | succ fuel ih =>
    have hunion : ∀ {x : TypeId} {ms : List TypeId}, t.get? x = some (.union ms) →
        ∀ m ∈ ms, m < t.size := fun hx m hm => Nat.lt_trans ((hI.grounded h).older hx trivial m hm) (lt_size_of_get? hx)
    refine Makes.get_bind ?_
    split
    · exact Makes.pure h t.size_pos
    · split
      · exact Makes.pure h hid
      · split
        · exact Makes.pure h hid
        · rename_i ms hms _
          exact hI.makes_union_mapM h fun m hm t' h' hg =>
            ih h' (hg.lt_size (hunion hms m hm)) (hg.lt_size hr)
        · rename_i base hbase _
          exact hI.makes_restrictBelow h restriction ((hI.grounded h).closed id _ hbase base List.mem_cons_self)
        · rename_i ms hms _ _
          exact hI.makes_union_mapM h fun m hm t' h' hg =>
            ih h' (hg.lt_size hid) (hg.lt_size (hunion hms m hm))
        · refine Makes.pure h ?_
          split
          · exact hid
          · exact t.size_pos

theorem makes_restrict (hI : Kept I) (h : I t) {id restriction : TypeId} (hid : id < t.size)
    (hr : restriction < t.size) : Makes I t (restrict id restriction) fun t' m => m < t'.size :=
  Makes.get_bind (hI.makes_restrictUpTo h hid hr)

theorem makes_filter_members (hI : Kept I) (h : I t) {id : TypeId} (hid : id < t.size)
    (keep : TypeId → Bool) :
    Makes I t (unionOf ((t.members id).filter keep)) fun t' m => m < t'.size :=
  hI.makes_unionOf h fun _ hm => ((hI.grounded h).known_members hid (List.mem_of_mem_filter hm)).1.2

end Kept

/-! ### Every operation keeps the invariant -/

/-- What every operation keeps: the invariant holds of the table, and nothing is taken back. -/
def Lasts (I : Table → Prop) (t t' : Table) : Prop :=
  I t' ∧ Extends t t'

theorem Makes.lasts {x : TableM α} {Q : Table → α → Prop} (hx : Makes I t x Q) :
    Lasts I t (x.run t).2 :=
  ⟨hx.1, hx.2.1.toExtends⟩

theorem Kept.declare (hI : Kept I) (h : I t) {e : Entry} {name : String} (hd : Declares t t' e name)
    (hs : Suits t e) : Lasts I t t' :=
  ⟨hI.pushed h hd.entries (fun hn => lookup?_cons_isSome hd.names hn) hs, hd.toExtends⟩

theorem Lasts.modifyObject (hl : Lasts I t t') (hI : Kept I) (id : TypeId) {f : ObjectEntry → ObjectEntry}
    (hf : ∀ o, (Entry.object (f o)).core = (Entry.object o).core)
    (hsub : ∀ o, ∀ c ∈ (f o).subclasses, c ∈ o.subclasses ∨ c < t'.size)
    (hivars : ∀ o, (o.ivars.map Prod.fst).Nodup → ((f o).ivars.map Prod.fst).Nodup)
    (htypes : ∀ o, ∀ v ∈ (f o).ivars, v ∈ o.ivars ∨ v.2 < t'.size) :
    Lasts I t ((Table.modifyObject id f).run t').2 :=
  ⟨hI.modifyObject hl.1 id hf hsub hivars htypes, hl.2.trans (SameCores.of_modifyObject t' id hf).toExtends⟩

/-- Setting an instance variable keeps the names, or adds the one that is new. -/
theorem names_setIVar (name : String) (type : TypeId) (ivars : List (String × TypeId)) :
    (ObjectEntry.setIVar.set name type ivars).map Prod.fst =
      if name ∈ ivars.map Prod.fst then ivars.map Prod.fst else ivars.map Prod.fst ++ [name] := by
  induction ivars with
  | nil => simp [ObjectEntry.setIVar.set]
  | cons x rest ih =>
    obtain ⟨n, u⟩ := x
    by_cases hn : n = name
    · simp [ObjectEntry.setIVar.set, hn]
    · simp only [ObjectEntry.setIVar.set, beq_iff_eq, hn, if_false, List.map_cons, ih, List.mem_cons,
        Ne.symm hn, false_or]
      split <;> rfl

/-- Setting an instance variable changes no other. -/
theorem mem_setIVar {name : String} {type : TypeId} {ivars : List (String × TypeId)}
    {v : String × TypeId} (hv : v ∈ ObjectEntry.setIVar.set name type ivars) :
    v ∈ ivars ∨ v.2 = type := by
  induction ivars with
  | nil =>
    rw [ObjectEntry.setIVar.set, List.mem_singleton] at hv
    exact .inr (congrArg Prod.snd hv)
  | cons x rest ih =>
    obtain ⟨n, u⟩ := x
    rw [ObjectEntry.setIVar.set] at hv
    split at hv
    · rcases List.mem_cons.mp hv with rfl | hv
      · exact .inr rfl
      · exact .inl (List.mem_cons_of_mem _ hv)
    · rcases List.mem_cons.mp hv with rfl | hv
      · exact .inl List.mem_cons_self
      · exact (ih hv).imp_left (List.mem_cons_of_mem _)

theorem nodup_setIVar {o : ObjectEntry} (name : String) (type : TypeId)
    (h : (o.ivars.map Prod.fst).Nodup) : ((o.setIVar name type).ivars.map Prod.fst).Nodup := by
  rw [ObjectEntry.setIVar, names_setIVar]
  split
  · exact h
  · rename_i hnew
    refine List.nodup_append.mpr ⟨h, by simp, fun a ha b hb hab => ?_⟩
    rw [hab, List.mem_singleton.mp hb] at ha
    exact hnew ha

/-- **Every operation about types of the table keeps the invariant and takes nothing back.** -/
theorem Operation.lasts (hI : Kept I) (h : I t) {op : Operation} (hop : ∀ id ∈ op.ids, id < t.size) :
    Lasts I t (op.run.run t).2 := by
  have hrefl : Lasts I t t := ⟨h, Extends.refl t⟩
  cases op with
  | definePrimitive name size parent numeric =>
    exact hI.declare (e := .primitive ⟨name, size, parent, numeric⟩) h ⟨rfl, rfl⟩
      (.of_plain (by simp [Entry.IsDerived]) (by simp))
  | defineClass name superclass typeParams =>
    have hd : Declares t ⟨t.entries.push (.object { name, superclass, typeParams }),
        (name, t.size) :: t.names⟩ (.object { name, superclass, typeParams }) name := ⟨rfl, rfl⟩
    -- the new class is then noted below its superclass
    have hsuper : superclass < t.size := hop superclass List.mem_cons_self
    refine (hI.declare h hd (.of_object hsuper rfl rfl rfl rfl rfl)).modifyObject hI superclass
      (fun o => rfl) (fun o c hc => ?_) (fun o hi => hi) fun o v hv => .inl hv
    rcases List.mem_append.mp hc with hc | hc
    · exact .inl hc
    · rw [List.mem_singleton.mp hc]
      exact .inr (lt_size_of_get? ((get?_of_push hd.entries t.size).trans (if_pos rfl)))
  | defineModule name =>
    exact hI.declare (e := .object { name, isModule := true }) h ⟨rfl, rfl⟩
      (.of_object t.size_pos rfl rfl rfl rfl rfl)
  | defineLib name =>
    exact hI.declare (e := .lib name) h ⟨rfl, rfl⟩ (.of_plain (by simp [Entry.IsDerived]) (by simp))
  | defineStruct lib name isUnion members =>
    exact hI.declare (e := .struct ⟨name, lib, isUnion, members⟩) h ⟨rfl, rfl⟩
      (.of_plain (by simp [Entry.IsDerived]) (by simp))
  | defineConst owner name value =>
    exact hI.declare (e := .const name owner value) h ⟨rfl, rfl⟩
      (.of_plain (by simp [Entry.IsDerived]) (by simp))
  | register name id =>
    have hc : SameCores t ⟨t.entries, (name, id) :: t.names⟩ :=
      ⟨fun _ => rfl, fun hn => lookup?_cons_isSome rfl hn⟩
    exact ⟨hI.cores h hc (hI.grounded h).admissible, hc.toExtends⟩
  | «include» id module =>
    refine hrefl.modifyObject hI id (fun o => ?_) (fun o c hc => ?_) (fun o hi => ?_) fun o v hv => ?_
    · split <;> rfl
    · split at hc <;> exact .inl hc
    · split <;> exact hi
    · split at hv <;> exact .inl hv
  | setIVar id name type =>
    refine hrefl.modifyObject hI id (fun o => rfl) (fun o c hc => .inl hc)
      (fun o hi => nodup_setIVar name type hi) fun o v hv => (mem_setIVar hv).imp_right ?_
    rintro rfl
    exact hop v.2 (by simp [ids])
  | addMember id name type =>
    have hget := fun x => core_addMember (t := t) id x name type
    have hc : SameCores t ((Table.addMember id name type).run t).2 := by
      refine ⟨fun x => (hget x).1, fun {n} hn => ?_⟩
      cases id <;> exact hn
    exact ⟨hI.cores h hc fun {x o} ho => (hI.grounded h).admissible (((hget x).2 o).mp ho), hc.toExtends⟩
  | pointerOf id => exact (hI.makes_intern h (e := .pointer id) trivial (by simp) hop).lasts
  | metaclassOf id => exact (hI.makes_intern h (e := .metaclass id) trivial (by simp) hop).lasts
  | hierarchyOf id => exact (hI.makes_intern h (e := .hierarchy id) trivial (by simp) hop).lasts
  | typeVarOf name =>
    exact (hI.makes_intern h (e := .typeVar name) trivial (by simp) (List.forall_mem_nil _)).lasts
  | instantiate template args =>
    exact (hI.makes_instantiate h template fun a ha => hop a (List.mem_cons_of_mem _ ha)).lasts
  | merge ids => exact (hI.makes_merge h hop).lasts
  | unionOf ids => exact (hI.makes_unionOf h hop).lasts
  | restrict id restriction =>
    exact (hI.makes_restrict h (hop id (by simp [ids])) (hop restriction (by simp [ids]))).lasts
  | filterBy id target => exact (hI.makes_filter_members h (hop id (by simp [ids])) _).lasts
  | without id drop => exact (hI.makes_filter_members h (hop id (by simp [ids])) _).lasts

/-- A new object about a type of the table keeps the invariant. -/
theorem Kept.newObject (hI : Kept I) (h : I t) (name : String) {superclass : TypeId}
    (hsuper : superclass < t.size) : Lasts I t ((Table.newObject name superclass).run t).2 :=
  (hI.makes_push h (e := .object { name, superclass }) (.of_object hsuper rfl rfl rfl rfl rfl)
    (by rintro _ ⟨⟩; rfl)).lasts

/-- What operations lead to from a table with the invariant. -/
theorem Reaches.lasts (hr : Reaches t t') (hI : Kept I) (h : I t) : Lasts I t t' := by
  induction hr with
  | refl => exact ⟨h, Extends.refl t⟩
  | step op _ hop ih =>
    obtain ⟨hr, hx⟩ := Operation.lasts hI ih.1 hop
    exact ⟨hr, ih.2.trans hx⟩
  | newObject name superclass _ hsuper ih =>
    obtain ⟨hr, hx⟩ := hI.newObject ih.1 name hsuper
    exact ⟨hr, ih.2.trans hx⟩

theorem regular_initial : Regular initial where
  builtins := Extends.refl _
  union := wellFormed_initial.union
  older he hd c hc := wellFormed_initial.links_lt he c (hd.links_eq ▸ hc)
  interned := wellFormed_initial.interned
  args := wellFormed_initial.args
  instances := wellFormed_initial.instances
  listed := linked_initial.listed
  ivars ho := by
    have hnone : ∀ x ∈ builtinObjects, x.1.ivars = [] := by decide
    rw [hnone _ (mem_builtinObjects.mp ho)]
    exact List.nodup_nil
  superclass ho := by
    have hlt : ∀ x ∈ builtinObjects, x.1.superclass < x.2 := by decide
    exact hlt _ (mem_builtinObjects.mp ho)
  closed id e he := by
    have hlt : ∀ x ∈ initial.entries.toList.zipIdx 1, ∀ c ∈ x.1.compared, c < initial.size := by decide
    exact hlt _ (mem_initial.mp he)

/-! ### Keys -/

/-- A number is written without commas. -/
theorem comma_not_mem_toString (n : Nat) : ',' ∉ (toString n).toList := by
  intro hmem
  rw [Nat.toString_eq_repr, Nat.toList_repr] at hmem
  have hdigit := Nat.isDigit_of_mem_toDigits (by decide) (by decide) hmem
  exact absurd hdigit (by decide)

/-- The key of a list of types determines it. -/
theorem key_injective : Function.Injective key := by
  -- splitting a key at its commas gives the numbers back
  have hsplit : ∀ ids : List TypeId,
      ((key ids).split ',').toList.map (fun x => x.copy) = "0" :: ids.map toString := by
    intro ids
    have hnone : ∀ s ∈ "0" :: ids.map toString, ',' ∉ s.toList := by
      intro s hs
      rcases List.mem_cons.mp hs with rfl | hs
      · decide
      · obtain ⟨id, -, rfl⟩ := List.mem_map.mp hs
        exact comma_not_mem_toString id
    exact (String.toList_split_intercalate hnone).trans (if_neg (List.cons_ne_nil _ _))
  intro ids ids' heq
  have hmaps : ids.map toString = ids'.map toString := by
    have hcons := (hsplit ids).symm.trans (heq ▸ hsplit ids')
    exact (List.cons.inj hcons).2
  refine List.map_injective_iff.mpr (fun m n hmn => ?_) hmaps
  have hdigits : Nat.toDigits 10 m = Nat.toDigits 10 n := by
    rw [← Nat.toList_repr, ← Nat.toList_repr, ← Nat.toString_eq_repr, ← Nat.toString_eq_repr, hmn]
  rw [← Nat.ofDigitChars_ten_toDigits (n := m), hdigits, Nat.ofDigitChars_ten_toDigits]

/-! ### The representation of types -/

/-- **The representation of types.** Whatever operations have led to a table, its unions are flat,
sorted and made of older types, derived types and generic instances are determined by what they are made
of, unions by their keys, and every type stays what it is whatever operations follow. -/
theorem Reaches.representation (h : Reaches initial t) :
    (∀ id ms, t.get? id = some (.union ms) → 2 ≤ ms.length ∧ ms.Pairwise (· < ·) ∧
      ∀ m ∈ ms, m < id ∧ m ≠ Builtin.noReturn ∧ ∃ e, t.get? m = some e ∧ e.kind ≠ .union) ∧
    (∀ a b e, t.get? a = some e → t.get? b = some e → e.IsDerived → a = b) ∧
    (∀ a b ms ns, t.get? a = some (.union ms) → t.get? b = some (.union ns) → key ms = key ns →
      a = b) ∧
    (∀ a b o p, t.get? a = some (.object o) → t.get? b = some (.object p) → o.generic ≠ 0 →
      o.generic = p.generic → o.typeArgs = p.typeArgs → a = b) ∧
    ∀ t', Reaches t t' → ∀ id e, t.get? id = some e →
      ∃ e', t'.get? id = some e' ∧ e'.core = e.core := by
  obtain ⟨hr, -⟩ := h.lasts kept_regular regular_initial
  refine ⟨fun id ms hms => ?_, fun a b e => hr.interned, fun a b ms ns ha hb hkey => ?_,
    fun a b o p ha hb hg hgen hargs => ?_, ?_⟩
  · have hu := hr.union hms
    refine ⟨hu.several, hu.increasing, fun m hm => ⟨hr.older hms trivial m hm, ?_, ?_⟩⟩
    · exact fun heq => hu.absorbed (heq ▸ hm)
    · obtain ⟨e, he⟩ := hu.known m hm
      refine ⟨e, he, fun hkind => ?_⟩
      cases e with
      | union ns => exact hu.flat m hm ns he
      | _ => simp [Entry.kind] at hkind
  · obtain rfl := key_injective hkey
    exact hr.interned ha hb trivial
  · rw [hr.args ha, hr.args hb] at hargs
    exact hr.instances ha hb hg hgen hargs
  · intro t' ht' id e he
    exact (ht'.lasts kept_regular hr).2.core he

/-- A table with two objects of one name. -/
def twins : Table :=
  ((Table.newObject "Twin" Builtin.object).run
    ((Table.newObject "Twin" Builtin.object).run initial).2).2

/-- Structural equality does not tell the twins apart, so joining them keeps the older one; the union
that this gives is the only one with its members. -/
theorem representation_twins :
    twins.equal 14 15 = true ∧
    ((merge [15, 14, Builtin.nil, Builtin.noReturn]).run twins).1 = 16 ∧
    ((merge [15, 14, Builtin.nil, Builtin.noReturn]).run twins).2.get? 16 =
      some (.union [Builtin.nil, 14]) ∧
    ∀ id, ((merge [15, 14, Builtin.nil, Builtin.noReturn]).run twins).2.get? id =
      some (.union [Builtin.nil, 14]) → id = 16 := by
  have hr : Reaches initial
      (((Operation.merge [15, 14, Builtin.nil, Builtin.noReturn]).run).run twins).2 :=
    .step _ (.newObject _ _ (.newObject _ _ .refl (by decide)) (by decide)) (by decide)
  refine ⟨by decide +kernel, by decide +kernel, by decide +kernel, fun id hid => ?_⟩
  exact (Reaches.representation hr).2.1 id 16 _ hid (by decide +kernel) trivial

end TypeFlow.Table
