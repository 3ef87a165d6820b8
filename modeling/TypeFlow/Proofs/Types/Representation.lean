import TypeFlow.Types.Fingerprint

/-!
# The representation invariant of a type table

What holds of every table whose classes and modules were declared under fresh names. Entries point
back: all that an entry is made of was there before it (`WellFormed.links_lt`). Derived types are
interned, so an entry determines its number (`WellFormed.interned`), and so does the template and the
arguments of a generic instance. A class or module is determined by its name.

Two relations between a table and a later one are used throughout.

* `Extends t t'`: nothing was taken back. Every type of `t` is in `t'` with the same *core*, the part
  of an entry that never changes; the subclasses, included modules and instance variables of an
  object, and the members of a foreign structure, may differ.
* `Grown t t'`: only new types were added, and no names. This is all that joining and narrowing
  types ever does to a table. What is declared below a class or included in it is left alone.

The invariant is about cores only, so that it is kept by every change that keeps the cores
(`WellFormed.of_sameCores`). Structural equality compares instance variables too; that it is identity
on these tables is shown in `TypeFlow.Proofs.Types.Identity`.
-/

namespace TypeFlow

/-! ### Cores and links -/

namespace Entry

/-- The part of an entry that never changes. -/
def core : Entry → Entry
  | .object o => .object { o with subclasses := [], includes := [], ivars := [] }
  | .struct s => .struct { s with members := [] }
  | e => e

/-- The types that an entry is made of. A class has no template and a root has no superclass, so zero
may be among them. -/
def links : Entry → List TypeId
  | .primitive p => [p.parent]
  | .object o => o.superclass :: o.generic :: o.madeFor
  | .pointer pointee => [pointee]
  | .union ms => ms
  | .metaclass of => [of]
  | .hierarchy base => [base]
  | .typeVar _ => []
  | .struct s => [s.lib]
  | .const _ owner _ => [owner]
  | .lib _ => []

/-- The types that are looked at if an entry is compared: what it is made of, and the class that an object
is an instance of. -/
def compared : Entry → List TypeId
  | .object o => o.generic :: (Entry.object o).parts
  | e => e.parts

/-- Whether an entry is interned by its whole content. -/
def IsDerived : Entry → Prop
  | .pointer _ | .union _ | .metaclass _ | .hierarchy _ | .typeVar _ => True
  | _ => False

@[simp] theorem core_core (e : Entry) : e.core.core = e.core := by
  cases e <;> rfl

@[simp] theorem links_core (e : Entry) : e.core.links = e.links := by
  cases e <;> rfl

@[simp] theorem kind_core (e : Entry) : e.core.kind = e.kind := by
  cases e <;> rfl

/-- A derived entry is its own core. -/
theorem IsDerived.core_eq {e : Entry} (h : e.IsDerived) : e.core = e := by
  cases e <;> first | rfl | exact h.elim

/-- What an entry is made of is looked at if it is compared. -/
theorem mem_compared_of_mem_parts {e : Entry} {c : TypeId} (hc : c ∈ e.parts) : c ∈ e.compared := by
  cases e <;> first | exact hc | exact List.mem_cons_of_mem _ hc

/-- A derived entry is compared through what it is made of. -/
theorem IsDerived.compared_eq {e : Entry} (h : e.IsDerived) : e.compared = e.parts := by
  cases e <;> first | rfl | exact h.elim

/-- What a derived entry is made of stays. -/
theorem IsDerived.links_eq {e : Entry} (h : e.IsDerived) : e.links = e.parts := by
  cases e <;> first | rfl | exact h.elim

/-- Only a derived entry has a derived core. -/
theorem eq_of_core_eq {e d : Entry} (hd : d.IsDerived) (h : e.core = d) : e = d := by
  cases e with
  | object o => subst h; exact hd.elim
  | struct s => subst h; exact hd.elim
  | _ => exact h

/-- What has the core of an object is an object that agrees with it up to what may change. -/
theorem object_of_core_eq {e : Entry} {o : ObjectEntry} (h : e.core = (Entry.object o).core) :
    ∃ o', e = .object o' ∧ o'.name = o.name ∧ o'.superclass = o.superclass ∧
      o'.isModule = o.isModule ∧ o'.typeParams = o.typeParams ∧ o'.generic = o.generic ∧
      o'.madeFor = o.madeFor ∧ o'.typeArgs = o.typeArgs := by
  cases e with
  | object o' =>
    simp only [core, Entry.object.injEq, ObjectEntry.mk.injEq] at h
    exact ⟨o', rfl, h.1, h.2.1, h.2.2.2.2.1, h.2.2.2.2.2.1, h.2.2.2.2.2.2.1,
      h.2.2.2.2.2.2.2.1, h.2.2.2.2.2.2.2.2.1⟩
  | _ => simp [core] at h

end Entry

namespace Table

variable {t t' t'' : Table}

/-! ### Numbers of types -/

@[simp] theorem get?_zero (t : Table) : t.get? 0 = none := rfl

@[simp] theorem get?_succ (t : Table) (n : Nat) : t.get? (n + 1) = t.entries[n]? := rfl

/-- The types of a table are the numbers from one up to its size. -/
theorem isSome_get?_iff {id : TypeId} : (t.get? id).isSome ↔ 0 < id ∧ id < t.size := by
  cases id with
  | zero => simp
  | succ n => simp [size]

theorem lt_size_of_get? {id : TypeId} {e : Entry} (h : t.get? id = some e) : id < t.size :=
  (isSome_get?_iff.mp (by rw [h]; rfl)).2

theorem pos_of_get? {id : TypeId} {e : Entry} (h : t.get? id = some e) : 0 < id :=
  (isSome_get?_iff.mp (by rw [h]; rfl)).1

theorem exists_get?_of_lt {id : TypeId} (hpos : 0 < id) (hlt : id < t.size) :
    ∃ e, t.get? id = some e :=
  Option.isSome_iff_exists.mp (isSome_get?_iff.mpr ⟨hpos, hlt⟩)

theorem size_pos (t : Table) : 0 < t.size :=
  Nat.succ_pos _

theorem object?_eq_some_iff {id : TypeId} {o : ObjectEntry} :
    t.object? id = some o ↔ t.get? id = some (.object o) := by
  unfold object?
  split
  · rename_i p hp
    simp [hp]
  · rename_i hne
    constructor
    · intro h
      exact absurd h (by simp)
    · intro h
      exact absurd h (hne o)

@[simp] theorem object?_zero (t : Table) : t.object? 0 = none := rfl

/-! ### Later tables -/

/-- Nothing was taken back: every type still has its core, and every name still stands for a type. -/
structure Extends (t t' : Table) : Prop where
  core : ∀ {id : TypeId} {e : Entry}, t.get? id = some e →
    ∃ e', t'.get? id = some e' ∧ e'.core = e.core
  known : ∀ {name : String}, (t.lookup? name).isSome → (t'.lookup? name).isSome

/-- Only new types were added, and nothing was declared below or in them. -/
structure Grown (t t' : Table) : Prop where
  get : ∀ {id : TypeId} {e : Entry}, t.get? id = some e → t'.get? id = some e
  names : t'.names = t.names
  bare : ∀ {id : TypeId} {o : ObjectEntry}, t.size ≤ id → t'.get? id = some (.object o) →
    o.subclasses = [] ∧ o.includes = []

namespace Extends

theorem refl (t : Table) : Extends t t :=
  ⟨fun h => ⟨_, h, rfl⟩, id⟩

theorem trans (h : Extends t t') (h' : Extends t' t'') : Extends t t'' := by
  refine ⟨fun he => ?_, fun hn => h'.known (h.known hn)⟩
  obtain ⟨e', he', hc⟩ := h.core he
  obtain ⟨e'', he'', hc'⟩ := h'.core he'
  exact ⟨e'', he'', hc'.trans hc⟩

theorem size_le (h : Extends t t') : t.size ≤ t'.size := by
  rcases Nat.eq_zero_or_pos t.entries.size with h0 | hpos
  · simp [size, h0]
  · obtain ⟨e, he⟩ := exists_get?_of_lt hpos (Nat.lt_succ_self t.entries.size)
    obtain ⟨e', he', -⟩ := h.core he
    exact lt_size_of_get? he'

theorem lt_size (h : Extends t t') {id : TypeId} (hid : id < t.size) : id < t'.size :=
  Nat.lt_of_lt_of_le hid h.size_le

/-- A derived type stays what it is. -/
theorem get_derived (h : Extends t t') {id : TypeId} {e : Entry} (he : t.get? id = some e)
    (hd : e.IsDerived) : t'.get? id = some e := by
  obtain ⟨e', he', hc⟩ := h.core he
  rw [hd.core_eq] at hc
  rw [he', Entry.eq_of_core_eq hd hc]

end Extends

namespace Grown

theorem lookup?_eq (h : Grown t t') (name : String) : t'.lookup? name = t.lookup? name := by
  rw [lookup?, lookup?, h.names]

/-- To grow is to extend. -/
theorem toExtends (h : Grown t t') : Extends t t' :=
  ⟨fun he => ⟨_, h.get he, rfl⟩, fun hn => by rwa [h.lookup?_eq]⟩

theorem size_le (h : Grown t t') : t.size ≤ t'.size :=
  h.toExtends.size_le

theorem lt_size (h : Grown t t') {id : TypeId} (hid : id < t.size) : id < t'.size :=
  h.toExtends.lt_size hid

/-- A known type reads the same in the larger table. -/
theorem get?_eq (h : Grown t t') {id : TypeId} (hid : id < t.size) : t'.get? id = t.get? id := by
  rcases Nat.eq_zero_or_pos id with rfl | hpos
  · rfl
  · obtain ⟨e, he⟩ := exists_get?_of_lt hpos hid
    rw [he, h.get he]

theorem object?_eq (h : Grown t t') {id : TypeId} (hid : id < t.size) :
    t'.object? id = t.object? id := by
  rw [object?, object?, h.get?_eq hid]

theorem members_eq (h : Grown t t') {id : TypeId} (hid : id < t.size) :
    t'.members id = t.members id := by
  rw [members, members, h.get?_eq hid]

theorem refl (t : Table) : Grown t t :=
  ⟨id, rfl, fun hle he => absurd (lt_size_of_get? he) (Nat.not_lt.mpr hle)⟩

theorem trans (h : Grown t t') (h' : Grown t' t'') : Grown t t'' := by
  refine ⟨fun he => h'.get (h.get he), h'.names.trans h.names, fun {id o} hle he => ?_⟩
  rcases Nat.lt_or_ge id t'.size with hlt | hge
  · exact h.bare hle (h'.get?_eq hlt ▸ he)
  · exact h'.bare hge he

end Grown

/-! ### The invariant -/

/-- Members that may form a union: at least two, in increasing order, each of them known and neither a
union nor the type of what never yields a value. -/
structure IsUnion (t : Table) (ms : List TypeId) : Prop where
  several : 2 ≤ ms.length
  increasing : ms.Pairwise (· < ·)
  known : ∀ m ∈ ms, ∃ e, t.get? m = some e
  flat : ∀ m ∈ ms, ∀ ns, t.get? m ≠ some (.union ns)
  absorbed : Builtin.noReturn ∉ ms

/-- An object that may stand as an instance of a generic class. -/
structure IsInstance (t : Table) (o : ObjectEntry) (g : ObjectEntry) : Prop where
  template : t.get? o.generic = some (.object g)
  generic : g.isTemplate
  name : o.name = g.name
  superclass : o.superclass = g.superclass
  args : o.madeFor.length = g.typeParams.length

/-- **The representation invariant.** -/
structure WellFormed (t : Table) : Prop where
  /-- The built-in types are there. -/
  builtins : Extends initial t
  /-- What an entry is made of was there before. -/
  links_lt : ∀ {id : TypeId} {e : Entry}, t.get? id = some e → ∀ c ∈ e.links, c < id
  /-- A derived type is determined by its entry. -/
  interned : ∀ {a b : TypeId} {e : Entry}, t.get? a = some e → t.get? b = some e → e.IsDerived →
    a = b
  /-- Unions are flat and sorted. -/
  union : ∀ {id : TypeId} {ms : List TypeId}, t.get? id = some (.union ms) → IsUnion t ms
  /-- The current type arguments of an object are those it was made for. -/
  args : ∀ {id : TypeId} {o : ObjectEntry}, t.get? id = some (.object o) → o.typeArgs = o.madeFor
  /-- Only a generic instance has type arguments. -/
  plain : ∀ {id : TypeId} {o : ObjectEntry}, t.get? id = some (.object o) → o.generic = 0 →
    o.madeFor = []
  /-- A class or module is determined by its name. -/
  named : ∀ {a b : TypeId} {o p : ObjectEntry}, t.get? a = some (.object o) →
    t.get? b = some (.object p) → o.generic = 0 → p.generic = 0 → o.name = p.name → a = b
  /-- The name of an object stands for some type. -/
  known : ∀ {id : TypeId} {o : ObjectEntry}, t.get? id = some (.object o) →
    (t.lookup? o.name).isSome
  /-- A generic instance has a template that takes its arguments. -/
  template : ∀ {id : TypeId} {o : ObjectEntry}, t.get? id = some (.object o) → o.generic ≠ 0 →
    ∃ g, IsInstance t o g
  /-- A generic instance is determined by its template and its arguments. -/
  instances : ∀ {a b : TypeId} {o p : ObjectEntry}, t.get? a = some (.object o) →
    t.get? b = some (.object p) → o.generic ≠ 0 → o.generic = p.generic → o.madeFor = p.madeFor →
    a = b
  /-- A superclass is a class. -/
  superclass : ∀ {id : TypeId} {o : ObjectEntry}, t.get? id = some (.object o) → o.superclass ≠ 0 →
    ∃ s, t.get? o.superclass = some (.object s) ∧ s.isModule = false

/-- No class or module has the name. -/
def NewName (t : Table) (name : String) : Prop :=
  ∀ id o, t.get? id = some (.object o) → o.generic = 0 → o.name ≠ name

/-- An unknown name is the name of no class or module. -/
theorem WellFormed.newName_of_lookup? (h : WellFormed t) {name : String}
    (hn : t.lookup? name = none) : t.NewName name := by
  rintro id o ho - rfl
  have hknown := h.known ho
  rw [hn] at hknown
  exact absurd hknown (by simp)

/-- An entry that may be added to a table as it is. -/
structure Admits (t : Table) (e : Entry) : Prop where
  links : ∀ c ∈ e.links, c < t.size
  derived : e.IsDerived → ∀ id, t.get? id ≠ some e
  union : ∀ ms, e = .union ms → IsUnion t ms
  args : ∀ o, e = .object o → o.typeArgs = o.madeFor
  superclass : ∀ o, e = .object o → o.superclass ≠ 0 →
    ∃ s, t.get? o.superclass = some (.object s) ∧ s.isModule = false
  /-- A class or module has no type arguments and a new name. -/
  plain : ∀ o, e = .object o → o.generic = 0 → o.madeFor = [] ∧ t.NewName o.name
  /-- A generic instance has a template, and no other instance of it has the same arguments. -/
  instances : ∀ o, e = .object o → o.generic ≠ 0 → (∃ g, IsInstance t o g) ∧
    ∀ id p, t.get? id = some (.object p) → o.generic = p.generic → o.madeFor ≠ p.madeFor

/-! ### Adding an entry -/

section Push

variable {e : Entry}

theorem get?_of_push (he : t'.entries = t.entries.push e) (id : TypeId) :
    t'.get? id = if id = t.size then some e else t.get? id := by
  match id with
  | 0 => simp [size]
  | n + 1 =>
    simp only [get?_succ, he, size, Nat.add_right_cancel_iff]
    rw [Array.getElem?_push]

/-- A pushed entry is new, or it was there. -/
theorem get?_of_push_cases (he : t'.entries = t.entries.push e) {id : TypeId} {x : Entry}
    (h : t'.get? id = some x) : (id = t.size ∧ x = e) ∨ t.get? id = some x := by
  rw [get?_of_push he] at h
  split at h
  · rename_i hid
    exact .inl ⟨hid, (Option.some.inj h).symm⟩
  · exact .inr h

theorem get?_of_push_old (he : t'.entries = t.entries.push e) {id : TypeId} {x : Entry}
    (h : t.get? id = some x) : t'.get? id = some x := by
  rw [get?_of_push he, if_neg (Nat.ne_of_lt (lt_size_of_get? h)), h]

theorem Extends.of_push (he : t'.entries = t.entries.push e)
    (hn : ∀ {name : String}, (t.lookup? name).isSome → (t'.lookup? name).isSome) : Extends t t' :=
  ⟨fun h => ⟨_, get?_of_push_old he h, rfl⟩, hn⟩

theorem IsUnion.of_push (he : t'.entries = t.entries.push e) {ms : List TypeId}
    (h : IsUnion t ms) : IsUnion t' ms := by
  refine ⟨h.several, h.increasing, fun m hm => ?_, fun m hm ns hns => ?_, h.absorbed⟩
  · obtain ⟨x, hx⟩ := h.known m hm
    exact ⟨x, get?_of_push_old he hx⟩
  · obtain ⟨x, hx⟩ := h.known m hm
    have hx' := get?_of_push_old he hx
    rw [hns, ← hx] at hx'
    exact h.flat m hm ns hx'.symm

theorem IsInstance.of_push (he : t'.entries = t.entries.push e) {o g : ObjectEntry}
    (h : IsInstance t o g) : IsInstance t' o g :=
  ⟨get?_of_push_old he h.template, h.generic, h.name, h.superclass, h.args⟩

/-- **Adding an admitted entry keeps the invariant**, provided no name is lost and the name of an
object gets known. -/
theorem WellFormed.of_push (h : WellFormed t) (he : t'.entries = t.entries.push e)
    (hn : ∀ {name : String}, (t.lookup? name).isSome → (t'.lookup? name).isSome)
    (ho : ∀ o, e = .object o → (t'.lookup? o.name).isSome) (ha : Admits t e) : WellFormed t' where
  builtins := h.builtins.trans (Extends.of_push he hn)
  links_lt {id x} hx c hc := by
    rcases get?_of_push_cases he hx with ⟨rfl, rfl⟩ | hx
    · exact ha.links c hc
    · exact h.links_lt hx c hc
  interned {a b x} hax hbx hd := by
    rcases get?_of_push_cases he hax with ⟨rfl, rfl⟩ | hax
    · rcases get?_of_push_cases he hbx with ⟨rfl, -⟩ | hbx
      · rfl
      · exact absurd hbx (ha.derived hd b)
    · rcases get?_of_push_cases he hbx with ⟨rfl, rfl⟩ | hbx
      · exact absurd hax (ha.derived hd a)
      · exact h.interned hax hbx hd
  union {id ms} hms := by
    rcases get?_of_push_cases he hms with ⟨-, hx⟩ | hms
    · exact (ha.union ms hx.symm).of_push he
    · exact (h.union hms).of_push he
  args {id o} hid := by
    rcases get?_of_push_cases he hid with ⟨-, hx⟩ | hid
    · exact ha.args o hx.symm
    · exact h.args hid
  plain {id o} hid hg := by
    rcases get?_of_push_cases he hid with ⟨-, hx⟩ | hid
    · exact (ha.plain o hx.symm hg).1
    · exact h.plain hid hg
  named {a b o p} hao hbp hog hpg hname := by
    rcases get?_of_push_cases he hao with ⟨rfl, hx⟩ | hao
    · rcases get?_of_push_cases he hbp with ⟨rfl, -⟩ | hbp
      · rfl
      · exact absurd hname.symm ((ha.plain o hx.symm hog).2 b p hbp hpg)
    · rcases get?_of_push_cases he hbp with ⟨rfl, hx⟩ | hbp
      · exact absurd hname ((ha.plain p hx.symm hpg).2 a o hao hog)
      · exact h.named hao hbp hog hpg hname
  known {id o} hid := by
    rcases get?_of_push_cases he hid with ⟨-, hx⟩ | hid
    · exact ho o hx.symm
    · exact hn (h.known hid)
  template {id o} hid hg := by
    rcases get?_of_push_cases he hid with ⟨-, hx⟩ | hid
    · obtain ⟨g, hi⟩ := (ha.instances o hx.symm hg).1
      exact ⟨g, hi.of_push he⟩
    · obtain ⟨g, hi⟩ := h.template hid hg
      exact ⟨g, hi.of_push he⟩
  instances {a b o p} hao hbp hog hgen hmade := by
    rcases get?_of_push_cases he hao with ⟨rfl, hx⟩ | hao
    · rcases get?_of_push_cases he hbp with ⟨rfl, -⟩ | hbp
      · rfl
      · exact absurd hmade ((ha.instances o hx.symm hog).2 b p hbp hgen)
    · rcases get?_of_push_cases he hbp with ⟨rfl, hx⟩ | hbp
      · exact absurd hmade.symm ((ha.instances p hx.symm (hgen ▸ hog)).2 a o hao hgen.symm)
      · exact h.instances hao hbp hog hgen hmade
  superclass {id o} hid hs := by
    rcases get?_of_push_cases he hid with ⟨-, hx⟩ | hid
    · obtain ⟨s, hs, hm⟩ := ha.superclass o hx.symm hs
      exact ⟨s, get?_of_push_old he hs, hm⟩
    · obtain ⟨s, hs, hm⟩ := h.superclass hid hs
      exact ⟨s, get?_of_push_old he hs, hm⟩

end Push

/-! ### Changing what may change -/

/-- Two tables with the same cores: they differ at most in the parts of entries that may change and
in additional names. -/
structure SameCores (t t' : Table) : Prop where
  core : ∀ id, (t'.get? id).map Entry.core = (t.get? id).map Entry.core
  known : ∀ {name : String}, (t.lookup? name).isSome → (t'.lookup? name).isSome

namespace SameCores

theorem toExtends (h : SameCores t t') : Extends t t' := by
  refine ⟨fun {id e} he => ?_, h.known⟩
  have hc := h.core id
  rw [he, Option.map_some, Option.map_eq_some_iff] at hc
  exact hc

theorem old (h : SameCores t t') {id : TypeId} {e : Entry} (he : t'.get? id = some e) :
    ∃ x, t.get? id = some x ∧ x.core = e.core := by
  have hc := h.core id
  rw [he, Option.map_some, eq_comm, Option.map_eq_some_iff] at hc
  exact hc

theorem old_derived (h : SameCores t t') {id : TypeId} {e : Entry} (he : t'.get? id = some e)
    (hd : e.IsDerived) : t.get? id = some e := by
  obtain ⟨x, hx, hc⟩ := h.old he
  rw [hd.core_eq] at hc
  rw [hx, Entry.eq_of_core_eq hd hc]

/-- An object of the later table was one before, with the same core. -/
theorem old_object (h : SameCores t t') {id : TypeId} {o : ObjectEntry}
    (ho : t'.get? id = some (.object o)) :
    ∃ o', t.get? id = some (.object o') ∧ o'.name = o.name ∧ o'.superclass = o.superclass ∧
      o'.isModule = o.isModule ∧ o'.typeParams = o.typeParams ∧ o'.generic = o.generic ∧
      o'.madeFor = o.madeFor ∧ o'.typeArgs = o.typeArgs := by
  obtain ⟨x, hx, hc⟩ := h.old ho
  obtain ⟨o', rfl, hrest⟩ := Entry.object_of_core_eq hc
  exact ⟨o', hx, hrest⟩

end SameCores

/-- What has the core of an object of `t` is an object of every later table. -/
theorem Extends.object (h : Extends t t') {id : TypeId} {o : ObjectEntry}
    (ho : t.get? id = some (.object o)) :
    ∃ o', t'.get? id = some (.object o') ∧ o'.name = o.name ∧ o'.superclass = o.superclass ∧
      o'.isModule = o.isModule ∧ o'.typeParams = o.typeParams ∧ o'.generic = o.generic ∧
      o'.madeFor = o.madeFor ∧ o'.typeArgs = o.typeArgs := by
  obtain ⟨x, hx, hc⟩ := h.core ho
  obtain ⟨o', rfl, hrest⟩ := Entry.object_of_core_eq hc
  exact ⟨o', hx, hrest⟩

theorem IsInstance.of_extends (h : Extends t t') {o o' g : ObjectEntry} (hi : IsInstance t o g)
    (hname : o.name = o'.name) (hsuper : o.superclass = o'.superclass)
    (hgen : o.generic = o'.generic) (hmade : o.madeFor = o'.madeFor) : ∃ g', IsInstance t' o' g' := by
  obtain ⟨g', hg', hn, hs, -, hp, hg, -, -⟩ := h.object hi.template
  refine ⟨g', hgen ▸ hg', ?_, ?_, ?_, ?_⟩
  · rw [ObjectEntry.isTemplate, hp, hg]
    exact hi.generic
  · rw [← hname, hi.name, hn]
  · rw [← hsuper, hi.superclass, hs]
  · rw [← hmade, hi.args, hp]

/-- **A change that keeps the cores keeps the invariant.** -/
theorem WellFormed.of_sameCores (h : WellFormed t) (hc : SameCores t t') : WellFormed t' where
  builtins := h.builtins.trans hc.toExtends
  links_lt {id e} he c hlink := by
    obtain ⟨x, hx, hxe⟩ := hc.old he
    rw [← Entry.links_core e, ← hxe, Entry.links_core] at hlink
    exact h.links_lt hx c hlink
  interned {a b e} ha hb hd := h.interned (hc.old_derived ha hd) (hc.old_derived hb hd) hd
  union {id ms} hms := by
    have hu := h.union (hc.old_derived hms trivial)
    refine ⟨hu.several, hu.increasing, fun m hm => ?_, fun m hm ns hns => ?_, hu.absorbed⟩
    · obtain ⟨e, he⟩ := hu.known m hm
      obtain ⟨e', he', -⟩ := hc.toExtends.core he
      exact ⟨e', he'⟩
    · exact hu.flat m hm ns (hc.old_derived hns trivial)
  args {id o} ho := by
    obtain ⟨o', ho', -, -, -, -, -, hm, ha⟩ := hc.old_object ho
    rw [← ha, ← hm]
    exact h.args ho'
  plain {id o} ho hg := by
    obtain ⟨o', ho', -, -, -, -, hgen, hm, -⟩ := hc.old_object ho
    rw [← hm]
    exact h.plain ho' (hgen.trans hg)
  named {a b o p} hao hbp hog hpg hname := by
    obtain ⟨o', ho', hon, -, -, -, hogen, -, -⟩ := hc.old_object hao
    obtain ⟨p', hp', hpn, -, -, -, hpgen, -, -⟩ := hc.old_object hbp
    exact h.named ho' hp' (hogen.trans hog) (hpgen.trans hpg) (hon.trans (hname.trans hpn.symm))
  known {id o} ho := by
    obtain ⟨o', ho', hn, -⟩ := hc.old_object ho
    rw [← hn]
    exact hc.known (h.known ho')
  template {id o} ho hg := by
    obtain ⟨o', ho', hn, hs, -, -, hgen, hm, -⟩ := hc.old_object ho
    obtain ⟨g, hi⟩ := h.template ho' (hgen ▸ hg)
    exact hi.of_extends hc.toExtends hn hs hgen hm
  instances {a b o p} hao hbp hog hgen hmade := by
    obtain ⟨o', ho', -, -, -, -, hogen, hom, -⟩ := hc.old_object hao
    obtain ⟨p', hp', -, -, -, -, hpgen, hpm, -⟩ := hc.old_object hbp
    exact h.instances ho' hp' (hogen ▸ hog) (hogen.trans (hgen.trans hpgen.symm))
      (hom.trans (hmade.trans hpm.symm))
  superclass {id o} ho hs := by
    obtain ⟨o', ho', -, hsuper, -⟩ := hc.old_object ho
    obtain ⟨s, hs', hm⟩ := h.superclass ho' (hsuper ▸ hs)
    obtain ⟨s', hs'', -, -, hmod, -⟩ := hc.toExtends.object hs'
    exact ⟨s', hsuper ▸ hs'', hmod.trans hm⟩

end Table

end TypeFlow
