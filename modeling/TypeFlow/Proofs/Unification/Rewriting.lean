import TypeFlow.Proofs.Types.Equivalence
import TypeFlow.Proofs.Types.Naming

/-!
# Tables rewritten in place

Unification changes a table in two ways only. It replaces the type arguments and the types of the instance
variables of objects, and it adds derived types (`Table.Rewrites`). Names, sorts and the numbers of
components stay, and so does the fingerprint of every type whose own entry stays (`Rewrites.fingerprint_eq`):
a fingerprint looks one step ahead, and all it sees there are names and sorts.

There is one exception. The name of a constant or a foreign structure is qualified by the name of the type
it is declared in, and that may mention type arguments. `Table.Qualified` excludes it.
-/

namespace TypeFlow

/-- The second object differs from the first at most in its type arguments and in the types of its instance
variables. -/
structure ObjectEntry.SameShape (o o' : ObjectEntry) : Prop where
  rest : { o' with typeArgs := o.typeArgs, ivars := o.ivars } = o
  args : o'.typeArgs.length = o.typeArgs.length
  names : o'.ivars.map Prod.fst = o.ivars.map Prod.fst

namespace ObjectEntry.SameShape

variable {o o' o'' : ObjectEntry}

theorem refl (o : ObjectEntry) : SameShape o o :=
  ⟨rfl, rfl, rfl⟩

theorem trans (h : SameShape o o') (h' : SameShape o' o'') : SameShape o o'' := by
  refine ⟨?_, h'.args.trans h.args, h'.names.trans h.names⟩
  have hrest := congrArg (fun x : ObjectEntry => { x with typeArgs := o.typeArgs, ivars := o.ivars }) h'.rest
  exact hrest.trans h.rest

theorem name (h : SameShape o o') : o'.name = o.name := by
  have hname := congrArg ObjectEntry.name h.rest
  exact hname

theorem generic (h : SameShape o o') : o'.generic = o.generic := by
  have hgeneric := congrArg ObjectEntry.generic h.rest
  exact hgeneric

theorem typeArgs_eq_nil (h : SameShape o o') (ho : o.typeArgs = []) : o'.typeArgs = [] :=
  List.eq_nil_of_length_eq_zero (by rw [h.args, ho, List.length_nil])

end ObjectEntry.SameShape

/-- The second object is the first with components exchanged for others that `P` relates them to. -/
structure ObjectEntry.Exchanges (P : TypeId → TypeId → Prop) (o o' : ObjectEntry) : Prop where
  rest : { o' with typeArgs := o.typeArgs, ivars := o.ivars } = o
  args : List.Forall₂ P o.typeArgs o'.typeArgs
  ivars : List.Forall₂ (fun v v' => v.1 = v'.1 ∧ P v.2 v'.2) o.ivars o'.ivars

namespace ObjectEntry.Exchanges

variable {P : TypeId → TypeId → Prop} {o o' : ObjectEntry}

theorem sameShape (h : Exchanges P o o') : SameShape o o' := by
  refine ⟨h.rest, h.args.length_eq.symm, ?_⟩
  have hivars := h.ivars
  generalize o.ivars = vs, o'.ivars = vs' at hivars ⊢
  induction hivars with
  | nil => rfl
  | cons hv _ ih => rw [List.map_cons, List.map_cons, hv.1, ih]

theorem imp {S : TypeId → TypeId → Prop} (h : Exchanges P o o') (hPS : ∀ a c, P a c → S a c) : Exchanges S o o' :=
  ⟨h.rest, h.args.imp hPS, h.ivars.imp fun _ _ => And.imp_right (hPS _ _)⟩

/-- What an object is made of after the exchange stands for something it was made of before. -/
theorem exists_of_mem_parts (h : Exchanges P o o') {c : TypeId} (hc : c ∈ (Entry.object o').parts) :
    ∃ a ∈ (Entry.object o).parts, P a c := by
  rcases List.mem_append.mp hc with hc | hc
  · obtain ⟨a, ha, hac⟩ := exists_of_mem_right h.args hc
    exact ⟨a, List.mem_append_left _ ha, hac⟩
  · obtain ⟨v', hv', rfl⟩ := List.mem_map.mp hc
    obtain ⟨v, hv, -, hvv'⟩ := exists_of_mem_right h.ivars hv'
    exact ⟨v.2, List.mem_append_right _ (List.mem_map.mpr ⟨v, hv, rfl⟩), hvv'⟩

end ObjectEntry.Exchanges

namespace Table

variable {t t' t'' : Table} {id : TypeId}

/-! ### Rewriting -/

/-- Components of objects were replaced, and derived types were added. -/
structure Rewrites (t t' : Table) : Prop where
  entry : ∀ {id : TypeId} {e : Entry}, t.get? id = some e → (∀ o, e ≠ .object o) → t'.get? id = some e
  object : ∀ {id : TypeId} {o : ObjectEntry}, t.get? id = some (.object o) →
    ∃ o', t'.get? id = some (.object o') ∧ o.SameShape o'
  fresh : ∀ {id : TypeId} {e : Entry}, t.size ≤ id → t'.get? id = some e → e.IsDerived

namespace Rewrites

theorem refl (t : Table) : Rewrites t t :=
  ⟨fun he _ => he, fun ho => ⟨_, ho, .refl _⟩, fun hle he =>
    absurd (lt_size_of_get? he) (Nat.not_lt.mpr hle)⟩

theorem exists_get? (h : Rewrites t t') {e : Entry} (he : t.get? id = some e) :
    ∃ e', t'.get? id = some e' := by
  by_cases ho : ∃ o, e = .object o
  · obtain ⟨o, rfl⟩ := ho
    obtain ⟨o', ho', -⟩ := h.object he
    exact ⟨_, ho'⟩
  · exact ⟨e, h.entry he (not_exists.mp ho)⟩

theorem lt_size (h : Rewrites t t') (hid : id < t.size) : id < t'.size := by
  rcases Nat.eq_zero_or_pos id with rfl | hpos
  · exact t'.size_pos
  · obtain ⟨e, he⟩ := exists_get?_of_lt hpos hid
    obtain ⟨e', he'⟩ := h.exists_get? he
    exact lt_size_of_get? he'

theorem size_le (h : Rewrites t t') : t.size ≤ t'.size := by
  have hlast : t.entries.size < t'.size := h.lt_size (Nat.lt_succ_self _)
  exact hlast

/-- What is no object now was none before. -/
theorem old (h : Rewrites t t') (hid : id < t.size) {e : Entry} (he : t'.get? id = some e)
    (ho : ∀ o, e ≠ .object o) : t.get? id = some e := by
  obtain ⟨x, hx⟩ := exists_get?_of_lt (pos_of_get? he) hid
  by_cases hobj : ∃ o, x = .object o
  · obtain ⟨o, rfl⟩ := hobj
    obtain ⟨o', ho', -⟩ := h.object hx
    exact absurd (Option.some.inj (he.symm.trans ho')) (ho o')
  · have hsame := h.entry hx (not_exists.mp hobj)
    rwa [← he, hsame]

/-- What is an object now was one of the same shape before. -/
theorem old_object (h : Rewrites t t') (hid : id < t.size) {o' : ObjectEntry}
    (ho' : t'.get? id = some (.object o')) : ∃ o, t.get? id = some (.object o) ∧ o.SameShape o' := by
  obtain ⟨x, hx⟩ := exists_get?_of_lt (pos_of_get? ho') hid
  by_cases hobj : ∃ o, x = .object o
  · obtain ⟨o, rfl⟩ := hobj
    obtain ⟨o'', ho'', hshape⟩ := h.object hx
    obtain rfl := Entry.object.inj (Option.some.inj (ho''.symm.trans ho'))
    exact ⟨o, hx, hshape⟩
  · have hsame := h.entry hx (not_exists.mp hobj)
    exact absurd (Option.some.inj (hsame.symm.trans ho')) (not_exists.mp hobj o')

theorem trans (h : Rewrites t t') (h' : Rewrites t' t'') : Rewrites t t'' := by
  refine ⟨fun he ho => h'.entry (h.entry he ho) ho, fun ho => ?_, fun {id e} hle he => ?_⟩
  · obtain ⟨o', ho', hshape⟩ := h.object ho
    obtain ⟨o'', ho'', hshape'⟩ := h'.object ho'
    exact ⟨o'', ho'', hshape.trans hshape'⟩
  · rcases Nat.lt_or_ge id t'.size with hlt | hge
    · obtain ⟨x, hx⟩ := exists_get?_of_lt (pos_of_get? he) hlt
      have hd := h.fresh hle hx
      have hsame := h'.entry hx (by rintro o rfl; exact hd)
      rwa [← Option.some.inj (hsame.symm.trans he)]
    · exact h'.fresh hge he

/-- A table stays tidy if no type is added. -/
theorem tidy (h : Rewrites t t') (ht : Tidy t) (hsize : t'.size = t.size) : Tidy t' := by
  have hlt : ∀ {id : TypeId} {e : Entry}, t'.get? id = some e → id < t.size :=
    fun he => hsize ▸ lt_size_of_get? he
  refine ⟨fun {id ms} hms => ?_, fun {a b e} ha hb hd => ?_, fun {id o} ho => ?_⟩
  · have hu := ht.union (h.old (hlt hms) hms nofun)
    refine ⟨hu.several, hu.increasing, fun m hm => ?_, fun m hm ns hns => ?_, hu.absorbed⟩
    · obtain ⟨e, he⟩ := hu.known m hm
      exact h.exists_get? he
    · exact hu.flat m hm ns (h.old (hlt hns) hns nofun)
  · have hobj : ∀ o, e ≠ .object o := by
      rintro o rfl
      exact hd
    exact ht.interned (h.old (hlt ha) ha hobj) (h.old (hlt hb) hb hobj) hd
  · obtain ⟨p, hp, hshape⟩ := h.old_object (hlt ho) ho
    rw [hshape.names]
    exact ht.ivars hp

end Rewrites

/-- A change of an object that keeps its shape. -/
theorem rewrites_modifyObject {f : ObjectEntry → ObjectEntry}
    (hf : ∀ o, t.get? id = some (.object o) → o.SameShape (f o)) :
    Rewrites t ((modifyObject id f).run t).2 := by
  refine ⟨fun {x e} he ho => ?_, fun {x o} ho => ?_, fun {x e} hle he => ?_⟩
  · rw [get?_modifyObject]
    split
    · rw [he, Option.map_some]
      cases e with
      | object o => exact absurd rfl (ho o)
      | _ => rfl
    · exact he
  · rw [get?_modifyObject]
    split
    · rename_i hx
      subst hx
      exact ⟨f o, by rw [ho]; rfl, hf o ho⟩
    · exact ⟨o, ho, .refl o⟩
  · rw [get?_modifyObject] at he
    have hnone : t.get? x = none := by
      by_contra hsome
      obtain ⟨y, hy⟩ := Option.ne_none_iff_exists'.mp hsome
      exact absurd (lt_size_of_get? hy) (Nat.not_lt.mpr hle)
    rw [hnone, Option.map_none, ite_self] at he
    exact absurd he nofun

theorem size_modifyObject (t : Table) (id : TypeId) (f : ObjectEntry → ObjectEntry) :
    ((modifyObject id f).run t).2.size = t.size := by
  cases id with
  | zero => rfl
  | succ n =>
    refine congrArg (· + 1) ?_
    exact Array.size_modify

/-- A table stays closed if what is put into an object is known. -/
theorem Contained.modifyObject (h : Contained t) {f : ObjectEntry → ObjectEntry}
    (hf : ∀ o, t.get? id = some (.object o) → ∀ c ∈ (Entry.object (f o)).compared, c < t.size) :
    Contained ((modifyObject id f).run t).2 := by
  intro x e he c hc
  rw [size_modifyObject]
  rw [get?_modifyObject] at he
  split at he
  · rename_i hx
    subst hx
    obtain ⟨y, hy, rfl⟩ := Option.map_eq_some_iff.mp he
    cases y with
    | object o => exact hf o hy c hc
    | _ => exact h x _ hy c hc
  · exact h x e he c hc

/-! ### Added types -/

/-- Derived types were added. -/
structure Enlarges (t t' : Table) : Prop where
  get : ∀ {id : TypeId} {e : Entry}, t.get? id = some e → t'.get? id = some e
  fresh : ∀ {id : TypeId} {e : Entry}, t.size ≤ id → t'.get? id = some e → e.IsDerived

namespace Enlarges

theorem refl (t : Table) : Enlarges t t :=
  ⟨fun he => he, (Rewrites.refl t).fresh⟩

theorem rewrites (h : Enlarges t t') : Rewrites t t' :=
  ⟨fun he _ => h.get he, fun ho => ⟨_, h.get ho, .refl _⟩, h.fresh⟩

theorem get?_eq (h : Enlarges t t') (hid : id < t.size) : t'.get? id = t.get? id := by
  rcases Nat.eq_zero_or_pos id with rfl | hpos
  · rfl
  · obtain ⟨e, he⟩ := exists_get?_of_lt hpos hid
    rw [he, h.get he]

/-- Types that were there are equal as before. -/
theorem equal_eq (h : Enlarges t t') (hc : Contained t) {a b : TypeId} (ha : a < t.size)
    (hb : b < t.size) : t'.equal a b = t.equal a b := by
  rw [Bool.eq_iff_iff, equal_iff_similar, equal_iff_similar]
  constructor
  · intro hab
    refine ⟨fun a b => t'.Similar a b ∧ a < t.size ∧ b < t.size, ?_, hab, ha, hb⟩
    rintro a b ⟨hab, ha, hb⟩
    rcases t'.simulation_similar a b hab with rfl | ⟨x, y, hx, hy, hm⟩
    · exact .inl rfl
    · rw [h.get?_eq ha] at hx
      rw [h.get?_eq hb] at hy
      have hx' := hc a x hx
      have hy' := hc b y hy
      refine .inr ⟨x, y, hx, hy, hm.imp (fun c hcx d hdy hcd => ⟨hcd, ?_, ?_⟩) ?_⟩
      · exact hx' c (Entry.mem_compared_of_mem_parts hcx)
      · exact hy' d (Entry.mem_compared_of_mem_parts hdy)
      · rintro o p rfl rfl hgen
        exact .inr ⟨hgen, hx' _ List.mem_cons_self, hy' _ List.mem_cons_self⟩
  · intro hab
    refine ⟨t.Similar, fun a b hab => ?_, hab⟩
    rcases t.simulation_similar a b hab with rfl | ⟨x, y, hx, hy, hm⟩
    · exact .inl rfl
    · exact .inr ⟨x, y, h.get hx, h.get hy, hm⟩

end Enlarges

/-- Interning gives the type with the wanted entry, and adds at most that one. -/
theorem Tidy.enlarges_intern (h : Tidy t) (hc : Contained t) {e : Entry} (hd : e.IsDerived)
    (hu : ∀ ms, e = .union ms → IsUnion t ms) (hl : ∀ c ∈ e.compared, c < t.size) :
    ∃ id t', (intern e).run t = (id, t') ∧ Enlarges t t' ∧ Tidy t' ∧ Contained t' ∧
      t'.get? id = some e := by
  cases hfind : t.find? e with
  | some id => exact ⟨id, t, run_intern_of_some hfind, .refl t, h, hc, get?_of_find? hfind⟩
  | none =>
    rw [run_intern_of_none hfind]
    have he : ((push e).run t).2.entries = t.entries.push e := rfl
    have hle : t.size ≤ ((push e).run t).2.size := (Extends.of_push he fun hn => hn).size_le
    refine ⟨_, _, rfl, ⟨fun hx => get?_of_push_old he hx, fun {x y} hx hy => ?_⟩, ?_, ?_, ?_⟩
    · rcases get?_of_push_cases he hy with ⟨-, rfl⟩ | hy
      · exact hd
      · exact absurd (lt_size_of_get? hy) (Nat.not_lt.mpr hx)
    · refine h.of_push he (fun _ => get?_ne_of_find? hfind) hu ?_
      rintro o rfl
      exact hd.elim
    · intro x y hy c hcy
      rcases get?_of_push_cases he hy with ⟨-, rfl⟩ | hy
      · exact Nat.lt_of_lt_of_le (hl c hcy) hle
      · exact Nat.lt_of_lt_of_le (hc x y hy c hcy) hle
    · exact (get?_of_push he t.size).trans (if_pos rfl)

/-- The union of several types has their flattened members for members, or is the only one, or no type; and no
type is added but the union. -/
theorem Tidy.enlarges_unionOf (h : Tidy t) (hc : Contained t) {ids : List TypeId} (hids : ∀ id ∈ ids, id < t.size) :
    ∃ id t', (unionOf ids).run t = (id, t') ∧ Enlarges t t' ∧ Tidy t' ∧ Contained t' ∧
      ((t.flatten ids = [] ∧ id = 0) ∨ t.flatten ids = [id] ∨ t'.get? id = some (.union (t.flatten ids))) := by
  have hrun : (Table.unionOf ids).run t = (internUnion (t.flatten ids)).run t := rfl
  rw [hrun]
  have hj := h.joinable_flatten hids
  generalize t.flatten ids = ms at hj ⊢
  match ms, hj with
  | [], _ => exact ⟨0, t, rfl, .refl t, h, hc, .inl ⟨rfl, rfl⟩⟩
  | [m], _ => exact ⟨m, t, rfl, .refl t, h, hc, .inr (.inl rfl)⟩
  | m :: n :: ms, hj =>
    have hu : IsUnion t (m :: n :: ms) := by
      refine ⟨by simp, hj.increasing, fun x hx => ?_, hj.flat, fun hmem => ?_⟩
      · exact exists_get?_of_lt (hj.known x hx).1 (hj.known x hx).2
      · exact absurd (hj.absorbed hmem) (by simp)
    obtain ⟨id, t', hrun, hlarge, ht', hc', hid⟩ := h.enlarges_intern hc (e := .union (m :: n :: ms)) trivial
      (by rintro _ ⟨⟩; exact hu) fun x hx => (hj.known x hx).2
    exact ⟨id, t', hrun, hlarge, ht', hc', .inr (.inr hid)⟩

/-! ### Names and fingerprints -/

/-- A type whose name mentions no type arguments: no type, a library, or a class or module that has none. -/
def Bare (t : Table) (id : TypeId) : Prop :=
  id = 0 ∨ (∃ name, t.get? id = some (.lib name)) ∨ ∃ o, t.get? id = some (.object o) ∧ o.typeArgs = []

/-- Constants and foreign structures are declared in types whose names mention no type arguments. -/
structure Qualified (t : Table) : Prop where
  struct : ∀ {id : TypeId} {s : StructEntry}, t.get? id = some (.struct s) → t.Bare s.lib
  const : ∀ {id : TypeId} {name : String} {owner : TypeId} {value : Nat},
    t.get? id = some (.const name owner value) → t.Bare owner

/-- The name of a type without type arguments ends at once. -/
theorem Bare.isSome_nameUpTo (hb : t.Bare id) (fuel : Nat) : (t.nameUpTo (fuel + 1) id).isSome := by
  rcases hb with rfl | ⟨name, hn⟩ | ⟨o, ho, hargs⟩
  · exact isSome_nameUpTo_of_none rfl
  · exact (isSome_nameUpTo_succ hn).mpr (List.forall_mem_nil _)
  · refine (isSome_nameUpTo_succ ho).mpr ?_
    rw [Entry.mentioned, hargs]
    exact List.forall_mem_nil _

/-- What an entry whose name is shown mentions has a name without type arguments. -/
theorem Qualified.bare (hq : Qualified t) {e : Entry} (he : t.get? id = some e) (hshown : ∀ o, e ≠ .object o)
    (hd : ¬ e.IsDerived) : ∀ c ∈ e.mentioned, t.Bare c := by
  intro c hc
  cases e with
  | object o => exact absurd rfl (hshown o)
  | struct s =>
    obtain rfl := List.mem_singleton.mp hc
    exact hq.struct he
  | const name owner value =>
    rw [Entry.mentioned] at hc
    split at hc
    · cases hc
    · obtain rfl := List.mem_singleton.mp hc
      exact hq.const he
  | primitive _ | typeVar _ | lib _ => cases hc
  | _ => exact absurd trivial hd

/-- All names that a fingerprint shows end. -/
theorem Qualified.fingerprint?_eq (hq : Qualified t) (id : TypeId) : t.fingerprint? id = some (t.fingerprint id) := by
  have hshows : ∀ c, t.shows c = true := by
    intro c
    have hends : ∀ e, t.get? c = some e → (∀ o, e ≠ .object o) → ¬ e.IsDerived → (t.name? c).isSome := by
      intro e he ho hd
      have hbare := hq.bare he ho hd
      have hname : (t.nameUpTo 2 c).isSome :=
        (isSome_nameUpTo_succ he).mpr fun c hc => (hbare c hc).isSome_nameUpTo 0
      obtain ⟨s, hs⟩ := Option.isSome_iff_exists.mp hname
      rw [name_eq_of_nameUpTo hs]
      rfl
    unfold shows
    split
    · rename_i s hs
      exact hends _ hs nofun nofun
    · rename_i name owner value hc
      exact hends _ hc nofun nofun
    · rfl
  rw [fingerprint?, if_pos (List.all_eq_true.mpr fun c _ => hshows c)]

/-- There is no end to what a type shows. -/
def Endless (t : Table) : Prop :=
  ∃ id, t.fingerprint? id = none

theorem eq_of_fingerprint? {f : Fingerprint} (h : t.fingerprint? id = some f) : f = t.fingerprint id := by
  unfold fingerprint? at h
  simp only at h
  split at h
  · exact (Option.some.inj h).symm
  · cases h

theorem Qualified.not_endless (hq : Qualified t) : ¬ t.Endless := fun ⟨id, hid⟩ =>
  Option.some_ne_none _ ((hq.fingerprint?_eq id).symm.trans hid)

namespace Rewrites

theorem bare (h : Rewrites t t') (hb : t.Bare id) : t'.Bare id := by
  rcases hb with hb | ⟨name, hn⟩ | ⟨o, ho, hargs⟩
  · exact .inl hb
  · exact .inr (.inl ⟨name, h.entry hn nofun⟩)
  · obtain ⟨o', ho', hshape⟩ := h.object ho
    exact .inr (.inr ⟨o', ho', hshape.typeArgs_eq_nil hargs⟩)

theorem qualified (h : Rewrites t t') (hq : Qualified t) : Qualified t' := by
  have hold : ∀ {id : TypeId} {e : Entry}, t'.get? id = some e → ¬ e.IsDerived →
      (∀ o, e ≠ .object o) → t.get? id = some e := by
    intro id e he hd ho
    rcases Nat.lt_or_ge id t.size with hlt | hge
    · exact h.old hlt he ho
    · exact absurd (h.fresh hge he) hd
  exact ⟨fun hs => h.bare (hq.struct (hold hs id nofun)), fun hc => h.bare (hq.const (hold hc id nofun))⟩

/-- The name of a type without type arguments stays, however far it is followed. -/
theorem nameUpTo_eq (h : Rewrites t t') (hb : t.Bare id) (fuel fuel' : Nat) :
    t'.nameUpTo (fuel' + 1) id = t.nameUpTo (fuel + 1) id := by
  rcases hb with rfl | ⟨name, hn⟩ | ⟨o, ho, hargs⟩
  · rfl
  · rw [nameUpTo, nameUpTo, h.entry hn (fun _ ho => by cases ho), hn]
    rfl
  · obtain ⟨o', ho', hshape⟩ := h.object ho
    have hargs' := hshape.typeArgs_eq_nil hargs
    rw [nameUpTo, nameUpTo, ho', ho]
    simp only [Entry.mentioned, hargs', hargs, List.mapM_nil, Entry.wording, hshape.name]

/-- A type shows the same at a glance. -/
theorem glance_eq (h : Rewrites t t') (hq : Qualified t) (hid : id < t.size) :
    t'.glance id = t.glance id := by
  rcases Nat.eq_zero_or_pos id with rfl | hpos
  · rfl
  obtain ⟨e, he⟩ := exists_get?_of_lt hpos hid
  by_cases hobj : ∃ o, e = .object o
  · obtain ⟨o, rfl⟩ := hobj
    obtain ⟨o', ho', hshape⟩ := h.object he
    simp only [glance, ho', he, hshape.name]
    rfl
  have he' := h.entry he (not_exists.mp hobj)
  -- a name is followed two steps at least, to the type and to what qualifies it
  have hname : (∀ c ∈ e.mentioned, t.Bare c) → t'.name id = t.name id := by
    intro hbare
    have htwo : 2 ≤ t.size := Nat.lt_of_le_of_lt hpos hid
    obtain ⟨n, hn⟩ : ∃ n, t.size = n + 2 := Nat.exists_eq_add_of_le' htwo
    obtain ⟨n', hn'⟩ : ∃ n, t'.size = n + 2 := Nat.exists_eq_add_of_le' (htwo.trans h.size_le)
    rw [name, name, name?, name?, hn, hn']
    refine congrArg (Option.getD · "?") (nameUpTo_congr (he'.trans he.symm) fun e₁ he₁ c hc => ?_)
    obtain rfl := Option.some.inj (he.symm.trans he₁)
    exact h.nameUpTo_eq (hbare c hc) n n'
  simp only [glance, he', he]
  cases e with
  | object o => exact absurd ⟨o, rfl⟩ hobj
  | pointer _ | union _ | metaclass _ | hierarchy _ => rfl
  | typeVar v => simp only [hname (List.forall_mem_nil _)]
  | _ => simp only [hname (hq.bare he (not_exists.mp hobj) not_false)]

/-- **A type keeps its fingerprint** if its own entry stays. -/
theorem fingerprint_eq (h : Rewrites t t') (hq : Qualified t) (hc : Contained t) (hid : id < t.size)
    (hsame : t'.get? id = t.get? id) : t'.fingerprint id = t.fingerprint id := by
  have hself := h.glance_eq hq hid
  rw [fingerprint, fingerprint, hsame, hself]
  cases he : t.get? id with
  | none => rfl
  | some e =>
    have hparts : ∀ c ∈ e.parts, t'.glance c = t.glance c := fun c hmem =>
      h.glance_eq hq (hc id e he c (Entry.mem_compared_of_mem_parts hmem))
    cases e with
    | object o =>
      obtain ⟨hargs, hivars⟩ := List.forall_mem_append.mp hparts
      rw [List.forall_mem_map] at hivars
      have hsorted : ∀ v ∈ o.ivars.mergeSort fun a b => textLe a.1 b.1, t'.glance v.2 = t.glance v.2 :=
        fun v hv => hivars v (List.mem_mergeSort.mp hv)
      simp only [List.flatMap_congr hargs, Fingerprint.mk.injEq, and_true]
      congr 1
      exact List.flatMap_congr fun v hv => by rw [hsorted v hv]
    | union ms =>
      have hmap : ms.map t'.glance = ms.map t.glance := List.map_congr_left hparts
      simp only [hmap]
    | pointer c | metaclass c | hierarchy c => simp only [hparts c List.mem_cons_self]
    | _ => rfl

end Rewrites

end Table

end TypeFlow
