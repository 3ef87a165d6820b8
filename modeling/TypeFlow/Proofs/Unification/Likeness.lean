import Mathlib.Logic.Relation
import TypeFlow.Proofs.Unification.Rewriting

/-!
# Types that look alike in two tables

Unification changes objects while it goes on, so a type that stands for another one has to be compared with
what that one was at the begin. `Table.Like t t' a b` says that `a` looks in one table as `b` does in the other:
it is the greatest relation whose pairs match both ways up to the relation itself. Unlike structural equality it
is symmetric and transitive on all tables, and it implies equality.

Equality implies likeness where no type equals two members of a union (`Range.like_of_similar`). Then types that
look like equal types are equal, and equal types look like the same ones. Types that look like one type have the
same fingerprint (`Range.fingerprint_eq`), so none of them is overlooked among the representatives.

Components of an object may be exchanged for others that look like what the components look like
(`Range.like_modifyObject`).
-/

namespace TypeFlow

variable {R S T : TypeId → TypeId → Prop}

/-! ### Entries that match both ways -/

/-- Entries without a shape, which match none. -/
def Entry.Lone : Entry → Prop
  | .object _ | .pointer _ | .union _ | .metaclass _ | .hierarchy _ => False
  | _ => True

namespace Entry

variable {x y z : Entry}

theorem Lone.parts_eq (h : x.Lone) : x.parts = [] := by
  cases x <;> first | rfl | exact h.elim

theorem Matches.not_lone (h : x.Matches R y) : ¬ x.Lone ∧ ¬ y.Lone := by
  cases x <;> cases y <;> first | exact h.elim | exact ⟨id, id⟩

/-- Shapes that match in turn match, up to a relation that holds of what is related in turn. -/
theorem Matches.comp (hT : ∀ a b c, R a b → S b c → T a c) (hxy : x.Matches R y) (hyz : y.Matches S z)
    (hgeneric : ∀ {o p}, x = .object o → z = .object p → o.generic = p.generic) : x.Matches T z := by
  cases x <;> cases y <;> (try exact hxy.elim) <;> cases z <;> try exact hyz.elim
  case object.object.object x y z =>
    refine ⟨hxy.name.trans hyz.name, hxy.isModule.trans hyz.isModule, hxy.count.trans hyz.count,
      .inl (hgeneric rfl rfl), ?_, fun v hv => ?_⟩
    · exact (Table.forall₂_comp hxy.typeArgs hyz.typeArgs).imp fun a c ⟨_, hab, hbc⟩ => hT a _ c hab hbc
    · obtain ⟨u, hu, hvu⟩ := hxy.ivars v hv
      obtain ⟨w, hw, huw⟩ := hyz.ivars (v.1, u) (ObjectEntry.mem_of_ivar? hu)
      exact ⟨w, hw, hT _ _ _ hvu huw⟩
  case union.union.union xs ys zs =>
    refine ⟨hxy.1.trans hyz.1, fun m hm => ?_⟩
    obtain ⟨n, hn, hmn⟩ := hxy.2 m hm
    obtain ⟨k, hk, hnk⟩ := hyz.2 n hn
    exact ⟨k, hk, hT _ _ _ hmn hnk⟩
  all_goals exact hT _ _ _ hxy hyz

/-- Two entries match up to `R` there and back, and are instances of one generic class. -/
structure Mirrors (R : TypeId → TypeId → Prop) (x y : Entry) : Prop where
  there : x.Matches R y
  back : y.Matches (fun d c => R c d) x
  generic : ∀ {o p : ObjectEntry}, x = .object o → y = .object p → o.generic = p.generic

namespace Mirrors

theorem imp (h : x.Mirrors R y) (hparts : ∀ a ∈ x.parts, ∀ b ∈ y.parts, R a b → S a b) : x.Mirrors S y where
  there := h.there.imp hparts fun _ _ hx hy _ => .inl (h.generic hx hy)
  back := h.back.imp (fun d hd c hc hcd => hparts c hc d hd hcd) fun _ _ hy hx _ => .inl (h.generic hx hy).symm
  generic := h.generic

theorem symm (h : x.Mirrors R y) : y.Mirrors (fun d c => R c d) x :=
  ⟨h.back, h.there, fun hy hx => (h.generic hx hy).symm⟩

theorem comp (hT : ∀ a b c, R a b → S b c → T a c) (hxy : x.Mirrors R y) (hyz : y.Mirrors S z) :
    x.Mirrors T z := by
  have hgeneric : ∀ {o p : ObjectEntry}, x = .object o → z = .object p → o.generic = p.generic := by
    rintro o p rfl rfl
    have hm := hxy.there
    cases y <;> try exact hm.elim
    exact (hxy.generic rfl rfl).trans (hyz.generic rfl rfl)
  refine ⟨hxy.there.comp hT hyz.there hgeneric, ?_, hgeneric⟩
  exact hyz.back.comp (T := fun d c => T c d) (fun c b a hcb hba => hT a b c hba hcb) hxy.back
    fun hz hx => (hgeneric hx hz).symm

/-- Entries that are mirrored by entries that match do so, too. -/
theorem matches_mirrors {x' y' : Entry} (hT : ∀ a b c d, R a c → S a b → R b d → T c d) (hx : x.Mirrors R x')
    (hm : x.Matches S y) (hgeneric : ∀ {o p}, x = .object o → y = .object p → o.generic = p.generic)
    (hy : y.Mirrors R y') : x'.Matches T y' := by
  have hfirst : ∀ {o p : ObjectEntry}, x' = .object o → y = .object p → o.generic = p.generic := by
    rintro o p rfl rfl
    cases x <;> try exact hm.elim
    exact (hx.generic rfl rfl).symm.trans (hgeneric rfl rfl)
  have hboth : x'.Matches (fun c b => ∃ a, R a c ∧ S a b) y :=
    hx.back.comp (fun c a b hac hab => ⟨a, hac, hab⟩) hm hfirst
  refine hboth.comp (fun c b d ⟨a, hac, hab⟩ hbd => hT a b c d hac hab hbd) hy.there ?_
  rintro o p rfl rfl
  cases y <;> try exact hboth.elim
  exact (hfirst rfl rfl).trans (hy.generic rfl rfl)

/-- An entry mirrors itself, if instance variables have different names. -/
theorem refl (hlone : ¬ x.Lone) (hx : ∀ o, x = .object o → (o.ivars.map Prod.fst).Nodup) : x.Mirrors Eq x := by
  have hself : x.Matches Eq x := by
    cases x with
    | object o =>
      exact ⟨rfl, rfl, rfl, .inl rfl, List.forall₂_refl _, fun v hv =>
        ⟨v.2, ObjectEntry.ivar?_of_mem (hx o rfl) hv, rfl⟩⟩
    | union ms => exact ⟨rfl, fun m hm => ⟨m, hm, rfl⟩⟩
    | pointer _ | metaclass _ | hierarchy _ => rfl
    | _ => exact (hlone trivial).elim
  refine ⟨hself, hself.mono fun _ _ => Eq.symm, ?_⟩
  rintro o p rfl hp
  rw [Entry.object.inj hp]

end Mirrors

end Entry

namespace Table

variable {t t' t'' : Table} {id a b c : TypeId} {x y : Entry}

/-! ### Likeness -/

/-- What has to hold of a type of one table and a type of another, if components are compared by `R`: they are one
type without a shape, or their entries mirror one another. -/
def Portrays (t t' : Table) (R : TypeId → TypeId → Prop) (a b : TypeId) : Prop :=
  (a = b ∧ t.get? a = t'.get? b ∧ ∀ x, t.get? a = some x → x.Lone) ∨
    ∃ x y, t.get? a = some x ∧ t'.get? b = some y ∧ x.Mirrors R y

/-- The first type looks in the first table as the second does in the second. -/
def Like (t t' : Table) (a b : TypeId) : Prop :=
  ∃ R : TypeId → TypeId → Prop, (∀ c d, R c d → t.Portrays t' R c d) ∧ R a b

theorem Portrays.imp (h : t.Portrays t' R a b)
    (hRS : ∀ x y, t.get? a = some x → t'.get? b = some y → x.Mirrors R y → x.Mirrors S y) : t.Portrays t' S a b := by
  rcases h with hlone | ⟨x, y, hx, hy, hm⟩
  · exact .inl hlone
  · exact .inr ⟨x, y, hx, hy, hRS x y hx hy hm⟩

theorem Portrays.symm (h : t.Portrays t' R a b) : t'.Portrays t (fun d c => R c d) b a := by
  rcases h with ⟨rfl, hget, hlone⟩ | ⟨x, y, hx, hy, hm⟩
  · exact .inl ⟨rfl, hget.symm, fun x hx => hlone x (hget.trans hx)⟩
  · exact .inr ⟨y, x, hy, hx, hm.symm⟩

theorem Portrays.comp (hT : ∀ a b c, R a b → S b c → T a c) (h : t.Portrays t' R a b)
    (h' : t'.Portrays t'' S b c) : t.Portrays t'' T a c := by
  rcases h with ⟨rfl, hget, hlone⟩ | ⟨x, y, hx, hy, hm⟩
  · rcases h' with ⟨rfl, hget', -⟩ | ⟨x', y', hx', -, hm'⟩
    · exact .inl ⟨rfl, hget.trans hget', hlone⟩
    · exact absurd (hlone x' (hget.trans hx')) hm'.there.not_lone.1
  · rcases h' with ⟨rfl, -, hlone⟩ | ⟨x', z, hx', hz, hm'⟩
    · exact absurd (hlone y hy) hm.there.not_lone.2
    · obtain rfl := Option.some.inj (hy.symm.trans hx')
      exact .inr ⟨x, z, hx, hz, hm.comp hT hm'⟩

namespace Like

/-- Types that look alike are portrayed by likeness. -/
theorem portrays (h : t.Like t' a b) : t.Portrays t' (t.Like t') a b := by
  obtain ⟨R, hR, hab⟩ := h
  exact (hR a b hab).imp fun x y _ _ hm => hm.imp fun c _ d _ hcd => ⟨R, hR, hcd⟩

/-- Types whose entries mirror one another up to likeness look alike. -/
theorem of_mirrors (hx : t.get? a = some x) (hy : t'.get? b = some y) (hm : x.Mirrors (t.Like t') y) :
    t.Like t' a b := by
  refine ⟨fun c d => t.Like t' c d ∨ c = a ∧ d = b, fun c d hcd => ?_, .inr ⟨rfl, rfl⟩⟩
  rcases hcd with hcd | ⟨rfl, rfl⟩
  · exact hcd.portrays.imp fun x y _ _ hm => hm.imp fun _ _ _ _ => .inl
  · exact .inr ⟨x, y, hx, hy, hm.imp fun _ _ _ _ => .inl⟩

theorem symm (h : t.Like t' a b) : t'.Like t b a := by
  obtain ⟨R, hR, hab⟩ := h
  exact ⟨fun d c => R c d, fun d c hcd => (hR c d hcd).symm, hab⟩

theorem trans (h : t.Like t' a b) (h' : t'.Like t'' b c) : t.Like t'' a c := by
  refine ⟨fun a c => ∃ b, t.Like t' a b ∧ t'.Like t'' b c, ?_, b, h, h'⟩
  rintro a c ⟨b, hab, hbc⟩
  exact hab.portrays.comp (fun _ b _ hab hbc => ⟨b, hab, hbc⟩) hbc.portrays

/-- Types look as they are. -/
theorem refl (h : Tidy t) (a : TypeId) : t.Like t a a := by
  refine ⟨Eq, ?_, rfl⟩
  rintro a _ rfl
  by_cases hlone : ∀ x, t.get? a = some x → x.Lone
  · exact .inl ⟨rfl, rfl, hlone⟩
  · obtain ⟨x, hx, hlone⟩ := not_forall₂.mp hlone
    exact .inr ⟨x, x, hx, hx, .refl hlone fun o ho => h.ivars (ho ▸ hx)⟩

/-- Types of one table that look alike are similar. -/
theorem similar (h : t.Like t a b) : t.Similar a b := by
  refine ⟨t.Like t, fun a b hab => ?_, h⟩
  rcases hab.portrays with ⟨rfl, -, -⟩ | ⟨x, y, hx, hy, hm⟩
  · exact .inl rfl
  · exact .inr ⟨x, y, hx, hy, hm.there⟩

/-- Only no type looks like no type. -/
theorem zero_iff (h : t.Like t' a b) : a = 0 ↔ b = 0 := by
  rcases h.portrays with ⟨rfl, -, -⟩ | ⟨x, y, hx, hy, -⟩
  · exact Iff.rfl
  · exact iff_of_false (Nat.ne_of_gt (pos_of_get? hx)) (Nat.ne_of_gt (pos_of_get? hy))

/-- What looks like a type that exists exists, too. -/
theorem lt_size (h : t.Like t' a b) (hb : b < t'.size) : a < t.size := by
  rcases h.portrays with ⟨rfl, hget, -⟩ | ⟨x, -, hx, -⟩
  · rcases Nat.eq_zero_or_pos a with rfl | hpos
    · exact t.size_pos
    · obtain ⟨x, hx⟩ := exists_get?_of_lt hpos hb
      exact lt_size_of_get? (hget.trans hx)
  · exact lt_size_of_get? hx

/-- What a union looks like is a union. -/
theorem exists_union (h : t.Like t' a b) {xs : List TypeId} (hx : t.get? a = some (.union xs)) :
    ∃ ys, t'.get? b = some (.union ys) ∧ (Entry.union xs).Mirrors (t.Like t') (.union ys) := by
  obtain ⟨x, y, hx', hy, hm⟩ := h.portrays.resolve_left fun hlone => hlone.2.2 _ hx
  obtain rfl := Option.some.inj (hx.symm.trans hx')
  have hmatch := hm.there
  cases y with
  | union ys => exact ⟨ys, hy, hm⟩
  | _ => exact hmatch.elim

/-- What a type is made of looks like something that the other one is made of. -/
theorem exists_part (h : t.Like t' a b) (hy : t'.get? b = some y) {d : TypeId} (hd : d ∈ y.parts) :
    ∃ x, t.get? a = some x ∧ ∃ c ∈ x.parts, t.Like t' c d := by
  rcases h.portrays with ⟨rfl, hget, hlone⟩ | ⟨x, y', hx, hy', hm⟩
  · have hnone := hlone y (hget.trans hy)
    cases y <;> first | exact hnone.elim | cases hd
  · obtain rfl := Option.some.inj (hy.symm.trans hy')
    refine ⟨x, hx, ?_⟩
    have hback := hm.back
    cases y <;> cases x <;> try exact hback.elim
    case object.object y x =>
      rcases List.mem_append.mp hd with hd | hd
      · obtain ⟨c, hc, hcd⟩ := exists_of_mem_right hback.typeArgs.flip hd
        exact ⟨c, List.mem_append_left _ hc, hcd⟩
      · obtain ⟨v, hv, rfl⟩ := List.mem_map.mp hd
        obtain ⟨u, hu, hvu⟩ := hback.ivars v hv
        refine ⟨u, List.mem_append_right _ ?_, hvu⟩
        exact List.mem_map.mpr ⟨_, ObjectEntry.mem_of_ivar? hu, rfl⟩
    case union.union ys xs => exact hback.2 d hd
    all_goals
      obtain rfl := List.mem_singleton.mp hd
      exact ⟨_, List.mem_cons_self, hback⟩

end Like

/-! ### What components are exchanged for -/

/-- An object mirrors what it becomes when its components are exchanged, if no instance variable is named twice. -/
theorem mirrors_exchanges {o o' : ObjectEntry} (h : o.Exchanges R o') (ho : (o.ivars.map Prod.fst).Nodup) :
    (Entry.object o).Mirrors R (.object o') := by
  have hshape := h.sameShape
  have ho' : (o'.ivars.map Prod.fst).Nodup := hshape.names ▸ ho
  have hmodule : o'.isModule = o.isModule := by
    have hrest := congrArg ObjectEntry.isModule h.rest
    exact hrest
  refine ⟨⟨hshape.name.symm, hmodule.symm, h.ivars.length_eq, .inl hshape.generic.symm, h.args, fun v hv => ?_⟩,
    ⟨hshape.name, hmodule, h.ivars.length_eq.symm, .inl hshape.generic, h.args.flip, fun v' hv' => ?_⟩, ?_⟩
  · obtain ⟨v', hv', hname, hvv'⟩ := exists_of_mem_right h.ivars.flip hv
    exact ⟨v'.2, hname ▸ ObjectEntry.ivar?_of_mem ho' hv', hvv'⟩
  · obtain ⟨v, hv, hname, hvv'⟩ := exists_of_mem_right h.ivars hv'
    exact ⟨v.2, hname ▸ ObjectEntry.ivar?_of_mem ho hv, hvv'⟩
  · rintro p p' ⟨⟩ ⟨⟩
    exact hshape.generic.symm

/-- **All types look as before** if components of an object are exchanged for types that look the same. -/
theorem like_modifyObject (h : Tidy t) {f : ObjectEntry → ObjectEntry}
    (hf : ∀ o, t.get? id = some (.object o) → o.Exchanges (t.Like t) (f o)) (a : TypeId) :
    t.Like ((modifyObject id f).run t).2 a a := by
  refine ⟨t.Like t, fun c d hcd => ?_, .refl h a⟩
  by_cases hd : d = id ∧ ∃ o, t.get? d = some (.object o)
  · obtain ⟨rfl, o, ho⟩ := hd
    have hget : ((modifyObject d f).run t).2.get? d = some (.object (f o)) := by
      rw [get?_modifyObject, if_pos rfl, ho]
      rfl
    have hthis : t.Portrays ((modifyObject d f).run t).2 (t.Like t) d d :=
      .inr ⟨_, _, ho, hget, mirrors_exchanges (hf o ho) (h.ivars ho)⟩
    exact hcd.portrays.comp (S := t.Like t) (fun _ _ _ hpq hqr => hpq.trans hqr) hthis
  · have hget : ((modifyObject id f).run t).2.get? d = t.get? d := by
      rw [get?_modifyObject]
      split
      · rename_i hid
        cases he : t.get? d with
        | none => rfl
        | some e =>
          cases e with
          | object o => exact absurd ⟨hid, o, he⟩ hd
          | _ => rfl
      · rfl
    rcases hcd.portrays with ⟨rfl, hsame, hlone⟩ | ⟨x, y, hx, hy, hm⟩
    · exact .inl ⟨rfl, hget.symm, hlone⟩
    · exact .inr ⟨x, y, hx, hget.trans hy, hm⟩

/-- Types look as before if types are added. -/
theorem Enlarges.like (hl : Enlarges t t') (h : Tidy t) (hc : Contained t) (ha : a < t.size) : t.Like t' a a := by
  refine ⟨fun c d => t.Like t c d ∧ d < t.size, fun c d ⟨hcd, hd⟩ => ?_, .refl h a, ha⟩
  rcases hcd.portrays with ⟨rfl, hsame, hlone⟩ | ⟨x, y, hx, hy, hm⟩
  · exact .inl ⟨rfl, (hl.get?_eq hd).symm, hlone⟩
  · refine .inr ⟨x, y, hx, hl.get hy, hm.imp fun p _ q hq hpq => ⟨hpq, ?_⟩⟩
    exact hc d y hy q (Entry.mem_compared_of_mem_parts hq)

/-! ### Likeness and similarity -/

/-- Only no type is similar to no type. -/
theorem Similar.eq_of_zero (h : t.Similar a b) (hzero : a = 0 ∨ b = 0) : a = b := by
  by_contra hne
  obtain ⟨x, y, hx, hy, -⟩ := h.exists_get? hne
  rcases hzero with rfl | rfl
  · exact absurd hx nofun
  · exact absurd hy nofun

/-- Instances of one name are instances of one generic class. -/
def InstancesByName (t : Table) : Prop :=
  ∀ {a b : TypeId} {o p : ObjectEntry}, t.get? a = some (.object o) → t.get? b = some (.object p) →
    o.name = p.name → o.generic ≠ 0 → p.generic ≠ 0 → o.generic = p.generic

theorem Rewrites.instancesByName (h : Rewrites t t') (hi : InstancesByName t) : InstancesByName t' := by
  have hold : ∀ {a : TypeId} {o' : ObjectEntry}, t'.get? a = some (.object o') →
      ∃ o, t.get? a = some (.object o) ∧ o.SameShape o' := by
    intro a o' ho'
    rcases Nat.lt_or_ge a t.size with hlt | hge
    · exact h.old_object hlt ho'
    · exact (h.fresh hge ho').elim
  intro a b o' p' ho' hp' hname hog hpg
  obtain ⟨o, ho, hoo⟩ := hold ho'
  obtain ⟨p, hp, hpp⟩ := hold hp'
  rw [hoo.name, hpp.name] at hname
  rw [hoo.generic] at hog ⊢
  rw [hpp.generic] at hpg ⊢
  exact hi ho hp hname hog hpg

/-- Objects that match up to similarity have the same generic class. -/
theorem InstancesByName.generic_eq (hi : InstancesByName t) (ha : t.get? a = some x) (hb : t.get? b = some y)
    (hm : x.Matches t.Similar y) {o p : ObjectEntry} (hx : x = .object o) (hy : y = .object p) :
    o.generic = p.generic := by
  subst hx hy
  by_contra hne
  have hsim := hm.generic.resolve_left hne
  obtain ⟨x, y, hx, hy, -⟩ := hsim.exists_get? hne
  exact hne (hi ha hb hm.name (Nat.ne_of_gt (pos_of_get? hx)) (Nat.ne_of_gt (pos_of_get? hy)))

/-- What similar types look like is similar. -/
theorem Like.similar_of_similar (hi : InstancesByName t) (hab : t.Similar a b) {c d : TypeId} (hac : t.Like t' a c)
    (hbd : t.Like t' b d) : t'.Similar c d := by
  refine ⟨fun c d => t'.Similar c d ∨ ∃ a b, t.Similar a b ∧ t.Like t' a c ∧ t.Like t' b d, ?_,
    .inr ⟨a, b, hab, hac, hbd⟩⟩
  rintro c d (hcd | ⟨a, b, hab, hac, hbd⟩)
  · exact (t'.simulation_similar c d hcd).mono fun _ _ => .inl
  rcases t.simulation_similar a b hab with rfl | ⟨x, y, hx, hy, hm⟩
  · exact (t'.simulation_similar c d (hac.symm.trans hbd).similar).mono fun _ _ => .inl
  obtain ⟨hlone, hlone'⟩ := hm.not_lone
  obtain ⟨x₁, x', hx₁, hx', hxx'⟩ := hac.portrays.resolve_left fun h => hlone (h.2.2 x hx)
  obtain ⟨y₁, y', hy₁, hy', hyy'⟩ := hbd.portrays.resolve_left fun h => hlone' (h.2.2 y hy)
  obtain rfl := Option.some.inj (hx.symm.trans hx₁)
  obtain rfl := Option.some.inj (hy.symm.trans hy₁)
  have hgeneric : ∀ {o p : ObjectEntry}, x = .object o → y = .object p → o.generic = p.generic :=
    fun hx' hy' => InstancesByName.generic_eq hi hx hy hm hx' hy'
  exact .inr ⟨x', y', hx', hy', hxx'.matches_mirrors (fun a b c d hac hab hbd => .inr ⟨a, b, hab, hac, hbd⟩) hm
    hgeneric hyy'⟩

/-- **Where equality is likeness.** The types `D` come with all they are made of, and no type equals two members of a
union among them. Instances of one name have one generic class. -/
structure Range (t : Table) (D : TypeId → Prop) : Prop where
  tidy : Tidy t
  instances : InstancesByName t
  lt : ∀ {a : TypeId}, D a → a < t.size
  parts : ∀ {a : TypeId} {x : Entry}, D a → t.get? a = some x → ∀ b ∈ x.parts, D b
  separated : ∀ {a : TypeId}, D a → t.Separated a

namespace Range

variable {D : TypeId → Prop} {t₀ : Table}

/-- Equal types look alike. -/
theorem like_of_similar (h : Range t D) (ha : D a) (hb : D b) (hab : t.Similar a b) : t.Like t a b := by
  refine ⟨fun a b => t.Like t a b ∨ D a ∧ D b ∧ t.Similar a b, ?_, .inr ⟨ha, hb, hab⟩⟩
  rintro a b (hab | ⟨ha, hb, hab⟩)
  · exact hab.portrays.imp fun _ _ _ _ hm => hm.imp fun _ _ _ _ => .inl
  rcases t.simulation_similar a b hab with rfl | ⟨x, y, hx, hy, hm⟩
  · exact (Like.refl h.tidy a).portrays.imp fun _ _ _ _ hm => hm.imp fun _ _ _ _ => .inl
  have hgeneric : ∀ {o p : ObjectEntry}, x = .object o → y = .object p → o.generic = p.generic :=
    fun hx' hy' => InstancesByName.generic_eq h.instances hx hy hm hx' hy'
  have hparts : ∀ c ∈ x.parts, ∀ d ∈ y.parts, t.Similar c d → t.Like t c d ∨ D c ∧ D d ∧ t.Similar c d :=
    fun c hc d hd hcd => .inr ⟨h.parts ha hx c hc, h.parts hb hy d hd, hcd⟩
  refine .inr ⟨x, y, hx, hy, hm.imp hparts fun _ _ hx' hy' _ => .inl (hgeneric hx' hy'), ?_, hgeneric⟩
  exact (matches_flip h.tidy hx hy (h.separated ha) hm).imp (fun d hd c hc hcd => hparts c hc d hd hcd.1)
    fun _ _ hy' hx' _ => .inl (hgeneric hx' hy').symm

/-- Types that look like equal types look alike. -/
theorem like_of_like (h : Range t₀ D) (ha : t.Like t₀ a c) (hb : t.Like t₀ b d) (hc : D c) (hd : D d)
    (hcd : t₀.Similar c d) : t.Like t a b :=
  ha.trans ((h.like_of_similar hc hd hcd).trans hb.symm)

/-- The members of a union stand opposite those of one that looks like it. -/
theorem matching (h : Range t₀ D) {xs ys : List TypeId} (hb : D b) (hys : t₀.get? b = some (.union ys))
    (hm : (Entry.union xs).Mirrors (t.Like t₀) (.union ys)) :
    ∃ zs, zs.Perm xs ∧ List.Forall₂ (fun n m => t.Like t₀ m n) ys zs := by
  have hnodup : ys.Nodup := (h.tidy.union hys).increasing.imp fun hlt => Nat.ne_of_lt hlt
  refine exists_matching hnodup hm.back.2 (fun m hm n hn c _ hcm hcn => ?_) (le_of_eq hm.there.1)
  exact (h.separated hb).eq_of_similar hys hm hn (hcm.symm.trans hcn).similar (.refl t₀ n)

/-- **Types that look like one type have the same fingerprint.** -/
theorem fingerprint_eq (h : Range t₀ D) (ht : Tidy t) (hc : D c) (ha : t.Like t₀ a c) (hb : t.Like t₀ b c) :
    t.fingerprint a = t.fingerprint b := by
  refine (ha.trans hb.symm).similar.fingerprint_eq_of_perm ht fun xs ys hxs hys _ => ?_
  obtain ⟨cs, hcs, hxc⟩ := ha.exists_union hxs
  obtain ⟨cs', hcs', hyc⟩ := hb.exists_union hys
  obtain rfl : cs' = cs := Entry.union.inj (Option.some.inj (hcs'.symm.trans hcs))
  obtain ⟨zs, hzs, hall⟩ := h.matching hc hcs hxc
  obtain ⟨ws, hws, hall'⟩ := h.matching hc hcs hyc
  have hglances : zs.map t.glance = ws.map t.glance := by
    clear hzs hws hcs hcs' hxc hyc
    induction hall generalizing ws with
    | nil =>
      cases hall'
      rfl
    | cons hm _ ih =>
      cases hall' with
      | cons hn hall' => rw [List.map_cons, List.map_cons, (hm.trans hn.symm).similar.glance_eq, ih _ hall']
  exact (hzs.map _).symm.trans (hglances ▸ hws.map _)

end Range

end Table

end TypeFlow
