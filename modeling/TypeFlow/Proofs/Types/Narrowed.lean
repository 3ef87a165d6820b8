import TypeFlow.Proofs.Types.JoinedClasses

/-!
# Narrowing is exact

The classes of a narrowed type are the classes of the type that fit the restriction, and the type is left
as it is exactly if all of them do (`Inferred.concrete_restrict`). Narrowing recurses over the members of
unions, on both sides, and over the lists of subclasses of a hierarchy. A hierarchy is kept whole as soon
as its class fits, which is right because what a class fits is fit by all classes below it.

Narrowing adds types on the way, so everything is said relative to the table `t` that the narrowed type
and the restriction belong to: `Narrows t id restriction` describes the result in whatever table narrowing
ends with. This is what overload resolution uses, which narrows one argument after the other.
-/

namespace TypeFlow.Table

variable {t t₁ t₂ : Table}

/-! ### Types with given classes -/

/-- The classes of a type are those with the property `K`. -/
def HasClasses (t : Table) (K : TypeId → Prop) (m : TypeId) : Prop :=
  m < t.size ∧ ∀ c, c ∈ t.concrete m ↔ K c

theorem HasClasses.of_grown {K : TypeId → Prop} {m : TypeId} (hm : HasClasses t K m)
    (hg : Grown t t₁) (h : WellFormed t) (hl : Linked t) : HasClasses t₁ K m :=
  ⟨hg.lt_size hm.1, fun c => by rw [hg.concrete_eq h hl hm.1, hm.2]⟩

/-- Only no type has no classes. -/
theorem WellFormed.concrete_eq_nil_iff (h : WellFormed t) (hl : Linked t) {id : TypeId} :
    t.concrete id = [] ↔ id = 0 := by
  constructor
  · intro hnil
    by_contra hne
    obtain ⟨m, hm⟩ : ∃ m, m ∈ t.members id := by
      by_cases hunion : ∃ ms, t.get? id = some (.union ms)
      · obtain ⟨ms, hms⟩ := hunion
        rw [members_of_union hms]
        exact List.exists_mem_of_length_pos (by have := (h.union hms).several; lia)
      · exact ⟨id, by simp [members_of_not_union hne (not_exists.mp hunion)]⟩
    have hbase : (t.part m).base ∈ t.concrete id := by
      refine mem_concrete_iff_members.mpr ⟨m, hm, ?_⟩
      cases t.part m with
      | one c => simp [classes, Part.base]
      | whole base => exact h.self_mem_subtree hl base
    rw [hnil] at hbase
    exact absurd hbase (by simp)
  · rintro rfl
    rfl

/-- The classes of a union are those of its members. -/
theorem WellFormed.mem_concrete_union (h : WellFormed t) {id c : TypeId} {ms : List TypeId}
    (hms : t.get? id = some (.union ms)) : c ∈ t.concrete id ↔ ∃ m ∈ ms, c ∈ t.concrete m := by
  rw [mem_concrete_iff_members, members_of_union hms]
  refine exists_congr fun m => and_congr_right fun hm => ?_
  obtain ⟨e, he⟩ := (h.union hms).known m hm
  rw [mem_concrete_iff_members,
    members_of_not_union (Nat.ne_of_gt (pos_of_get? he)) ((h.union hms).flat m hm)]
  simp

theorem mem_concrete_hierarchy {id base c : TypeId} (hbase : t.get? id = some (.hierarchy base)) :
    c ∈ t.concrete id ↔ c ∈ t.subtree base := by
  rw [mem_concrete_iff_members,
    members_of_not_union (Nat.ne_of_gt (pos_of_get? hbase)) (by simp [hbase])]
  simp [part_of_hierarchy hbase, classes]

/-! ### Unions of what is left -/

/-- A union has no other classes than its members, and is a type if one of them is. -/
theorem WellFormed.adds_unionOf_subset (h : WellFormed t) (hl : Linked t) {ids : List TypeId}
    (hids : ∀ id ∈ ids, id < t.size) :
    Adds t (unionOf ids) fun t' m => m < t'.size ∧
      (∀ c ∈ t'.concrete m, ∃ id ∈ ids, c ∈ t.concrete id) ∧ (m = 0 → ∀ id ∈ ids, id = 0) := by
  refine (h.adds_unionOf hids).imp fun t' m h' hg ⟨hm, hmembers⟩ => ⟨hm, fun c hc => ?_, ?_⟩
  · obtain ⟨n, hn, hc⟩ := mem_concrete_iff_members.mp hc
    rw [hmembers] at hn
    obtain ⟨id, hid, hn⟩ := List.mem_flatMap.mp (h.mem_flatten.mp hn).1
    have hlt := (h.members_lt_size (hids id hid) hn).2
    rw [hg.toExtends.part_eq hlt, hg.classes_eq h hl (h.part_base_lt hlt)] at hc
    exact ⟨id, hid, mem_concrete_iff_members.mpr ⟨n, hn, hc⟩⟩
  · rintro rfl id hid
    -- a member that yields a value is kept, and if none does, all of them are
    have hnone : ∀ n ∈ ids.flatMap t.members, ¬ (n = Builtin.noReturn →
        ∀ x ∈ ids.flatMap t.members, x = Builtin.noReturn) := by
      intro n hn hkept
      have hin := h.mem_flatten.mpr ⟨hn, hkept⟩
      rw [← hmembers] at hin
      exact absurd hin (by simp)
    by_contra hne
    obtain ⟨c, hc⟩ := List.exists_mem_of_ne_nil _ (mt (h.concrete_eq_nil_iff hl).mp hne)
    obtain ⟨n, hn, -⟩ := mem_concrete_iff_members.mp hc
    have hn := List.mem_flatMap.mpr ⟨id, hid, hn⟩
    refine hnone n hn fun _ x hx => ?_
    by_contra hx'
    exact hnone x hx fun heq => absurd heq hx'

/-- The union of types that yield values has the members and the classes of all of them. -/
theorem WellFormed.adds_unionOf_classes (h : WellFormed t) (hl : Linked t) {ids : List TypeId}
    (hids : ∀ id ∈ ids, id < t.size) (hn : ∀ id ∈ ids, Builtin.noReturn ∉ t.concrete id) :
    Adds t (unionOf ids) fun t' m => m < t'.size ∧
      (∀ n, n ∈ t'.members m ↔ ∃ id ∈ ids, n ∈ t.members id) ∧
      ∀ c, c ∈ t'.concrete m ↔ ∃ id ∈ ids, c ∈ t.concrete id := by
  refine ((h.adds_unionOf hids).and (h.adds_unionOf_subset hl hids)).imp
    fun t' m _ hg ⟨⟨hm, hmembers⟩, _, hsubset, _⟩ => ?_
  have hyields : ∀ id ∈ ids, Builtin.noReturn ∉ t.members id := by
    intro id hid hmem
    refine hn id hid (mem_concrete_iff_members.mpr ⟨_, hmem, ?_⟩)
    simp [h.part_noReturn, classes]
  have hmem : ∀ n, n ∈ t'.members m ↔ ∃ id ∈ ids, n ∈ t.members id := by
    intro n
    rw [hmembers, h.mem_flatten, List.mem_flatMap]
    refine and_iff_left_of_imp ?_
    rintro ⟨id, hid, hn⟩ rfl
    exact absurd hn (hyields id hid)
  refine ⟨hm, hmem, fun c => ⟨hsubset c, ?_⟩⟩
  rintro ⟨id, hid, hc⟩
  obtain ⟨n, hn, hc⟩ := mem_concrete_iff_members.mp hc
  have hlt := (h.members_lt_size (hids id hid) hn).2
  refine mem_concrete_iff_members.mpr ⟨n, (hmem n).mpr ⟨id, hid, hn⟩, ?_⟩
  rwa [hg.toExtends.part_eq hlt, hg.classes_eq h hl (h.part_base_lt hlt)]

/-- The union of types with known classes, without what is no type. What else is known of the types
(`R`) tells the members of the union. -/
theorem WellFormed.adds_unionOf_parts {γ : Type} (h : WellFormed t) (hl : Linked t) {l : List γ}
    {K : γ → TypeId → Prop} {R : γ → TypeId → Prop} {parts : List TypeId}
    (hall : ∀ a ∈ parts, ∃ c ∈ l, HasClasses t (K c) a ∧ R c a)
    (hex : ∀ c ∈ l, ∃ a ∈ parts, HasClasses t (K c) a ∧ R c a)
    (hn : ∀ c ∈ l, ¬ K c Builtin.noReturn) :
    Adds t (unionOf (parts.filter (· ≠ 0))) fun t' m =>
      HasClasses t' (fun x => ∃ c ∈ l, K c x) m ∧
      (∀ n ∈ t'.members m, ∃ c ∈ l, ∃ a, R c a ∧ n ∈ t'.members a) ∧
      ∀ c ∈ l, ∃ a, R c a ∧ ∀ n ∈ t'.members a, n ∈ t'.members m := by
  -- what is left out as no type has no members and no classes
  have hkept : ∀ {a : TypeId}, a ∈ parts → a ≠ 0 → a ∈ parts.filter (· ≠ 0) :=
    fun ha hne => List.mem_filter.mpr ⟨ha, decide_eq_true hne⟩
  refine (h.adds_unionOf_classes hl (fun a ha => ?_) fun a ha hmem => ?_).imp ?_
  · obtain ⟨-, -, ⟨hlt, -⟩, -⟩ := hall a (List.mem_of_mem_filter ha)
    exact hlt
  · obtain ⟨c, hc, ⟨-, hK⟩, -⟩ := hall a (List.mem_of_mem_filter ha)
    exact hn c hc ((hK _).mp hmem)
  · rintro t₂ m h₂ hg₂ ⟨hm, hmembers, hclasses⟩
    refine ⟨⟨hm, fun x => ?_⟩, fun n hn => ?_, fun c hc => ?_⟩
    · rw [hclasses]
      constructor
      · rintro ⟨a, ha, hx⟩
        obtain ⟨c, hc, ⟨-, hK⟩, -⟩ := hall a (List.mem_of_mem_filter ha)
        exact ⟨c, hc, (hK x).mp hx⟩
      · rintro ⟨c, hc, hx⟩
        obtain ⟨a, ha, ⟨-, hK⟩, -⟩ := hex c hc
        have hxa := (hK x).mpr hx
        refine ⟨a, hkept ha ?_, hxa⟩
        rintro rfl
        exact absurd hxa (by simp)
    · obtain ⟨a, ha, hna⟩ := (hmembers n).mp hn
      obtain ⟨c, hc, ⟨hlt, -⟩, hR⟩ := hall a (List.mem_of_mem_filter ha)
      exact ⟨c, hc, a, hR, by rwa [hg₂.members_eq hlt]⟩
    · obtain ⟨a, ha, ⟨hlt, -⟩, hR⟩ := hex c hc
      refine ⟨a, hR, fun n hna => ?_⟩
      rw [hg₂.members_eq hlt] at hna
      refine (hmembers n).mpr ⟨a, hkept ha ?_, hna⟩
      rintro rfl
      exact absurd hna (by simp)

/-- Results with known classes, one after the other, and their union. -/
theorem WellFormed.adds_union_classes {γ : Type} (h : WellFormed t) (hl : Linked t) {l : List γ}
    {f : γ → TableM TypeId} {K : γ → TypeId → Prop} {R : γ → TypeId → Prop}
    (hf : ∀ c ∈ l, ∀ t', Later t t' → Adds t' (f c) fun t'' a => HasClasses t'' (K c) a ∧ R c a)
    (hn : ∀ c ∈ l, ¬ K c Builtin.noReturn) :
    Adds t (do let parts ← l.mapM f; unionOf (parts.filter (· ≠ 0))) fun t' m =>
      HasClasses t' (fun x => ∃ c ∈ l, K c x) m ∧
      (∀ n ∈ t'.members m, ∃ c ∈ l, ∃ a, R c a ∧ n ∈ t'.members a) ∧
      ∀ c ∈ l, ∃ a, R c a ∧ ∀ n ∈ t'.members a, n ∈ t'.members m := by
  refine (Adds.mapM h (S := fun c t' a => HasClasses t' (K c) a ∧ R c a) ?_ ?_).bind ?_
  · exact fun c hc t' h' hg => hf c hc t' ⟨h', hl.of_grown hg, hg⟩
  · rintro c - t' t'' a h' - hg hg' ⟨ha, hR⟩
    exact ⟨ha.of_grown hg' h' (hl.of_grown hg), hR⟩
  · rintro t₁ parts h₁ hg ⟨hall, hex⟩
    exact h₁.adds_unionOf_parts (hl.of_grown hg) hall hex hn

/-- Copies of a type that is no union join to it. -/
theorem WellFormed.adds_unionOf_copies (h : WellFormed t) {id : TypeId} (hid : Single t id)
    {ids : List TypeId} (hids : ∀ a ∈ ids, a = id) :
    Adds t (unionOf ids) fun _ m => m = if ids = [] then 0 else id := by
  refine (h.adds_unionOf fun a ha => hids a ha ▸ hid.lt_size).imp fun t' m h' hg ⟨_, hmembers⟩ => ?_
  have hself : t.members id = [id] := members_of_not_union hid.ne_zero hid.no_union
  have hmem : ∀ n ∈ t.flatten ids, n = id := by
    intro n hn
    obtain ⟨a, ha, hn⟩ := List.mem_flatMap.mp (h.mem_flatten.mp hn).1
    rw [hids a ha, hself] at hn
    exact List.mem_singleton.mp hn
  refine h'.members_injective ?_
  rw [hmembers]
  split
  · rename_i hnil
    refine List.eq_nil_iff_forall_not_mem.mpr fun n hn => ?_
    have := (h.mem_flatten.mp hn).1
    simp [hnil] at this
  · rename_i hne
    obtain ⟨a, ha⟩ := List.exists_mem_of_ne_nil _ hne
    have hin : id ∈ t.flatten ids := by
      refine h.mem_flatten.mpr ⟨List.mem_flatMap.mpr ⟨a, ha, by simp [hids a ha, hself]⟩, ?_⟩
      intro heq n hn
      obtain ⟨b, hb, hn⟩ := List.mem_flatMap.mp hn
      rw [hids b hb, hself] at hn
      exact (List.mem_singleton.mp hn).trans heq
    rw [hg.members_eq hid.lt_size, hself]
    exact eq_singleton_of_increasing (h.flatten_increasing ids) hin hmem

/-! ### Narrowing -/

/-- What narrowing a type of `t` to a restriction ends with: the classes that fit, and the type itself
if all of them do. -/
structure Narrows (t : Table) (id restriction : TypeId) (t₂ : Table) (m : TypeId) : Prop where
  classes : HasClasses t₂ (fun c => c ∈ t.concrete id ∧ t.implements c restriction = true) m
  whole : (∀ c ∈ t.concrete id, t.implements c restriction = true) → m = id

namespace Shaped

variable (hs : Shaped t) (h : WellFormed t) (hl : Linked t)

include hs h hl

/-- The classes below a class that fit are found, and if the class itself fits, its hierarchy is. -/
theorem adds_restrictBelow_classes {restriction base : TypeId} {fuel : Nat}
    (hr : restriction < t.size) (hbase : ∃ o, t.get? base = some (.object o))
    (hf : t.size - base ≤ fuel) (h₁ : Later t t₁) :
    Adds t₁ (restrictBelow restriction fuel base) fun t₂ m =>
      HasClasses t₂ (fun c => c ∈ t.subtree base ∧ t.implements c restriction = true) m ∧
      (t.implements base restriction = true → t₂.get? m = some (.hierarchy base)) := by
  obtain ⟨o, ho⟩ := hbase
  have hlt := lt_size_of_get? ho
  induction fuel generalizing t₁ base o with
  | zero => exact absurd (Nat.sub_pos_of_lt hlt) (by lia)
  | succ fuel ih =>
    have hsub := h.subtree_eq hl base
    refine Adds.get_bind ?_
    simp only [h₁.grown.implements_eq h h₁.wellFormed hl hlt hr, h₁.grown.object?_eq hlt,
      listedBelow_eq_getD]
    split
    · rename_i hfit
      refine (h₁.wellFormed.adds_hierarchyOf (h₁.lt_size hlt)).imp fun t₂ m h₂ hg hm => ?_
      refine ⟨⟨lt_size_of_get? hm, fun c => ?_⟩, fun _ => hm⟩
      rw [mem_concrete_hierarchy hm, (h₁.grown.trans hg).subtree_eq h hl hlt]
      refine (and_iff_left_of_imp fun hc => ?_).symm
      obtain ⟨⟨p, hp⟩, hbelow⟩ := hs.below_of_mem_subtree h hl ⟨o, ho⟩ hc
      exact h.implements_of_mem_ancestors hl hp ho (h.mem_ancestors_of_below
        (Nat.ne_of_gt (pos_of_get? hp)) hbelow) hr hfit
    · rename_i hfit
      have hunion := h₁.wellFormed.adds_union_classes h₁.linked (l := t.listedBelow base)
        (f := restrictBelow restriction fuel)
        (K := fun d c => c ∈ t.subtree d ∧ t.implements c restriction = true)
        (R := fun _ _ => True) (fun d hd t' h' => ?_) fun d hd hK => ?_
      · refine hunion.imp fun t₂ m _ _ ⟨⟨hm, hclasses⟩, _⟩ => ?_
        refine ⟨⟨hm, fun c => ?_⟩, fun h0 => absurd h0 hfit⟩
        rw [hclasses]
        simp only [hsub, List.mem_cons, List.mem_flatMap]
        constructor
        · rintro ⟨d, hd, hc, hfits⟩
          exact ⟨.inr ⟨d, hd, hc⟩, hfits⟩
        · rintro ⟨rfl | ⟨d, hd, hc⟩, hfits⟩
          · exact absurd hfits hfit
          · exact ⟨d, hd, hc, hfits⟩
      · obtain ⟨s, hget, -⟩ := hs.plain hd
        have hlt' := h.listedBelow_lt hl hd
        have hrest : t.size - d ≤ fuel := by lia
        exact (ih hrest (h₁.trans h') s hget hlt'.2).imp fun t₂ m _ _ hm => ⟨hm.1, trivial⟩
      · obtain ⟨s, hget, -⟩ := hs.plain hd
        obtain ⟨⟨p, hp⟩, -⟩ := hs.below_of_mem_subtree h hl ⟨s, hget⟩ hK.1
        exact h.noReturn_ne_object p hp

omit hs in
/-- A type that is neither a union nor a hierarchy is kept or rejected. -/
theorem narrows_single_iff {id restriction : TypeId} (hid : Single t id) {m : TypeId}
    (h₂ : Later t t₂) : Narrows t id restriction t₂ m ↔
      m = if t.implements id restriction = true then id else 0 := by
  have hself := hid.concrete_eq
  constructor
  · intro hm
    split
    · rename_i hfit
      exact hm.whole (by simpa [hself] using hfit)
    · rename_i hfit
      refine (h₂.wellFormed.concrete_eq_nil_iff h₂.linked).mp ?_
      refine List.eq_nil_iff_forall_not_mem.mpr fun c hc => ?_
      obtain ⟨hcid, hfits⟩ := (hm.classes.2 c).mp hc
      rw [hself, List.mem_singleton] at hcid
      exact hfit (hcid ▸ hfits)
  · rintro rfl
    split
    · rename_i hfit
      refine ⟨⟨h₂.lt_size hid.lt_size, fun c => ?_⟩, fun _ => rfl⟩
      simp only [h₂.grown.concrete_eq h hl hid.lt_size, hself, List.mem_singleton]
      exact (and_iff_left_of_imp fun hc => hc ▸ hfit).symm
    · rename_i hfit
      refine ⟨⟨t₂.size_pos, fun c => ?_⟩, fun hall => ?_⟩
      · simp only [concrete_zero, hself, List.mem_singleton]
        refine iff_of_false (by simp) ?_
        rintro ⟨rfl, hfits⟩
        exact hfit hfits
      · exact absurd (hall id (by simp [hself])) hfit

/-- Narrowing a union narrows its members. -/
theorem adds_restrict_members {fuel : Nat} {id restriction : TypeId} {ms : List TypeId}
    (hms : t.get? id = some (.union ms)) (h₁ : Later t t₁)
    (ih : ∀ m ∈ ms, ∀ t', Later t t' →
      Adds t' (restrictUpTo fuel m restriction) (Narrows t m restriction)) :
    Adds t₁ (do let parts ← ms.mapM (restrictUpTo fuel · restriction)
                Table.unionOf (parts.filter (· ≠ 0))) (Narrows t id restriction) := by
  have hparts := h₁.wellFormed.adds_union_classes h₁.linked (l := ms)
    (f := (restrictUpTo fuel · restriction))
    (K := fun m c => c ∈ t.concrete m ∧ t.implements c restriction = true)
    (R := fun m a => (∀ c ∈ t.concrete m, t.implements c restriction = true) → a = m)
    (fun m hm t' h' => (ih m hm t' (h₁.trans h')).imp fun _ _ _ _ ha => ⟨ha.classes, ha.whole⟩)
    fun m hm hK => ?_
  · refine hparts.imp fun t₂ a h₂ hg ⟨⟨ha, hclasses⟩, hold, hnew⟩ => ⟨⟨ha, fun c => ?_⟩, fun hall => ?_⟩
    · rw [hclasses]
      simp only [h.mem_concrete_union hms]
      exact ⟨fun ⟨m, hm, hc, hfit⟩ => ⟨⟨m, hm, hc⟩, hfit⟩, fun ⟨⟨m, hm, hc⟩, hfit⟩ => ⟨m, hm, hc, hfit⟩⟩
    · -- if all classes fit, every member is left as it is
      have hget : t₂.get? id = some (.union ms) := (h₁.grown.trans hg).get hms
      have hwhole : ∀ {m b : TypeId}, m ∈ ms →
          ((∀ c ∈ t.concrete m, t.implements c restriction = true) → b = m) → b = m :=
        fun hm hb => hb fun c hc => hall c ((h.mem_concrete_union hms).mpr ⟨_, hm, hc⟩)
      have hflat : ∀ m ∈ ms, t₂.members m = [m] := by
        intro m hm
        obtain ⟨e, he⟩ := (h₂.union hget).known m hm
        exact members_of_not_union (Nat.ne_of_gt (pos_of_get? he)) ((h₂.union hget).flat m hm)
      refine h₂.members_injective ?_
      refine eq_of_increasing (h₂.members_increasing a) (h₂.members_increasing id) fun n => ?_
      rw [members_of_union hget]
      constructor
      · intro hn
        obtain ⟨m, hm, b, hb, hnb⟩ := hold n hn
        rw [hwhole hm hb, hflat m hm, List.mem_singleton] at hnb
        exact hnb ▸ hm
      · intro hn
        obtain ⟨b, hb, hin⟩ := hnew n hn
        rw [hwhole hn hb, hflat n hn] at hin
        exact hin n List.mem_cons_self
  · rw [hs.eq_noReturn_of_mem_concrete h hl hK.1] at hm
    exact (h.union hms).absorbed hm

omit hs in
/-- Narrowing to a union keeps a type that fits one of its members. -/
theorem adds_restrict_alternatives {fuel : Nat} {id restriction : TypeId} {ms : List TypeId}
    (hid : Single t id) (hms : t.get? restriction = some (.union ms)) (h₁ : Later t t₁)
    (ih : ∀ m ∈ ms, ∀ t', Later t t' → Adds t' (restrictUpTo fuel id m) (Narrows t id m)) :
    Adds t₁ (do let parts ← ms.mapM (restrictUpTo fuel id ·)
                Table.unionOf (parts.filter (· ≠ 0))) (Narrows t id restriction) := by
  refine (Adds.mapM h₁.wellFormed
    (S := fun m _ a => a = if t.implements id m = true then id else 0) ?_ ?_).bind ?_
  · intro m hm t' h' hg
    have hlater : Later t t' := h₁.trans ⟨h', h₁.linked.of_grown hg, hg⟩
    refine (ih m hm t' hlater).imp fun t'' a h'' hg' ha => ?_
    have hlater' : Later t t'' := hlater.trans ⟨h'', hlater.linked.of_grown hg', hg'⟩
    exact (narrows_single_iff h hl hid hlater').mp ha
  · exact fun _ _ _ _ _ _ _ _ _ ha => ha
  · rintro t' parts h' hg ⟨hall, hex⟩
    have hlater : Later t t' := h₁.trans ⟨h', h₁.linked.of_grown hg, hg⟩
    have hcopies : ∀ a ∈ parts.filter (· ≠ 0), a = id := by
      intro a ha
      obtain ⟨ha, hne⟩ := List.mem_filter.mp ha
      obtain ⟨m, -, rfl⟩ := hall a ha
      rw [decide_eq_true_iff] at hne
      split
      · rfl
      · rename_i hfit
        exact absurd (if_neg hfit) hne
    refine (h'.adds_unionOf_copies (hid.of_grown hlater.grown) hcopies).imp fun t'' a h'' hg' ha => ?_
    have hlater' : Later t t'' := hlater.trans ⟨h'', hlater.linked.of_grown hg', hg'⟩
    refine (narrows_single_iff h hl hid hlater').mpr ?_
    have hfits := h.implements_union_iff hl hid.lt_size hid.no_union hid.ne_zero hms
    rw [ha]
    by_cases hfit : t.implements id restriction = true
    · obtain ⟨m, hm, hfit'⟩ := hfits.mp hfit
      obtain ⟨a, ha, rfl⟩ := hex m hm
      rw [if_pos hfit, if_neg]
      refine List.ne_nil_of_mem (a := id) (List.mem_filter.mpr ⟨?_, by simpa using hid.ne_zero⟩)
      rwa [if_pos hfit'] at ha
    · rw [if_neg hfit, if_pos]
      refine List.eq_nil_iff_forall_not_mem.mpr fun a ha => ?_
      obtain ⟨ha, hne⟩ := List.mem_filter.mp ha
      obtain ⟨m, hm, rfl⟩ := hall a ha
      rw [decide_eq_true_iff] at hne
      exact hfit (hfits.mpr ⟨m, hm, by_contra fun hfit' => hne (if_neg hfit')⟩)

/-- **Narrowing keeps exactly the classes that fit.** -/
theorem adds_restrictUpTo_classes {fuel : Nat} {id restriction : TypeId} (hid : id < t.size)
    (hr : restriction < t.size) (hne : restriction ≠ 0) (hf : id + restriction < fuel)
    (h₁ : Later t t₁) : Adds t₁ (restrictUpTo fuel id restriction) (Narrows t id restriction) := by
  induction fuel generalizing t₁ id restriction with
  | zero => exact absurd hf (Nat.not_lt_zero _)
  | succ fuel ih =>
    refine Adds.get_bind ?_
    rw [h₁.grown.get?_eq hid, h₁.grown.get?_eq hr]
    split
    · rename_i hzero
      subst hzero
      exact .pure h₁.wellFormed ⟨⟨t₁.size_pos, by simp⟩, fun _ => rfl⟩
    · rename_i hzero
      split
      · rename_i hsame
        obtain rfl := hsame.resolve_left hne
        refine .pure h₁.wellFormed ⟨⟨h₁.lt_size hid, fun c => ?_⟩, fun _ => rfl⟩
        rw [h₁.grown.concrete_eq h hl hid]
        exact (and_iff_left_of_imp fun hc => hs.implements_of_mem_concrete h hl hid hc).symm
      · split
        · rename_i hvar
          exact absurd hvar hs.closed
        · rename_i ms hms _
          refine hs.adds_restrict_members h hl hms h₁ fun m hm t' h' => ?_
          have hlt : m < id := h.links_lt hms m hm
          exact ih (Nat.lt_trans hlt hid) hr hne (by lia) h'
        · rename_i base hbase _
          have hlt : base < t.size :=
            Nat.lt_trans (h.links_lt hbase base (by simp [Entry.links])) hid
          have hsteps : t.size - base ≤ t₁.size := Nat.le_trans (Nat.sub_le _ _) h₁.grown.size_le
          refine (hs.adds_restrictBelow_classes h hl hr (hs.bases hbase) hsteps h₁).imp ?_
          rintro t₂ m h₂ hg ⟨⟨hm, hclasses⟩, hwhole⟩
          refine ⟨⟨hm, fun c => ?_⟩, fun hall => ?_⟩
          · rw [hclasses]
            simp only [mem_concrete_hierarchy hbase]
          · have hself := hall base ((mem_concrete_hierarchy hbase).mpr (h.self_mem_subtree hl base))
            exact h₂.interned (hwhole hself) ((h₁.grown.trans hg).get hbase) trivial
        · rename_i ms hms hflat hhier
          refine adds_restrict_alternatives h hl ⟨hzero, hid, ?_, ?_⟩ hms h₁ fun m hm t' h' => ?_
          · exact fun ns hns => hflat ns hns
          · exact fun base hbase => hhier base hbase
          · have hlt : m < restriction := h.links_lt hms m hm
            obtain ⟨e, he⟩ := (h.union hms).known m hm
            exact ih hid (Nat.lt_trans hlt hr) (Nat.ne_of_gt (pos_of_get? he)) (by lia) h'
        · rename_i _ hflat hhier
          rw [h₁.grown.implements_eq h h₁.wellFormed hl hid hr]
          refine .pure h₁.wellFormed ((narrows_single_iff h hl ⟨hzero, hid, ?_, ?_⟩ h₁).mpr rfl)
          · exact fun ns hns => hflat ns hns
          · exact fun base hbase => hhier base hbase

theorem adds_restrict_classes {id restriction : TypeId} (hid : id < t.size)
    (hr : restriction < t.size) (hne : restriction ≠ 0) (h₁ : Later t t₁) :
    Adds t₁ (restrict id restriction) (Narrows t id restriction) := by
  have hsize := h₁.grown.size_le
  exact Adds.get_bind (hs.adds_restrictUpTo_classes h hl hid hr hne (by lia) h₁)

end Shaped

namespace Narrows

variable {id restriction m : TypeId} (hm : Narrows t id restriction t₂ m)

include hm

theorem concrete_eq : t₂.concrete m = (t.concrete id).filter (t.implements · restriction) := by
  refine eq_of_increasing (t₂.concrete_increasing m) ((t.concrete_increasing id).filter _) fun c => ?_
  rw [hm.classes.2, List.mem_filter]

theorem eq_zero_iff (h₂ : Later t t₂) :
    m = 0 ↔ (t.concrete id).filter (t.implements · restriction) = [] := by
  rw [← hm.concrete_eq, h₂.wellFormed.concrete_eq_nil_iff h₂.linked]

theorem eq_iff (h : WellFormed t) (hl : Linked t) (hid : id < t.size) (h₂ : Later t t₂) :
    m = id ↔ ∀ c ∈ t.concrete id, t.implements c restriction = true := by
  refine ⟨fun heq c hc => ?_, hm.whole⟩
  have hkept : c ∈ t₂.concrete m := by
    rw [heq, h₂.grown.concrete_eq h hl hid]
    exact hc
  exact ((hm.classes.2 c).mp hkept).2

end Narrows

/-- **Narrowing is exact**: the classes of the narrowed type are those that fit the restriction, in the
same order; it is no type exactly if none fits, and the type itself exactly if all of them do. -/
theorem Inferred.concrete_restrict (h : Inferred t) {id restriction : TypeId} (hid : id < t.size)
    (hr : restriction < t.size) (hne : restriction ≠ 0) :
    let narrowed := (restrict id restriction).run t
    narrowed.2.concrete narrowed.1 = (t.concrete id).filter (t.implements · restriction) ∧
    (narrowed.1 = 0 ↔ (t.concrete id).filter (t.implements · restriction) = []) ∧
    (narrowed.1 = id ↔ ∀ c ∈ t.concrete id, t.implements c restriction = true) := by
  obtain ⟨hwf, hl, hs⟩ := h.invariants
  have hadds := hs.adds_restrict_classes hwf hl hid hr hne (.refl hwf hl)
  have hlater := Later.of_adds hl hadds
  have hnarrows := hadds.2.2
  exact ⟨hnarrows.concrete_eq, hnarrows.eq_zero_iff hlater, hnarrows.eq_iff hwf hl hid hlater⟩

/-- Two classes below the class 14, of which 15 includes the module 17, and the union 19 of nil with the
hierarchy of all three. -/
def shapes : Table :=
  Operation.runAll [
    .defineClass "Shape" Builtin.object [],
    .defineClass "Square" 14 [],
    .defineClass "Circle" 14 [],
    .defineModule "Sized",
    .«include» 15 17,
    .merge [Builtin.nil, 15, 16]] initial

/-- Of nil and the shapes, the module leaves the one class that includes it. -/
theorem concrete_restrict_shapes :
    Inferred shapes ∧ 19 < shapes.size ∧ 17 < shapes.size ∧ 17 ≠ 0 ∧
    shapes.concrete 19 = [Builtin.nil, 14, 15, 16] ∧
    ((restrict 19 17).run shapes).2.concrete ((restrict 19 17).run shapes).1 = [15] ∧
    ((restrict 19 17).run shapes).1 ≠ 19 := by
  have hinf : Inferred shapes := Inferred.initial.runAll (by decide +kernel)
  have hid : 19 < shapes.size := by decide +kernel
  have hr : 17 < shapes.size := by decide +kernel
  obtain ⟨hclasses, -, hwhole⟩ := hinf.concrete_restrict hid hr (by decide)
  refine ⟨hinf, hid, hr, by decide, by decide +kernel, hclasses.trans (by decide +kernel), ?_⟩
  exact fun hsame => absurd (hwhole.mp hsame) (by decide +kernel)

end TypeFlow.Table
