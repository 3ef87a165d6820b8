import TypeFlow.Proofs.Types.Concrete

/-!
# The classes of a join

Every class of a type fits every join the type takes part in, but not every one is among the classes of
the join (`Inferred.concrete_merge`). Classes are replaced by the hierarchy of their nearest common
ancestor, and a hierarchy is opened by following the lists of subclasses downwards. A generic instance
has a superclass and is not in its list, so an instance below a class that is no root, and what is
declared below it, is not found from above. Classes without such an instance above them are kept.
-/

namespace TypeFlow.Table

variable {t : Table}

/-- Whether a type is an instance of a generic class. -/
def IsGenericInstance (t : Table) (id : TypeId) : Prop :=
  ∃ o, t.get? id = some (.object o) ∧ o.generic ≠ 0

theorem isGenericInstance_iff {id : TypeId} :
    t.IsGenericInstance id ↔ (t.object? id).any (·.generic != 0) = true := by
  simp [IsGenericInstance, object?_eq_some_iff, Option.any_eq_true]

instance (id : TypeId) : Decidable (t.IsGenericInstance id) :=
  decidable_of_iff _ isGenericInstance_iff.symm

/-! ### What fits a type -/

namespace WellFormed

theorem implements_self (h : WellFormed t) (hl : Linked t) {id : TypeId} (hid : id < t.size) :
    t.implements id id = true := by
  rw [h.implements_eq hl hid hid, if_pos rfl]

/-- What fits a member fits the type. -/
theorem implements_of_member (h : WellFormed t) (hl : Linked t) {id m c : TypeId}
    (hc : c < t.size) (hne : c ≠ 0) (hflat : ∀ ns, t.get? c ≠ some (.union ns))
    (hm : m ∈ t.members id) (hfit : t.implements c m = true) : t.implements c id = true := by
  by_cases hunion : ∃ ms, t.get? id = some (.union ms)
  · obtain ⟨ms, hms⟩ := hunion
    rw [members_of_union hms] at hm
    exact (h.implements_union_iff hl hc hflat hne hms).mpr ⟨m, hm, hfit⟩
  · by_cases h0 : id = 0
    · subst h0
      simp at hm
    · rw [members_of_not_union h0 (not_exists.mp hunion), List.mem_singleton] at hm
      rwa [← hm]

/-- A type that stands for itself fits the types it is a part of. -/
theorem implements_of_one (h : WellFormed t) (hl : Linked t) {id c : TypeId} (hc : Single t c)
    (hp : .one c ∈ t.parts id) : t.implements c id = true := by
  obtain ⟨m, hm, hpart⟩ := hp
  refine h.implements_of_member hl hc.lt_size hc.ne_zero hc.no_union hm ?_
  rw [part_eq_one hpart]
  exact h.implements_self hl hc.lt_size

/-- A class fits the types that stand for one of its ancestors with all classes below. -/
theorem implements_of_whole (h : WellFormed t) (hl : Linked t) {id base c : TypeId}
    {o : ObjectEntry} (ho : t.get? c = some (.object o)) (hbase : base ∈ t.ancestors c)
    (hp : .whole base ∈ t.parts id) : t.implements c id = true := by
  obtain ⟨m, hm, hpart⟩ := hp
  have hhier := part_eq_whole_iff.mp hpart
  have hc := Single.of_object ho
  refine h.implements_of_member hl hc.lt_size hc.ne_zero hc.no_union hm ?_
  rw [h.implements_object_iff hl ho (lt_size_of_get? hhier) (by simp [hhier])]
  simpa [goal, hhier] using hbase

end WellFormed

/-- **Every class of a type fits the type.** -/
theorem Shaped.implements_of_mem_concrete (hs : Shaped t) (h : WellFormed t) (hl : Linked t)
    {id c : TypeId} (hid : id < t.size) (hc : c ∈ t.concrete id) : t.implements c id = true := by
  have hsingle := hs.single_of_mem_concrete h hl hid hc
  obtain ⟨p, hp, hc⟩ := mem_concrete_iff.mp hc
  cases p with
  | one m =>
    obtain rfl : c = m := by simpa [classes] using hc
    obtain ⟨m, hm, hpart⟩ := hp
    obtain rfl := part_eq_one hpart
    exact h.implements_of_member hl hsingle.lt_size hsingle.ne_zero hsingle.no_union hm
      (h.implements_self hl hsingle.lt_size)
  | whole base =>
    have hhier := hp
    obtain ⟨m, -, hpart⟩ := hhier
    obtain ⟨⟨o, ho⟩, hbelow⟩ :=
      hs.below_of_mem_subtree h hl (hs.bases (part_eq_whole_iff.mp hpart)) hc
    exact h.implements_of_whole hl ho
      (h.mem_ancestors_of_below hsingle.ne_zero hbelow) hp

/-! ### What a join keeps -/

/-- How a class of a type is found in the join of parts that it belongs to: in a part that is kept as
it is, or below the nearest common ancestor of its family. -/
theorem WellFormed.mem_join_cases (h : WellFormed t) {S : Set Part} {p : Part} {c : TypeId}
    (hp : p ∈ S) (hc : c ∈ t.classes p) (hne : c ≠ Builtin.noReturn) :
    (∃ q ∈ t.join S, c ∈ t.classes q) ∨
      ∃ a, .whole a ∈ t.join S ∧ Below t p.base a ∧ 1 ≤ t.depth a := by
  by_cases hcomb : t.Combines p
  · have hfam : p ∈ t.family S (t.topAncestor p.base) := ⟨hp, hcomb, rfl⟩
    obtain ⟨q, hq⟩ := h.exists_sums ⟨p, hfam⟩
    have hjoin : q ∈ t.join S := .inr ⟨_, ⟨p, hfam⟩, hq⟩
    cases q with
    | one x =>
      -- a family of one class is that class
      have hF := (hq.single x).mp rfl
      obtain rfl : p = .one x := by
        rw [hF] at hfam
        exact hfam
      exact .inl ⟨_, hjoin, hc⟩
    | whole a =>
      have htop : t.topAncestor a ≠ 0 := (h.sums_mem_family ⟨p, hfam⟩ hq).1
      obtain ⟨hbelow, hd⟩ := h.tiered.below_topAncestor htop
      have hle := (h.tiered.below_iff.mp hbelow).1
      exact .inr ⟨a, hjoin, hq.nearest.above p.base ⟨p, hfam, rfl⟩, by lia⟩
  · refine .inl ⟨p, .inl ⟨hp, hcomb, ?_⟩, hc⟩
    rintro rfl
    exact absurd (by simpa [classes] using hc) hne

/-- What a join gathers below an ancestor that is no root are classes, and stand below the ancestor. -/
theorem Shaped.below_of_part (hs : Shaped t) (h : WellFormed t) (hl : Linked t) {x c a : TypeId}
    {p : Part} (hp : p ∈ t.parts x) (hc : c ∈ t.classes p) (hpa : Below t p.base a)
    (hda : 1 ≤ t.depth a) : (∃ o, t.get? c = some (.object o)) ∧ Below t c a := by
  cases p with
  | one m =>
    obtain rfl : c = m := by simpa [classes] using hc
    have hle := (h.tiered.below_iff.mp hpa).1
    refine ⟨h.object_of_topAncestor fun htop => ?_, hpa⟩
    rw [h.tiered.topAncestor_eq_zero_iff] at htop
    exact absurd (htop ▸ hle : t.depth a ≤ 0) (by lia)
  | whole base =>
    obtain ⟨m, -, hpart⟩ := hp
    obtain ⟨hobject, hbelow⟩ :=
      hs.below_of_mem_subtree h hl (hs.bases (part_eq_whole_iff.mp hpart)) hc
    exact ⟨hobject, h.tiered.below_trans hbelow hpa⟩

/-- A generic instance that is a member does not combine, so it is kept as it is. -/
theorem instance_mem_join {xs : List TypeId} {x c : TypeId} (hx : x ∈ xs) (hc : c ∈ t.members x)
    {o : ObjectEntry} (ho : t.get? c = some (.object o)) (hgen : o.generic ≠ 0)
    (hne : c ≠ Builtin.noReturn) : .one c ∈ t.join (t.partsOf xs) := by
  have hpart : t.part c = .one c := part_of_not_hierarchy (by simp [ho])
  refine .inl ⟨⟨x, hx, c, hc, hpart⟩, ?_, fun heq => absurd (Part.one.inj heq) hne⟩
  rintro ⟨-, o', ho', -, -, hplain⟩
  obtain rfl : o' = o := by simpa [ho] using ho'.symm
  exact hgen hplain

/-- The classes of a type made of the join of known parts are those of the join, also in a later table. -/
theorem WellFormed.mem_concrete_of_join (h : WellFormed t) (hl : Linked t) {S : Set Part} (hS : Known t S)
    (hg : Grown t t') {m c : TypeId} (hparts : t'.parts m = t.join S) :
    c ∈ t'.concrete m ↔ ∃ p ∈ t.join S, c ∈ t.classes p := by
  rw [mem_concrete_iff, hparts]
  refine exists_congr fun p => and_congr_right fun hp => ?_
  rw [hg.classes_eq h hl (h.known_join hS p hp)]

/-- What a join holds as it is was there before. -/
theorem mem_of_one_mem_join {S : Set Part} {c : TypeId} (hc : .one c ∈ t.join S) : .one c ∈ S := by
  rcases hc with ⟨hc, -⟩ | ⟨top, -, hsum⟩
  · exact hc
  · have hfamily : .one c ∈ t.family S top := (hsum.single c).mp rfl ▸ rfl
    exact hfamily.1

/-- What a join gathers as a whole stands below a class. -/
theorem Shaped.object_of_whole (hs : Shaped t) (h : WellFormed t) {xs : List TypeId} {a : TypeId}
    (ha : .whole a ∈ t.join (t.partsOf xs)) : ∃ o, t.get? a = some (.object o) := by
  rcases ha with ⟨⟨x, -, m, -, hpart⟩, -⟩ | ⟨top, hne, hsum⟩
  · exact hs.bases (part_eq_whole_iff.mp hpart)
  · exact h.object_of_sums hne hsum

/-- A class of a type fits every type that is made of a join the type takes part in, and is among its
classes unless a generic instance above it hides it. -/
theorem Shaped.fits_join (hs : Shaped t) (h : WellFormed t) (hl : Linked t) {xs : List TypeId}
    (hxs : ∀ x ∈ xs, x < t.size) {x c : TypeId} (hx : x ∈ xs) (hc : c ∈ t.concrete x)
    (hne : c ≠ Builtin.noReturn) (h' : WellFormed t') (hg : Grown t t') {m : TypeId}
    (hparts : t'.parts m = t.join (t.partsOf xs)) :
    t'.implements c m = true ∧
      ((∀ g, Below t c g → t.IsGenericInstance g →
        t.depth g ≤ 1 ∨ (g = c ∧ c ∈ t.members x)) → c ∈ t'.concrete m) := by
  have hl' : Linked t' := hl.of_grown hg
  have hknown := h.known_join (h.known_partsOf hxs)
  have hsingle := hs.single_of_mem_concrete h hl (hxs x hx) hc
  have hfound : ∀ {q : Part}, q ∈ t.join (t.partsOf xs) → c ∈ t.classes q → c ∈ t'.concrete m :=
    fun hq hcq => (h.mem_concrete_of_join hl (h.known_partsOf hxs) hg hparts).mpr ⟨_, hq, hcq⟩
  -- what stands below a class that is gathered as a whole fits
  have hgathered : ∀ {a : TypeId} {o : ObjectEntry}, .whole a ∈ t.join (t.partsOf xs) →
      t.get? c = some (.object o) → Below t c a → t'.implements c m = true := by
    intro a o ha ho hca
    have hca' : Below t' c a := (hg.toExtends.below_iff h.tiered h'.tiered hsingle.lt_size).mpr hca
    exact h'.implements_of_whole hl' (hg.get ho)
      (h'.mem_ancestors_of_below hsingle.ne_zero hca') (hparts ▸ ha)
  obtain ⟨p, hp, hcp⟩ := mem_concrete_iff.mp hc
  rcases h.mem_join_cases (S := t.partsOf xs) ⟨x, hx, hp⟩ hcp hne with
    ⟨q, hq, hcq⟩ | ⟨a, ha, hpa, hda⟩
  · refine ⟨?_, fun _ => hfound hq hcq⟩
    cases q with
    | one y =>
      obtain rfl : c = y := by simpa [classes] using hcq
      exact h'.implements_of_one hl' (hsingle.of_grown hg) (hparts ▸ hq)
    | whole a =>
      obtain ⟨⟨o, ho⟩, hca⟩ := hs.below_of_mem_subtree h hl (hs.object_of_whole h hq) hcq
      exact hgathered hq ho hca
  · obtain ⟨⟨o, ho⟩, hca⟩ := hs.below_of_part h hl hp hcp hpa hda
    refine ⟨hgathered ha ho hca, fun hway => ?_⟩
    by_cases hmember : c ∈ t.members x ∧ o.generic ≠ 0
    · exact hfound (instance_mem_join hx hmember.1 ho hmember.2 hne) (by simp [classes])
    · -- nothing on the way up to the ancestor is left out of the list of its superclass
      refine hfound ha (hs.mem_subtree_of_below h hl hca fun g p hcg hdepth hp => ?_)
      by_contra hgen
      rcases hway g hcg ⟨p, hp, hgen⟩ with hle | ⟨rfl, hmem⟩
      · lia
      · obtain rfl : p = o := by simpa [ho] using hp.symm
        exact hmember ⟨hmem, hgen⟩

/-- **Every class of a type fits the joins of the type, and is among their classes** as long as the
generic instances above it stand directly below a root. An instance that is itself a member of the type
is kept wherever it stands. -/
theorem Inferred.concrete_merge (h : Inferred t) {xs : List TypeId} (hxs : ∀ x ∈ xs, x < t.size)
    {x c : TypeId} (hx : x ∈ xs) (hc : c ∈ t.concrete x) (hne : c ≠ Builtin.noReturn) :
    let joined := (merge xs).run t
    joined.2.implements c joined.1 = true ∧
      ((∀ g, Below t c g → t.IsGenericInstance g →
        t.depth g ≤ 1 ∨ (g = c ∧ c ∈ t.members x)) → c ∈ joined.2.concrete joined.1) := by
  obtain ⟨hwf, hl, hs⟩ := h.invariants
  obtain ⟨hwf', hg, -, hparts⟩ := hwf.adds_merge hxs
  exact hs.fits_join hwf hl hxs hx hc hne hwf' hg hparts

/-- Two classes, 16 and 17, declared below an instance of a generic class that stands directly below
the root. -/
def boxes : Table :=
  Operation.runAll [
    .defineClass "Box" Builtin.object ["T"],
    .instantiate 14 [Builtin.bool],
    .defineClass "Crate" 15 [],
    .defineClass "Chest" 15 []] initial

/-- Classes declared below an instance directly below the root are kept. -/
theorem concrete_merge_boxes :
    Inferred boxes ∧ (∀ x ∈ [16, 17], x < boxes.size) ∧ 16 ∈ boxes.concrete 16 ∧
    16 ≠ Builtin.noReturn ∧
    (∀ g, Below boxes 16 g → boxes.IsGenericInstance g →
      boxes.depth g ≤ 1 ∨ (g = 16 ∧ 16 ∈ boxes.members 16)) ∧
    16 ∈ ((merge [16, 17]).run boxes).2.concrete ((merge [16, 17]).run boxes).1 := by
  have hinf : Inferred boxes := Inferred.initial.runAll (by decide +kernel)
  have hxs : ∀ x ∈ [16, 17], x < boxes.size := by decide +kernel
  have hc : 16 ∈ boxes.concrete 16 := by decide +kernel
  have habove : ∀ n ≤ boxes.depth 16, boxes.IsGenericInstance (boxes.climb n 16) →
      boxes.depth (boxes.climb n 16) ≤ 1 := by decide +kernel
  have hway : ∀ g, Below boxes 16 g → boxes.IsGenericInstance g →
      boxes.depth g ≤ 1 ∨ (g = 16 ∧ 16 ∈ boxes.members 16) := by
    rintro g ⟨n, hn, rfl⟩ hg
    exact .inl (habove n hn hg)
  refine ⟨hinf, hxs, hc, by decide, hway, ?_⟩
  exact (hinf.concrete_merge hxs (by decide) hc (by decide)).2 hway

/-- The same below a class 14 that is no root: the class 17 is declared below an instance of the generic
class 15, and the class 18 stands beside the latter. -/
def crates : Table :=
  Operation.runAll [
    .defineClass "Base" Builtin.object [],
    .defineClass "Box" 14 ["T"],
    .instantiate 15 [Builtin.bool],
    .defineClass "Crate" 16 [],
    .defineClass "Other" 14 []] initial

/-- **A class is lost.** It is a subclass of the common ancestor and fits the join, but is not among the
classes of the join. -/
theorem concrete_merge_crates :
    Inferred crates ∧ (∀ x ∈ [17, 18], x < crates.size) ∧ 17 ∈ crates.concrete 17 ∧
    17 ≠ Builtin.noReturn ∧ crates.isSubclassOf 17 14 = true ∧
    ((merge [17, 18]).run crates).2.get? ((merge [17, 18]).run crates).1 = some (.hierarchy 14) ∧
    17 ∉ ((merge [17, 18]).run crates).2.concrete ((merge [17, 18]).run crates).1 := by
  have hinf : Inferred crates := Inferred.initial.runAll (by decide +kernel)
  exact ⟨hinf, by decide +kernel⟩

end TypeFlow.Table
