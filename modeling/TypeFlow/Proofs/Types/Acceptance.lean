import TypeFlow.Proofs.Types.JoinedClasses

/-!
# Unions as candidates

A target that is a union is opened before the candidate is. A union therefore fits another one only if
a single member of it accepts all members of the candidate: that every member of the candidate fits is
necessary (`WellFormed.implements_of_mem_union`), and sufficient only for a target that is no union or
that is the candidate itself (`WellFormed.union_implements_iff`).

What is joined fits the join member by member (`Shaped.implements_merge`): a member is kept as it is, or
stands below the ancestor that its family is gathered under.
-/

namespace TypeFlow.Table

variable {t t' : Table}

namespace WellFormed

/-- **A union fits a target exactly if it is the target or one member of the target accepts all its
members.** -/
theorem union_implements_iff (h : WellFormed t) (hl : Linked t) {id target : TypeId}
    {ms : List TypeId} (hms : t.get? id = some (.union ms)) (htarget : target < t.size) :
    t.implements id target = true ↔
      id = target ∨ ∃ n ∈ t.members target, ∀ m ∈ ms, t.implements m n = true := by
  have hid := lt_size_of_get? hms
  have hne : id ≠ 0 := Nat.ne_of_gt (pos_of_get? hms)
  -- a target that is no union has to accept all members
  have hall : ∀ {n : TypeId}, n < t.size → n ≠ 0 → (∀ ns, t.get? n ≠ some (.union ns)) →
      (t.implements id n = true ↔ ∀ m ∈ ms, t.implements m n = true) := by
    intro n hn hn0 hflat
    have hdiff : id ≠ n := by
      rintro rfl
      exact hflat ms hms
    rw [h.implements_eq hl hid hn, if_neg hdiff, if_neg (by simp [hne, hn0])]
    split
    · rename_i hns
      exact absurd hns (hflat _)
    all_goals simp_all
  by_cases hsame : id = target
  · subst hsame
    exact iff_of_true (h.implements_self hl hid) (.inl rfl)
  · rw [or_iff_right hsame]
    by_cases hunion : ∃ ns, t.get? target = some (.union ns)
    · obtain ⟨ns, hns⟩ := hunion
      have hopen : t.implements id target = true ↔ ∃ n ∈ ns, t.implements id n = true := by
        have htarget0 : target ≠ 0 := Nat.ne_of_gt (pos_of_get? hns)
        rw [h.implements_eq hl hid htarget, if_neg hsame, if_neg (by simp [hne, htarget0])]
        simp [hns]
      rw [hopen, members_of_union hns]
      refine exists_congr fun n => and_congr_right fun hn => ?_
      obtain ⟨e, he⟩ := (h.union hns).known n hn
      exact hall (lt_size_of_get? he) (Nat.ne_of_gt (pos_of_get? he)) ((h.union hns).flat n hn)
    · have hflat := not_exists.mp hunion
      by_cases h0 : target = 0
      · subst h0
        rw [h.implements_eq hl hid htarget, if_neg hne]
        simp
      · rw [members_of_not_union h0 hflat, hall htarget h0 hflat]
        simp

/-- Every member of a union fits what the union fits. -/
theorem implements_of_mem_union (h : WellFormed t) (hl : Linked t) {id target m : TypeId}
    {ms : List TypeId} (hms : t.get? id = some (.union ms)) (htarget : target < t.size)
    (hfit : t.implements id target = true) (hm : m ∈ ms) : t.implements m target = true := by
  obtain ⟨e, he⟩ := (h.union hms).known m hm
  have hlt := lt_size_of_get? he
  have hne : m ≠ 0 := Nat.ne_of_gt (pos_of_get? he)
  have hflat := (h.union hms).flat m hm
  rcases (h.union_implements_iff hl hms htarget).mp hfit with rfl | ⟨n, hn, hall⟩
  · refine h.implements_of_member hl hlt hne hflat ?_ (h.implements_self hl hlt)
    rwa [members_of_union hms]
  · exact h.implements_of_member hl hlt hne hflat hn (hall m hm)

/-- A type fits the hierarchies of the ancestors that it, or the class it is the hierarchy of, has. -/
theorem implements_hierarchy (h : WellFormed t) (hl : Linked t) (hs : Shaped t) {id m a : TypeId}
    (hid : id < t.size) (hcomb : t.Combines (t.part id)) (hm : t.get? m = some (.hierarchy a))
    (ha : a ∈ t.ancestors (t.part id).base) : t.implements id m = true := by
  have hlt := lt_size_of_get? hm
  have hgoal : t.goal m = a := by simp [goal, hm]
  have hclass : ∀ {c : TypeId} {o : ObjectEntry}, t.get? c = some (.object o) →
      (t.implements c m = true ↔ a ∈ t.ancestors c) := by
    intro c o ho
    rw [h.implements_object_iff hl ho hlt (by simp [hm]), hgoal]
  cases hp : t.part id with
  | one c =>
    obtain rfl := part_eq_one hp
    rw [hp] at hcomb ha
    obtain ⟨-, o, ho, -⟩ := hcomb
    exact (hclass ho).mpr ha
  | whole base =>
    rw [hp] at ha
    have hbase := part_eq_whole_iff.mp hp
    obtain ⟨o, ho⟩ := hs.bases hbase
    by_cases hsame : id = m
    · subst hsame
      exact h.implements_self hl hid
    · have hzero : ¬ (id = 0 ∨ m = 0) := by
        rintro (rfl | rfl)
        · simp at hbase
        · simp at hm
      have hstep : t.implements id m = t.implements base m := by
        rw [h.implements_eq hl hid hlt, if_neg hsame, if_neg hzero]
        simp [hm, hbase]
      rw [hstep]
      exact (hclass ho).mpr ha

end WellFormed

/-! ### What fits a join -/

/-- **Every member of a type fits the joins that the type takes part in**, unless it never yields a
value. -/
theorem Shaped.implements_merge (hs : Shaped t) (h : WellFormed t) (hl : Linked t) {xs : List TypeId}
    (hxs : ∀ x ∈ xs, x < t.size) {x m : TypeId} (hx : x ∈ xs) (hm : m ∈ t.members x)
    (hne : m ≠ Builtin.noReturn) :
    ((merge xs).run t).2.implements m ((merge xs).run t).1 = true := by
  obtain ⟨h', hg, -, hparts⟩ := h.adds_merge hxs
  have hl' := hl.of_grown hg
  have hs' := h.shaped_merge hs hxs
  generalize ((merge xs).run t).2 = t' at *
  generalize ((merge xs).run t).1 = joined at *
  obtain ⟨hpos, hlt⟩ := h.members_lt_size (hxs x hx) hm
  have hpart : t'.part m = t.part m := hg.toExtends.part_eq hlt
  have hbase := h.part_base_lt hlt
  have hpmem : t.part m ∈ t.partsOf xs := ⟨x, hx, m, hm, rfl⟩
  -- it is enough that the member fits one member of the join
  have hfound : ∀ {q : Part}, q ∈ t.join (t.partsOf xs) →
      (∀ n, t'.part n = q → t'.implements m n = true) → t'.implements m joined = true := by
    intro q hq hfits
    obtain ⟨n, hn, hnq⟩ : q ∈ t'.parts joined := hparts ▸ hq
    refine h'.implements_of_member hl' (hg.lt_size hlt) (Nat.ne_of_gt hpos) ?_ hn (hfits n hnq)
    rw [hg.get?_eq hlt]
    exact h.members_flat hm
  have hkept : t.part m ∈ t.join (t.partsOf xs) → t'.implements m joined = true := by
    refine fun hq => hfound hq fun n hn => ?_
    rw [h'.part_injective (hn.trans hpart.symm)]
    exact h'.implements_self hl' (hg.lt_size hlt)
  by_cases hcomb : t.Combines (t.part m)
  · have hfam : t.part m ∈ t.family (t.partsOf xs) (t.topAncestor (t.part m).base) :=
      ⟨hpmem, hcomb, rfl⟩
    obtain ⟨q, hq⟩ := h.exists_sums ⟨_, hfam⟩
    have hjoin : q ∈ t.join (t.partsOf xs) := .inr ⟨_, ⟨_, hfam⟩, hq⟩
    cases q with
    | one c =>
      -- the family is this member alone
      have hF := (hq.single c).mp rfl
      rw [hF] at hfam
      exact hkept (hfam ▸ hjoin)
    | whole a =>
      refine hfound hjoin fun n hn => ?_
      have hbelow : Below t' (t.part m).base a :=
        (hg.toExtends.below_iff h.tiered h'.tiered hbase).mpr (hq.nearest.above _ ⟨_, hfam, rfl⟩)
      have hbase0 : (t.part m).base ≠ 0 := by
        intro h0
        have htop := hcomb.topAncestor_ne
        rw [h0] at htop
        exact htop (h.tiered.topAncestor_eq_zero_iff.mpr (h.tiered.depth_eq_zero_iff.mpr (by simp [superclass])))
      refine h'.implements_hierarchy hl' hs' (hg.lt_size hlt) ?_ (part_eq_whole_iff.mp hn) ?_
      · rwa [hpart, hg.toExtends.combines_iff h h' hbase]
      · rw [hpart]
        exact h'.mem_ancestors_of_below hbase0 hbelow
  · refine hkept (.inl ⟨hpmem, hcomb, fun hnone => ?_⟩)
    exact absurd (part_eq_one hnone) hne

/-- **Acceptance and unions.** A union fits a target exactly if it is the target or one member of the
target accepts all its members; so its members fit whatever it fits, and conversely if the target is no
union. The members of a type that yield values fit every join that the type takes part in. -/
theorem Inferred.implements_memberwise (h : Inferred t) :
    (∀ id ms target, t.get? id = some (.union ms) → target < t.size →
      (t.implements id target = true ↔
        id = target ∨ ∃ n ∈ t.members target, ∀ m ∈ ms, t.implements m n = true) ∧
      (t.implements id target = true → ∀ m ∈ ms, t.implements m target = true) ∧
      ((∀ ns, t.get? target ≠ some (.union ns)) →
        (t.implements id target = true ↔ ∀ m ∈ ms, t.implements m target = true))) ∧
    ∀ xs, (∀ x ∈ xs, x < t.size) → ∀ x ∈ xs, ∀ m ∈ t.members x, m ≠ Builtin.noReturn →
      ((merge xs).run t).2.implements m ((merge xs).run t).1 = true := by
  obtain ⟨hwf, hl, hs⟩ := h.invariants
  constructor
  · intro id ms target hms htarget
    have hiff := hwf.union_implements_iff hl hms htarget
    have honly : t.implements id target = true → ∀ m ∈ ms, t.implements m target = true :=
      fun hfit m hm => hwf.implements_of_mem_union hl hms htarget hfit hm
    refine ⟨hiff, honly, fun hflat => ⟨honly, fun hall => hiff.mpr (.inr ⟨target, ?_, hall⟩)⟩⟩
    -- no type is accepted by no member, and a union has members
    have h0 : target ≠ 0 := by
      rintro rfl
      obtain ⟨m, hm⟩ := List.exists_mem_of_length_pos (Nat.lt_of_lt_of_le Nat.two_pos
        (hwf.union hms).several)
      obtain ⟨e, he⟩ := (hwf.union hms).known m hm
      have hfit := hall m hm
      rw [hwf.implements_eq hl (lt_size_of_get? he) htarget,
        if_neg (Nat.ne_of_gt (pos_of_get? he))] at hfit
      simp at hfit
    rw [members_of_not_union h0 hflat]
    exact List.mem_singleton_self target
  · intro xs hxs x hx m hm hne
    exact hs.implements_merge hwf hl hxs hx hm hne

/-- The union 14 of truth values and characters, and the union 15 of these with nil. -/
def answers : Table :=
  Operation.runAll [
    .unionOf [Builtin.bool, Builtin.char],
    .unionOf [Builtin.bool, Builtin.char, Builtin.nil]] initial

theorem implements_memberwise_answers :
    Inferred answers ∧ answers.get? 14 = some (.union [Builtin.bool, Builtin.char]) ∧
    Builtin.value < answers.size ∧
    (answers.implements 14 Builtin.value = true ↔
      ∀ m ∈ [Builtin.bool, Builtin.char], answers.implements m Builtin.value = true) ∧
    (∀ m ∈ answers.members 14, m ≠ Builtin.noReturn →
      ((merge [14, Builtin.nil]).run answers).2.implements m
        ((merge [14, Builtin.nil]).run answers).1 = true) := by
  have hinf : Inferred answers := Inferred.initial.runAll (by decide +kernel)
  have hms : answers.get? 14 = some (.union [Builtin.bool, Builtin.char]) := by decide +kernel
  have hvalue : Builtin.value < answers.size := by decide +kernel
  have hflat : ∀ ns, answers.get? Builtin.value ≠ some (.union ns) := by
    have hkind : answers.kind? Builtin.value ≠ some .union := by decide +kernel
    intro ns hns
    exact hkind (by simp [kind?, hns, Entry.kind])
  have hxs : ∀ x ∈ [14, Builtin.nil], x < answers.size := by decide +kernel
  obtain ⟨hunion, hjoin⟩ := hinf.implements_memberwise
  exact ⟨hinf, hms, hvalue, (hunion 14 _ _ hms hvalue).2.2 hflat, hjoin _ hxs 14 (by decide)⟩

/-- **A union does not fit a larger one.** Both members fit the larger union, which is also what joining
the smaller one with nil gives. -/
theorem not_implements_answers :
    Inferred answers ∧ answers.get? 14 = some (.union [Builtin.bool, Builtin.char]) ∧
    answers.get? 15 = some (.union [Builtin.nil, Builtin.bool, Builtin.char]) ∧
    (∀ m ∈ [Builtin.bool, Builtin.char], answers.implements m 15 = true) ∧
    answers.implements 14 15 = false ∧
    ((merge [14, Builtin.nil]).run answers).1 = 15 ∧
    ((merge [14, Builtin.nil]).run answers).2.implements 14 15 = false := by
  have hinf : Inferred answers := Inferred.initial.runAll (by decide +kernel)
  exact ⟨hinf, by decide +kernel⟩

end TypeFlow.Table
