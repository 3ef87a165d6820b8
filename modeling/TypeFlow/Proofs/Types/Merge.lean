import TypeFlow.Proofs.Types.Identity
import TypeFlow.Proofs.Types.Interning
import TypeFlow.Proofs.Types.Parts

/-!
# Joining types computes the join of their parts

`merge` works on numbers: it sorts and flattens the members, walks through them once to collect
families, and interns hierarchies and a union on the way. The main result is that the parts of its
result are the join of the parts of its arguments (`WellFormed.adds_merge`); `unionOf` flattens without
combining (`WellFormed.adds_unionOf`).

The walk through the members is described by `Split`, which says of the members seen so far what the
two accumulators hold. One more member keeps it (`Split.single_add`, `Split.family_add`), so it holds at
the end. Members are visited in increasing order and without repetitions; that they are distinct is used,
since a family with one class seen twice would count as several.
-/

namespace TypeFlow.Table

variable {t t' : Table}

/-! ### Sorting and flattening -/

theorem mem_insertSorted {x m : TypeId} {ids : List TypeId} :
    m ∈ insertSorted x ids ↔ m = x ∨ m ∈ ids := by
  induction ids with
  | nil => simp [insertSorted]
  | cons y rest ih =>
    rw [insertSorted]
    split
    · simp
    · split
      · rename_i hxy
        simp [hxy]
      · simp only [List.mem_cons, ih]
        exact or_left_comm

theorem insertSorted_increasing {x : TypeId} {ids : List TypeId} (h : ids.Pairwise (· < ·)) :
    (insertSorted x ids).Pairwise (· < ·) := by
  induction ids with
  | nil => simp [insertSorted]
  | cons y rest ih =>
    obtain ⟨hy, hrest⟩ := List.pairwise_cons.mp h
    rw [insertSorted]
    split
    · rename_i hxy
      refine List.pairwise_cons.mpr ⟨fun z hz => ?_, h⟩
      rcases List.mem_cons.mp hz with rfl | hz
      · exact hxy
      · exact Nat.lt_trans hxy (hy z hz)
    · split
      · exact h
      · rename_i hlt hne
        refine List.pairwise_cons.mpr ⟨fun z hz => ?_, ih hrest⟩
        rcases mem_insertSorted.mp hz with rfl | hz
        · lia
        · exact hy z hz

@[simp] theorem mem_sortedUnique {m : TypeId} {ids : List TypeId} :
    m ∈ sortedUnique ids ↔ m ∈ ids := by
  induction ids with
  | nil => rfl
  | cons x rest ih =>
    rw [List.mem_cons, ← ih]
    exact mem_insertSorted

theorem sortedUnique_increasing (ids : List TypeId) : (sortedUnique ids).Pairwise (· < ·) := by
  induction ids with
  | nil => exact List.Pairwise.nil
  | cons x rest ih => exact insertSorted_increasing ih

theorem nodup_of_increasing {ids : List TypeId} (h : ids.Pairwise (· < ·)) : ids.Nodup :=
  h.imp Nat.ne_of_lt

theorem eq_singleton_of_increasing {x : TypeId} {ids : List TypeId} (h : ids.Pairwise (· < ·))
    (hx : x ∈ ids) (honly : ∀ y ∈ ids, y = x) : ids = [x] := by
  match ids, h, hx, honly with
  | [y], _, _, honly => rw [honly y List.mem_cons_self]
  | y :: z :: rest, h, _, honly =>
    have hyz : y < z := (List.pairwise_cons.mp h).1 z List.mem_cons_self
    rw [honly y List.mem_cons_self, honly z (by simp)] at hyz
    exact absurd hyz (Nat.lt_irrefl x)

/-- Distinct types are never dropped as equal. -/
theorem WellFormed.dropEqual_eq (h : WellFormed t) {kept ids : List TypeId}
    (hnd : (kept.reverse ++ ids).Nodup) : t.dropEqual kept ids = kept.reverse ++ ids := by
  induction ids generalizing kept with
  | nil => rw [dropEqual, List.append_nil]
  | cons id rest ih =>
    have hnew : id ∉ kept.reverse := by
      intro hmem
      exact (List.nodup_append.mp hnd).2.2 id hmem id List.mem_cons_self rfl
    have hany : kept.reverse.any (t.equal · id) = false := by
      rw [List.any_eq_false]
      intro x hx heq
      exact hnew (h.equal_iff.mp heq ▸ hx)
    rw [dropEqual, hany, if_neg (by simp), ih]
    · simp
    · simpa using hnd

/-- Flattening leaves out what never yields a value if there is anything else. -/
theorem WellFormed.mem_flatten (h : WellFormed t) {ids : List TypeId} {m : TypeId} :
    m ∈ t.flatten ids ↔ m ∈ ids.flatMap t.members ∧
      (m = Builtin.noReturn → ∀ n ∈ ids.flatMap t.members, n = Builtin.noReturn) := by
  unfold flatten
  generalize ids.flatMap t.members = all
  simp only
  rw [h.dropEqual_eq (by simpa using nodup_of_increasing (sortedUnique_increasing _)),
    List.reverse_nil, List.nil_append]
  have hrest : ∀ n, n ∈ sortedUnique (all.filter (· ≠ Builtin.noReturn)) ↔
      n ∈ all ∧ n ≠ Builtin.noReturn := by
    intro n
    simp
  split
  · rename_i hnil
    have honly : ∀ n ∈ all, n = Builtin.noReturn := by
      intro n hn
      by_contra hne
      have := (hrest n).mpr ⟨hn, hne⟩
      rw [hnil] at this
      exact absurd this (by simp)
    refine ⟨fun hm => ?_, fun hm => ?_⟩
    · split at hm
      · rename_i hin
        obtain rfl := List.mem_singleton.mp hm
        exact ⟨hin, fun _ => honly⟩
      · exact absurd hm (by simp)
    · obtain rfl := honly m hm.1
      simp [hm.1]
  · rename_i hne
    obtain ⟨n, hn⟩ := List.exists_mem_of_ne_nil _ hne
    rw [hrest]
    refine and_congr_right fun _ => ?_
    have hn := (hrest n).mp hn
    exact ⟨fun hm heq => absurd heq hm, fun hm heq => hn.2 (hm heq n hn.1)⟩

theorem WellFormed.flatten_increasing (h : WellFormed t) (ids : List TypeId) :
    (t.flatten ids).Pairwise (· < ·) := by
  unfold flatten
  simp only
  rw [h.dropEqual_eq (by simpa using nodup_of_increasing (sortedUnique_increasing _)),
    List.reverse_nil, List.nil_append]
  split
  · split <;> simp
  · exact sortedUnique_increasing _

/-! ### The parts of flat members -/

/-- The parts that flat members are. -/
def partsIn (t : Table) (ms : List TypeId) : Set Part :=
  {p | ∃ m ∈ ms, t.part m = p}

theorem partsOf_eq_partsIn (t : Table) (ids : List TypeId) :
    t.partsOf ids = t.partsIn (ids.flatMap t.members) := by
  ext p
  simp only [partsOf, parts, partsIn, List.mem_flatMap, Set.mem_ofPred_eq]
  grind

@[simp] theorem partsIn_nil (t : Table) : t.partsIn [] = ∅ := by
  simp [partsIn]

@[simp] theorem partsIn_append (t : Table) (xs ys : List TypeId) :
    t.partsIn (xs ++ ys) = t.partsIn xs ∪ t.partsIn ys := by
  ext p
  simp [partsIn, or_and_right, exists_or]

@[simp] theorem partsIn_singleton (t : Table) (m : TypeId) : t.partsIn [m] = {t.part m} := by
  ext p
  simp [partsIn, eq_comm]

theorem WellFormed.part_mem_partsIn (h : WellFormed t) {ms : List TypeId} {m : TypeId} :
    t.part m ∈ t.partsIn ms ↔ m ∈ ms := by
  refine ⟨fun ⟨n, hn, heq⟩ => h.part_injective heq ▸ hn, fun hm => ⟨m, hm, rfl⟩⟩

/-- Members that may be joined: distinct, known, and none of them a union. -/
structure Flat (t : Table) (ms : List TypeId) : Prop where
  increasing : ms.Pairwise (· < ·)
  known : ∀ m ∈ ms, 0 < m ∧ m < t.size
  flat : ∀ m ∈ ms, ∀ ns, t.get? m ≠ some (.union ns)

theorem Flat.of_grown (hg : Grown t t') {ms : List TypeId} (h : Flat t ms) : Flat t' ms := by
  refine ⟨h.increasing, fun m hm => ⟨(h.known m hm).1, hg.lt_size (h.known m hm).2⟩, ?_⟩
  intro m hm ns
  rw [hg.get?_eq (h.known m hm).2]
  exact h.flat m hm ns

theorem WellFormed.flat_flatten (h : WellFormed t) {ids : List TypeId}
    (hids : ∀ id ∈ ids, id < t.size) : Flat t (t.flatten ids) := by
  have hmem : ∀ m ∈ t.flatten ids, ∃ id ∈ ids, m ∈ t.members id := fun m hm =>
    List.mem_flatMap.mp (h.mem_flatten.mp hm).1
  refine ⟨h.flatten_increasing ids, fun m hm => ?_, fun m hm ns => ?_⟩
  · obtain ⟨id, hid, hm⟩ := hmem m hm
    exact h.members_lt_size (hids id hid) hm
  · obtain ⟨id, hid, hm⟩ := hmem m hm
    exact h.members_flat hm ns

/-- The union of flat members has them as its members, provided that what never yields a value is not
among several. -/
theorem WellFormed.adds_internUnion (h : WellFormed t) {ms : List TypeId} (hflat : Flat t ms)
    (hn : Builtin.noReturn ∈ ms → ms = [Builtin.noReturn]) :
    Adds t (internUnion ms) fun t' id => id < t'.size ∧ t'.members id = ms := by
  match ms, hflat, hn with
  | [], _, _ => exact Adds.pure h ⟨t.size_pos, rfl⟩
  | [m], hflat, _ =>
    obtain ⟨hpos, hlt⟩ := hflat.known m List.mem_cons_self
    exact Adds.pure h ⟨hlt, members_of_not_union hpos.ne' (hflat.flat m List.mem_cons_self)⟩
  | m :: n :: ms, hflat, hn =>
    have hunion : IsUnion t (m :: n :: ms) := by
      refine ⟨by simp, hflat.increasing, fun x hx => ?_, hflat.flat, fun hmem => ?_⟩
      · exact exists_get?_of_lt (hflat.known x hx).1 (hflat.known x hx).2
      · exact absurd (hn hmem) (by simp)
    refine (h.adds_intern (e := .union (m :: n :: ms)) trivial ?_ ?_).imp ?_
    · exact fun c hc => (hflat.known c hc).2
    · rintro _ ⟨⟩
      exact hunion
    · exact fun t' id _ _ hid => ⟨lt_size_of_get? hid, members_of_union hid⟩

/-- The members of a union are the flattened members of its arguments. -/
theorem WellFormed.adds_unionOf (h : WellFormed t) {ids : List TypeId}
    (hids : ∀ id ∈ ids, id < t.size) :
    Adds t (unionOf ids) fun t' id => id < t'.size ∧ t'.members id = t.flatten ids := by
  refine Adds.get_bind (h.adds_internUnion (h.flat_flatten hids) fun hmem => ?_)
  have honly := (h.mem_flatten.mp hmem).2 rfl
  exact eq_singleton_of_increasing (h.flatten_increasing ids) hmem fun n hn =>
    honly n (h.mem_flatten.mp hn).1

/-! ### Families -/

/-- The part that sums up a family. -/
def Family.part (f : Family) : Part :=
  if f.whole then .whole f.ancestor else .one f.ancestor

theorem not_combines_of_combinable? {m : TypeId} (h : t.combinable? m = none) :
    ¬ t.Combines (t.part m) := by
  intro hc
  unfold combinable? at h
  split at h
  · exact absurd h (by simp)
  · rename_i o ho
    rw [part_of_not_hierarchy (by simp [ho])] at hc
    obtain ⟨-, o', ho', hm, ht, hg⟩ := hc
    obtain rfl : o' = o := by simpa [ho'] using ho
    simp [hm, ht, hg] at h
  · rename_i hnh hno
    rw [part_of_not_hierarchy hnh] at hc
    obtain ⟨-, o, ho, -⟩ := hc
    exact hno o ho

/-- The class that a member contributes, and whether it stands for all classes below it. -/
theorem part_of_combinable? {m base : TypeId} {whole : Bool}
    (h : t.combinable? m = some (base, whole)) :
    (∀ top, t.part m = (Family.mk top base whole).part) ∧ (t.part m).base = base ∧
      (t.Combines (t.part m) ↔ t.topAncestor base ≠ 0) := by
  unfold combinable? at h
  split at h
  · rename_i b hb
    obtain ⟨rfl, rfl⟩ : b = base ∧ true = whole := by simpa using h
    rw [part_of_hierarchy hb]
    exact ⟨fun _ => rfl, rfl, Iff.rfl⟩
  · rename_i o ho
    split at h
    · exact absurd h (by simp)
    · rename_i hplain
      obtain ⟨rfl, rfl⟩ : m = base ∧ false = whole := by simpa using h
      rw [part_of_not_hierarchy (by simp [ho])]
      refine ⟨fun _ => rfl, rfl, fun hc => hc.1, fun htop => ⟨htop, o, ho, ?_⟩⟩
      simpa [and_assoc] using hplain
  · exact absurd h (by simp)

/-- What the walk through the members `seen` has collected: those that do not combine, and one family
for each ancestor directly below a root that others share, with the part that sums it up. -/
structure Split (t : Table) (seen single : List TypeId) (fs : List Family) : Prop where
  single : ∀ m, m ∈ single ↔ m ∈ seen ∧ ¬ t.Combines (t.part m)
  tops : (fs.map Family.top).Nodup
  sums : ∀ f ∈ fs, (t.family (t.partsIn seen) f.top).Nonempty ∧
    t.Sums (t.family (t.partsIn seen) f.top) f.part
  complete : ∀ top, (t.family (t.partsIn seen) top).Nonempty → ∃ f ∈ fs, f.top = top

theorem Split.nil (t : Table) : Split t [] [] [] :=
  ⟨by simp, by simp, by simp, by simp [family]⟩

theorem family_singleton_of_not_combines {p : Part} (hp : ¬ t.Combines p) (top : TypeId) :
    t.family {p} top = ∅ := by
  ext q
  refine iff_of_false ?_ (Set.notMem_empty q)
  rintro ⟨rfl, hc, -⟩
  exact hp hc

theorem family_singleton_of_ne {p : Part} {top : TypeId} (hp : t.topAncestor p.base ≠ top) :
    t.family {p} top = ∅ := by
  ext q
  refine iff_of_false ?_ (Set.notMem_empty q)
  rintro ⟨rfl, -, htop⟩
  exact hp htop

theorem family_singleton {p : Part} (hp : t.Combines p) :
    t.family {p} (t.topAncestor p.base) = {p} := by
  ext q
  constructor
  · rintro ⟨hq, -, -⟩
    exact hq
  · rintro rfl
    exact ⟨rfl, hp, rfl⟩

/-- A member that does not combine joins the others of its sort. -/
theorem Split.single_add {seen single : List TypeId} {fs : List Family} (hs : Split t seen single fs)
    {m : TypeId} (hm : ¬ t.Combines (t.part m)) : Split t (seen ++ [m]) (single ++ [m]) fs := by
  have hfam : ∀ top, t.family (t.partsIn (seen ++ [m])) top = t.family (t.partsIn seen) top := by
    intro top
    rw [partsIn_append, partsIn_singleton, family_union, family_singleton_of_not_combines hm,
      Set.union_empty]
  refine ⟨fun n => ?_, hs.tops, fun f hf => ?_, fun top hne => ?_⟩
  · rw [List.mem_append, List.mem_append, hs.single n, List.mem_singleton, or_and_right]
    exact or_congr_right ⟨fun hn => ⟨hn, hn ▸ hm⟩, fun hn => hn.1⟩
  · rw [hfam]
    exact hs.sums f hf
  · rw [hfam] at hne
    exact hs.complete top hne

theorem mem_joinFamily {top base : TypeId} {whole : Bool} {fs : List Family} {f : Family}
    (hnd : (fs.map Family.top).Nodup) :
    f ∈ t.joinFamily top base whole fs ↔
      (f ∈ fs ∧ f.top ≠ top) ∨
      (∃ g ∈ fs, g.top = top ∧ f = ⟨top, t.commonAncestor g.ancestor base, true⟩) ∨
      ((∀ g ∈ fs, g.top ≠ top) ∧ f = ⟨top, base, whole⟩) := by
  induction fs with
  | nil => simp [joinFamily]
  | cons g rest ih =>
    obtain ⟨hg, hrest⟩ := List.nodup_cons.mp hnd
    have hother : ∀ x ∈ rest, x.top ≠ g.top := fun x hx heq => hg (heq ▸ List.mem_map_of_mem hx)
    rw [joinFamily]
    split
    · rename_i htop
      grind
    · rename_i htop
      rw [List.mem_cons, ih hrest]
      grind

theorem tops_joinFamily {top base : TypeId} {whole : Bool} {fs : List Family}
    (hnd : (fs.map Family.top).Nodup) :
    ((t.joinFamily top base whole fs).map Family.top).Nodup := by
  induction fs with
  | nil => simp [joinFamily]
  | cons g rest ih =>
    obtain ⟨hg, hrest⟩ := List.nodup_cons.mp hnd
    rw [joinFamily]
    split
    · rename_i htop
      rw [List.map_cons, ← htop]
      exact hnd
    · rename_i htop
      refine List.nodup_cons.mpr ⟨fun hmem => ?_, ih hrest⟩
      obtain ⟨f, hf, hftop⟩ := List.mem_map.mp hmem
      rcases (mem_joinFamily hrest).mp hf with ⟨hf, -⟩ | ⟨x, -, -, rfl⟩ | ⟨-, rfl⟩
      · exact hg (hftop ▸ List.mem_map_of_mem hf)
      · exact htop hftop.symm
      · exact htop hftop.symm

@[simp] theorem Family.base_part (f : Family) : f.part.base = f.ancestor := by
  unfold Family.part
  split <;> rfl

/-- A family and another part are summed up by all classes below the nearest common ancestor. -/
theorem WellFormed.sums_add (h : WellFormed t) {F : Set Part} {p q : Part} (hne : F.Nonempty)
    (hF : t.Sums F p) (hq : q ∉ F) (htop : t.topAncestor p.base ≠ 0)
    (heq : t.topAncestor p.base = t.topAncestor q.base) :
    t.Sums (F ∪ {q}) (.whole (t.commonAncestor p.base q.base)) := by
  refine (h.sums_union_iff hne hF).mp ⟨?_, fun c => iff_of_false (by simp) fun hset => ?_⟩
  · have hnear := h.tiered.nearest_commonAncestor htop heq
    refine ⟨?_, fun b hb => hnear.least b ?_⟩
    · rintro c ⟨r, rfl | rfl, rfl⟩
      · exact hnear.above _ (.inl rfl)
      · exact hnear.above _ (.inr rfl)
    · rintro c (rfl | rfl)
      · exact hb _ ⟨p, .inl rfl, rfl⟩
      · exact hb _ ⟨q, .inr rfl, rfl⟩
  · -- both would be one and the same class, which is then all of the family
    have hpc : p = .one c := (hset ▸ .inl rfl : p ∈ ({.one c} : Set Part))
    have hqc : q = .one c := (hset ▸ .inr rfl : q ∈ ({.one c} : Set Part))
    exact hq (by rw [(hF.single c).mp hpc, hqc]; rfl)

/-- A member that combines joins its family. -/
theorem Split.family_add (h : WellFormed t) {seen single : List TypeId} {fs : List Family}
    (hs : Split t seen single fs) {m base : TypeId} {whole : Bool} (hm : m ∉ seen)
    (hc : t.combinable? m = some (base, whole)) (htop : t.topAncestor base ≠ 0) :
    Split t (seen ++ [m]) single (t.joinFamily (t.topAncestor base) base whole fs) := by
  obtain ⟨hpart, hbase, hcomb⟩ := part_of_combinable? hc
  replace hcomb := hcomb.mpr htop
  have hfam : ∀ top, t.family (t.partsIn (seen ++ [m])) top =
      t.family (t.partsIn seen) top ∪ t.family {t.part m} top := by
    intro top
    rw [partsIn_append, partsIn_singleton, family_union]
  have hself : t.family {t.part m} (t.topAncestor base) = {t.part m} := by
    rw [← hbase]
    exact family_singleton hcomb
  have hother : ∀ {top : TypeId}, top ≠ t.topAncestor base →
      t.family (t.partsIn (seen ++ [m])) top = t.family (t.partsIn seen) top := by
    intro top hne
    rw [hfam, family_singleton_of_ne (hbase ▸ hne.symm), Set.union_empty]
  refine ⟨fun n => ?_, tops_joinFamily hs.tops, fun f hf => ?_, fun top hne => ?_⟩
  · rw [hs.single, List.mem_append, List.mem_singleton, or_and_right]
    refine (or_iff_left ?_).symm
    rintro ⟨rfl, hnot⟩
    exact hnot hcomb
  · rcases (mem_joinFamily hs.tops).mp hf with ⟨hf, hne⟩ | ⟨g, hg, hgtop, rfl⟩ | ⟨hnone, rfl⟩
    · rw [hother hne]
      exact hs.sums f hf
    · obtain ⟨hne, hsum⟩ := hs.sums g hg
      obtain ⟨-, hgt⟩ := h.sums_mem_family hne hsum
      rw [hgtop] at hne hsum hgt
      have hnew : t.part m ∉ t.family (t.partsIn seen) (t.topAncestor base) :=
        fun hmem => hm (h.part_mem_partsIn.mp hmem.1)
      have hadd := h.sums_add hne hsum hnew (hgt ▸ htop) (hgt.trans (by rw [hbase]))
      rw [Family.base_part, hbase] at hadd
      simp only [hfam, hself]
      exact ⟨hne.inl, hadd⟩
    · have hempty : t.family (t.partsIn seen) (t.topAncestor base) = ∅ := by
        by_contra hne
        obtain ⟨g, hg, hgtop⟩ := hs.complete _ (Set.nonempty_iff_ne_empty.mpr hne)
        exact hnone g hg hgtop
      simp only [hfam, hself, hempty, Set.empty_union]
      rw [← hpart]
      exact ⟨Set.singleton_nonempty _, Sums.singleton t _⟩
  · by_cases htop' : top = t.topAncestor base
    · subst htop'
      by_cases hex : ∃ g ∈ fs, g.top = t.topAncestor base
      · obtain ⟨g, hg, hgtop⟩ := hex
        exact ⟨_, (mem_joinFamily hs.tops).mpr (.inr (.inl ⟨g, hg, hgtop, rfl⟩)), rfl⟩
      · have hnone : ∀ g ∈ fs, g.top ≠ t.topAncestor base := fun g hg hgtop => hex ⟨g, hg, hgtop⟩
        exact ⟨_, (mem_joinFamily hs.tops).mpr (.inr (.inr ⟨hnone, rfl⟩)), rfl⟩
    · rw [hother htop'] at hne
      obtain ⟨f, hf, hftop⟩ := hs.complete top hne
      exact ⟨f, (mem_joinFamily hs.tops).mpr (.inl ⟨hf, hftop ▸ htop'⟩), hftop⟩

/-- The walk through further members collects what they contribute. -/
theorem WellFormed.split_families (h : WellFormed t) {seen ms single : List TypeId}
    {fs : List Family} (hs : Split t seen single fs) (hnd : (seen ++ ms).Nodup) :
    Split t (seen ++ ms) (t.families ms (single, fs)).1 (t.families ms (single, fs)).2 := by
  induction ms generalizing seen single fs with
  | nil =>
    rw [families, List.append_nil]
    exact hs
  | cons m rest ih =>
    have hm : m ∉ seen := by
      intro hmem
      exact (List.nodup_append.mp hnd).2.2 m hmem m List.mem_cons_self rfl
    have happ : seen ++ m :: rest = (seen ++ [m]) ++ rest := by simp
    rw [happ] at hnd ⊢
    rw [families]
    split
    · rename_i hc
      exact ih (hs.single_add (not_combines_of_combinable? hc)) hnd
    · rename_i base whole hc
      split
      · rename_i htop
        refine ih (hs.single_add fun hcomb => ?_) hnd
        exact (part_of_combinable? hc).2.2.mp hcomb htop
      · rename_i htop
        exact ih (hs.family_add h hm hc htop) hnd

/-! ### Combining -/

/-- The type that stands for a family. -/
theorem WellFormed.adds_family (h : WellFormed t) {ms : List TypeId} (hflat : Flat t ms) {f : Family}
    (hne : (t.family (t.partsIn ms) f.top).Nonempty)
    (hsum : t.Sums (t.family (t.partsIn ms) f.top) f.part) (hg : Grown t t') (h' : WellFormed t') :
    Adds t' (if f.whole then hierarchyOf f.ancestor else pure f.ancestor) fun t' id =>
      Flat t' [id] ∧ t'.part id = f.part := by
  by_cases hw : f.whole
  · have hlt : f.ancestor < t.size := by
      obtain ⟨q, hq⟩ := hne
      obtain ⟨m, hm, hmq⟩ := hq.1
      have hbelow := hsum.nearest.above q.base ⟨q, hq, rfl⟩
      rw [Family.base_part] at hbelow
      exact h.tiered.below_lt_size (hmq ▸ h.part_base_lt (hflat.known m hm).2) hbelow
    rw [if_pos hw, Family.part, if_pos hw]
    refine (h'.adds_hierarchyOf (hg.lt_size hlt)).imp fun t₁ id _ _ hid => ⟨?_, part_of_hierarchy hid⟩
    refine ⟨by simp, ?_, ?_⟩
    · simpa using ⟨pos_of_get? hid, lt_size_of_get? hid⟩
    · simp [hid]
  · rw [if_neg hw, Family.part, if_neg hw]
    -- a family that is not whole is a single class, which was there
    have hF := (hsum.single f.ancestor).mp (by rw [Family.part, if_neg hw])
    obtain ⟨⟨m, hm, hpart⟩, -⟩ : (.one f.ancestor : Part) ∈ t.family (t.partsIn ms) f.top :=
      hF ▸ rfl
    obtain rfl := part_eq_one hpart
    have hlt := (hflat.known _ hm).2
    refine Adds.pure h' ⟨?_, by rw [hg.toExtends.part_eq hlt, hpart]⟩
    refine Flat.of_grown hg ⟨by simp, ?_, ?_⟩
    · simpa using hflat.known _ hm
    · simpa using hflat.flat _ hm

/-- Combining replaces each family by the part that sums it up. -/
theorem WellFormed.adds_combine (h : WellFormed t) {ms : List TypeId} (hflat : Flat t ms) :
    Adds t (combine ms) fun t' out => Flat t' out ∧ t'.partsIn out =
      {p | p ∈ t.partsIn ms ∧ ¬ t.Combines p} ∪
        {p | ∃ top, (t.family (t.partsIn ms) top).Nonempty ∧
          t.Sums (t.family (t.partsIn ms) top) p} := by
  have hnd : ([] ++ ms).Nodup := by simpa using nodup_of_increasing hflat.increasing
  have hsplit := h.split_families (Split.nil t) hnd
  rw [List.nil_append] at hsplit
  refine Adds.get_bind ?_
  generalize t.families ms ([], []) = acc at hsplit ⊢
  obtain ⟨single, fs⟩ := acc
  simp only at hsplit ⊢
  refine (Adds.mapM h (S := fun f t' id => Flat t' [id] ∧ t'.part id = f.part) ?_ ?_).bind ?_
  · intro f hf t' h' hg
    exact h.adds_family hflat (hsplit.sums f hf).1 (hsplit.sums f hf).2 hg h'
  · rintro f - t' t'' id - - - hg ⟨hid, hpart⟩
    refine ⟨hid.of_grown hg, ?_⟩
    rw [hg.toExtends.part_eq (hid.known id List.mem_cons_self).2, hpart]
  · rintro t' combined h' hg ⟨hall, hex⟩
    have hsingle : ∀ m ∈ single, m ∈ ms := fun m hm => ((hsplit.single m).mp hm).1
    have hflat' := hflat.of_grown hg
    refine Adds.pure h' ⟨⟨sortedUnique_increasing _, fun m hm => ?_, fun m hm => ?_⟩, ?_⟩
    · rcases List.mem_append.mp (mem_sortedUnique.mp hm) with hm | hm
      · exact hflat'.known m (hsingle m hm)
      · obtain ⟨f, -, hid, -⟩ := hall m hm
        exact hid.known m List.mem_cons_self
    · rcases List.mem_append.mp (mem_sortedUnique.mp hm) with hm | hm
      · exact hflat'.flat m (hsingle m hm)
      · obtain ⟨f, -, hid, -⟩ := hall m hm
        exact hid.flat m List.mem_cons_self
    · ext p
      constructor
      · rintro ⟨m, hm, rfl⟩
        rcases List.mem_append.mp (mem_sortedUnique.mp hm) with hm | hm
        · rw [hg.toExtends.part_eq (hflat.known m (hsingle m hm)).2]
          exact .inl ⟨⟨m, hsingle m hm, rfl⟩, ((hsplit.single m).mp hm).2⟩
        · obtain ⟨f, hf, -, hpart⟩ := hall m hm
          exact .inr ⟨f.top, hpart ▸ hsplit.sums f hf⟩
      · rintro (⟨⟨m, hm, rfl⟩, hnot⟩ | ⟨top, hne, hsum⟩)
        · refine ⟨m, mem_sortedUnique.mpr (List.mem_append_left _ ?_), ?_⟩
          · exact (hsplit.single m).mpr ⟨hm, hnot⟩
          · exact hg.toExtends.part_eq (hflat.known m hm).2
        · obtain ⟨f, hf, rfl⟩ := hsplit.complete top hne
          obtain ⟨id, hid, -, hpart⟩ := hex f hf
          refine ⟨id, mem_sortedUnique.mpr (List.mem_append_right _ hid), ?_⟩
          rw [hpart]
          exact h.sums_unique (hsplit.sums f hf).2 hsum

/-! ### The join of types -/

theorem WellFormed.part_noReturn (h : WellFormed t) :
    t.part Builtin.noReturn = .one Builtin.noReturn := by
  have hprim : initial.get? Builtin.noReturn =
      some (.primitive ⟨"NoReturn", 0, Builtin.value, none⟩) := rfl
  obtain ⟨e, he, hc⟩ := h.builtins.core hprim
  refine part_of_not_hierarchy fun base hbase => ?_
  obtain rfl := Option.some.inj (he.symm.trans hbase)
  simp [Entry.core] at hc

/-- The parts of flattened members, without what is absorbed. -/
theorem WellFormed.partsIn_flatten (h : WellFormed t) (ids : List TypeId) :
    t.partsIn (t.flatten ids) = {p | p ∈ t.partsOf ids ∧
      (p = .one Builtin.noReturn → t.partsOf ids ⊆ {.one Builtin.noReturn})} := by
  have hone : ∀ {m}, t.part m = .one Builtin.noReturn ↔ m = Builtin.noReturn :=
    ⟨part_eq_one, fun hm => hm ▸ h.part_noReturn⟩
  have hsub : t.partsOf ids ⊆ {.one Builtin.noReturn} ↔
      ∀ n ∈ ids.flatMap t.members, n = Builtin.noReturn := by
    rw [partsOf_eq_partsIn]
    constructor
    · exact fun hs n hn => hone.mp (hs ⟨n, hn, rfl⟩)
    · rintro hs _ ⟨n, hn, rfl⟩
      exact hone.mpr (hs n hn)
  ext p
  constructor
  · rintro ⟨m, hm, rfl⟩
    obtain ⟨hmem, hn⟩ := h.mem_flatten.mp hm
    refine ⟨?_, fun heq => hsub.mpr (hn (hone.mp heq))⟩
    rw [partsOf_eq_partsIn]
    exact ⟨m, hmem, rfl⟩
  · rintro ⟨hp, hn⟩
    rw [partsOf_eq_partsIn] at hp
    obtain ⟨m, hm, rfl⟩ := hp
    exact ⟨m, h.mem_flatten.mpr ⟨hm, fun heq => hsub.mp (hn (hone.mpr heq))⟩, rfl⟩

/-- Flattening first changes nothing about a join. -/
theorem WellFormed.join_eq_flatten (h : WellFormed t) (ids : List TypeId) :
    t.join (t.partsOf ids) = {p | p ∈ t.partsIn (t.flatten ids) ∧ ¬ t.Combines p} ∪
      {p | ∃ top, (t.family (t.partsIn (t.flatten ids)) top).Nonempty ∧
        t.Sums (t.family (t.partsIn (t.flatten ids)) top) p} := by
  have hfam : ∀ top, t.family (t.partsIn (t.flatten ids)) top = t.family (t.partsOf ids) top := by
    intro top
    rw [h.partsIn_flatten]
    ext p
    constructor
    · rintro ⟨⟨hp, -⟩, hrest⟩
      exact ⟨hp, hrest⟩
    · rintro ⟨hp, hc, htop⟩
      exact ⟨⟨hp, fun heq => absurd (heq ▸ hc) h.not_combines_noReturn⟩, hc, htop⟩
  simp only [hfam]
  ext p
  refine or_congr ?_ Iff.rfl
  rw [h.partsIn_flatten]
  exact ⟨fun ⟨hp, hc, hn⟩ => ⟨⟨hp, hn⟩, hc⟩, fun ⟨⟨hp, hn⟩, hc⟩ => ⟨hp, hc, hn⟩⟩

/-- **The parts of a join of types are the join of their parts.** -/
theorem WellFormed.adds_merge (h : WellFormed t) {ids : List TypeId}
    (hids : ∀ id ∈ ids, id < t.size) :
    Adds t (merge ids) fun t' m => m < t'.size ∧ t'.parts m = t.join (t.partsOf ids) := by
  have hflat := h.flat_flatten hids
  refine Adds.get_bind ?_
  rw [h.join_eq_flatten]
  have hall : ∀ m ∈ t.flatten ids, m = Builtin.noReturn →
      t.partsIn (t.flatten ids) ⊆ {.one Builtin.noReturn} := by
    rintro m hm rfl p ⟨n, hn, rfl⟩
    have := (h.mem_flatten.mp hm).2 rfl n (h.mem_flatten.mp hn).1
    rw [this]
    exact h.part_noReturn
  split
  · rename_i hnil
    refine Adds.pure h ⟨t.size_pos, ?_⟩
    simp [hnil, family]
  · refine (h.adds_combine hflat).bind fun t' out h' hg hfound => ?_
    obtain ⟨hout, hparts⟩ := hfound
    refine (h'.adds_internUnion hout fun hmem => ?_).imp fun t'' m h'' hg' hjoined => ?_
    · -- what never yields a value is left only where there was nothing else
      refine eq_singleton_of_increasing hout.increasing hmem fun n hn => ?_
      have hsub : t'.partsIn out ⊆ {.one Builtin.noReturn} := by
        have hin : (.one Builtin.noReturn : Part) ∈ t'.partsIn out := ⟨_, hmem, h'.part_noReturn⟩
        rw [hparts] at hin ⊢
        rcases hin with ⟨⟨m, hm, hpart⟩, -⟩ | ⟨top, hne, hsum⟩
        · have hsub := hall m hm (part_eq_one hpart)
          rintro p (⟨hp, -⟩ | ⟨top, ⟨q, hq⟩, -⟩)
          · exact hsub hp
          · have hqn : q = .one Builtin.noReturn := hsub hq.1
            exact absurd (hqn ▸ hq.2.1) h.not_combines_noReturn
        · exact absurd (h.sums_mem_family hne hsum).1 h.not_combines_noReturn
      exact part_eq_one (hsub ⟨n, hn, rfl⟩)
    · obtain ⟨hm, hmembers⟩ := hjoined
      refine ⟨hm, ?_⟩
      rw [← hparts]
      ext p
      rw [parts, hmembers]
      refine exists_congr fun n => and_congr_right fun hn => ?_
      rw [hg'.toExtends.part_eq (hout.known n hn).2]

/-! ### Joins in later tables -/

/-- The type `m` is the join of the types `ids`. -/
structure IsJoin (t : Table) (ids : List TypeId) (m : TypeId) : Prop where
  known : ∀ id ∈ ids, id < t.size
  lt_size : m < t.size
  parts_eq : t.parts m = t.join (t.partsOf ids)

namespace IsJoin

variable {xs ys : List TypeId} {a b c d : TypeId}

/-- A join stays one when the table is extended. -/
theorem later (hj : IsJoin t xs a) (h : WellFormed t) (h' : WellFormed t') (hx : Extends t t') :
    IsJoin t' xs a := by
  refine ⟨fun x hmem => hx.lt_size (hj.known x hmem), hx.lt_size hj.lt_size, ?_⟩
  rw [hx.parts_eq h hj.lt_size, hx.partsOf_eq h hj.known, hj.parts_eq,
    hx.join_eq h h' (h.known_partsOf hj.known)]

/-- There is one join, and it depends on the parts only. -/
theorem unique (h : WellFormed t) (ha : IsJoin t xs a) (hb : IsJoin t ys b)
    (hparts : t.join (t.partsOf xs) = t.join (t.partsOf ys)) : a = b := by
  refine h.parts_injective ?_
  rw [ha.parts_eq, hb.parts_eq, hparts]

/-- The join of joins is the join of everything. -/
theorem append (h : WellFormed t) (ha : IsJoin t xs a) (hb : IsJoin t ys b)
    (hc : IsJoin t [a, b] c) : IsJoin t (xs ++ ys) c := by
  refine ⟨fun x hx => ?_, hc.lt_size, ?_⟩
  · rcases List.mem_append.mp hx with hx | hx
    · exact ha.known x hx
    · exact hb.known x hx
  · rw [hc.parts_eq, partsOf_append]
    simp only [partsOf_cons, partsOf_nil, Set.union_empty]
    rw [ha.parts_eq, hb.parts_eq, h.join_join_union, h.join_union_join]

/-- A join is its own join. -/
theorem self (h : WellFormed t) (ha : IsJoin t xs a) : IsJoin t [a] a := by
  refine ⟨by simpa using ha.lt_size, ha.lt_size, ?_⟩
  simp only [partsOf_cons, partsOf_nil, Set.union_empty]
  rw [ha.parts_eq, h.join_join]

end IsJoin

/-- Joining types gives their join. -/
theorem WellFormed.adds_isJoin (h : WellFormed t) {ids : List TypeId}
    (hids : ∀ id ∈ ids, id < t.size) : Adds t (merge ids) fun t' m => IsJoin t' ids m := by
  refine (h.adds_merge hids).imp fun t' m h' hg ⟨hm, hparts⟩ => ?_
  refine ⟨fun id hid => hg.lt_size (hids id hid), hm, ?_⟩
  rw [hparts, hg.toExtends.partsOf_eq h hids, hg.toExtends.join_eq h h' (h.known_partsOf hids)]

end TypeFlow.Table
