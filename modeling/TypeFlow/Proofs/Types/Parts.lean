import Mathlib.Data.Set.Basic
import Mathlib.Data.List.Sort
import TypeFlow.Types.Merge
import TypeFlow.Proofs.Types.ClassTree

/-!
# What a type is made of, and the join of what types are made of

Joining types adds hierarchies and unions to the table, so the number of a join says little. A type is
described instead by its *parts*, a set that does not depend on the derived types a table happens to
hold: a member stands for itself (`Part.one`), or, if it is a hierarchy, for a class with all classes
below it (`Part.whole`). On a well-formed table a type is determined by its parts
(`WellFormed.parts_injective`).

`Table.join` is the join of sets of parts: what combines is replaced, family by family, by the one part
that sums the family up, and the type of what never yields a value is absorbed. It is a closure of sets
in the sense that parts may be joined beforehand or not (`WellFormed.join_join_union`); associativity
and idempotence of joining types are instances of this law. Nothing is said here about how types are
joined by numbers; that `merge` computes `join` is the subject of `TypeFlow.Proofs.Types.Merge`.
-/

namespace TypeFlow

/-- A part of a type: a type that stands for itself, or a class with all classes below it. -/
inductive Part where
  | one (id : TypeId)
  | whole (base : TypeId)
  deriving DecidableEq

/-- The class or type that a part is about. -/
def Part.base : Part → TypeId
  | .one id => id
  | .whole base => base

namespace Table

variable {t t' : Table}

/-! ### Parts -/

/-- The part that a member of a type is. -/
def part (t : Table) (id : TypeId) : Part :=
  match t.get? id with
  | some (.hierarchy base) => .whole base
  | _ => .one id

/-- The parts of a type. -/
def parts (t : Table) (id : TypeId) : Set Part :=
  {p | ∃ m ∈ t.members id, t.part m = p}

/-- The parts of several types. -/
def partsOf (t : Table) (ids : List TypeId) : Set Part :=
  {p | ∃ id ∈ ids, p ∈ t.parts id}

theorem part_of_hierarchy {id base : TypeId} (h : t.get? id = some (.hierarchy base)) :
    t.part id = .whole base := by
  rw [part, h]

theorem part_of_not_hierarchy {id : TypeId} (h : ∀ base, t.get? id ≠ some (.hierarchy base)) :
    t.part id = .one id := by
  unfold part
  split
  · rename_i base heq
    exact absurd heq (h base)
  · rfl

theorem part_eq_whole_iff {id base : TypeId} :
    t.part id = .whole base ↔ t.get? id = some (.hierarchy base) := by
  unfold part
  split
  · rename_i b heq
    simp [heq]
  · rename_i hne
    simpa using hne base

theorem part_eq_one {id c : TypeId} (h : t.part id = .one c) : id = c := by
  unfold part at h
  split at h
  · simp at h
  · exact Part.one.inj h

theorem members_of_union {id : TypeId} {ms : List TypeId} (h : t.get? id = some (.union ms)) :
    t.members id = ms := by
  rw [members, h]

theorem members_of_not_union {id : TypeId} (hne : id ≠ 0)
    (h : ∀ ms, t.get? id ≠ some (.union ms)) : t.members id = [id] := by
  unfold members
  split
  · rename_i ms heq
    exact absurd heq (h ms)
  · simp [hne]

@[simp] theorem members_zero (t : Table) : t.members 0 = [] := rfl

@[simp] theorem parts_zero (t : Table) : t.parts 0 = ∅ := by
  simp [parts]

@[simp] theorem partsOf_nil (t : Table) : t.partsOf [] = ∅ := by
  simp [partsOf]

@[simp] theorem partsOf_cons (t : Table) (id : TypeId) (ids : List TypeId) :
    t.partsOf (id :: ids) = t.parts id ∪ t.partsOf ids := by
  ext p
  simp [partsOf]

@[simp] theorem partsOf_append (t : Table) (xs ys : List TypeId) :
    t.partsOf (xs ++ ys) = t.partsOf xs ∪ t.partsOf ys := by
  ext p
  simp [partsOf, or_and_right, exists_or]

theorem parts_of_not_union {id : TypeId} (hne : id ≠ 0)
    (h : ∀ ms, t.get? id ≠ some (.union ms)) : t.parts id = {t.part id} := by
  ext p
  simp [parts, members_of_not_union hne h, eq_comm]

namespace WellFormed

/-- A member is determined by the part that it is. -/
theorem part_injective (h : WellFormed t) {a b : TypeId} (hab : t.part a = t.part b) : a = b := by
  cases hp : t.part a with
  | one c => exact (part_eq_one hp).trans (part_eq_one (hab ▸ hp)).symm
  | whole c =>
    exact h.interned (part_eq_whole_iff.mp hp) (part_eq_whole_iff.mp (hab ▸ hp)) trivial

/-- The members of a type are known and in increasing order. -/
theorem members_increasing (h : WellFormed t) (id : TypeId) :
    (t.members id).Pairwise (· < ·) := by
  unfold members
  split
  · rename_i ms heq
    exact (h.union heq).increasing
  · split <;> simp

theorem members_lt_size (h : WellFormed t) {id m : TypeId} (hid : id < t.size)
    (hm : m ∈ t.members id) : 0 < m ∧ m < t.size := by
  unfold members at hm
  split at hm
  · rename_i ms heq
    obtain ⟨e, he⟩ := (h.union heq).known m hm
    exact ⟨pos_of_get? he, lt_size_of_get? he⟩
  · split at hm
    · exact absurd hm (by simp)
    · rename_i hne
      obtain rfl := List.mem_singleton.mp hm
      exact ⟨Nat.pos_of_ne_zero (by simpa using hne), hid⟩

/-- No member of a type is a union. -/
theorem members_flat (h : WellFormed t) {id m : TypeId} (hm : m ∈ t.members id) (ns : List TypeId) :
    t.get? m ≠ some (.union ns) := by
  unfold members at hm
  split at hm
  · rename_i ms heq
    exact (h.union heq).flat m hm ns
  · rename_i hnot
    split at hm
    · exact absurd hm (by simp)
    · obtain rfl := List.mem_singleton.mp hm
      exact hnot ns

/-- A type is determined by its members. -/
theorem members_injective (h : WellFormed t) {a b : TypeId} (hab : t.members a = t.members b) :
    a = b := by
  -- a type that is no union has at most one member
  have hshort : ∀ {id : TypeId}, (∀ ms, t.get? id ≠ some (.union ms)) →
      t.members id = if id = 0 then [] else [id] := by
    intro id hnot
    split
    · rename_i h0
      rw [h0, members_zero]
    · rename_i hne
      exact members_of_not_union hne hnot
  by_cases hua : ∃ ms, t.get? a = some (.union ms)
  · obtain ⟨ms, hms⟩ := hua
    have hlen := (h.union hms).several
    rw [members_of_union hms] at hab
    by_cases hub : ∃ ns, t.get? b = some (.union ns)
    · obtain ⟨ns, hns⟩ := hub
      rw [members_of_union hns] at hab
      exact h.interned hms (hab ▸ hns) trivial
    · rw [hshort (not_exists.mp hub)] at hab
      rw [hab] at hlen
      split at hlen <;> simp at hlen
  · rw [hshort (not_exists.mp hua)] at hab
    by_cases hub : ∃ ns, t.get? b = some (.union ns)
    · obtain ⟨ns, hns⟩ := hub
      have hlen := (h.union hns).several
      rw [members_of_union hns] at hab
      rw [← hab] at hlen
      split at hlen <;> simp at hlen
    · rw [hshort (not_exists.mp hub)] at hab
      grind

/-- **A type is determined by its parts.** -/
theorem parts_injective (h : WellFormed t) {a b : TypeId} (hab : t.parts a = t.parts b) :
    a = b := by
  have hmem : ∀ m, m ∈ t.members a ↔ m ∈ t.members b := by
    intro m
    constructor
    · intro hm
      obtain ⟨n, hn, hnm⟩ : t.part m ∈ t.parts b := hab ▸ ⟨m, hm, rfl⟩
      exact h.part_injective hnm ▸ hn
    · intro hm
      obtain ⟨n, hn, hnm⟩ : t.part m ∈ t.parts a := hab ▸ ⟨m, hm, rfl⟩
      exact h.part_injective hnm ▸ hn
  have hperm : (t.members a).Perm (t.members b) :=
    (List.perm_ext_iff_of_nodup (List.Pairwise.imp Nat.ne_of_lt (h.members_increasing a))
      (List.Pairwise.imp Nat.ne_of_lt (h.members_increasing b))).mpr hmem
  exact h.members_injective
    (hperm.eq_of_pairwise (fun _ _ _ _ hxy hyx => absurd hxy (Nat.lt_asymm hyx))
      (h.members_increasing a) (h.members_increasing b))

end WellFormed

/-! ### Families -/

/-- Whether a part combines with others: it is about a class that stands below a root and is neither
generic nor an instance of a generic class, or about all classes below a class that stands so. -/
def Combines (t : Table) : Part → Prop
  | .one id => t.topAncestor id ≠ 0 ∧
      ∃ o, t.get? id = some (.object o) ∧ o.isModule = false ∧ o.isTemplate = false ∧ o.generic = 0
  | .whole base => t.topAncestor base ≠ 0

/-- The parts that combine under the ancestor `top` directly below a root. -/
def family (t : Table) (S : Set Part) (top : TypeId) : Set Part :=
  {p | p ∈ S ∧ t.Combines p ∧ t.topAncestor p.base = top}

/-- The part `p` sums up the parts `F`: it is about their nearest common ancestor, and stands for one
class only if it is all there is. -/
structure Sums (t : Table) (F : Set Part) (p : Part) : Prop where
  nearest : Nearest t (fun c => ∃ q ∈ F, q.base = c) p.base
  single : ∀ c, p = .one c ↔ F = {.one c}

/-- The join of parts: what does not combine stays, unless it never yields a value and there is
something else, and every family is summed up. -/
def join (t : Table) (S : Set Part) : Set Part :=
  {p | p ∈ S ∧ ¬ t.Combines p ∧ (p = .one Builtin.noReturn → S ⊆ {.one Builtin.noReturn})} ∪
    {p | ∃ top, (t.family S top).Nonempty ∧ t.Sums (t.family S top) p}

theorem Combines.topAncestor_ne {p : Part} (hp : t.Combines p) : t.topAncestor p.base ≠ 0 := by
  cases p with
  | one id => exact hp.1
  | whole base => exact hp

theorem family_union (t : Table) (S T : Set Part) (top : TypeId) :
    t.family (S ∪ T) top = t.family S top ∪ t.family T top := by
  ext p
  simp only [family, Set.mem_union, Set.mem_ofPred_eq, or_and_right]

theorem Sums.singleton (t : Table) (p : Part) : t.Sums {p} p := by
  refine ⟨?_, fun c => by simp⟩
  simpa [eq_comm] using Nearest.singleton t p.base

namespace WellFormed

theorem sums_unique (h : WellFormed t) {F : Set Part} {p q : Part} (hp : t.Sums F p)
    (hq : t.Sums F q) : p = q := by
  have hbase : p.base = q.base := h.tiered.nearest_unique hp.nearest hq.nearest
  cases p with
  | one c => exact ((hq.single c).mpr ((hp.single c).mp rfl)).symm
  | whole b =>
    cases q with
    | one c => exact (hp.single c).mpr ((hq.single c).mp rfl)
    | whole c => exact congrArg Part.whole hbase

/-- What sums up a family belongs to it: it combines, under the same ancestor. -/
theorem sums_mem_family (h : WellFormed t) {S : Set Part} {top : TypeId} {p : Part}
    (hne : (t.family S top).Nonempty) (hp : t.Sums (t.family S top) p) :
    t.Combines p ∧ t.topAncestor p.base = top := by
  obtain ⟨q, hq⟩ := hne
  have htop : t.topAncestor p.base = top := by
    have hqt : t.topAncestor q.base ≠ 0 := hq.2.1.topAncestor_ne
    -- the ancestor shared by the family is above all of it, so the nearest one is below that
    have habove : ∀ c, (∃ r ∈ t.family S top, r.base = c) → Below t c top := by
      rintro c ⟨r, hr, rfl⟩
      rw [← hr.2.2]
      exact (h.tiered.below_topAncestor hr.2.1.topAncestor_ne).1
    have hd : t.depth top = 1 := by
      rw [← hq.2.2]
      exact (h.tiered.below_topAncestor hqt).2
    have htt : t.topAncestor top = top := by
      rw [h.tiered.topAncestor_eq, hd]
      rfl
    have hne : t.topAncestor top ≠ 0 := by
      rw [htt, ← hq.2.2]
      exact hqt
    rw [h.tiered.topAncestor_eq_of_below (hp.nearest.least top habove) hne, htt]
  refine ⟨?_, htop⟩
  cases p with
  | one c =>
    have hF := (hp.single c).mp rfl
    have : (.one c : Part) ∈ t.family S top := hF ▸ rfl
    exact this.2.1
  | whole b =>
    show t.topAncestor b ≠ 0
    have : t.topAncestor b = top := htop
    rw [this, ← hq.2.2]
    exact hq.2.1.topAncestor_ne

/-- Every family that is not empty can be summed up. -/
theorem exists_sums (h : WellFormed t) {S : Set Part} {top : TypeId}
    (hne : (t.family S top).Nonempty) : ∃ p, t.Sums (t.family S top) p := by
  obtain ⟨q, hq⟩ := hne
  -- the nearest common ancestor is the first one met on the way up from any member
  have hex : ∃ n, n ≤ t.depth q.base ∧
      ∀ r ∈ t.family S top, Below t r.base (t.climb n q.base) := by
    obtain ⟨⟨n, hn, hclimb⟩, -⟩ := h.tiered.below_topAncestor hq.2.1.topAncestor_ne
    refine ⟨n, hn, fun r hr => ?_⟩
    rw [hclimb, hq.2.2, ← hr.2.2]
    exact (h.tiered.below_topAncestor hr.2.1.topAncestor_ne).1
  classical
  obtain ⟨hn, habove⟩ := Nat.find_spec hex
  have hnear : Nearest t (fun c => ∃ r ∈ t.family S top, r.base = c)
      (t.climb (Nat.find hex) q.base) := by
    refine ⟨?_, fun b hb => ?_⟩
    · rintro c ⟨r, hr, rfl⟩
      exact habove r hr
    · obtain ⟨m, hm, hmb⟩ := hb q.base ⟨q, hq, rfl⟩
      have hmin : Nat.find hex ≤ m :=
        Nat.find_min' hex ⟨hm, fun r hr => hmb ▸ hb r.base ⟨r, hr, rfl⟩⟩
      refine h.tiered.below_of_depth_le (a := q.base) ⟨_, hn, rfl⟩ ⟨m, hm, hmb⟩ ?_
      rw [← hmb, h.tiered.depth_climb hm, h.tiered.depth_climb hn]
      omega
  by_cases hone : ∃ c, t.family S top = {.one c}
  · obtain ⟨c, hc⟩ := hone
    refine ⟨.one c, ?_⟩
    rw [hc]
    exact Sums.singleton t _
  · refine ⟨.whole _, hnear, fun c => ?_⟩
    exact iff_of_false (by simp) (not_exists.mp hone c)

/-- Summing up some of the parts beforehand changes nothing. -/
theorem sums_union_iff (h : WellFormed t) {F G : Set Part} {p q : Part} (hne : F.Nonempty)
    (hp : t.Sums F p) : t.Sums ({p} ∪ G) q ↔ t.Sums (F ∪ G) q := by
  have habove : ∀ b, (∀ c, (∃ r ∈ ({p} ∪ G : Set Part), r.base = c) → Below t c b) ↔
      ∀ c, (∃ r ∈ F ∪ G, r.base = c) → Below t c b := by
    intro b
    constructor
    · rintro hb c ⟨r, hr | hr, rfl⟩
      · exact h.tiered.below_trans (hp.nearest.above _ ⟨r, hr, rfl⟩) (hb _ ⟨p, .inl rfl, rfl⟩)
      · exact hb _ ⟨r, .inr hr, rfl⟩
    · rintro hb c ⟨r, rfl | hr, rfl⟩
      · exact hp.nearest.least b fun c ⟨s, hs, hc⟩ => hb c ⟨s, .inl hs, hc⟩
      · exact hb _ ⟨r, .inr hr, rfl⟩
  have hsingle : ∀ c, ({p} ∪ G : Set Part) = {.one c} ↔ F ∪ G = {.one c} := by
    intro c
    constructor
    · intro heq
      have hpc : p = .one c := by
        have : p ∈ ({.one c} : Set Part) := heq ▸ .inl rfl
        exact this
      rw [(hp.single c).mp hpc, ← hpc, heq, hpc]
    · intro heq
      have hF : F = {.one c} :=
        (Set.Nonempty.subset_singleton_iff hne).mp (heq ▸ Set.subset_union_left)
      rw [(hp.single c).mpr hF, ← hF, heq, hF]
  constructor
  · rintro ⟨⟨ha, hl⟩, hs⟩
    exact ⟨⟨(habove _).mp ha, fun b hb => hl b ((habove b).mpr hb)⟩,
      fun c => (hs c).trans (hsingle c)⟩
  · rintro ⟨⟨ha, hl⟩, hs⟩
    exact ⟨⟨(habove _).mpr ha, fun b hb => hl b ((habove b).mp hb)⟩,
      fun c => (hs c).trans (hsingle c).symm⟩

/-! ### The law of the join -/

/-- What never yields a value does not combine. -/
theorem not_combines_noReturn (h : WellFormed t) : ¬ t.Combines (.one Builtin.noReturn) := by
  rintro ⟨-, o, ho, -⟩
  have hprim : initial.get? Builtin.noReturn =
      some (.primitive ⟨"NoReturn", 0, Builtin.value, none⟩) := rfl
  obtain ⟨e, he, hc⟩ := h.builtins.core hprim
  rw [ho] at he
  obtain rfl := Option.some.inj he
  simp [Entry.core] at hc

/-- The families of a join are the sums of the families. -/
theorem family_join (h : WellFormed t) (S : Set Part) (top : TypeId) :
    t.family (t.join S) top =
      {p | (t.family S top).Nonempty ∧ t.Sums (t.family S top) p} := by
  ext p
  constructor
  · rintro ⟨⟨-, hnot, -⟩ | ⟨top', hne, hp⟩, hc, htop⟩
    · exact absurd hc hnot
    · obtain rfl : top' = top := (h.sums_mem_family hne hp).2.symm.trans htop
      exact ⟨hne, hp⟩
  · rintro ⟨hne, hp⟩
    obtain ⟨hc, htop⟩ := h.sums_mem_family hne hp
    exact ⟨.inr ⟨top, hne, hp⟩, hc, htop⟩

/-- A family of joined parts and others is summed up like the family of all of them. -/
theorem sums_family_join_union (h : WellFormed t) (S T : Set Part) (top : TypeId) {p : Part} :
    ((t.family (t.join S ∪ T) top).Nonempty ∧ t.Sums (t.family (t.join S ∪ T) top) p) ↔
      (t.family (S ∪ T) top).Nonempty ∧ t.Sums (t.family (S ∪ T) top) p := by
  rw [family_union, family_union, h.family_join]
  rcases (t.family S top).eq_empty_or_nonempty with hempty | hne
  · simp [hempty]
  · obtain ⟨q, hq⟩ := h.exists_sums hne
    have hsum : {p | (t.family S top).Nonempty ∧ t.Sums (t.family S top) p} = {q} := by
      ext r
      constructor
      · rintro ⟨-, hr⟩
        exact h.sums_unique hr hq
      · rintro rfl
        exact ⟨hne, hq⟩
    rw [hsum, h.sums_union_iff hne hq]
    exact and_congr_left' (iff_of_true ⟨q, .inl rfl⟩ hne.inl)

/-- A join is made of what never yields a value only if the joined parts are. -/
theorem join_subset_noReturn_iff (h : WellFormed t) (S : Set Part) :
    t.join S ⊆ {.one Builtin.noReturn} ↔ S ⊆ {.one Builtin.noReturn} := by
  constructor
  · intro hsub p hp
    by_cases hc : t.Combines p
    · have hne : (t.family S (t.topAncestor p.base)).Nonempty := ⟨p, hp, hc, rfl⟩
      obtain ⟨q, hq⟩ := h.exists_sums hne
      have hqn : q = .one Builtin.noReturn := hsub (.inr ⟨_, hne, hq⟩)
      exact absurd (hqn ▸ (h.sums_mem_family hne hq).1) h.not_combines_noReturn
    · by_cases hpn : p = .one Builtin.noReturn
      · exact hpn
      · exact hsub (.inl ⟨hp, hc, fun heq => absurd heq hpn⟩)
  · rintro hsub p (⟨hp, -, -⟩ | ⟨top, ⟨q, hq⟩, -⟩)
    · exact hsub hp
    · have hqn : q = .one Builtin.noReturn := hsub hq.1
      exact absurd (hqn ▸ hq.2.1) h.not_combines_noReturn

/-- **Parts may be joined beforehand or not.** -/
theorem join_join_union (h : WellFormed t) (S T : Set Part) :
    t.join (t.join S ∪ T) = t.join (S ∪ T) := by
  have habsorb : t.join S ∪ T ⊆ {.one Builtin.noReturn} ↔ S ∪ T ⊆ {.one Builtin.noReturn} := by
    rw [Set.union_subset_iff, Set.union_subset_iff, h.join_subset_noReturn_iff]
  ext p
  refine or_congr ?_ (exists_congr fun top => h.sums_family_join_union S T top)
  constructor
  · rintro ⟨(⟨hp, -, -⟩ | ⟨top, hne, hp⟩) | hp, hnot, hn⟩
    · exact ⟨.inl hp, hnot, fun heq => habsorb.mp (hn heq)⟩
    · exact absurd (h.sums_mem_family hne hp).1 hnot
    · exact ⟨.inr hp, hnot, fun heq => habsorb.mp (hn heq)⟩
  · rintro ⟨hp | hp, hnot, hn⟩
    · refine ⟨.inl (.inl ⟨hp, hnot, fun heq => ?_⟩), hnot, fun heq => habsorb.mpr (hn heq)⟩
      exact Set.subset_union_left.trans (hn heq)
    · exact ⟨.inr hp, hnot, fun heq => habsorb.mpr (hn heq)⟩

theorem join_union_join (h : WellFormed t) (S T : Set Part) :
    t.join (S ∪ t.join T) = t.join (S ∪ T) := by
  rw [Set.union_comm, h.join_join_union, Set.union_comm]

/-- A join is its own join. -/
theorem join_join (h : WellFormed t) (S : Set Part) : t.join (t.join S) = t.join S := by
  simpa using h.join_join_union S ∅

/-- Joining leaves parts as they are if and only if no two of them are of one family. -/
theorem join_eq_self_iff (h : WellFormed t) {S : Set Part}
    (hn : .one Builtin.noReturn ∈ S → S ⊆ {.one Builtin.noReturn}) :
    t.join S = S ↔ ∀ top, (t.family S top).Subsingleton := by
  constructor
  · intro hS top p hp q hq
    -- a family of a join holds only what sums it up
    rw [← hS, h.family_join] at hp hq
    exact h.sums_unique hp.2 hq.2
  · intro hsub
    have hsingle : ∀ {p : Part}, p ∈ S → t.Combines p →
        t.family S (t.topAncestor p.base) = {p} := by
      intro p hp hc
      have hmem : p ∈ t.family S (t.topAncestor p.base) := ⟨hp, hc, rfl⟩
      exact Set.Subsingleton.eq_singleton_of_mem (hsub _) hmem
    ext p
    constructor
    · rintro (⟨hp, -, -⟩ | ⟨top, ⟨q, hq⟩, hp⟩)
      · exact hp
      · have hF : t.family S top = {q} := (hsub top).eq_singleton_of_mem hq
        rw [hF] at hp
        exact h.sums_unique hp (Sums.singleton t q) ▸ hq.1
    · intro hp
      by_cases hc : t.Combines p
      · refine .inr ⟨t.topAncestor p.base, ⟨p, hp, hc, rfl⟩, ?_⟩
        rw [hsingle hp hc]
        exact Sums.singleton t p
      · exact .inl ⟨hp, hc, fun heq => hn (heq ▸ hp)⟩

end WellFormed

@[simp] theorem join_empty (t : Table) : t.join ∅ = ∅ := by
  simp [join, family]

/-! ### The order of parts -/

/-- The parts `S` add nothing to the parts `T`. -/
def Within (t : Table) (S T : Set Part) : Prop :=
  t.join (S ∪ T) = t.join T

theorem within_of_subset (t : Table) {S T : Set Part} (hST : S ⊆ T) : t.Within S T := by
  rw [Within, Set.union_eq_right.mpr hST]

theorem join_eq_of_within {S T : Set Part} (hST : t.Within S T) (hTS : t.Within T S) :
    t.join S = t.join T := by
  rw [← hTS, Set.union_comm, hST]

namespace WellFormed

variable {S T U : Set Part}

theorem within_join_left (h : WellFormed t) : t.Within (t.join S) T ↔ t.Within S T := by
  rw [Within, Within, h.join_join_union]

theorem within_join_right (h : WellFormed t) : t.Within S (t.join T) ↔ t.Within S T := by
  rw [Within, Within, h.join_union_join, h.join_join]

theorem within_trans (h : WellFormed t) (hST : t.Within S T) (hTU : t.Within T U) :
    t.Within S U := by
  calc t.join (S ∪ U) = t.join (S ∪ t.join U) := (h.join_union_join S U).symm
    _ = t.join (S ∪ t.join (T ∪ U)) := by rw [hTU]
    _ = t.join (t.join (S ∪ T) ∪ U) := by
        rw [h.join_union_join, h.join_join_union, Set.union_assoc]
    _ = t.join (T ∪ U) := by rw [hST, h.join_join_union]
    _ = t.join U := hTU

theorem within_union (h : WellFormed t) (hSU : t.Within S U) (hTU : t.Within T U) :
    t.Within (S ∪ T) U := by
  calc t.join (S ∪ T ∪ U) = t.join (S ∪ t.join (T ∪ U)) := by
        rw [h.join_union_join, Set.union_assoc]
    _ = t.join (S ∪ U) := by rw [hTU, h.join_union_join]
    _ = t.join U := hSU

end WellFormed

/-! ### Later tables -/

/-- Parts that are about types of the table. -/
def Known (t : Table) (S : Set Part) : Prop :=
  ∀ p ∈ S, p.base < t.size

namespace Extends

variable (hx : Extends t t')

include hx

/-- A derived entry of a later table at the number of a known type was there before. -/
theorem old_derived {id : TypeId} (hid : id < t.size) {e : Entry} (he : t'.get? id = some e)
    (hd : e.IsDerived) : t.get? id = some e := by
  obtain ⟨x, hx'⟩ := exists_get?_of_lt (pos_of_get? he) hid
  obtain ⟨y, hy, hc⟩ := hx.core hx'
  obtain rfl := Option.some.inj (hy.symm.trans he)
  rw [hd.core_eq] at hc
  rw [hx', Entry.eq_of_core_eq hd hc.symm]

theorem part_eq {id : TypeId} (hid : id < t.size) : t'.part id = t.part id := by
  cases hp : t.part id with
  | one c =>
    obtain rfl := part_eq_one hp
    refine part_of_not_hierarchy fun base he => ?_
    rw [part_of_hierarchy (hx.old_derived hid he trivial)] at hp
    simp at hp
  | whole base =>
    rw [part_eq_whole_iff] at hp ⊢
    exact hx.get_derived hp trivial

theorem members_eq {id : TypeId} (hid : id < t.size) : t'.members id = t.members id := by
  by_cases hu : ∃ ms, t.get? id = some (.union ms)
  · obtain ⟨ms, hms⟩ := hu
    rw [members_of_union hms, members_of_union (hx.get_derived hms trivial)]
  · rcases Nat.eq_zero_or_pos id with rfl | hpos
    · rfl
    · rw [members_of_not_union hpos.ne' (not_exists.mp hu),
        members_of_not_union hpos.ne' fun ms he => hu ⟨ms, hx.old_derived hid he trivial⟩]

theorem parts_eq (h : WellFormed t) {id : TypeId} (hid : id < t.size) :
    t'.parts id = t.parts id := by
  ext p
  rw [parts, parts, hx.members_eq hid]
  refine exists_congr fun m => and_congr_right fun hm => ?_
  rw [hx.part_eq (h.members_lt_size hid hm).2]

theorem partsOf_eq (h : WellFormed t) {ids : List TypeId} (hids : ∀ id ∈ ids, id < t.size) :
    t'.partsOf ids = t.partsOf ids := by
  ext p
  refine exists_congr fun id => and_congr_right fun hid => ?_
  rw [hx.parts_eq h (hids id hid)]

variable (h : WellFormed t) (h' : WellFormed t')

include h h'

theorem combines_iff {p : Part} (hp : p.base < t.size) : t'.Combines p ↔ t.Combines p := by
  have htop := hx.topAncestor_eq h.tiered h'.tiered hp
  cases p with
  | whole base => exact not_congr (Eq.congr_left htop)
  | one id =>
    refine and_congr (not_congr (Eq.congr_left htop)) ?_
    constructor
    · rintro ⟨o', ho', hm, ht, hg⟩
      obtain ⟨e, he⟩ := exists_get?_of_lt (pos_of_get? ho') hp
      obtain ⟨e', he', hc⟩ := hx.core he
      obtain rfl := Option.some.inj (he'.symm.trans ho')
      obtain ⟨o, rfl, -, -, hmod, hpar, hgen, -⟩ := Entry.object_of_core_eq hc.symm
      exact ⟨o, he, hmod.trans hm, by rw [← ht, ObjectEntry.isTemplate, hpar, hgen]; rfl,
        hgen.trans hg⟩
    · rintro ⟨o, ho, hm, ht, hg⟩
      obtain ⟨o', ho', -, -, hmod, hpar, hgen, -⟩ := hx.object ho
      exact ⟨o', ho', hmod.trans hm, by rw [← ht, ObjectEntry.isTemplate, hpar, hgen]; rfl,
        hgen.trans hg⟩

theorem family_eq {S : Set Part} (hS : Known t S) (top : TypeId) :
    t'.family S top = t.family S top := by
  ext p
  refine and_congr_right fun hp => ?_
  rw [hx.combines_iff h h' (hS p hp), hx.topAncestor_eq h.tiered h'.tiered (hS p hp)]

theorem sums_iff {F : Set Part} (hF : Known t F) (hne : F.Nonempty) {p : Part} :
    t'.Sums F p ↔ t.Sums F p := by
  have hknown : ∀ c, (∃ q ∈ F, q.base = c) → c < t.size := by
    rintro c ⟨q, hq, rfl⟩
    exact hF q hq
  have hex : ∃ c, ∃ q ∈ F, q.base = c := by
    obtain ⟨q, hq⟩ := hne
    exact ⟨q.base, q, hq, rfl⟩
  refine ⟨fun hp => ⟨?_, hp.single⟩, fun hp => ⟨hx.nearest h.tiered h'.tiered hknown hex hp.nearest, hp.single⟩⟩
  obtain ⟨c, hc⟩ := hex
  have hbase : p.base < t.size :=
    h.tiered.below_lt_size (hknown c hc)
      ((hx.below_iff h.tiered h'.tiered (hknown c hc)).mp (hp.nearest.above c hc))
  refine ⟨fun c hc => (hx.below_iff h.tiered h'.tiered (hknown c hc)).mp (hp.nearest.above c hc), fun b hb => ?_⟩
  refine (hx.below_iff h.tiered h'.tiered hbase).mp (hp.nearest.least b fun c hc => ?_)
  exact (hx.below_iff h.tiered h'.tiered (hknown c hc)).mpr (hb c hc)

/-- **The join of known parts stays what it is.** -/
theorem join_eq {S : Set Part} (hS : Known t S) : t'.join S = t.join S := by
  ext p
  refine or_congr (and_congr_right fun hp => ?_) (exists_congr fun top => ?_)
  · rw [hx.combines_iff h h' (hS p hp)]
  · rw [hx.family_eq h h' hS]
    refine and_congr_right fun hne => hx.sums_iff h h' ?_ hne
    exact fun q hq => hS q hq.1

end Extends

namespace WellFormed

theorem part_base_lt (h : WellFormed t) {m : TypeId} (hm : m < t.size) :
    (t.part m).base < t.size := by
  cases hp : t.part m with
  | one c => exact part_eq_one hp ▸ hm
  | whole base =>
    have hb : base < m := h.links_lt (part_eq_whole_iff.mp hp) base (by simp [Entry.links])
    exact Nat.lt_trans hb hm

theorem known_parts (h : WellFormed t) {id : TypeId} (hid : id < t.size) : Known t (t.parts id) := by
  rintro p ⟨m, hm, rfl⟩
  exact h.part_base_lt (h.members_lt_size hid hm).2

/-- The join of known parts is about known types. -/
theorem known_join (h : WellFormed t) {S : Set Part} (hS : Known t S) : Known t (t.join S) := by
  rintro p (⟨hp, -, -⟩ | ⟨top, ⟨q, hq⟩, hsum⟩)
  · exact hS p hp
  · exact h.tiered.below_lt_size (hS q hq.1) (hsum.nearest.above q.base ⟨q, hq, rfl⟩)

theorem known_partsOf (h : WellFormed t) {ids : List TypeId} (hids : ∀ id ∈ ids, id < t.size) :
    Known t (t.partsOf ids) := by
  rintro p ⟨id, hid, hp⟩
  exact h.known_parts (hids id hid) p hp

end WellFormed

end Table

end TypeFlow
