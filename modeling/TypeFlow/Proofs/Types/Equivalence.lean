import Mathlib.Data.UInt
import TypeFlow.Types.Fingerprint
import TypeFlow.Proofs.Types.Inferred
import TypeFlow.Proofs.Types.Regular
import TypeFlow.Proofs.Types.Simulation

/-!
# How far structural equality is an equivalence

Structural equality is reflexive and transitive on every table. It matches the members of a union in one
direction only: every member of the first union has an equal in the second, and there are equally many. If
two members have the same equal, another member of the second union has none, and then the unions are equal
one way round and not the other, and their hashes differ (`equal_laws_crowd`). Unions are made of unequal
members, but instance variables may be set afterwards.

A type is `Separated` if no type equals two of its members. Where this holds, members are matched one to one
(`exists_matching`), so equality respects fingerprints and hashes (`Similar.fingerprint_eq`), and if it
holds of all that a type is compared through, equality with that type is symmetric (`Similar.symm`). It
does not suffice that no two members are equal to one another: with cyclic types, two members that are
unequal both ways may still have the same equal.
-/

namespace TypeFlow

/-! ### One-to-one matching -/

/-- If each of `xs` has a partner among `ys`, no two have the same, and there are not more of `ys`, then
`ys` can be arranged to stand opposite their partners. -/
theorem exists_matching {α β : Type} [DecidableEq β] {R : α → β → Prop} {xs : List α} {ys : List β}
    (hnodup : xs.Nodup) (hpartner : ∀ x ∈ xs, ∃ y ∈ ys, R x y)
    (hone : ∀ x ∈ xs, ∀ x' ∈ xs, ∀ y ∈ ys, R x y → R x' y → x = x')
    (hlen : ys.length ≤ xs.length) : ∃ zs, zs.Perm ys ∧ List.Forall₂ R xs zs := by
  induction xs generalizing ys with
  | nil =>
    obtain rfl : ys = [] := List.eq_nil_of_length_eq_zero (Nat.le_zero.mp hlen)
    exact ⟨[], .refl _, .nil⟩
  | cons x xs ih =>
    obtain ⟨hx, hnodup⟩ := List.nodup_cons.mp hnodup
    obtain ⟨⟨y, hy, hxy⟩, hpartner⟩ := List.forall_mem_cons.mp hpartner
    have hperm : ys.Perm (y :: ys.erase y) := List.perm_cons_erase hy
    -- the partner of another is not `y`, so it is still there without `y`
    have hothers : ∀ x' ∈ xs, ∃ y' ∈ ys.erase y, R x' y' := by
      intro x' hx'
      obtain ⟨y', hy', hxy'⟩ := hpartner x' hx'
      have hne : y' ≠ y := by
        rintro rfl
        exact hx (hone x List.mem_cons_self x' (List.mem_cons_of_mem _ hx') y' hy' hxy hxy' ▸ hx')
      exact ⟨y', (List.mem_erase_of_ne hne).mpr hy', hxy'⟩
    obtain ⟨zs, hzs, hall⟩ := ih hnodup hothers
      (fun a ha b hb c hc => hone a (List.mem_cons_of_mem _ ha) b (List.mem_cons_of_mem _ hb) c
        (List.mem_of_mem_erase hc))
      (by rw [List.length_erase_of_mem hy]; simp only [List.length_cons] at hlen; omega)
    exact ⟨y :: zs, (hzs.cons y).trans hperm.symm, .cons hxy hall⟩

theorem exists_of_mem_right {α β : Type} {R : α → β → Prop} {xs : List α} {ys : List β}
    (h : List.Forall₂ R xs ys) {y : β} (hy : y ∈ ys) : ∃ x ∈ xs, R x y := by
  induction h with
  | nil => simp at hy
  | cons hxy _ ih =>
    rcases List.mem_cons.mp hy with rfl | hy
    · exact ⟨_, List.mem_cons_self, hxy⟩
    · obtain ⟨x, hx, hxy⟩ := ih hy
      exact ⟨x, List.mem_cons_of_mem _ hx, hxy⟩

/-- What stands opposite different items is different, if nothing stands opposite two. -/
theorem nodup_of_forall₂ {α β : Type} {R : α → β → Prop} {xs : List α} {ys : List β} (h : List.Forall₂ R xs ys)
    (hnodup : xs.Nodup) (hone : ∀ x ∈ xs, ∀ x' ∈ xs, ∀ y, R x y → R x' y → x = x') : ys.Nodup := by
  induction h with
  | nil => exact List.nodup_nil
  | @cons x y xs ys hxy h ih =>
    obtain ⟨hx, hnodup⟩ := List.nodup_cons.mp hnodup
    refine List.nodup_cons.mpr ⟨fun hy => hx ?_, ih hnodup fun a ha b hb => ?_⟩
    · obtain ⟨x', hx', hxy'⟩ := exists_of_mem_right h hy
      exact hone x List.mem_cons_self x' (List.mem_cons_of_mem _ hx') y hxy hxy' ▸ hx'
    · exact hone a (List.mem_cons_of_mem _ ha) b (List.mem_cons_of_mem _ hb)

/-! ### Sorting forgets the order -/

section Sorting

variable {α : Type} {le : α → α → Bool}

/-- Lists with the same items are sorted alike, if the order tells all items apart. -/
theorem mergeSort_eq_of_perm (htrans : ∀ a b c, le a b → le b c → le a c)
    (htotal : ∀ a b, le a b || le b a) {xs ys : List α} (hperm : xs.Perm ys)
    (hanti : ∀ a ∈ xs, ∀ b ∈ xs, le a b → le b a → a = b) : xs.mergeSort le = ys.mergeSort le := by
  have hx := List.mergeSort_perm xs le
  have hsorted := hx.trans (hperm.trans (List.mergeSort_perm ys le).symm)
  refine hsorted.eq_of_pairwise (fun a b ha hb hab hba => ?_) (List.pairwise_mergeSort htrans htotal xs)
    (List.pairwise_mergeSort htrans htotal ys)
  exact hanti a (hx.mem_iff.mp ha) b (hx.mem_iff.mp (hsorted.mem_iff.mpr hb)) hab hba

theorem bytesLe_total (as bs : List UInt8) : bytesLe as bs || bytesLe bs as := by
  induction as generalizing bs with
  | nil => simp [bytesLe]
  | cons a as ih =>
    cases bs with
    | nil => simp [bytesLe]
    | cons b bs =>
      have hrest := ih bs
      rcases Nat.lt_trichotomy a.toNat b.toNat with hlt | heq | hlt
      · simp [bytesLe, UInt8.lt_iff_toNat_lt.mpr hlt]
      · obtain rfl := UInt8.toNat_inj.mp heq
        simpa [bytesLe] using hrest
      · simp [bytesLe, UInt8.lt_iff_toNat_lt.mpr hlt]

theorem bytesLe_antisymm {as bs : List UInt8} (h : bytesLe as bs) (h' : bytesLe bs as) : as = bs := by
  induction as generalizing bs with
  | nil => cases bs with
    | nil => rfl
    | cons b bs => simp [bytesLe] at h'
  | cons a as ih =>
    cases bs with
    | nil => simp [bytesLe] at h
    | cons b bs =>
      simp only [bytesLe, Bool.or_eq_true, decide_eq_true_eq, Bool.and_eq_true, beq_iff_eq] at h h'
      rcases h with h | ⟨rfl, h⟩
      · rcases h' with h' | ⟨rfl, -⟩
        · exact absurd h' (UInt8.lt_asymm h)
        · exact absurd h (UInt8.lt_irrefl b)
      · rcases h' with h' | ⟨-, h'⟩
        · exact absurd h' (UInt8.lt_irrefl a)
        · rw [ih h h']

theorem bytesLe_trans {as bs cs : List UInt8} (h : bytesLe as bs) (h' : bytesLe bs cs) :
    bytesLe as cs := by
  induction as generalizing bs cs with
  | nil => simp [bytesLe]
  | cons a as ih =>
    cases bs with
    | nil => simp [bytesLe] at h
    | cons b bs =>
      cases cs with
      | nil => simp [bytesLe] at h'
      | cons c cs =>
        simp only [bytesLe, Bool.or_eq_true, decide_eq_true_eq, Bool.and_eq_true, beq_iff_eq]
          at h h' ⊢
        rcases h with h | ⟨rfl, h⟩
        · rcases h' with h' | ⟨rfl, -⟩
          · exact .inl (UInt8.lt_trans h h')
          · exact .inl h
        · rcases h' with h' | ⟨rfl, h'⟩
          · exact .inl h'
          · exact .inr ⟨rfl, ih h h'⟩

end Sorting

namespace Table

variable {t : Table} {a b c : TypeId}

/-! ### What a type is compared through -/

/-- From a type to one that is looked at if the first is compared. -/
def Looks (t : Table) (a b : TypeId) : Prop :=
  ∃ e, t.get? a = some e ∧ b ∈ e.compared

/-- No type equals two members of the type. -/
def Separated (t : Table) (id : TypeId) : Prop :=
  ∀ m ∈ t.members id, ∀ n ∈ t.members id, ∀ c < t.size,
    t.equal m c = true → t.equal n c = true → m = n

instance (t : Table) (id : TypeId) : Decidable (t.Separated id) :=
  inferInstanceAs (Decidable (∀ m ∈ t.members id, ∀ n ∈ t.members id, ∀ c < t.size,
    t.equal m c = true → t.equal n c = true → m = n))

/-- Only types that exist are similar to another one. -/
theorem Similar.exists_get? (h : t.Similar a b) (hne : a ≠ b) :
    ∃ x y, t.get? a = some x ∧ t.get? b = some y ∧ x.Matches t.Similar y :=
  (t.simulation_similar a b h).resolve_left hne

theorem Separated.eq_of_similar {id m n : TypeId} {ms : List TypeId} (hs : t.Separated id)
    (hms : t.get? id = some (.union ms)) (hm : m ∈ ms) (hn : n ∈ ms) (hmc : t.Similar m c)
    (hnc : t.Similar n c) : m = n := by
  by_cases hne : m = c
  · by_cases hne' : n = c
    · exact hne.trans hne'.symm
    · obtain ⟨-, y, -, hy, -⟩ := hnc.exists_get? hne'
      exact hs m (members_of_union hms ▸ hm) n (members_of_union hms ▸ hn) c (lt_size_of_get? hy)
        (equal_iff_similar.mpr hmc) (equal_iff_similar.mpr hnc)
  · obtain ⟨-, y, -, hy, -⟩ := hmc.exists_get? hne
    exact hs m (members_of_union hms ▸ hm) n (members_of_union hms ▸ hn) c (lt_size_of_get? hy)
      (equal_iff_similar.mpr hmc) (equal_iff_similar.mpr hnc)

/-- A type that is not a union is separated. -/
theorem separated_of_not_union {id : TypeId} (h : ∀ ms, t.get? id ≠ some (.union ms)) :
    t.Separated id := by
  have hle : ∀ m ∈ t.members id, m = id := by
    intro m hm
    rw [members] at hm
    split at hm
    · rename_i ms hms
      exact absurd hms (h ms)
    · split at hm
      · simp at hm
      · exact List.mem_singleton.mp hm
  exact fun m hm n hn c _ _ _ => (hle m hm).trans (hle n hn).symm

/-- The members of a separated union stand opposite those of an equal one. -/
theorem Separated.matching (h : Tidy t) {xs ys : List TypeId} (hs : t.Separated a)
    (hxs : t.get? a = some (.union xs)) (hm : (Entry.union xs).Matches t.Similar (.union ys)) :
    ∃ zs, zs.Perm ys ∧ List.Forall₂ t.Similar xs zs := by
  have hnodup : xs.Nodup := (h.union hxs).increasing.imp fun hlt => Nat.ne_of_lt hlt
  refine exists_matching hnodup hm.2 (fun m hm n hn c _ hmc hnc => ?_) (le_of_eq hm.1.symm)
  exact hs.eq_of_similar hxs hm hn hmc hnc

/-! ### Symmetry -/

/-- Instance variables that are matched by name are matched both ways, if names are distinct. -/
theorem ivars_flip {R : TypeId → TypeId → Prop} {x y : ObjectEntry} (hm : x.Matches R y)
    (hx : (x.ivars.map Prod.fst).Nodup) (hy : (y.ivars.map Prod.fst).Nodup) :
    ∀ v ∈ y.ivars, ∃ u, x.ivar? v.1 = some u ∧ (v.1, u) ∈ x.ivars ∧ R u v.2 := by
  -- as many names on both sides, and those of `x` among those of `y`
  have hsub : x.ivars.map Prod.fst ⊆ y.ivars.map Prod.fst := by
    intro n hn
    obtain ⟨v, hv, rfl⟩ := List.mem_map.mp hn
    obtain ⟨u, hu, -⟩ := hm.ivars v hv
    exact List.mem_map.mpr ⟨_, ObjectEntry.mem_of_ivar? hu, rfl⟩
  have hperm : (x.ivars.map Prod.fst).Perm (y.ivars.map Prod.fst) :=
    (List.subperm_of_subset hx hsub).perm_of_length_le (by simp [hm.count])
  intro v hv
  obtain ⟨w, hw, hwv⟩ := List.mem_map.mp (hperm.mem_iff.mpr (List.mem_map.mpr ⟨v, hv, rfl⟩))
  obtain ⟨u, hu, hwu⟩ := hm.ivars w hw
  have huv : u = v.2 := by
    have hmem := ObjectEntry.mem_of_ivar? hu
    rw [hwv] at hmem
    exact congrArg Prod.snd (List.inj_on_of_nodup_map hy hmem hv rfl)
  have hfound := ObjectEntry.ivar?_of_mem hx hw
  exact ⟨w.2, hwv ▸ hfound, hwv ▸ hw, huv ▸ hwu⟩

/-- Entries that match up to similarity match the other way round, if the first is separated. -/
theorem matches_flip (h : Tidy t) {x y : Entry} (ha : t.get? a = some x) (hb : t.get? b = some y)
    (hs : t.Separated a) (hm : x.Matches t.Similar y) :
    y.Matches (fun d c => t.Similar c d ∧ c ∈ x.compared) x := by
  cases x <;> cases y <;> try exact hm.elim
  case object.object x y =>
    refine ⟨hm.name.symm, hm.isModule.symm, hm.count.symm, ?_, ?_, fun v hv => ?_⟩
    · exact hm.generic.imp Eq.symm fun hg => ⟨hg, List.mem_cons_self⟩
    · refine List.forall₂_iff_zip.mpr ⟨hm.typeArgs.length_eq.symm, fun {d c} hdc => ?_⟩
      refine ⟨(List.forall₂_iff_zip.mp hm.typeArgs.flip).2 hdc, ?_⟩
      exact List.mem_cons_of_mem _ (List.mem_append_left _ (List.of_mem_zip hdc).2)
    · obtain ⟨u, hu, hmem, huv⟩ := ivars_flip hm (h.ivars ha) (h.ivars hb) v hv
      refine ⟨u, hu, huv, ?_⟩
      exact List.mem_cons_of_mem _ (List.mem_append_right _ (List.mem_map.mpr ⟨_, hmem, rfl⟩))
  case union.union xs ys =>
    obtain ⟨zs, hzs, hall⟩ := hs.matching h ha hm
    refine ⟨hm.1.symm, fun n hn => ?_⟩
    obtain ⟨m, hmem, hmn⟩ := exists_of_mem_right hall (hzs.mem_iff.mpr hn)
    exact ⟨m, hmem, hmn, hmem⟩
  all_goals exact ⟨hm, List.mem_cons_self⟩

/-- **Similarity is symmetric** where all that the first type is compared through is separated. -/
theorem Similar.symm (h : Tidy t)
    (hs : ∀ c, Relation.ReflTransGen t.Looks a c → t.Separated c) (hab : t.Similar a b) :
    t.Similar b a := by
  refine ⟨fun d c => t.Similar c d ∧ Relation.ReflTransGen t.Looks a c, ?_, hab, .refl⟩
  rintro d c ⟨hcd, hac⟩
  rcases t.simulation_similar c d hcd with rfl | ⟨x, y, hx, hy, hm⟩
  · exact .inl rfl
  · refine .inr ⟨y, x, hy, hx, (matches_flip h hx hy (hs c hac) hm).mono ?_⟩
    rintro d' c' ⟨hcd', hmem⟩
    exact ⟨hcd', hac.tail ⟨x, hx, hmem⟩⟩

/-! ### Hashes -/

/-- The hash of a type, if `digest` is the hash of byte sequences. Those of the members of a union are
added up, so that their order does not count. -/
def hash (digest : List UInt8 → UInt64) (t : Table) (id : TypeId) : UInt64 :=
  match t.get? id with
  | some (.union ms) =>
    digest ((t.fingerprint id).bytes ++
      littleEndian 8 (ms.map fun m => digest (t.glance m)).sum.toNat)
  | _ => digest (t.fingerprint id).bytes

/-- Similar types show the same at a glance. -/
theorem Similar.glance_eq (h : t.Similar a b) : t.glance a = t.glance b := by
  rcases t.simulation_similar a b h with rfl | ⟨x, y, hx, hy, hm⟩
  · rfl
  · simp only [glance, hx, hy, hm.kind_eq]
    cases x <;> cases y <;> try exact hm.elim
    case object.object x y => simp only [hm.name]
    case union.union xs ys => simp only [hm.1]
    all_goals rfl

/-- Instance variables that are matched by name show the same, in whatever order they were declared. -/
theorem sorted_ivars_eq {x y : ObjectEntry} (hm : x.Matches t.Similar y)
    (hx : (x.ivars.map Prod.fst).Nodup) :
    (x.ivars.mergeSort fun v w => textLe v.1 w.1).map (fun v => (v.1, t.glance v.2)) =
      (y.ivars.mergeSort fun v w => textLe v.1 w.1).map fun v => (v.1, t.glance v.2) := by
  let shown : String × TypeId → String × List UInt8 := fun v => (v.1, t.glance v.2)
  have hnames : ∀ l : List (String × TypeId), (l.map shown).map Prod.fst = l.map Prod.fst :=
    fun l => by rw [List.map_map]; rfl
  have hnodup : ((x.ivars.map shown).map Prod.fst).Nodup := (hnames _).symm ▸ hx
  have hsub : x.ivars.map shown ⊆ y.ivars.map shown := by
    intro p hp
    obtain ⟨v, hv, rfl⟩ := List.mem_map.mp hp
    obtain ⟨u, hu, hvu⟩ := hm.ivars v hv
    exact List.mem_map.mpr ⟨_, ObjectEntry.mem_of_ivar? hu, by simp only [shown, hvu.glance_eq]⟩
  have hperm : (x.ivars.map shown).Perm (y.ivars.map shown) :=
    (List.subperm_of_subset (hnodup.of_map _) hsub).perm_of_length_le (by simp [hm.count])
  have hsort : ∀ l : List (String × TypeId), (l.mergeSort fun v w => textLe v.1 w.1).map shown =
      (l.map shown).mergeSort fun v w => textLe v.1 w.1 :=
    fun l => List.map_mergeSort fun v _ w _ => rfl
  rw [hsort, hsort]
  refine mergeSort_eq_of_perm ?_ ?_ hperm fun p hp q hq hpq hqp => ?_
  · intro p q r hpq hqr
    simp only [textLe, decide_eq_true_eq] at hpq hqr ⊢
    exact String.le_trans hpq hqr
  · intro p q
    simpa [textLe] using String.le_total p.1 q.1
  · simp only [textLe, decide_eq_true_eq] at hpq hqp
    exact List.inj_on_of_nodup_map hnodup hp hq (String.le_antisymm hpq hqp)

/-- The members of a separated union show the same as those of an equal one. -/
theorem Separated.glances_perm (h : Tidy t) {xs ys : List TypeId} (hs : t.Separated a)
    (hxs : t.get? a = some (.union xs)) (hm : (Entry.union xs).Matches t.Similar (.union ys)) :
    (xs.map t.glance).Perm (ys.map t.glance) := by
  obtain ⟨zs, hzs, hall⟩ := hs.matching h hxs hm
  have heq : xs.map t.glance = zs.map t.glance := by
    clear hzs hm hxs
    induction hall with
    | nil => rfl
    | cons hxz _ ih => rw [List.map_cons, List.map_cons, hxz.glance_eq, ih]
  rw [heq]
  exact hzs.map t.glance

/-- Similar types have the same fingerprint, if members of unions show the same. -/
theorem Similar.fingerprint_eq_of_perm (h : Tidy t) (hab : t.Similar a b)
    (hperm : ∀ xs ys, t.get? a = some (.union xs) → t.get? b = some (.union ys) →
      (Entry.union xs).Matches t.Similar (.union ys) → (xs.map t.glance).Perm (ys.map t.glance)) :
    t.fingerprint a = t.fingerprint b := by
  rcases t.simulation_similar a b hab with rfl | ⟨x, y, hx, hy, hm⟩
  · rfl
  · have hglance := hab.glance_eq
    cases x <;> cases y <;> try exact hm.elim
    case object.object x y =>
      have hivars := congrArg (List.flatMap fun p : String × List UInt8 => Text.bytes p.1 ++ p.2)
        (sorted_ivars_eq hm (h.ivars hx))
      have hargs : x.typeArgs.map t.glance = y.typeArgs.map t.glance := by
        have hall := hm.typeArgs
        revert hall
        generalize x.typeArgs = as
        generalize y.typeArgs = bs
        intro hall
        induction hall with
        | nil => rfl
        | cons hcd _ ih => rw [List.map_cons, List.map_cons, hcd.glance_eq, ih]
      simp only [List.flatMap_map] at hivars
      simp only [fingerprint, hx, hy, hglance, List.flatMap, hargs, Fingerprint.mk.injEq, and_true]
      exact congrArg _ hivars
    case union.union xs ys =>
      have hsorted : (xs.map t.glance).mergeSort bytesLe = (ys.map t.glance).mergeSort bytesLe :=
        mergeSort_eq_of_perm (fun a b c (hab : bytesLe a b) => bytesLe_trans hab) bytesLe_total
          (hperm xs ys hx hy hm) fun _ _ _ _ => bytesLe_antisymm
      simp only [fingerprint, hx, hy, hglance, hsorted]
    case pointer.pointer p q => simp only [fingerprint, hx, hy, hglance, Similar.glance_eq hm]
    case metaclass.metaclass p q => simp only [fingerprint, hx, hy, hglance, Similar.glance_eq hm]
    case hierarchy.hierarchy p q => simp only [fingerprint, hx, hy, hglance, Similar.glance_eq hm]

/-- **Similar types have the same fingerprint**, if the first is separated. -/
theorem Similar.fingerprint_eq (h : Tidy t) (hs : t.Separated a) (hab : t.Similar a b) :
    t.fingerprint a = t.fingerprint b :=
  hab.fingerprint_eq_of_perm h fun _ _ hx _ hm => hs.glances_perm h hx hm

/-- **Similar types have the same hash**, if the first is separated. -/
theorem Similar.hash_eq (h : Tidy t) (hs : t.Separated a) (hab : t.Similar a b)
    (digest : List UInt8 → UInt64) : t.hash digest a = t.hash digest b := by
  have hprint := hab.fingerprint_eq h hs
  rcases t.simulation_similar a b hab with rfl | ⟨x, y, hx, hy, hm⟩
  · rfl
  · cases x <;> cases y <;> try exact hm.elim
    case union.union xs ys =>
      have hsum : (xs.map fun m => digest (t.glance m)).sum = (ys.map fun m => digest (t.glance m)).sum := by
        have hperm := (hs.glances_perm h hx hm).map digest
        simp only [List.map_map, Function.comp_def] at hperm
        rw [List.sum_eq_foldr, List.sum_eq_foldr]
        exact hperm.foldr_op_eq
      simp only [hash, hx, hy, hprint, hsum]
    all_goals simp only [hash, hx, hy, hprint]

/-! ### The laws -/

/-- **How far structural equality is an equivalence that hashes respect**, on every table that operations
lead to. It is reflexive and transitive. Equal types have the same fingerprint and the same hash, whatever
the hash of byte sequences is, unless the first is a union two members of which equal one type; and if that
holds of no type through which the first is compared, then they are equal the other way round. -/
theorem Reaches.equal_laws (h : Reaches initial t) :
    (∀ a, t.equal a a = true) ∧
    (∀ a b c, t.equal a b = true → t.equal b c = true → t.equal a c = true) ∧
    (∀ a, (∀ ms, t.get? a ≠ some (.union ms)) → t.Separated a) ∧
    (∀ a b, t.equal a b = true → t.Separated a →
      t.fingerprint a = t.fingerprint b ∧ ∀ digest, t.hash digest a = t.hash digest b) ∧
    (∀ a b, t.equal a b = true → (∀ c, Relation.ReflTransGen t.Looks a c → t.Separated c) →
      t.equal b a = true) := by
  have hr : Tidy t := (h.lasts kept_regular regular_initial).1.toTidy
  refine ⟨fun a => ?_, fun a b c hab hbc => ?_, fun a => separated_of_not_union, fun a b hab hs => ?_,
    fun a b hab hs => ?_⟩
  · exact equal_iff_similar.mpr (Similar.refl t a)
  · exact equal_iff_similar.mpr ((equal_iff_similar.mp hab).trans (equal_iff_similar.mp hbc))
  · have hsim := equal_iff_similar.mp hab
    exact ⟨hsim.fingerprint_eq hr hs, hsim.hash_eq hr hs⟩
  · exact equal_iff_similar.mpr ((equal_iff_similar.mp hab).symm hr hs)

/-- Whether every operation of a list is about types of the table when its turn comes. -/
def Operation.allKnown : List Operation → Table → Bool
  | [], _ => true
  | op :: ops, t => op.ids.all (· < t.size) && allKnown ops (op.run.run t).2

theorem Reaches.runAll {t' : Table} {ops : List Operation} (h : Reaches t t')
    (hknown : Operation.allKnown ops t' = true) : Reaches t (Operation.runAll ops t') := by
  induction ops generalizing t' with
  | nil => exact h
  | cons op ops ih =>
    obtain ⟨hids, hrest⟩ := Bool.and_eq_true_iff.mp hknown
    exact ih (.step op h (by simpa using hids)) hrest

theorem reaches_twins : Reaches initial twins :=
  .newObject _ _ (.newObject _ _ .refl (by decide)) (by decide)

/-- Two objects of one name, 14 and 15, each of which leads to nil or itself, 16 and 17. -/
def chains : Table :=
  Operation.runAll [
    .unionOf [Builtin.nil, 14],
    .setIVar 14 "@next" 16,
    .unionOf [Builtin.nil, 15],
    .setIVar 15 "@next" 17] twins

/-- Two cyclic types that were made apart are equal both ways and have the same hash. -/
theorem equal_laws_chains :
    chains.get? 16 = some (.union [Builtin.nil, 14]) ∧ chains.get? 17 = some (.union [Builtin.nil, 15]) ∧
    chains.equal 16 17 = true ∧ chains.equal 17 16 = true ∧
    ∀ digest, chains.hash digest 16 = chains.hash digest 17 := by
  have hr : Reaches initial chains := reaches_twins.runAll (by decide +kernel)
  have hsep : ∀ c, chains.Separated c := by
    intro c
    by_cases hc : c < chains.size
    · exact (by decide +kernel : ∀ c < chains.size, chains.Separated c) c hc
    · exact separated_of_not_union fun ms hms => hc (lt_size_of_get? hms)
  have hequal : chains.equal 16 17 = true := by decide +kernel
  obtain ⟨-, -, -, hhash, hsymm⟩ := Reaches.equal_laws hr
  exact ⟨by decide +kernel, by decide +kernel, hequal, hsymm 16 17 hequal fun c _ => hsep c,
    (hhash 16 17 hequal (hsep 16)).2⟩

/-- Two objects of one name, 14 and 15, that differ when they form a union, 16, and are equal afterwards;
and a character or the first of them, 17. -/
def crowd : Table :=
  Operation.runAll [
    .setIVar 15 "@part" Builtin.bool,
    .unionOf [14, 15],
    .setIVar 14 "@part" Builtin.bool,
    .unionOf [Builtin.char, 14]] twins

/-- Both members of the first union equal the one object of the second, and nothing in the first equals
the character. So the unions are equal one way round only, and their hashes differ. -/
theorem equal_laws_crowd :
    Reaches initial crowd ∧
    crowd.get? 16 = some (.union [14, 15]) ∧ crowd.get? 17 = some (.union [Builtin.char, 14]) ∧
    crowd.equal 16 17 = true ∧ crowd.equal 17 16 = false ∧
    ∃ digest, crowd.hash digest 16 ≠ crowd.hash digest 17 := by
  refine ⟨reaches_twins.runAll (by decide +kernel), by decide +kernel, by decide +kernel,
    by decide +kernel, by decide +kernel, ?_⟩
  exact ⟨fun bytes => bytes.foldl (fun h b => 31 * h + b.toUInt64) 0, by decide +kernel⟩

/-- Three unions of two objects each, 20 of 14 and 15, 21 of 16 and 17, and 22 of 18 and 19. The members of
the first two lead to the first and the second union, those of the third lead to the third. -/
def spirals : Table :=
  Operation.runAll [
    .setIVar 14 "@turn" Builtin.bool,
    .unionOf [14, 15],
    .setIVar 16 "@turn" Builtin.bool,
    .unionOf [16, 17],
    .unionOf [18, 19],
    .setIVar 14 "@turn" 20, .setIVar 15 "@turn" 21,
    .setIVar 16 "@turn" 20, .setIVar 17 "@turn" 21,
    .setIVar 18 "@turn" 22, .setIVar 19 "@turn" 22]
    (["Left", "Left", "Right", "Right", "Left", "Right"].foldl
      (fun t name => ((newObject name Builtin.object).run t).2) initial)

-- no two members of a union are equal, in whichever order, and still equality is not symmetric
example :
    (∀ id < spirals.size, ∀ m ∈ spirals.members id, ∀ n ∈ spirals.members id,
      spirals.equal m n = true → m = n) ∧
    spirals.equal 20 22 = true ∧ spirals.equal 22 20 = false := by
  decide +kernel

end Table

end TypeFlow
