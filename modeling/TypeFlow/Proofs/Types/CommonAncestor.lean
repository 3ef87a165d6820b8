import TypeFlow.Proofs.Types.Arising
import TypeFlow.Proofs.Types.Inferred

/-!
# Nearest common ancestors

Where every class but the root was declared below a class, the classes form one tree: superclasses are older than
their classes whatever else was done to the table (`Grounded.tiered`), so climbing from any class stays among the
classes until it ends at the root, `Builtin.object`.

The search for a common ancestor counts how deep two classes are, brings the deeper one up, and then climbs from
both in step. It takes the superclass of whatever it stands on without looking, so its runs are given as a relation
in which that is possible only on a class: a run that would leave the class tree is stuck, and one that would not
end is none. The search has exactly one run (`finds_iff`), and what it finds is `Nearest`, from which the order
properties follow.

The two classes share the ancestor directly below the root, or both are the root.
-/

namespace TypeFlow.Table

variable {t t' : Table} {a b c d m : TypeId}

/-! ### The class tree -/

/-- Every class but the root stands below a class. -/
def ClassesBelow (t : Table) : Prop :=
  ∀ id, t.IsClass id → id ≠ Builtin.object → t.IsClass (t.superclass id)

/-! ### Subclasses -/

theorem IsClass.ne_zero (h : t.IsClass a) : a ≠ 0 := by
  obtain ⟨o, ho, -⟩ := h
  exact Nat.ne_of_gt (pos_of_get? ho)

theorem IsClass.lt_size (h : t.IsClass a) : a < t.size := by
  obtain ⟨o, ho, -⟩ := h
  exact lt_size_of_get? ho

theorem classesBelow_iff :
    ClassesBelow t ↔ ∀ id < t.size, t.IsClass id → id ≠ Builtin.object → t.IsClass (t.superclass id) :=
  ⟨fun h id _ => h id, fun h id hid => h id hid.lt_size hid⟩

instance : Decidable (ClassesBelow t) :=
  decidable_of_iff _ classesBelow_iff.symm

namespace Tiered

theorem superclass_object (h : Tiered t) : t.superclass Builtin.object = 0 := by
  by_contra hne
  exact hne (Nat.lt_one_iff.mp (h.superclass_lt hne))

/-- A class that is not the root is below its superclass. -/
theorem below_superclass (h : Tiered t) (hs : t.superclass a ≠ 0) : Below t a (t.superclass a) := by
  refine ⟨1, ?_, rfl⟩
  rw [h.depth_eq a, if_neg hs]
  exact Nat.le_add_left 1 _

/-- What a class is below besides itself, its superclass is below. -/
theorem below_cases (h : Tiered t) (hab : Below t a b) :
    a = b ∨ t.superclass a ≠ 0 ∧ Below t (t.superclass a) b := by
  obtain ⟨n, hn, rfl⟩ := hab
  cases n with
  | zero => exact .inl rfl
  | succ n =>
    have hd : t.depth a ≠ 0 := Nat.ne_of_gt (Nat.zero_lt_of_lt hn)
    refine .inr ⟨fun hs => hd (h.depth_eq_zero_iff.mpr hs), n, ?_, rfl⟩
    rw [h.depth_superclass hd]
    exact Nat.le_sub_one_of_lt hn

theorem descendsUpTo_iff (h : Tiered t) {fuel : Nat} (hfuel : a < fuel) :
    t.descendsUpTo b fuel a = true ↔ a ≠ 0 ∧ Below t a b := by
  induction fuel generalizing a with
  | zero => exact absurd hfuel (Nat.not_lt_zero a)
  | succ fuel ih =>
    rw [descendsUpTo]
    split
    · simp_all
    · rename_i hne
      split
      · rename_i hab
        simpa [hne] using hab ▸ Below.refl t a
      · rename_i hab
        by_cases hs : t.superclass a = 0
        · have hnot : ¬ Below t a b := fun hbelow =>
            (h.below_cases hbelow).elim hab fun hx => hx.1 hs
          have hzero : t.descendsUpTo b fuel 0 = false := by cases fuel <;> simp [descendsUpTo]
          simp [hs, hzero, hnot]
        · rw [ih (Nat.lt_of_lt_of_le (h.superclass_lt hs) (Nat.le_of_lt_succ hfuel))]
          refine ⟨fun hx => ⟨hne, h.below_trans (h.below_superclass hs) hx.2⟩, fun hx => ⟨hs, ?_⟩⟩
          exact (h.below_cases hx.2).elim (fun heq => absurd heq hab) fun hx => hx.2

/-- The subclasses of a class are the classes below it. -/
theorem isSubclassOf_iff (h : Tiered t) (ha : t.IsClass a) : t.isSubclassOf a b = true ↔ Below t a b := by
  rw [isSubclassOf, h.descendsUpTo_iff (Nat.lt_succ_of_lt ha.lt_size)]
  exact and_iff_right ha.ne_zero

/-- The superclasses of a class are classes. -/
theorem isClass_of_below (h : Tiered t) (hcls : ClassesBelow t) (ha : t.IsClass a) (hab : Below t a b) :
    t.IsClass b := by
  obtain ⟨n, hn, rfl⟩ := hab
  induction n generalizing a with
  | zero => exact ha
  | succ n ih =>
    have hd : t.depth a ≠ 0 := Nat.ne_of_gt (Nat.zero_lt_of_lt hn)
    have hroot : a ≠ Builtin.object := by
      rintro rfl
      exact hd (h.depth_eq_zero_iff.mpr h.superclass_object)
    exact ih (hcls a ha hroot) (h.depth_superclass hd ▸ Nat.le_sub_one_of_lt hn)

/-- The root is the only class that has no ancestor below a root. -/
theorem topAncestor_eq_zero (h : Tiered t) (hcls : ClassesBelow t) (ha : t.IsClass a) :
    t.topAncestor a = 0 ↔ a = Builtin.object := by
  rw [h.topAncestor_eq_zero_iff, h.depth_eq_zero_iff]
  refine ⟨fun hs => ?_, fun heq => heq ▸ h.superclass_object⟩
  by_contra hne
  exact (hcls a ha hne).ne_zero hs

end Tiered

/-! ### Runs -/

/-- Counting the superclasses above a class. -/
inductive Counts (t : Table) : TypeId → Nat → Prop
  | root {a : TypeId} : t.IsClass a → t.superclass a = 0 → Counts t a 0
  | step {a : TypeId} {n : Nat} : t.IsClass a → t.superclass a ≠ 0 → Counts t (t.superclass a) n →
    Counts t a (n + 1)

/-- Climbing a number of superclasses. -/
inductive Climbs (t : Table) : Nat → TypeId → TypeId → Prop
  | zero (a : TypeId) : Climbs t 0 a a
  | succ {n : Nat} {a b : TypeId} : t.IsClass a → Climbs t n (t.superclass a) b → Climbs t (n + 1) a b

/-- Climbing from two classes in step until they meet. -/
inductive MeetsAt (t : Table) : TypeId → TypeId → TypeId → Prop
  | met (a : TypeId) : MeetsAt t a a a
  | step {a b c : TypeId} : a ≠ b → t.IsClass a → t.IsClass b →
    MeetsAt t (t.superclass a) (t.superclass b) c → MeetsAt t a b c

/-- A run of the search for a common ancestor, from two classes to what is found. The second class is brought up
after the first, whose depth is counted again. -/
inductive Finds (t : Table) (a b c : TypeId) : Prop
  | run {da db dx : Nat} {x y : TypeId} : Counts t a da → Counts t b db → Climbs t (da - db) a x →
    Counts t x dx → Climbs t (db - dx) b y → MeetsAt t x y c → Finds t a b c

theorem Counts.unique {n k : Nat} (hn : Counts t a n) (hk : Counts t a k) : n = k := by
  induction hn generalizing k with
  | root _ hs =>
    cases hk with
    | root => rfl
    | step _ hne _ => exact absurd hs hne
  | step _ hne _ ih =>
    cases hk with
    | root _ hs => exact absurd hs hne
    | step _ _ hk => exact congrArg (· + 1) (ih hk)

theorem Climbs.unique {n : Nat} (hb : Climbs t n a b) (hc : Climbs t n a c) : b = c := by
  induction hb with
  | zero => cases hc; rfl
  | succ _ _ ih =>
    cases hc with
    | succ _ hc => exact ih hc

theorem MeetsAt.unique (hc : MeetsAt t a b c) (hd : MeetsAt t a b d) : c = d := by
  induction hc with
  | met =>
    cases hd with
    | met => rfl
    | step hne => exact absurd rfl hne
  | step hne _ _ _ ih =>
    cases hd with
    | met => exact absurd rfl hne
    | step _ _ _ hd => exact ih hd

/-- The search has at most one run. -/
theorem Finds.unique (hc : Finds t a b c) (hd : Finds t a b d) : c = d := by
  obtain ⟨ha, hb, hx, hdx, hy, hm⟩ := hc
  obtain ⟨ha', hb', hx', hdx', hy', hm'⟩ := hd
  obtain rfl := ha.unique ha'
  obtain rfl := hb.unique hb'
  obtain rfl := hx.unique hx'
  obtain rfl := hdx.unique hdx'
  obtain rfl := hy.unique hy'
  exact hm.unique hm'

namespace Tiered

theorem counts (h : Tiered t) (hcls : ClassesBelow t) (ha : t.IsClass a) : Counts t a (t.depth a) := by
  induction a using Nat.strongRecOn with
  | ind a ih =>
    rw [h.depth_eq a]
    split
    · rename_i hs
      exact .root ha hs
    · rename_i hs
      exact .step ha hs (ih _ (h.superclass_lt hs) (h.isClass_of_below hcls ha (h.below_superclass hs)))

theorem climbs (h : Tiered t) (hcls : ClassesBelow t) (ha : t.IsClass a) {n : Nat} (hn : n ≤ t.depth a) :
    Climbs t n a (t.climb n a) := by
  induction n generalizing a with
  | zero => exact .zero a
  | succ n ih =>
    have hd : t.depth a ≠ 0 := Nat.ne_of_gt (Nat.zero_lt_of_lt hn)
    have hs : t.superclass a ≠ 0 := fun hs => hd (h.depth_eq_zero_iff.mpr hs)
    refine .succ ha (ih (h.isClass_of_below hcls ha (h.below_superclass hs)) ?_)
    exact h.depth_superclass hd ▸ Nat.le_sub_one_of_lt hn

/-- Classes of one depth meet at the root at the latest. -/
theorem meets (h : Tiered t) (hcls : ClassesBelow t) (ha : t.IsClass a) (hb : t.IsClass b)
    (hd : t.depth a = t.depth b) {fuel : Nat} (hfuel : t.depth a ≤ fuel) : MeetsAt t a b (t.meet fuel a b) := by
  have hroot : ∀ {x}, t.IsClass x → t.depth x = 0 → x = Builtin.object := fun hx h0 =>
    (h.topAncestor_eq_zero hcls hx).mp (h.topAncestor_eq_zero_iff.mpr h0)
  induction fuel generalizing a b with
  | zero =>
    have hzero : t.depth a = 0 := Nat.le_zero.mp hfuel
    obtain rfl := hroot ha hzero
    obtain rfl := hroot hb (hd ▸ hzero)
    exact .met _
  | succ fuel ih =>
    rw [meet]
    split
    · rename_i hab
      exact hab ▸ .met a
    · rename_i hab
      have hda : t.depth a ≠ 0 := fun h0 => hab ((hroot ha h0).trans (hroot hb (hd ▸ h0)).symm)
      have hdb : t.depth b ≠ 0 := hd ▸ hda
      have hup : ∀ {x}, t.IsClass x → t.depth x ≠ 0 → t.IsClass (t.superclass x) := fun hx hne =>
        h.isClass_of_below hcls hx (h.below_superclass fun hs => hne (h.depth_eq_zero_iff.mpr hs))
      refine .step hab ha hb (ih (hup ha hda) (hup hb hdb) ?_ ?_)
      · rw [h.depth_superclass hda, h.depth_superclass hdb, hd]
      · rw [h.depth_superclass hda]
        exact Nat.sub_le_of_le_add hfuel

/-- **The search has exactly one run**, which stays among the classes. -/
theorem finds_iff (h : Tiered t) (hcls : ClassesBelow t) (ha : t.IsClass a) (hb : t.IsClass b) :
    Finds t a b m ↔ m = t.commonAncestor a b := by
  have hrun : Finds t a b (t.commonAncestor a b) := by
    have hax : Below t a (t.climb (t.depth a - t.depth b) a) := ⟨_, Nat.sub_le _ _, rfl⟩
    have hby : Below t b (t.climb (t.depth b - t.depth (t.climb (t.depth a - t.depth b) a)) b) :=
      ⟨_, Nat.sub_le _ _, rfl⟩
    have hx := h.isClass_of_below hcls ha hax
    refine .run (h.counts hcls ha) (h.counts hcls hb) (h.climbs hcls ha (Nat.sub_le _ _))
      (h.counts hcls hx) (h.climbs hcls hb (Nat.sub_le _ _)) ?_
    refine h.meets hcls hx (h.isClass_of_below hcls hb hby) ?_ ?_
    · rw [h.depth_climb (Nat.sub_le _ _), h.depth_climb (Nat.sub_le _ _)]
      omega
    · exact (h.depth_le _).trans (Nat.le_of_lt hx.lt_size)
  exact ⟨fun hm => hm.unique hrun, fun heq => heq ▸ hrun⟩

end Tiered

/-! ### Nearest common ancestors -/

/-- The nearest class above what is nearest above two sets of classes is the nearest above both sets. -/
theorem Nearest.join (h : Tiered t) {C D : TypeId → Prop} (ha : Nearest t C a) (hb : Nearest t D b)
    (hm : Nearest t (fun x => x = a ∨ x = b) m) : Nearest t (fun x => C x ∨ D x) m where
  above x hx := hx.elim (fun hx => h.below_trans (ha.above x hx) (hm.above a (.inl rfl)))
    fun hx => h.below_trans (hb.above x hx) (hm.above b (.inr rfl))
  least d hd := by
    refine hm.least d ?_
    rintro x (rfl | rfl)
    · exact ha.least d fun x hx => hd x (.inl hx)
    · exact hb.least d fun x hx => hd x (.inr hx)

/-- The class `m` is the deepest one that is `a` or above it, and `b` or above it. -/
structure DeepestAbove (t : Table) (a b m : TypeId) : Prop where
  isClass : t.IsClass m
  left : t.isSubclassOf a m = true
  right : t.isSubclassOf b m = true
  deepest : ∀ d, t.isSubclassOf a d = true → t.isSubclassOf b d = true → d ≠ m → t.depth d < t.depth m

namespace Tiered

variable (h : Tiered t) (hcls : ClassesBelow t) (ha : t.IsClass a) (hb : t.IsClass b)
  (hab : t.topAncestor a = t.topAncestor b)

include h hcls ha hb hab

/-- The common ancestor of any two classes with one ancestor below the root, also of the root and itself. -/
theorem nearest_of_topAncestor_eq : Nearest t (fun x => x = a ∨ x = b) (t.commonAncestor a b) := by
  by_cases htop : t.topAncestor a = 0
  · obtain rfl := (h.topAncestor_eq_zero hcls ha).mp htop
    obtain rfl := (h.topAncestor_eq_zero hcls hb).mp (hab ▸ htop)
    have hself : t.commonAncestor Builtin.object Builtin.object = Builtin.object := by
      simp only [commonAncestor, Nat.sub_self, climb]
      cases t.size <;> simp [meet]
    simpa [hself] using Nearest.singleton t Builtin.object
  · exact h.nearest_commonAncestor htop hab

theorem deepestAbove_commonAncestor : DeepestAbove t a b (t.commonAncestor a b) := by
  have hn := h.nearest_of_topAncestor_eq hcls ha hb hab
  have ham := hn.above a (.inl rfl)
  refine ⟨h.isClass_of_below hcls ha ham, (h.isSubclassOf_iff ha).mpr ham,
    (h.isSubclassOf_iff hb).mpr (hn.above b (.inr rfl)), fun d hda hdb hne => ?_⟩
  have hbelow : Below t (t.commonAncestor a b) d := by
    refine hn.least d ?_
    rintro x (rfl | rfl)
    · exact (h.isSubclassOf_iff ha).mp hda
    · exact (h.isSubclassOf_iff hb).mp hdb
  have hle := (h.below_iff.mp hbelow).1
  refine Nat.lt_of_le_of_ne hle fun heq => hne ?_
  exact h.below_antisymm (h.below_of_depth_le hbelow (Below.refl t _) (Nat.le_of_eq heq.symm)) hbelow

/-- The common ancestor is no higher than the ancestor directly below the root, and so has the same one. -/
theorem topAncestor_commonAncestor :
    (t.topAncestor a ≠ 0 → t.isSubclassOf (t.commonAncestor a b) (t.topAncestor a) = true) ∧
      t.topAncestor (t.commonAncestor a b) = t.topAncestor a := by
  have hn := h.nearest_of_topAncestor_eq hcls ha hb hab
  have hm : t.IsClass (t.commonAncestor a b) := h.isClass_of_below hcls ha (hn.above a (.inl rfl))
  by_cases htop : t.topAncestor a = 0
  · refine ⟨fun hne => absurd htop hne, ?_⟩
    -- the root has nothing above it
    obtain rfl := (h.topAncestor_eq_zero hcls ha).mp htop
    rcases h.below_cases (hn.above _ (.inl rfl)) with heq | ⟨hne, -⟩
    · rw [← heq]
    · exact absurd h.superclass_object hne
  · have htb : t.topAncestor b ≠ 0 := hab ▸ htop
    have hbelow : Below t (t.commonAncestor a b) (t.topAncestor a) := by
      refine hn.least _ ?_
      rintro x (rfl | rfl)
      · exact (h.below_topAncestor htop).1
      · exact hab ▸ (h.below_topAncestor htb).1
    refine ⟨fun _ => (h.isSubclassOf_iff hm).mpr hbelow, ?_⟩
    have hself : t.topAncestor (t.topAncestor a) = t.topAncestor a := by
      have hd := (h.below_topAncestor htop).2
      rw [h.topAncestor_eq (t.topAncestor a), hd]
      rfl
    exact (h.topAncestor_eq_of_below hbelow (hself.symm ▸ htop)).trans hself

end Tiered

/-- **`commonAncestor` is the nearest common ancestor.** On every table that arises, as long as the classes were
declared below classes, and for classes that share the ancestor directly below the root: the search
ends without leaving the classes and finds the deepest class above both, at or below the shared ancestor; the order
of the classes does not matter, nor does the order in which three of them are joined. -/
theorem Arises.commonAncestor_nearest (h : Arises t) (hcls : ClassesBelow t)
    (ha : t.IsClass a) (hb : t.IsClass b) (hc : t.IsClass c)
    (hab : t.topAncestor a = t.topAncestor b) (hbc : t.topAncestor b = t.topAncestor c) :
    (∀ m, Finds t a b m ↔ m = t.commonAncestor a b) ∧
    DeepestAbove t a b (t.commonAncestor a b) ∧
    (t.topAncestor a ≠ 0 → t.isSubclassOf (t.commonAncestor a b) (t.topAncestor a) = true) ∧
    t.commonAncestor a b = t.commonAncestor b a ∧
    t.commonAncestor (t.commonAncestor a b) c = t.commonAncestor a (t.commonAncestor b c) := by
  have ht := h.grounded.tiered
  have hn := ht.nearest_of_topAncestor_eq hcls ha hb hab
  have hn' := ht.nearest_of_topAncestor_eq hcls hb hc hbc
  refine ⟨fun m => ht.finds_iff hcls ha hb, ht.deepestAbove_commonAncestor hcls ha hb hab,
    (ht.topAncestor_commonAncestor hcls ha hb hab).1, ?_, ?_⟩
  · refine ht.nearest_unique hn ?_
    simpa only [or_comm] using ht.nearest_of_topAncestor_eq hcls hb ha hab.symm
  · have hm : t.IsClass (t.commonAncestor a b) := ht.isClass_of_below hcls ha (hn.above a (.inl rfl))
    have hm' : t.IsClass (t.commonAncestor b c) := ht.isClass_of_below hcls hb (hn'.above b (.inl rfl))
    have htop := (ht.topAncestor_commonAncestor hcls ha hb hab).2
    have htop' := (ht.topAncestor_commonAncestor hcls hb hc hbc).2
    have hleft := hn.join ht (Nearest.singleton t c)
      (ht.nearest_of_topAncestor_eq hcls hm hc (htop.trans (hab.trans hbc)))
    have hright := (Nearest.singleton t a).join ht hn'
      (ht.nearest_of_topAncestor_eq hcls ha hm' (hab.trans htop'.symm))
    -- both are nearest above all three
    refine ht.nearest_unique hleft ?_
    simpa only [or_assoc] using hright

/-- Boxes of animals, which are animals themselves, below which another box and a class were declared. -/
def kennels : Table :=
  Operation.runAll [
    .defineClass "Animal" Builtin.object [],
    .defineClass "Dog" 14 [],
    .defineClass "Box" 14 ["T"],
    .instantiate 16 [15],
    .defineClass "Kennel" 17 [],
    .defineClass "Cage" 16 ["T"],
    .instantiate 19 [15]] initial

/-- A class below a generic instance, an instance of a template below a template, and the template above. -/
theorem commonAncestor_kennels :
    kennels.commonAncestor 18 20 = 14 ∧ kennels.commonAncestor 20 16 = 16 ∧
    DeepestAbove kennels 18 20 14 ∧ kennels.commonAncestor (kennels.commonAncestor 18 20) 16 =
      kennels.commonAncestor 18 (kennels.commonAncestor 20 16) := by
  have hr : Reaches initial kennels :=
    .step (.instantiate 19 [15]) (.step (.defineClass "Cage" 16 ["T"])
      (.step (.defineClass "Kennel" 17 []) (.step (.instantiate 16 [15])
        (.step (.defineClass "Box" 14 ["T"]) (.step (.defineClass "Dog" 14 [])
          (.step (.defineClass "Animal" Builtin.object []) .refl
            (by decide +kernel)) (by decide +kernel)) (by decide +kernel)) (by decide +kernel))
        (by decide +kernel)) (by decide +kernel)) (by decide +kernel)
  obtain ⟨-, hdeep, -, -, hassoc⟩ := Arises.commonAncestor_nearest (a := 18) (b := 20) (c := 16) hr.arises
    (by decide +kernel) (by decide +kernel) (by decide +kernel) (by decide +kernel) (by decide +kernel)
    (by decide +kernel)
  have hfound : kennels.commonAncestor 18 20 = 14 := by decide +kernel
  exact ⟨hfound, by decide +kernel, hfound ▸ hdeep, hassoc⟩

end TypeFlow.Table
