import TypeFlow.Proofs.Types.Inheritance

/-!
# Acceptance is a preorder

Every type fits itself, and what fits a type fits whatever that type fits (`Inferred.implements_preorder`),
although candidate and target are taken apart by rules of their own, one after the other. Of a chain
`a`, `b`, `c` the last type is opened first if it is a union, then the middle one, then the first; what is
left are chains of classes, modules and the like. There the middle type, or the class it is the hierarchy
of, is an ancestor of the first one, and the ancestors of an ancestor are ancestors
(`ancestors_trans`), also where modules include each other.

This needs that no union, hierarchy or metaclass is inherited from: a metaclass fits other metaclasses than
itself, and these are not among the ancestors of what inherits from it. A superclass is a class and an
included module is a module; of primitives, which are defined with any parent, it is demanded
(`PlainParents`).
-/

namespace TypeFlow.Table

variable {t : Table}

/-- A type that has neither members nor a class behind it: it fits whatever has to do with one of its
ancestors. -/
def IsPlain (t : Table) (id : TypeId) : Prop :=
  ∃ e, t.get? id = some e ∧ e.kind ≠ .union ∧ e.kind ≠ .hierarchy ∧ e.kind ≠ .metaclass

/-- What a primitive inherits from, if from anything, is a class or the like. -/
def PlainParents (t : Table) : Prop :=
  ∀ id p, t.get? id = some (.primitive p) → p.parent = 0 ∨ t.IsPlain p.parent

namespace IsPlain

variable {id : TypeId}

theorem of_object {o : ObjectEntry} (ho : t.get? id = some (.object o)) : t.IsPlain id :=
  ⟨_, ho, by simp [Entry.kind], by simp [Entry.kind], by simp [Entry.kind]⟩

theorem lt_size (h : t.IsPlain id) : id < t.size := by
  obtain ⟨e, he, -⟩ := h
  exact lt_size_of_get? he

end IsPlain

theorem isPlain_iff {id : TypeId} :
    t.IsPlain id ↔ (t.get? id).any fun e =>
      e.kind != .union && e.kind != .hierarchy && e.kind != .metaclass := by
  simp [IsPlain, Option.any_eq_true, and_assoc]

instance (id : TypeId) : Decidable (t.IsPlain id) :=
  decidable_of_iff _ isPlain_iff.symm

theorem plainParents_iff :
    t.PlainParents ↔ t.entries.all (fun
      | .primitive p => p.parent == 0 || decide (t.IsPlain p.parent)
      | _ => true) = true := by
  rw [Array.all_eq_true_iff_forall_mem]
  constructor
  · intro hp e he
    split
    · rename_i p
      obtain ⟨n, hn⟩ := Array.mem_iff_getElem?.mp he
      simpa using hp (n + 1) p hn
    · rfl
  · intro hall id p hprim
    obtain ⟨n, rfl⟩ : ∃ n, id = n + 1 :=
      Nat.exists_eq_succ_of_ne_zero (Nat.ne_of_gt (pos_of_get? hprim))
    simpa using hall _ (Array.mem_of_getElem? hprim)

instance : Decidable t.PlainParents :=
  decidable_of_iff _ plainParents_iff.symm

/-- Every type fits itself. -/
theorem implements_refl (id : TypeId) : t.implements id id = true := by
  rw [«implements», implementsUpTo, if_pos rfl]

namespace WellFormed

/-! ### One rule at a time -/

/-- What differs from a union fits it exactly if it fits one of its members, be it a union or not. -/
theorem implements_union_target (h : WellFormed t) (hl : Linked t) {id target : TypeId}
    {ms : List TypeId} (hid : id < t.size) (hne : id ≠ 0) (hdiff : id ≠ target)
    (hms : t.get? target = some (.union ms)) :
    t.implements id target = true ↔ ∃ m ∈ ms, t.implements id m = true := by
  have htarget : target ≠ 0 := Nat.ne_of_gt (pos_of_get? hms)
  rw [h.implements_eq hl hid (lt_size_of_get? hms), if_neg hdiff, if_neg (by simp [hne, htarget])]
  simp [hms]

/-- A union fits another type that is no union exactly if all its members do. -/
theorem union_implements_target (h : WellFormed t) (hl : Linked t) {id target : TypeId}
    {ms : List TypeId} (hms : t.get? id = some (.union ms)) (htarget : target < t.size)
    (hne : target ≠ 0) (hdiff : id ≠ target) (hflat : ∀ ns, t.get? target ≠ some (.union ns)) :
    t.implements id target = true ↔ ∀ m ∈ ms, t.implements m target = true := by
  have hid : id ≠ 0 := Nat.ne_of_gt (pos_of_get? hms)
  rw [h.implements_eq hl (lt_size_of_get? hms) htarget, if_neg hdiff, if_neg (by simp [hid, hne])]
  split
  · rename_i hns
    exact absurd hns (hflat _)
  all_goals simp_all

/-- A hierarchy fits another type that is no union exactly if its class does. -/
theorem hierarchy_implements_target (h : WellFormed t) (hl : Linked t) {id target base : TypeId}
    (hbase : t.get? id = some (.hierarchy base)) (htarget : target < t.size) (hne : target ≠ 0)
    (hdiff : id ≠ target) (hflat : ∀ ns, t.get? target ≠ some (.union ns)) :
    t.implements id target = true ↔ t.implements base target = true := by
  have hid : id ≠ 0 := Nat.ne_of_gt (pos_of_get? hbase)
  rw [h.implements_eq hl (lt_size_of_get? hbase) htarget, if_neg hdiff, if_neg (by simp [hid, hne])]
  split
  · rename_i hns
    exact absurd hns (hflat _)
  all_goals simp_all

/-- A metaclass fits another type that is no union exactly if that is a metaclass, and its class fits the
class of that one. -/
theorem metaclass_implements_target (h : WellFormed t) (hl : Linked t) {id target a : TypeId}
    (ha : t.get? id = some (.metaclass a)) (htarget : target < t.size) (hne : target ≠ 0)
    (hdiff : id ≠ target) (hflat : ∀ ns, t.get? target ≠ some (.union ns)) :
    t.implements id target = true ↔
      ∃ b, t.get? target = some (.metaclass b) ∧ t.implements a b = true := by
  have hid : id ≠ 0 := Nat.ne_of_gt (pos_of_get? ha)
  rw [h.implements_eq hl (lt_size_of_get? ha) htarget, if_neg hdiff, if_neg (by simp [hid, hne])]
  split
  · rename_i hns
    exact absurd hns (hflat _)
  all_goals simp_all

/-- A plain type fits a target that is no union exactly if the target is among its ancestors, or the
class that the target is the hierarchy of. -/
theorem plain_implements_target (h : WellFormed t) (hl : Linked t) {id target : TypeId}
    (hplain : t.IsPlain id) (htarget : target < t.size) (hne : target ≠ 0)
    (hflat : ∀ ns, t.get? target ≠ some (.union ns)) :
    t.implements id target = true ↔ t.goal target ∈ t.ancestors id := by
  have hid := hplain.lt_size
  obtain ⟨e, he, hunion, hhier, hmeta⟩ := hplain
  have hid0 : id ≠ 0 := Nat.ne_of_gt (pos_of_get? he)
  rw [h.implements_eq hl hid htarget]
  split
  · rename_i hsame
    subst hsame
    have hgoal : t.goal id = id := by
      unfold goal
      split
      · rename_i base hbase
        obtain rfl := Option.some.inj (he.symm.trans hbase)
        exact absurd rfl hhier
      · rfl
    rw [hgoal]
    exact iff_of_true rfl (self_mem_ancestors hid0)
  · rw [if_neg (by simp [hid0, hne]), ← h.fits_iff hid, he]
    split
    · rename_i ms hns
      exact absurd ‹t.get? target = some (.union ms)› (hflat _)
    all_goals simp_all [Entry.kind]

/-! ### What is inherited from -/

/-- The classes and modules of the built-in types stay plain. -/
theorem isPlain_builtin (h : WellFormed t) {id : TypeId} (hid : (initial.object? id).isSome) :
    t.IsPlain id := by
  obtain ⟨o, ho⟩ := Option.isSome_iff_exists.mp hid
  obtain ⟨e, he, hcore⟩ := h.builtins.core (object?_eq_some_iff.mp ho)
  obtain ⟨o', rfl, -⟩ := Entry.object_of_core_eq hcore
  exact .of_object he

/-- No union, hierarchy or metaclass is inherited from. -/
theorem isPlain_of_inherits (h : WellFormed t) (hl : Linked t) (hp : t.PlainParents)
    {a b : TypeId} (hab : t.Inherits a b) : t.IsPlain b := by
  obtain ⟨hmem, hne⟩ := hab
  rcases List.mem_append.mp hmem with hinc | hparent
  · cases ho : t.object? a with
    | none => simp [ho] at hinc
    | some o =>
      rw [ho] at hinc
      obtain ⟨m, hm, -⟩ := hl.included (object?_eq_some_iff.mp ho) b hinc
      exact .of_object hm
  · obtain rfl := List.mem_singleton.mp hparent
    unfold parent at hne ⊢
    split at hne
    · rename_i p hprim
      exact (hp a p hprim).resolve_left hne
    · rename_i o ho
      by_cases hg : o.generic = 0
      · simp only [hg, bne_self_eq_false, Bool.false_eq_true, if_false] at hne ⊢
        obtain ⟨s, hs, -⟩ := h.superclass ho hne
        exact .of_object hs
      · obtain ⟨g, hi⟩ := h.template ho hg
        simp only [bne_iff_ne, ne_eq, hg, not_false_eq_true, if_true]
        exact .of_object hi.template
    · exact h.isPlain_builtin (by decide)
    · exact h.isPlain_builtin (by decide)
    · exact absurd rfl hne

/-- The ancestors of a plain type are plain. -/
theorem isPlain_of_mem_ancestors (h : WellFormed t) (hl : Linked t) (hp : t.PlainParents)
    {a b : TypeId} (ha : t.IsPlain a) (hab : b ∈ t.ancestors a) : t.IsPlain b := by
  obtain ⟨-, hreach⟩ := mem_ancestors_iff.mp hab
  rcases hreach.cases_tail with rfl | ⟨x, -, hxb⟩
  · exact ha
  · exact h.isPlain_of_inherits hl hp hxb

/-! ### Chains -/

/-- A plain type fits whatever a type that it fits does. -/
theorem plain_implements_trans (h : WellFormed t) (hl : Linked t) (hp : t.PlainParents)
    {a b c : TypeId} (ha : t.IsPlain a) (hb : b < t.size) (hc : c < t.size) (hb0 : b ≠ 0)
    (hc0 : c ≠ 0) (hbc : b ≠ c) (hbflat : ∀ ns, t.get? b ≠ some (.union ns))
    (hcflat : ∀ ns, t.get? c ≠ some (.union ns)) (hfirst : t.implements a b = true)
    (hsecond : t.implements b c = true) : t.implements a c = true := by
  have hmem := (h.plain_implements_target hl ha hb hb0 hbflat).mp hfirst
  -- the class that the middle type is the hierarchy of does as well as the hierarchy
  have hgoal : t.implements (t.goal b) c = true := by
    unfold goal
    split
    · rename_i base hbase
      exact (h.hierarchy_implements_target hl hbase hc hc0 hbc hcflat).mp hsecond
    · exact hsecond
  have hplain := h.isPlain_of_mem_ancestors hl hp ha hmem
  have hup := (h.plain_implements_target hl hplain hc hc0 hcflat).mp hgoal
  exact (h.plain_implements_target hl ha hc hc0 hcflat).mpr (ancestors_trans hmem hup)

/-- No type fits only itself. -/
theorem implements_zero_left (h : WellFormed t) (hl : Linked t) {target : TypeId}
    (htarget : target < t.size) (hfit : t.implements 0 target = true) : target = 0 := by
  rw [h.implements_eq hl t.size_pos htarget] at hfit
  by_contra hne
  simp [Ne.symm hne] at hfit

/-- Nothing else fits no type. -/
theorem implements_zero_right (h : WellFormed t) (hl : Linked t) {id : TypeId} (hid : id < t.size)
    (hfit : t.implements id 0 = true) : id = 0 := by
  rw [h.implements_eq hl hid t.size_pos] at hfit
  by_contra hne
  simp [hne] at hfit

/-- **Acceptance is transitive.** -/
theorem implements_trans (h : WellFormed t) (hl : Linked t) (hp : t.PlainParents) {a b c : TypeId}
    (ha : a < t.size) (hb : b < t.size) (hc : c < t.size) (hfirst : t.implements a b = true)
    (hsecond : t.implements b c = true) : t.implements a c = true := by
  -- every rule replaces a type by one with a smaller number
  obtain ⟨n, hn⟩ : ∃ n, n = a + b + c := ⟨_, rfl⟩
  induction n using Nat.strongRecOn generalizing a b c with
  | ind n ih =>
    subst hn
    by_cases hab : a = b
    · exact hab ▸ hsecond
    by_cases hbc : b = c
    · exact hbc ▸ hfirst
    by_cases hac : a = c
    · exact hac ▸ implements_refl a
    have ha0 : a ≠ 0 := by
      rintro rfl
      exact hab (h.implements_zero_left hl hb hfirst).symm
    have hc0 : c ≠ 0 := by
      rintro rfl
      exact hbc (h.implements_zero_right hl hb hsecond)
    have hb0 : b ≠ 0 := by
      rintro rfl
      exact hab (h.implements_zero_right hl ha hfirst)
    by_cases hcunion : ∃ ms, t.get? c = some (.union ms)
    · obtain ⟨ms, hms⟩ := hcunion
      obtain ⟨m, hm, hfit⟩ := (h.implements_union_target hl hb hb0 hbc hms).mp hsecond
      have hlt : m < c := h.links_lt hms m hm
      refine (h.implements_union_target hl ha ha0 hac hms).mpr ⟨m, hm, ?_⟩
      exact ih _ (Nat.add_lt_add_left hlt _) ha hb (Nat.lt_trans hlt hc) hfirst hfit rfl
    have hcflat := not_exists.mp hcunion
    by_cases hbunion : ∃ ms, t.get? b = some (.union ms)
    · obtain ⟨ms, hms⟩ := hbunion
      obtain ⟨m, hm, hfit⟩ := (h.implements_union_target hl ha ha0 hab hms).mp hfirst
      have hlt : m < b := h.links_lt hms m hm
      have hmc := (h.union_implements_target hl hms hc hc0 hbc hcflat).mp hsecond m hm
      exact ih _ (by lia) ha (Nat.lt_trans hlt hb) hc hfit hmc rfl
    have hbflat := not_exists.mp hbunion
    obtain ⟨e, he⟩ := exists_get?_of_lt (Nat.pos_of_ne_zero ha0) ha
    by_cases hplain : t.IsPlain a
    · exact h.plain_implements_trans hl hp hplain hb hc hb0 hc0 hbc hbflat hcflat hfirst hsecond
    cases e with
    | union ms =>
      refine (h.union_implements_target hl he hc hc0 hac hcflat).mpr fun m hm => ?_
      have hlt : m < a := h.links_lt he m hm
      have hmb := (h.union_implements_target hl he hb hb0 hab hbflat).mp hfirst m hm
      exact ih _ (by lia) (Nat.lt_trans hlt ha) hb hc hmb hsecond rfl
    | hierarchy base =>
      have hlt : base < a := h.links_lt he base (by simp [Entry.links])
      have hbase := (h.hierarchy_implements_target hl he hb hb0 hab hbflat).mp hfirst
      refine (h.hierarchy_implements_target hl he hc hc0 hac hcflat).mpr ?_
      exact ih _ (by lia) (Nat.lt_trans hlt ha) hb hc hbase hsecond rfl
    | metaclass a' =>
      obtain ⟨b', hb', hfit⟩ := (h.metaclass_implements_target hl he hb hb0 hab hbflat).mp hfirst
      obtain ⟨c', hc', hfit'⟩ := (h.metaclass_implements_target hl hb' hc hc0 hbc hcflat).mp hsecond
      have hlta : a' < a := h.links_lt he a' (by simp [Entry.links])
      have hltb : b' < b := h.links_lt hb' b' (by simp [Entry.links])
      have hltc : c' < c := h.links_lt hc' c' (by simp [Entry.links])
      refine (h.metaclass_implements_target hl he hc hc0 hac hcflat).mpr ⟨c', hc', ?_⟩
      exact ih _ (by lia) (Nat.lt_trans hlta ha) (Nat.lt_trans hltb hb) (Nat.lt_trans hltc hc) hfit
        hfit' rfl
    | _ => exact absurd ⟨_, he, by simp [Entry.kind], by simp [Entry.kind], by simp [Entry.kind]⟩ hplain

end WellFormed

/-- **Acceptance is a preorder** on the types of a table: a type fits itself, and what fits a type fits
whatever that type fits. -/
theorem Inferred.implements_preorder (h : Inferred t) (hp : t.PlainParents) :
    (∀ a, t.implements a a = true) ∧
    ∀ a b c, a < t.size → b < t.size → c < t.size → t.implements a b = true →
      t.implements b c = true → t.implements a c = true := by
  obtain ⟨hwf, hl, -⟩ := h.invariants
  exact ⟨implements_refl, fun a b c ha hb hc => hwf.implements_trans hl hp ha hb hc⟩

/-- The modules 14 and 15, which include each other, the class 16 with 14, its subclass 17 and two
classes below that, whose hierarchy is 20. The types 21 to 24 are metaclasses: of the hierarchy, of
a module, and of a union of a module and nil. -/
def coils : Table :=
  Operation.runAll [
    .defineModule "M", .defineModule "N", .include 14 15, .include 15 14,
    .defineClass "A" Builtin.object [], .include 16 14, .defineClass "B" 16 [],
    .defineClass "C" 17 [], .defineClass "D" 17 [], .merge [18, 19],
    .metaclassOf 20, .metaclassOf 14, .unionOf [15, Builtin.nil], .metaclassOf 23] initial

theorem implements_preorder_coils :
    Inferred coils ∧ coils.PlainParents ∧ coils.get? 20 = some (.hierarchy 17) ∧
    coils.implements 21 21 = true ∧ coils.implements 21 22 = true ∧
    coils.implements 22 24 = true ∧ coils.implements 21 24 = true := by
  have hinf : Inferred coils := Inferred.initial.runAll (by decide +kernel)
  have hplain : coils.PlainParents := by decide +kernel
  obtain ⟨hrefl, htrans⟩ := hinf.implements_preorder hplain
  have hsize : coils.size = 25 := by decide +kernel
  have hfirst : coils.implements 21 22 = true := by decide +kernel
  have hsecond : coils.implements 22 24 = true := by decide +kernel
  exact ⟨hinf, hplain, by decide +kernel, hrefl 21, hfirst, hsecond,
    htrans 21 22 24 (by lia) (by lia) (by lia) hfirst hsecond⟩

end TypeFlow.Table
